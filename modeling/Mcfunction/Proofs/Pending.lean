import Mcfunction.Proofs.Agreement

/-! What is pending while a tree is printed. A slot for a whole command leaves a number of entries pending, and the
first command inside it takes them, however deep it stands. Main statements: a grammar prints every tree, except for
commands without a prototype and commands with a wrong number of arguments for what was pending; and a block is printed
line by line. -/

namespace Mcfunction

open List CommandTree Node String Spec Except

variable {n c m : Node} {shared k after : Option Nat} {arguments ns : List Node} {identifier text : String} {s : Spec}

namespace Node

def hasCommand (n : Node) : Bool := n.walk.any (·.kind = .command)

/-- What is pending after some nodes: the first command among them has taken it. -/
def pending (shared : Option Nat) (ns : List Node) : Option Nat := if ns.any hasCommand then none else shared

theorem form_of_kind (h : n.kind = .command) : ∃ identifier arguments, n.form = .command identifier arguments := by
  rcases n.isPart_or with hpart | ⟨lines, hform⟩ | hform
  · rw [h] at hpart
    cases hpart
  · rw [kind, hform] at h
    cases h
  · exact hform

theorem hasCommand_of_kind (h : n.kind = .command) : n.hasCommand = true := by
  rw [hasCommand, any_eq_true]
  exact ⟨n, mem_walk.2 (.self n), decide_eq_true h⟩

theorem hasCommand_eq_any (h : n.kind ≠ .command) : n.hasCommand = n.children.any hasCommand := by
  rw [Bool.eq_iff_iff, hasCommand, any_eq_true, any_eq_true]
  constructor
  · rintro ⟨m, hm, hkind⟩
    cases mem_walk.1 hm with
    | self => exact absurd (of_decide_eq_true hkind) h
    | child hc hm => exact ⟨_, hc, any_eq_true.2 ⟨m, mem_walk.2 hm, hkind⟩⟩
  · rintro ⟨c, hc, hcmd⟩
    obtain ⟨m, hm, hkind⟩ := any_eq_true.1 hcmd
    exact ⟨m, mem_walk.2 (.child hc (mem_walk.1 hm)), hkind⟩

@[simp] theorem pending_none (ns : List Node) : pending none ns = none := ite_self none

theorem pending_cons (shared : Option Nat) (n : Node) (ns : List Node) :
    pending shared (n :: ns) = pending (pending shared [n]) ns := by
  simp only [pending]
  by_cases h : n.hasCommand = true <;> simp [h]

theorem pending_of_kind (h : n.kind = .command) : pending shared [n] = none := by
  rw [pending, any_cons, hasCommand_of_kind h, Bool.true_or, if_pos rfl]

theorem pending_children (h : n.kind ≠ .command) : pending shared [n] = pending shared n.children := by
  rw [pending, pending, any_cons, any_nil, Bool.or_false, hasCommand_eq_any h]

end Node

open Node (pending)
namespace Spec

def left (s : Spec) (slot : Slot) : Option Nat := if slot.isSubcommand then some (s.sharedEntries slot) else none

/-- What is wrong with a command that is met while some entries are pending: it has no prototype, or not as many
arguments as its prototype without these entries. -/
inductive Refuses (s : Spec) (shared : Option Nat) (n : Node) : PrintProblem → Prop where
  | unknown {identifier : String} {arguments : List Node} (hform : n.form = .command identifier arguments)
      (hnone : s.prototype? identifier = none) : Refuses s shared n (.unknownCommand identifier)
  | count {identifier : String} {arguments : List Node} {whole : Prototype}
      (hform : n.form = .command identifier arguments) (hwhole : s.prototype? identifier = some whole)
      (hcount : (whole.relativeTo (shared.getD 0)).argumentCount ≠ arguments.length) :
      Refuses s shared n
        (.argumentCount identifier (whole.relativeTo (shared.getD 0)).argumentCount arguments.length)

/-- Printing a node while some entries are pending comes to a command, and other entries are pending then. A command
takes what is pending. Other nodes pass it on to their children, until the first command among them has taken it. In
the arguments of a command only that is pending which their slots leave. -/
inductive Meets (s : Spec) : Option Nat → Node → Option Nat → Node → Prop where
  | command {shared : Option Nat} {n : Node} (h : n.kind = .command) : Meets s shared n shared n
  | inside {shared k : Option Nat} {n m c : Node} {before after : List Node} (h : n.kind ≠ .command)
      (hchildren : n.children = before ++ m :: after) (hm : Meets s (pending shared before) m k c) :
      Meets s shared n k c
  | argument {shared k : Option Nat} {n m c : Node} {identifier : String} {arguments : List Node} {whole : Prototype}
      {slot : Slot} (hform : n.form = .command identifier arguments) (hwhole : s.prototype? identifier = some whole)
      (hcount : (whole.relativeTo (shared.getD 0)).argumentCount = arguments.length)
      (hslot : (slot, m) ∈ (whole.relativeTo (shared.getD 0)).slots.zip arguments)
      (hm : Meets s (s.left slot) m k c) : Meets s shared n k c

theorem refuses_or (s : Spec) (shared : Option Nat)
    (hform : n.form = .command identifier arguments) : (∃ problem, s.Refuses shared n problem) ∨
      ∃ whole, s.prototype? identifier = some whole ∧
        (whole.relativeTo (shared.getD 0)).argumentCount = arguments.length := by
  cases hwhole : s.prototype? identifier with
  | none => exact .inl ⟨_, .unknown hform hwhole⟩
  | some whole =>
    by_cases hcount : (whole.relativeTo (shared.getD 0)).argumentCount = arguments.length
    · exact .inr ⟨whole, rfl, hcount⟩
    · exact .inl ⟨_, .count hform hwhole hcount⟩

end Spec

namespace Printer

variable {p : Printer} {level : Nat} {fault : PrintFault} {slots : List Slot} {texts : List String}
  {problem : PrintProblem}

theorem print_of_ne_command (p : Printer) (level : Nat) (h : n.kind ≠ .command) :
    ∃ inner, ∃ write : List String → String, ∀ shared, p.print level shared n =
      (p.printAll inner shared n.children).map fun x => (write x.1, x.2) := by
  rcases n.isPart_or with hpart | ⟨lines, hform⟩ | ⟨identifier, arguments, hform⟩
  · exact ⟨level, _, fun shared => p.print_part_eq level shared hpart⟩
  · refine ⟨level + 1, p.blockText level, fun shared => ?_⟩
    rw [p.print_root_eq level shared hform, Node.children, hform]
    rfl
  · exact absurd (by rw [kind, hform]; rfl) h

theorem print_of_refuses (h : p.spec.Refuses shared n problem) :
    p.print level shared n = .error (.problem problem n.span) := by
  cases h with
  | unknown hform hnone =>
    rw [p.print_command_eq level shared hform, hnone]
    rfl
  | count hform hwhole hcount =>
    rw [p.print_command_eq level shared hform, hwhole]
    exact if_pos hcount

theorem print_of_count {whole : Prototype}
    (hform : n.form = .command identifier arguments) (hwhole : p.spec.prototype? identifier = some whole)
    (hcount : (whole.relativeTo (shared.getD 0)).argumentCount = arguments.length) : p.print level shared n =
      (p.printArguments level none (whole.relativeTo (shared.getD 0)).slots arguments).bind fun x =>
        ((layout true (whole.relativeTo (shared.getD 0)).signature
          (x.1.zip (arguments.map (·.kind = .root)))).mapError fun problem => PrintFault.problem problem n.span).map
            fun text => (text, x.2) := by
  rw [p.print_command_eq level shared hform, hwhole]
  exact if_neg (not_not_intro hcount)

/-! ### What is left pending -/

theorem after_of_printAll
    (hn : ∀ n ∈ ns, ∀ shared text after, p.print level shared n = .ok (text, after) → after = pending shared [n])
    (h : p.printAll level shared ns = .ok (texts, after)) : after = pending shared ns := by
  induction ns generalizing shared texts with
  | nil =>
    rw [printAll] at h
    cases h
    rfl
  | cons n ns ih =>
    obtain ⟨x, rest, hx, hrest, rfl⟩ := printAll_cons_ok h
    rw [pending_cons, ← hn n mem_cons_self shared x.1 x.2 hx]
    exact ih (fun m hm => hn m (mem_cons_of_mem n hm)) hrest

theorem printArguments_cons (hn : ∀ text after, p.print level none n = .ok (text, after) → after = none)
    (slot : Slot) (slots : List Slot) (ns : List Node) : p.printArguments level none (slot :: slots) (n :: ns) =
      (p.print level (p.spec.left slot) n).bind fun x =>
        (p.printArguments level none slots ns).map fun y => (x.1 :: y.1, y.2) := by
  rw [printArguments, left]
  cases hx : p.print level (if slot.isSubcommand then some (p.spec.sharedEntries slot) else none) n with
  | error fault => rfl
  | ok x =>
    have hnone : (if slot.isSubcommand then none else x.2) = none := by
      by_cases hslot : slot.isSubcommand = true
      · exact if_pos hslot
      · rw [if_neg hslot] at hx ⊢
        exact hn x.1 x.2 hx
    change (p.printArguments level (if slot.isSubcommand then none else x.2) slots ns >>= _) =
      (p.printArguments level none slots ns).map _
    rw [hnone]
    cases p.printArguments level none slots ns <;> rfl

theorem printArguments_nil_left (p : Printer) (level : Nat) (ns : List Node) :
    p.printArguments level none [] ns = .ok ([], none) := by
  simp [printArguments]

theorem printArguments_nil_right (p : Printer) (level : Nat) (slots : List Slot) :
    p.printArguments level none slots [] = .ok ([], none) := by
  simp [printArguments]

theorem printArguments_eq_ok (hn : ∀ n ∈ ns, ∀ text after, p.print level none n = .ok (text, after) → after = none)
    (h : p.printArguments level none slots ns = .ok (texts, after)) :
    after = none ∧ texts.length = (slots.zip ns).length := by
  induction slots generalizing ns texts with
  | nil =>
    rw [printArguments_nil_left] at h
    cases h
    exact ⟨rfl, rfl⟩
  | cons slot slots ih =>
    cases ns with
    | nil =>
      rw [printArguments_nil_right] at h
      cases h
      exact ⟨rfl, rfl⟩
    | cons n ns =>
      rw [printArguments_cons (hn n mem_cons_self)] at h
      obtain ⟨x, -, h⟩ := bind_eq_ok h
      obtain ⟨y, hy, heq⟩ := map_ok h
      cases heq
      obtain ⟨hafter, hlen⟩ := ih (fun m hm => hn m (mem_cons_of_mem n hm)) hy
      exact ⟨hafter, by rw [length_cons, zip_cons_cons, length_cons, hlen]⟩

/-- A command takes what is pending, and any other node leaves what the commands in it have not taken. -/
theorem after_of_print (h : p.print level shared n = .ok (text, after)) : after = pending shared [n] := by
  induction n using induct generalizing level shared text after with
  | hstep n ih =>
    have hchildren : ∀ c ∈ n.children, ∀ level shared text after,
        p.print level shared c = .ok (text, after) → after = pending shared [c] :=
      fun c hc _ _ _ _ hprint => ih c hc hprint
    by_cases hkind : n.kind = .command
    · rw [pending_of_kind hkind]
      obtain ⟨identifier, arguments, hform⟩ := form_of_kind hkind
      rcases p.spec.refuses_or shared hform with ⟨problem, hrefuses⟩ | ⟨whole, hwhole, hcount⟩
      · rw [print_of_refuses hrefuses] at h
        cases h
      · rw [print_of_count hform hwhole hcount] at h
        obtain ⟨x, hargs, h⟩ := bind_eq_ok h
        obtain ⟨text, -, heq⟩ := map_ok h
        cases heq
        refine (printArguments_eq_ok (fun c hc text after hprint => ?_) hargs).1
        rw [hchildren c (by rwa [Node.children, hform]) level none text after hprint, Node.pending_none]
    · obtain ⟨inner, write, hprint⟩ := p.print_of_ne_command level hkind
      rw [hprint] at h
      obtain ⟨x, hx, heq⟩ := map_ok h
      cases heq
      rw [pending_children hkind]
      exact after_of_printAll (fun c hc => hchildren c hc inner) hx

end Printer

namespace Spec

theorem Meets.within (h : s.Meets shared n k c) : n.Within c := by
  induction h with
  | command => exact .self _
  | inside _ hchildren _ ih => exact .child (by simp [hchildren]) ih
  | argument hform _ _ hslot _ ih =>
    refine .child ?_ ih
    rw [Node.children, hform]
    exact (of_mem_zip hslot).2

end Spec

namespace Printer

theorem render_root (p : Printer) (span : Span) (lines : List Node) : p.render ⟨.root lines, span⟩ =
    (p.printAll 1 none lines).map fun x => join (x.1.map (· ++ "\n")) := by
  rw [render, p.print_root_eq 0 none rfl]
  cases p.printAll 1 none lines <;> rfl

theorem render_root_append (p : Printer) (span span₁ span₂ : Span) (cs ds : List Node) :
    p.render ⟨.root (cs ++ ds), span⟩ =
      (p.render ⟨.root cs, span₁⟩).bind fun text => (p.render ⟨.root ds, span₂⟩).map (text ++ ·) := by
  rw [render_root, render_root, render_root, printAll_append]
  cases hcs : p.printAll 1 none cs with
  | error fault => rfl
  | ok x =>
    have hx : x.2 = none := by rw [after_of_printAll (fun _ _ _ _ _ => after_of_print) hcs, pending_none]
    rw [Except.bind, hx]
    cases p.printAll 1 none ds with
    | error fault => rfl
    | ok y =>
      have hjoin : join ((x.1 ++ y.1).map (· ++ "\n")) =
          join (x.1.map (· ++ "\n")) ++ join (y.1.map (· ++ "\n")) := by
        rw [map_append, join_append]
      exact congrArg ok hjoin

/-- Printing has no memory between commands. Blocks of any nodes that stand one after the other are printed as one just
if both are printed, and then the texts follow each other; what is wrong with the first is wrong with both. -/
theorem render_lines_independent (p : Printer) (span span₁ span₂ : Span) (cs ds : List Node) :
    ((∃ text, p.render ⟨.root (cs ++ ds), span⟩ = .ok text) ↔
      (∃ text, p.render ⟨.root cs, span₁⟩ = .ok text) ∧ ∃ text, p.render ⟨.root ds, span₂⟩ = .ok text) ∧
    (∀ first second, p.render ⟨.root cs, span₁⟩ = .ok first → p.render ⟨.root ds, span₂⟩ = .ok second →
      p.render ⟨.root (cs ++ ds), span⟩ = .ok (first ++ second)) ∧
    ∀ fault, p.render ⟨.root cs, span₁⟩ = .error fault → p.render ⟨.root (cs ++ ds), span⟩ = .error fault := by
  rw [p.render_root_append span span₁ span₂ cs ds]
  refine ⟨⟨?_, ?_⟩, ?_, ?_⟩
  · rintro ⟨text, htext⟩
    cases hcs : p.render ⟨.root cs, span₁⟩ with
    | error fault =>
        rw [hcs] at htext
        cases htext
    | ok first =>
        rw [hcs] at htext
        obtain ⟨second, hds, -⟩ := map_ok htext
        exact ⟨⟨first, rfl⟩, second, hds⟩
  · rintro ⟨⟨first, hcs⟩, second, hds⟩
    rw [hcs, hds]
    exact ⟨first ++ second, rfl⟩
  · intro first second hcs hds
    rw [hcs, hds]
    rfl
  · intro fault hcs
    rw [hcs]
    rfl

end Printer

end Mcfunction
