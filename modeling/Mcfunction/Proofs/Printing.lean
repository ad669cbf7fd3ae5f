import Mcfunction.Print
import Mcfunction.Proofs.Placed

/-! How nodes are printed. Each kind of node has one clause, so a node that is neither a block nor a command is
printed from the texts of its children alone, at any level. Main statement: the printer writes such a tree, and
what it writes is the text of the tree, put together from its leaves on. -/

namespace Mcfunction

open List Option String Node String Except Prod

@[simp] theorem Prototype.relativeTo_zero (p : Prototype) : p.relativeTo 0 = p := by
  simp [relativeTo]

namespace Dispatcher

variable {η : Type} {d : Dispatcher η} {n : Node} {rule : Rule η} {i : Nat}

def asking (d : Dispatcher η) (kinds : List Kind) : List (Rule η × Nat) :=
  kinds.flatMap fun k => d.rules.zipIdx.filter fun x => k ∈ x.1.kinds

theorem find?_groups {kinds : List Kind} (h : d.asking kinds = [(rule, i)])
    (hrule : rule.predicates = []) : (d.groups n [] kinds).find? (!·.isEmpty) = some [rule] := by
  induction kinds with
  | nil => cases h
  | cons k kinds ih =>
    rw [asking, flatMap_cons] at h
    have hfound : d.ofKind n [] k = (((d.rules.zipIdx.filter fun x => k ∈ x.1.kinds).filter
        fun x => x.1.holds n).map fst, (d.rules.zipIdx.filter fun x => k ∈ x.1.kinds).map snd) := by
      simp [ofKind_eq]
    rw [groups, hfound]
    rcases append_eq_singleton_iff.1 h with ⟨hnil, hrest⟩ | ⟨hhere, -⟩
    · rw [hnil]
      exact ih hrest
    · rw [hhere]
      simp [Rule.holds, hrule]

theorem only_of_asking (h : d.asking n.kind.ancestors = [(rule, i)])
    (hrule : rule.predicates = []) : d.only n = .ok rule := by
  rw [only, mostSpecific, find?_groups h hrule]
  rfl

end Dispatcher

namespace Clause

def ofKind : Kind → Clause
  | .root => .root
  | .comment => .comment
  | .command => .command
  | .string => .string
  | .coordinate => .coordinate
  | .vector2 | .vector3 => .vector
  | .range => .range
  | .message => .message
  | .json => .json
  | .blockState => .blockState
  | .blockProperty => .blockProperty
  | .itemStack => .itemStack
  | .selector => .selector
  | .selectorArgument => .selectorArgument
  | .selectorScores | .selectorAdvancements | .selectorCriteria => .selectorBraces
  | .selectorScoreMatch | .selectorAdvancementMatch | .selectorCriteriaMatch => .selectorMatch
  | .nbtCompound => .nbtCompound
  | .nbtCompoundEntry => .nbtCompoundEntry
  | .nbtList | .nbtArray => .nbtList
  | .nbtValue => .nbtValue
  | _ => .text

/-- Whether a kind stands for more special ones, so that no node is of it. -/
def isFamily (k : Kind) : Bool := k ∈ [Kind.node, .value, .vector, .nbt]

theorem all_asking : ∀ k ∈ Kind.names.map fst, isFamily k = false →
    (all.asking k.ancestors).map (fun x => (x.1.predicates, x.1.handler)) = [([], ofKind k)] := by
  decide +kernel

theorem kind_mem_names (n : Node) : n.kind ∈ Kind.names.map fst ∧ isFamily n.kind = false := by
  rw [kind]
  cases n.form <;> (rw [Form.kind]; decide)

/-- Each node is visited by one rule, which prints nodes of its kind. -/
theorem all_only (n : Node) : ∃ rule, all.only n = .ok rule ∧ rule.handler = ofKind n.kind := by
  obtain ⟨hname, hfamily⟩ := kind_mem_names n
  obtain ⟨⟨rule, i⟩, hasking, hrule⟩ := map_eq_singleton_iff.1 (all_asking n.kind hname hfamily)
  rw [Prod.mk.injEq] at hrule
  exact ⟨rule, Dispatcher.only_of_asking hasking hrule.1, hrule.2⟩

end Clause

namespace Printer

def assemble {ν : Type} (form : Form ν) (texts : List String) : String :=
  match form with
  | .comment text => "#" ++ text
  | .string text => Text.quoted text
  | .coordinate kind value => coordinateText kind value
  | .vector2 .. | .vector3 .. => " ".intercalate texts
  | .range min max => rangeText min max
  | .json value => value.write
  | .blockState _ properties _ => join (texts.take 1) ++
      (if properties.isEmpty then "" else bracketed "[" "]" ((texts.drop 1).take properties.length)) ++
      join ((texts.drop 1).drop properties.length)
  | .blockProperty key value => key ++ "=" ++ value
  | .message _ | .itemStack .. => join texts
  | .selector target arguments =>
    "@" ++ target ++ (if arguments.isEmpty then "" else bracketed "[" "]" texts)
  | .selectorArgument inverted key _ => key ++ (if inverted then "=!" else "=") ++ join texts
  | .selectorScores _ | .selectorAdvancements _ | .selectorCriteria _ | .nbtCompound _ =>
    bracketed "\x7b" "\x7d" texts
  | .selectorScoreMatch key _ => key ++ "=" ++ join texts
  | .selectorAdvancementMatch .. => "=".intercalate texts
  | .selectorCriteriaMatch key value => key ++ "=" ++ toString value
  | .nbtCompoundEntry key _ => keyText key ++ ":" ++ join texts
  | .nbtList _ => bracketed "[" "]" texts
  | .nbtArray kind _ => bracketed ("[" ++ singleton kind.letter ++ ";") "]" texts
  | .nbtValue scalar => scalar.write
  | form => (textOf? form).getD ""

end Printer

def Node.text (n : Node) : String := Printer.assemble n.form (n.children.attach.map fun c => c.val.text)
termination_by sizeOf n
decreasing_by exact sizeOf_lt_of_mem_children c.property

theorem Node.text_eq (n : Node) : n.text = Printer.assemble n.form (n.children.map text) := by
  rw [text, List.attach_map_val]

namespace Printer

variable {n : Node} {ns : List Node} {texts : List String} {after : Option Nat}

variable {p : Printer} {level : Nat} {shared : Option Nat} {lines arguments : List Node} {identifier text : String}

theorem printAll_cons (p : Printer) (level : Nat) (shared : Option Nat) (n : Node) (ns : List Node) :
    p.printAll level shared (n :: ns) = (p.print level shared n).bind fun x =>
      (p.printAll level x.2 ns).map fun y => (x.1 :: y.1, y.2) := by
  rw [printAll]
  cases p.print level shared n with
  | error fault => rfl
  | ok x =>
    cases p.printAll level x.2 ns <;> rfl

theorem printAll_cons_ok (h : p.printAll level shared (n :: ns) = .ok (texts, after)) :
    ∃ x rest, p.print level shared n = .ok x ∧ p.printAll level x.2 ns = .ok (rest, after) ∧ texts = x.1 :: rest := by
  rw [printAll_cons] at h
  obtain ⟨x, hn, h⟩ := bind_eq_ok h
  obtain ⟨y, hns, heq⟩ := map_ok h
  cases heq
  exact ⟨x, y.1, hn, hns, rfl⟩

theorem printAll_append (p : Printer) (level : Nat) (shared : Option Nat) (ms ns : List Node) :
    p.printAll level shared (ms ++ ns) = (p.printAll level shared ms).bind fun x =>
      (p.printAll level x.2 ns).map fun y => (x.1 ++ y.1, y.2) := by
  induction ms generalizing shared with
  | nil =>
    rw [nil_append, printAll]
    change _ = (p.printAll level shared ns).map _
    cases p.printAll level shared ns <;> rfl
  | cons m ms ih =>
    rw [cons_append, printAll_cons, printAll_cons]
    cases p.print level shared m with
    | error fault => rfl
    | ok x =>
      change (p.printAll level x.2 (ms ++ ns)).map _ = ((p.printAll level x.2 ms).map _).bind _
      rw [ih]
      cases p.printAll level x.2 ms with
      | error fault => rfl
      | ok y =>
        change ((p.printAll level y.2 ns).map _).map _ = (p.printAll level y.2 ns).map _
        cases p.printAll level y.2 ns <;> rfl

theorem length_of_printAll (h : p.printAll level shared ns = .ok (texts, after)) : texts.length = ns.length := by
  induction ns generalizing shared texts with
  | nil =>
    rw [printAll] at h
    cases h
    rfl
  | cons n ns ih =>
    obtain ⟨x, rest, -, hrest, rfl⟩ := printAll_cons_ok h
    rw [length_cons, length_cons, ih hrest]

theorem printAll_map {α : Type} {xs : List α} {g : α → Node} {f : α → String}
    (h : ∀ x ∈ xs, p.print level shared (g x) = .ok (f x, shared)) :
    p.printAll level shared (xs.map g) = .ok (xs.map f, shared) := by
  induction xs with
  | nil => rw [map_nil, printAll]; rfl
  | cons x xs ih =>
    rw [map_cons, printAll_cons, h x mem_cons_self, Except.bind, ih fun y hy => h y (mem_cons_of_mem x hy)]
    rfl

theorem printAll_ok {f : Node → String} (h : ∀ n ∈ ns, p.print level shared n = .ok (f n, shared)) :
    p.printAll level shared ns = .ok (ns.map f, shared) := by
  have hall := printAll_map (g := id) h
  rwa [List.map_id] at hall

theorem print_part_eq (p : Printer) (level : Nat) (shared : Option Nat) (h : n.kind.isPart = true) :
    p.print level shared n = (p.printAll level shared n.children).map fun x => (assemble n.form x.1, x.2) := by
  obtain ⟨⟨name, kinds, predicates, handler⟩, honly, hhandler⟩ := Clause.all_only n
  obtain ⟨form, span⟩ := n
  subst hhandler
  rw [print, honly]
  cases form <;> dsimp only [kind, Form.kind, Clause.ofKind, children, Form.children] at h ⊢
  case root | command => cases h
  case comment | bool | number | word | string | greedy | time | resourceLocation | coordinate | range | json
      | messageText | selectorCriteriaMatch | nbtValue | blockProperty =>
    rw [printAll]
    rfl
  case blockState identifier properties tags =>
      have happend := p.printAll_append level shared [identifier] (properties ++ tags.toList)
      rw [singleton_append] at happend
      rw [happend]
      cases hname : p.printAll level shared [identifier] with
      | error fault => rfl
      | ok x =>
        change (p.printAll level x.2 properties >>= _) =
          ((p.printAll level x.2 (properties ++ tags.toList)).map _).map _
        rw [printAll_append]
        cases hprops : p.printAll level x.2 properties with
        | error fault => rfl
        | ok y =>
          change (p.printAll level y.2 tags.toList >>= _) = (((p.printAll level y.2 tags.toList).map _).map _).map _
          have hx : x.1.length = 1 := length_of_printAll hname
          have hy := length_of_printAll hprops
          have htexts : ∀ texts, assemble (.blockState identifier properties tags) (x.1 ++ (y.1 ++ texts)) =
              join x.1 ++ (if properties.isEmpty then "" else bracketed "[" "]" y.1) ++ join texts := by
            intro texts
            rw [assemble, ← hx, take_left, drop_left, ← hy, take_left, drop_left]
          cases p.printAll level y.2 tags.toList with
          | error fault => rfl
          | ok z => exact congrArg (fun text => ok (text, z.2)) (htexts z.1).symm
  case itemStack identifier tags =>
      have happend := p.printAll_append level shared [identifier] tags.toList
      rw [singleton_append] at happend
      rw [happend]
      cases p.printAll level shared [identifier] with
      | error fault => rfl
      | ok x =>
        change (p.printAll level x.2 tags.toList >>= _) = ((p.printAll level x.2 tags.toList).map _).map _
        cases p.printAll level x.2 tags.toList with
        | error fault => rfl
        | ok y => exact congrArg (fun text => ok (text, y.2)) join_append.symm
  all_goals cases p.printAll level shared _ <;> rfl

theorem print_part (h : n.kind.isPart = true)
    (hchildren : ∀ c ∈ n.children, p.print level shared c = .ok (c.text, shared)) :
    p.print level shared n = .ok (n.text, shared) := by
  rw [print_part_eq p level shared h, printAll_ok hchildren, n.text_eq]
  rfl

theorem print_text (h : ∀ m ∈ n.walk, m.kind.isPart = true) : p.print level shared n = .ok (n.text, shared) := by
  induction n using induct with
  | hstep n ih =>
    refine print_part (h n (mem_walk.2 (.self n))) ?_
    intro c hc
    refine ih c hc ?_
    intro m hm
    exact h m (mem_walk.2 (.child hc (mem_walk.1 hm)))

theorem render_text (h : ∀ m ∈ n.walk, m.kind.isPart = true) : p.render n = .ok n.text := by
  have hprint : p.print 0 none n = .ok (n.text, none) := print_text h
  rw [render, hprint]

theorem print_comment {text : List Char} (hform : n.form = .comment (ofList text)) :
    p.print level shared n = .ok (ofList ('#' :: text), shared) := by
  have hpart : n.kind.isPart = true := by
    rw [kind, hform]
    rfl
  have hchildren : n.children = [] := by
    rw [children, hform]
    rfl
  have htext : ofList (['#'] ++ text) = "#" ++ ofList text := ofList_append
  rw [print_part hpart (by rw [hchildren]; exact forall_mem_nil _), text_eq, hform]
  exact congrArg (fun text => ok (text, shared)) htext.symm

/-- A block is printed from the texts of its lines, one level further in. -/
theorem print_root_eq (p : Printer) (level : Nat) (shared : Option Nat)
    (hform : n.form = .root lines) : p.print level shared n =
      (p.printAll (level + 1) shared lines).map fun x => (p.blockText level x.1, x.2) := by
  obtain ⟨⟨name, kinds, predicates, handler⟩, honly, hhandler⟩ := Clause.all_only n
  obtain ⟨form, span⟩ := n
  subst hhandler hform
  rw [print, honly]
  dsimp only [kind, Form.kind, Clause.ofKind]
  cases p.printAll (level + 1) shared lines <;> rfl

theorem print_root (hform : n.form = .root lines) (hlines : p.printAll (level + 1) shared lines = .ok (texts, after)) :
    p.print level shared n = .ok (p.blockText level texts, after) := by
  rw [print_root_eq p level shared hform, hlines]
  rfl

/-- A command is printed along its prototype, without the entries that the command around it has printed. -/
theorem print_command_eq (p : Printer) (level : Nat) (shared : Option Nat)
    (hform : n.form = .command identifier arguments) : p.print level shared n =
      (p.spec.prototype? identifier).elim (.error (.problem (.unknownCommand identifier) n.span)) fun whole =>
        let prototype := whole.relativeTo (shared.getD 0)
        if prototype.argumentCount ≠ arguments.length then
          .error (.problem (.argumentCount identifier prototype.argumentCount arguments.length) n.span)
        else (p.printArguments level none prototype.slots arguments).bind fun x =>
          ((layout true prototype.signature (x.1.zip (arguments.map (·.kind = .root)))).mapError
            fun problem => PrintFault.problem problem n.span).map fun text => (text, x.2) := by
  obtain ⟨⟨name, kinds, predicates, handler⟩, honly, hhandler⟩ := Clause.all_only n
  obtain ⟨form, span⟩ := n
  subst hform
  obtain rfl : handler = .command := hhandler
  rw [print, honly]
  dsimp only
  cases p.spec.prototype? identifier with
  | none => rfl
  | some whole =>
    have hzero : whole.relativeTo (getD none 0) = whole := whole.relativeTo_zero
    rcases shared with _ | k
    · rw [elim_some, hzero]
      dsimp only
      split
      · rfl
      · refine congrArg (bind _) (funext fun x => ?_)
        cases layout true whole.signature (x.1.zip (arguments.map (·.kind = .root))) <;> rfl
    · rw [elim_some, getD_some]
      dsimp only
      split
      · rfl
      · refine congrArg (bind _) (funext fun x => ?_)
        cases layout true (whole.relativeTo k).signature (x.1.zip (arguments.map (·.kind = .root))) <;> rfl

theorem print_command {whole : Prototype}
    (hform : n.form = .command identifier arguments) (hwhole : p.spec.prototype? identifier = some whole)
    (hcount : (whole.relativeTo (shared.getD 0)).argumentCount = arguments.length)
    (hargs : p.printArguments level none (whole.relativeTo (shared.getD 0)).slots arguments = .ok (texts, after))
    (hlayout : layout true (whole.relativeTo (shared.getD 0)).signature (texts.zip (arguments.map (·.kind = .root))) =
      .ok text) : p.print level shared n = .ok (text, after) := by
  rw [print_command_eq p level shared hform, hwhole, elim_some]
  rw [if_neg (not_not_intro hcount), hargs, Except.bind, hlayout]
  rfl

end Printer

end Mcfunction
