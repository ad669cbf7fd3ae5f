import Mathlib.Data.List.Forall2
import Mcfunction.Proofs.Alike
import Mcfunction.Proofs.Printing
import Mcfunction.Proofs.Search
import Mcfunction.Proofs.Signatures

/-! Commands and their prototypes. Along every branch of the search the words read so far are those of a way
through the tree, and the arguments stand in the slots of the way, so a command that ends has the prototype of
the way under its identifier. A command in the place of a whole one begins where the way of its redirect ends.
Main statement: in the tree of a text each command has a prototype, with one argument for each of its slots. -/

namespace Mcfunction

open List CommandTree Cursor Option Prototype Node Spec Way Slot

variable {arguments ns lines : List Node} {spec s : Spec} {shared level : Nat} {child node t tree target : CommandTree}
  {whole p prototype : Prototype} {n value : Node} {identifier name source : String} {way : Way} {indent : Option Nat}
  {legacy : Bool} {c d : Cursor}

namespace Prototype

theorem slots_relativeTo (p : Prototype) (shared : Nat) :
    (p.relativeTo shared).slots = (p.signature.drop shared).filterMap Entry.slot? := by
  rw [slots, relativeTo]
  by_cases h : shared ≤ p.signature.length
  · rw [min_eq_left h]
  · have h : p.signature.length ≤ shared := by omega
    rw [min_eq_right h, drop_length, drop_eq_nil_of_le h]

theorem argumentCount_relativeTo (h : Aligned p.signature p.offsets) (shared : Nat) :
    (p.relativeTo shared).argumentCount = (p.relativeTo shared).slots.length := by
  rw [argumentCount, slots, relativeTo]
  rw [length_map, h]

theorem slots_eq_append (p : Prototype) (shared : Nat) :
    p.slots = (p.signature.take shared).filterMap Entry.slot? ++ (p.relativeTo shared).slots := by
  rw [slots_relativeTo, ← filterMap_append, take_append_drop, slots]

/-- The arguments of a command with their slots. Of the slots of the prototype, a command that leaves out
entries has the last ones. -/
def assigned (p : Prototype) (arguments : List Node) : List (Slot × Node) :=
  (p.slots.drop (p.slots.length - arguments.length)).zip arguments

theorem assigned_eq (h : (p.relativeTo shared).slots.length = arguments.length) :
    p.assigned arguments = (p.relativeTo shared).slots.zip arguments := by
  rw [assigned, slots_eq_append p shared, length_append, ← h, Nat.add_sub_cancel, drop_left']
  rfl

end Prototype

theorem Slot.isSubcommand_added (scope : Path) : (⟨scope ++ [subcommandName], none⟩ : Slot).isSubcommand = true := by
  simp [isSubcommand, name]

namespace Spec

theorem sharedEntries_added {scope target : Path} (hnode : s.tree.get? scope = some node)
    (hred : node.redirect? = some target) : s.sharedEntries ⟨scope ++ [subcommandName], none⟩ = target.length := by
  rw [sharedEntries, owner, dropLast_concat, hnode]
  simp only [hred, map_some, getD_some]

/-- A command has as many arguments as `count` tells from its prototype. -/
def Counts (s : Spec) (count : Prototype → Nat) (n : Node) : Prop :=
  ∀ identifier arguments, n.form = .command identifier arguments →
    ∃ whole, s.prototype? identifier = some whole ∧ arguments.length = count whole

/-- The number of arguments of a command that leaves out the first entries. -/
def countFrom (shared : Nat) (whole : Prototype) : Nat := (whole.relativeTo shared).argumentCount

@[simp] theorem countFrom_zero : countFrom 0 = argumentCount := by
  funext whole
  rw [countFrom, relativeTo_zero]

/-- A node in a slot: a whole command stands in the place of one, leaves out the entries on the path of the
redirect and has an argument for each of its other slots; no command stands in another slot. -/
def Fills (s : Spec) (slot : Slot) (n : Node) : Prop :=
  if slot.isSubcommand then n.kind = .command ∧ s.Counts (countFrom (s.sharedEntries slot)) n
  else n.kind ≠ .command

/-- A node and its children agree with the prototypes. The commands in a block have an argument for each slot;
a command has a prototype and its arguments stand in slots; below other nodes neither commands nor blocks
stand. -/
def AgreesAt (s : Spec) (n : Node) : Prop :=
  match n.form with
  | .root lines => ∀ line ∈ lines, s.Counts argumentCount line
  | .command identifier arguments => ∃ whole, s.prototype? identifier = some whole ∧
      arguments.length ≤ whole.slots.length ∧ ∀ x ∈ whole.assigned arguments, s.Fills x.1 x.2
  | _ => ∀ child ∈ n.children, child.kind.isPart = true

def Agrees (s : Spec) (n : Node) : Prop := ∀ m ∈ n.walk, s.AgreesAt m

theorem AgreesAt.part (h : spec.AgreesAt n) (hn : n.kind.isPart = true) :
    ∀ child ∈ n.children, child.kind.isPart = true := by
  rw [AgreesAt] at h
  split at h
  · rename_i hform
    rw [kind, hform] at hn
    cases hn
  · rename_i hform
    rw [kind, hform] at hn
    cases hn
  · exact h

theorem AgreesAt.root (h : spec.AgreesAt n) (hform : n.form = .root lines) :
    ∀ line ∈ lines, spec.Counts argumentCount line := by
  rwa [AgreesAt, hform] at h

theorem AgreesAt.command (h : spec.AgreesAt n) (hform : n.form = .command identifier arguments)
    (hwhole : spec.prototype? identifier = some whole) : ∀ x ∈ whole.assigned arguments, spec.Fills x.1 x.2 := by
  rw [AgreesAt, hform] at h
  obtain ⟨whole', hwhole', -, hfills⟩ := h
  cases hwhole.symm.trans hwhole'
  exact hfills

theorem agrees_iff : spec.Agrees n ↔ spec.AgreesAt n ∧ ∀ child ∈ n.children, spec.Agrees child := by
  constructor
  · intro h
    refine ⟨h n (mem_walk.2 (.self n)), fun child hchild m hm => h m ?_⟩
    exact mem_walk.2 (.child hchild (mem_walk.1 hm))
  · rintro ⟨hn, hchildren⟩ m hm
    cases mem_walk.1 hm with
    | self => exact hn
    | child hchild hm => exact hchildren _ hchild m (mem_walk.2 hm)

theorem aligned_of_prototype? (hspec : spec.tree.prototypes = .ok spec.prototypes)
    (h : spec.prototype? identifier = some whole) : Aligned whole.signature whole.offsets := by
  obtain ⟨-, way, hway, rfl⟩ := exists_way_of_mem hspec (Entries.mem_of_lookup h)
  exact hway.aligned

theorem agrees_command (whole : Prototype) (hform : n.form = .command identifier arguments)
    (hwhole : spec.prototype? identifier = some whole) (haligned : Aligned whole.signature whole.offsets)
    (hargs : Forall₂ (fun slot a => spec.Fills slot a ∧ spec.Agrees a) (whole.relativeTo shared).slots arguments) :
    spec.Counts (countFrom shared) n ∧ spec.Agrees n := by
  have hlen := hargs.length_eq
  constructor
  · intro identifier' arguments' hform'
    cases hform.symm.trans hform'
    exact ⟨whole, hwhole, by rw [countFrom, argumentCount_relativeTo haligned, hlen]⟩
  · refine agrees_iff.2 ⟨?_, ?_⟩
    · rw [AgreesAt, hform]
      refine ⟨whole, hwhole, ?_, ?_⟩
      · rw [whole.slots_eq_append shared, length_append]
        omega
      · rw [assigned_eq hlen]
        intro x hx
        exact (forall₂_iff_zip.1 hargs).2 hx |>.1
    · intro child hchild
      rw [Node.children, hform, Form.children] at hchild
      obtain ⟨i, hi, rfl⟩ := mem_iff_getElem.1 hchild
      exact (hargs.get (by omega) hi).2

end Spec

namespace CommandTree.Way

def slotsFrom (way : Way) (shared : Nat) : List Slot := (way.signature.drop shared).filterMap Entry.slot?

theorem slotsFrom_append (hshared : shared ≤ way.signature.length) (entry : Entry) :
    ((way.signature ++ [entry]).drop shared).filterMap Entry.slot? = way.slotsFrom shared ++ entry.slot?.toList := by
  rw [drop_append_of_le_length hshared, filterMap_append]
  cases entry <;> rfl

theorem slotsFrom_literal (hshared : shared ≤ way.signature.length) (hrole : child.role = .literal) :
    (way.step name child).slotsFrom shared = way.slotsFrom shared := by
  rw [slotsFrom, step, if_pos hrole]
  rw [slotsFrom_append hshared]
  exact append_nil _

theorem slotsFrom_argument (hshared : shared ≤ way.signature.length) (hrole : child.role ≠ .literal) :
    (way.step name child).slotsFrom shared = way.slotsFrom shared ++ [⟨way.scope ++ [name], child.reader?⟩] := by
  rw [slotsFrom, step, if_neg hrole]
  rw [slotsFrom_append hshared]
  rfl

theorem slots_prototype (way : Way) (shared : Nat) :
    (way.prototype.relativeTo shared).slots = way.slotsFrom shared := slots_relativeTo _ _

theorem slots_subcommand (hshared : shared ≤ way.signature.length) :
    (way.subcommand.prototype.relativeTo shared).slots =
      way.slotsFrom shared ++ [⟨way.scope ++ [subcommandName], none⟩] := by
  rw [slots_relativeTo, prototype, subcommand]
  rw [slotsFrom_append hshared]
  rfl

end CommandTree.Way

namespace Parser

variable {p : Parser} {pending : Pending}

/-! ### Commands -/

/-- A command of which a part was read has the words of a way, and its arguments are in the slots of the way
from the `shared`th entry on. -/
structure OnWay (spec : Spec) (shared : Nat) (way : Way) (pending : Pending) : Prop where
  scope : pending.scope = way.scope
  shared_le : shared ≤ way.signature.length
  arguments : Forall₂ (fun slot a => spec.Fills slot a ∧ spec.Agrees a) (way.slotsFrom shared)
    pending.arguments

/-- The command of a stage is on the way to the node of the stage, or to one that its children follow. -/
def Along (spec : Spec) (shared : Nat) : Stage → Prop
  | .child owner pending => ∃ way node, Leads spec.tree way node ∧
      owner.children ⊆ spec.tree.following node ∧ OnWay spec shared way pending
  | .follow owner pending => ∃ way node, Leads spec.tree way node ∧
      owner.children ⊆ spec.tree.following node ∧ OnWay spec shared way pending
  | .after node pending => ∃ way, Leads spec.tree way node ∧ way.scope ≠ [] ∧ OnWay spec shared way pending

/-- What is read, if anything, is a command that leaves out `shared` entries and agrees with its prototype. -/
def CommandAgrees (spec : Spec) (shared : Nat) (r : Except SyntaxError (Node × Cursor)) : Prop :=
  ∀ n d, r = .ok (n, d) → n.kind = .command ∧ spec.Counts (countFrom shared) n ∧ spec.Agrees n

/-- Every argument that is read at a cursor is no command and agrees with the prototypes. -/
def ArgumentsAgree (p : Parser) (spec : Spec) (c : Cursor) : Prop :=
  ∀ indent (node : CommandTree) n d, p.argumentOutcome indent node c = .ok (n, d) →
    node.reader? ≠ none ∧ n.kind ≠ .command ∧ spec.Agrees n

theorem OnWay.literal (h : OnWay spec shared way pending) (hrole : child.role = .literal)
    (word : String) : OnWay spec shared (way.step word child) (pending.literal word) where
  scope := by rw [Pending.literal, h.scope, step_scope]
  shared_le := by
    rw [length_signature_step]
    exact Nat.le_succ_of_le h.shared_le
  arguments := by
    rw [slotsFrom_literal h.shared_le hrole]
    exact h.arguments

theorem OnWay.argument (h : OnWay spec shared way pending)
    (hrole : child.role = .argument) (hreader : child.reader? ≠ none) (hkind : value.kind ≠ .command)
    (hvalue : spec.Agrees value) : OnWay spec shared (way.step name child) (pending.argument name value) where
  scope := by rw [Pending.argument, h.scope, step_scope]
  shared_le := by
    rw [length_signature_step]
    exact Nat.le_succ_of_le h.shared_le
  arguments := by
    rw [slotsFrom_argument h.shared_le (by rw [hrole]; decide)]
    refine rel_append h.arguments (.cons ⟨?_, hvalue⟩ .nil)
    have hslot : (⟨way.scope ++ [name], child.reader?⟩ : Slot).isSubcommand = false := by
      rw [Slot.isSubcommand, isNone_eq_false_iff.2 (isSome_iff_ne_none.2 hreader)]
      rfl
    rw [Fills, hslot]
    exact hkind

section

variable (hroot : spec.tree.Regular) (hspec : spec.tree.prototypes = .ok spec.prototypes)

include hroot hspec

theorem OnWay.finish (h : OnWay spec shared way pending) (hway : Leads spec.tree way node)
    (hne : way.scope ≠ []) (hexec : node.executable = true) (c : Cursor) :
    spec.Counts (countFrom shared) (pending.finish c) ∧ spec.Agrees (pending.finish c) := by
  refine agrees_command way.prototype rfl ?_ hway.sound.aligned ?_
  · rw [h.scope]
    exact Named.lookup hroot hspec ⟨way, node, hway, hne, .inl ⟨hexec, rfl⟩⟩
  · rw [slots_prototype]
    exact h.arguments

theorem OnWay.around (h : OnWay spec shared way pending) (hway : Leads spec.tree way node)
    (hne : way.scope ≠ []) {path : Path}
    (hto : spec.tree.RedirectsTo node path target) {inner : Node × Cursor} (hkind : inner.1.kind = .command)
    (hcounts : spec.Counts (countFrom path.length) inner.1) (hinner : spec.Agrees inner.1) :
    spec.Counts (countFrom shared) (around pending inner).1 ∧ spec.Agrees (around pending inner).1 := by
  refine agrees_command way.subcommand.prototype rfl ?_ hway.sound.subcommand.aligned ?_
  · rw [Pending.argument, h.scope]
    exact Named.lookup hroot hspec ⟨way, node, hway, hne, .inr ⟨⟨path, target, hto⟩, rfl⟩⟩
  · rw [slots_subcommand h.shared_le]
    refine rel_append h.arguments (.cons ⟨?_, hinner⟩ .nil)
    rw [Fills, if_pos (isSubcommand_added _), sharedEntries_added (hway.get? hroot) hto.1]
    exact ⟨hkind, hcounts⟩

/-- Along every branch the command that is read agrees with its prototype. -/
theorem Branch.agrees {stage : Stage} {ks : List Nat}
    {r : Except SyntaxError (Node × Cursor)} (htree : p.tree = spec.tree) (h : Branch p indent stage c ks r)
    (hargs : ∀ d, d.remaining ≤ c.remaining → ArgumentsAgree p spec d) (halong : Along spec shared stage) :
    CommandAgrees spec shared r := by
  have child_role : ∀ {way node entry}, Leads spec.tree way node → entry ∈ spec.tree.following node →
      entry.2.reader? ≠ none → entry.2.role = .argument := by
    intro way node entry hway hentry hreader
    obtain ⟨path, hpath⟩ := (hway.step hentry).at? hroot
    exact hroot.readers path entry.2 hpath hreader
  induction h generalizing shared with
  | @literal owner pending c child ks r hword _ ih =>
    obtain ⟨way, node, hway, hsub, hon⟩ := halong
    obtain ⟨hlookup, hrole⟩ := filter_eq_some_iff.1 hword
    refine ih (fun d hd => hargs d (le_trans hd (c.reaches_drop c.wordLength).remaining_le)) ?_
    exact ⟨_, hway.step (hsub (Entries.mem_of_lookup hlookup)), by simp, hon.literal (by simpa using hrole) _⟩
  | @accepted owner pending c i entry value d ks r _ hentry harg hread _ ih =>
    obtain ⟨way, node, hway, hsub, hon⟩ := halong
    obtain ⟨hreader, hkind, hvalue⟩ := hargs c (le_refl _) _ _ _ _ hread
    refine ih (fun e he => hargs e (le_trans he (argumentOutcome_reaches hread).remaining_le)) ?_
    exact ⟨_, hway.step (hsub (mem_of_getElem? hentry)), by simp,
      hon.argument (by simpa [isArgument] using harg) hreader hkind hvalue⟩
  | @blockAccepted owner pending c i entry value d ks r _ hentry hblock hread _ ih =>
    obtain ⟨way, node, hway, hsub, hon⟩ := halong
    obtain ⟨hreader, hkind, hvalue⟩ := hargs c (le_refl _) _ _ _ _ hread
    have hfollows := hsub (mem_of_getElem? hentry)
    refine ih (fun e he => hargs e (le_trans he (argumentOutcome_reaches hread).remaining_le)) ?_
    exact ⟨_, hway.step hfollows, by simp, hon.argument (child_role hway hfollows hreader) hreader hkind hvalue⟩
  | separated _ _ _ hgap _ ih =>
    exact ih (fun d hd => hargs d (le_trans hd (le_of_lt (gap_remaining hgap)))) halong
  | @complete node pending c hstop =>
    obtain ⟨way, hway, hne, hon⟩ := halong
    intro n d hok
    cases hok
    rw [Bool.and_eq_true] at hstop
    exact ⟨rfl, hon.finish hroot hspec hway hne hstop.2 c⟩
  | next _ hred _ ih =>
    obtain ⟨way, hway, -, hon⟩ := halong
    refine ih hargs ⟨way, _, hway, ?_, hon⟩
    rw [following_of_none hred]
    exact Subset.refl _
  | aliased _ hred htarget hsub _ ih =>
    obtain ⟨way, hway, -, hon⟩ := halong
    rw [htree] at htarget
    refine ih hargs ⟨way, _, hway, ?_, hon⟩
    rw [following_of_alias hred htarget hsub]
    exact Subset.refl _
  | @subcommand node pending c path target d ks inner _ hred htarget hsub _ hgap _ ih =>
    obtain ⟨way, hway, hne, hon⟩ := halong
    rw [htree] at htarget
    have hinner : CommandAgrees spec path.length inner := by
      obtain ⟨innerWay, hinnerWay, hscope⟩ := hroot.leads_at? htarget
      refine ih (fun e he => hargs e (le_trans he (le_of_lt (gap_remaining hgap)))) ?_
      have hlen : innerWay.signature.length = path.length := by rw [hinnerWay.sound.length_signature, hscope]
      refine ⟨innerWay, target, hinnerWay, hroot.children_subset_following htarget, hscope.symm,
        le_of_eq hlen.symm, ?_⟩
      rw [slotsFrom, ← hlen, drop_length]
      exact .nil
    cases inner with
    | error e =>
      intro n d hok
      cases hok
    | ok x =>
      intro n d hok
      cases hok
      obtain ⟨hkind, hcounts, hagrees⟩ := hinner _ _ rfl
      exact ⟨rfl, hon.around hroot hspec hway hne ⟨hred, htarget, hsub⟩ hkind hcounts hagrees⟩
  | _ =>
    intro n d hok
    cases hok

theorem outcome_agrees (indent : Option Nat) (htree : p.tree = spec.tree)
    (hargs : ∀ d, d.remaining ≤ c.remaining → ArgumentsAgree p spec d) :
    CommandAgrees spec 0 (p.outcome indent (.child p.tree { start := c.location }) c) := by
  obtain ⟨ks, hks⟩ := exists_branch p indent (.child p.tree { start := c.location }) c
  refine hks.agrees hroot hspec htree hargs ⟨{}, spec.tree, .start, ?_, rfl, le_refl _, .nil⟩
  rw [htree, following_of_none hroot.root]
  exact Subset.refl _

/-! ### Blocks -/

omit hroot hspec in
/-- What holds of the comments and the commands of a block holds of all its lines. -/
theorem forall_mem_blockOutcome {P : Node → Prop} (indent : Option Nat) (first : Bool) (c : Cursor)
    (hcomment : ∀ d, ∀ line ∈ p.commentLine d, P line)
    (hcmd : ∀ d n e, d.remaining ≤ c.remaining →
      p.outcome indent (.child p.tree { start := d.location }) d = .ok (n, e) → P n) :
    ∀ lines e, p.blockOutcome indent first c = .ok (lines, e) → ∀ line ∈ lines, P line := by
  intro lines e h
  replace h := blockRead_of_ok h
  induction h with
  | unended | ended | left => exact forall_mem_nil _
  | comment hline _ _ ih =>
    have hreach := (nextLine?_reaches hline).trans ((skipSpaces_reaches _).trans (skipLine_reaches _))
    exact forall_mem_append.2 ⟨hcomment _, ih fun d n e hd => hcmd d n e (le_trans hd hreach.remaining_le)⟩
  | command hline _ _ _ hn _ ih =>
    have hreach := (nextLine?_reaches hline).trans (skipSpaces_reaches _)
    exact forall_mem_cons.2 ⟨hcmd _ _ _ hreach.remaining_le hn, ih fun d n e hd =>
      hcmd d n e (le_trans hd (hreach.trans (outcome_reaches hn)).remaining_le)⟩

/-- The lines of a block, if it is read, agree with the prototypes. -/
def LinesAgree (spec : Spec) (r : Except SyntaxError (List Node × Cursor)) : Prop :=
  ∀ lines d, r = .ok (lines, d) → ∀ line ∈ lines,
    spec.Counts argumentCount line ∧ spec.Agrees line

omit hroot hspec in
theorem commentLine_agrees (d : Cursor) : ∀ line ∈ p.commentLine d,
    spec.Counts argumentCount line ∧ spec.Agrees line := by
  intro line hline
  rw [commentLine] at hline
  split at hline
  · rw [mem_singleton.1 hline]
    refine ⟨?_, agrees_iff.2 ⟨?_, ?_⟩⟩
    · intro identifier arguments hform
      cases hform
    · intro child hchild
      cases hchild
    · intro child hchild
      cases hchild
  · cases hline

theorem blockOutcome_agrees (indent : Option Nat) (first : Bool) (c : Cursor) (htree : p.tree = spec.tree)
    (hargs : ∀ d, d.remaining ≤ c.remaining → ArgumentsAgree p spec d) :
    LinesAgree spec (p.blockOutcome indent first c) := by
  refine forall_mem_blockOutcome indent first c commentLine_agrees fun d n e hd hn => ?_
  obtain ⟨-, hcounts, hagrees⟩ := outcome_agrees hroot hspec indent htree
    (fun f hf => hargs f (le_trans hf hd)) n e hn
  rw [← countFrom_zero]
  exact ⟨hcounts, hagrees⟩

theorem blockArgument_agrees (htree : p.tree = spec.tree)
    (hargs : ∀ d, d.remaining < c.remaining → ArgumentsAgree p spec d)
    (h : p.blockArgument indent c = .ok (n, d)) : n.kind = .root ∧ spec.Agrees n := by
  obtain ⟨-, hcolon, -, -, lines, hlines, rfl⟩ := blockArgument_ok h
  have hagree := blockOutcome_agrees hroot hspec (some (c.drop 1).blockIndentation) false (c.drop 1) htree
    (fun d hd => hargs d (lt_of_le_of_lt hd (c.drop_one_remaining hcolon))) lines d hlines
  exact ⟨rfl, agrees_iff.2 ⟨fun line hline => (hagree line hline).1, fun line hline => (hagree line hline).2⟩⟩

end

/-! ### Arguments -/

theorem agrees_of_placed (h : Placed Plain c d n) : spec.Agrees n := by
  intro m hm
  obtain ⟨c, d, hplaced⟩ := h.within hm
  have hchildren : ∀ child ∈ m.children, child.kind.isPart = true := by
    intro child hchild
    obtain ⟨first, last, -, hinner, -⟩ := hplaced.inside.placed hchild
    exact hinner.holds.part
  have hpart := hplaced.holds.part
  rw [AgreesAt]
  split
  · rename_i hform
    rw [kind, hform] at hpart
    cases hpart
  · rename_i hform
    rw [kind, hform] at hpart
    cases hpart
  · exact hchildren

theorem argumentsAgree (hroot : spec.tree.Regular) (hspec : spec.tree.prototypes = .ok spec.prototypes)
    (htree : p.tree = spec.tree) (hreg : p.registry "" = none) (c : Cursor) : ArgumentsAgree p spec c := by
  induction c using Cursor.induct with
  | hstep c ih =>
    intro indent node n d hread
    have hreader : node.reader? ≠ none := by
      intro hnone
      rw [argumentOutcome_eq, hnone, getD_none, hreg] at hread
      cases hread
    refine ⟨hreader, ?_⟩
    rw [argumentOutcome_eq] at hread
    split at hread
    · cases hread
    · obtain ⟨x, hx, heq⟩ := map_ok hread
      cases heq
      have hplaced := (Leaf.read_placed hx).plain
      refine ⟨?_, agrees_of_placed hplaced⟩
      intro hkind
      have hpart := hplaced.holds.part
      rw [hkind] at hpart
      cases hpart
    · obtain ⟨hkind, hagrees⟩ := blockArgument_agrees hroot hspec htree ih hread
      exact ⟨by rw [hkind]; decide, hagrees⟩

theorem agrees_of_parse (hroot : spec.tree.Regular) (hspec : spec.tree.prototypes = .ok spec.prototypes)
    (htree : p.tree = spec.tree) (hreg : p.registry "" = none) {tree : Node}
    (h : p.parse source = .ok tree) : spec.Agrees tree := by
  rw [parse_eq] at h
  obtain ⟨⟨lines, d⟩, hblock, rfl⟩ := map_ok h
  have hlines := blockOutcome_agrees hroot hspec none true (.start source) htree
    (fun d _ => argumentsAgree hroot hspec htree hreg d) lines d hblock
  exact agrees_iff.2 ⟨fun line hline => (hlines line hline).1, fun line hline => (hlines line hline).2⟩

end Parser

/-! ### Printing -/

namespace Printer

variable {p : Printer}

theorem layout_ok {entries : List Entry} {arguments : List (String × Bool)}
    (h : (entries.filterMap Entry.slot?).length ≤ arguments.length) (isFirst : Bool) :
    ∃ text, layout isFirst entries arguments = .ok text := by
  induction entries generalizing arguments isFirst with
  | nil => exact ⟨"", by rw [layout]⟩
  | cons entry entries ih =>
    cases entry with
    | literal name =>
      obtain ⟨rest, hrest⟩ := ih h false
      exact ⟨_, by rw [layout, hrest]⟩
    | argument slot =>
      cases arguments with
      | nil => cases h
      | cons argument arguments =>
        obtain ⟨rest, hrest⟩ := ih (Nat.le_of_succ_le_succ h) false
        exact ⟨_, by rw [layout, hrest]⟩

theorem layout_arguments_ok {texts : List String}
    (hslots : prototype.slots.length = arguments.length) (htexts : texts.length = arguments.length) :
    ∃ text, layout true prototype.signature (texts.zip (arguments.map (·.kind = .root))) = .ok text := by
  refine layout_ok ?_ true
  rw [length_zip, length_map, htexts, min_self, ← hslots]
  exact le_refl _

theorem printArguments_ok {slots : List Slot} (h : Forall₂ (fun slot n => ∃ text, p.print level
      (if slot.isSubcommand then some (p.spec.sharedEntries slot) else none) n = .ok (text, none)) slots ns) :
    ∃ texts, p.printArguments level none slots ns = .ok (texts, none) ∧ texts.length = ns.length := by
  induction h with
  | nil => exact ⟨[], by simp [printArguments], rfl⟩
  | @cons slot n slots ns hn _ ih =>
    obtain ⟨text, htext⟩ := hn
    obtain ⟨texts, htexts, hlen⟩ := ih
    refine ⟨text :: texts, ?_, by rw [length_cons, length_cons, hlen]⟩
    rw [printArguments, htext]
    change (p.printArguments level (if slot.isSubcommand then none else none) slots ns >>= _) = _
    rw [ite_self, htexts]
    rfl

theorem printAll_exists (h : ∀ n ∈ ns, ∃ text, p.print level none n = .ok (text, none)) :
    ∃ texts, p.printAll level none ns = .ok (texts, none) := by
  induction ns with
  | nil => exact ⟨[], by rw [printAll]⟩
  | cons n ns ih =>
    obtain ⟨text, htext⟩ := h n mem_cons_self
    obtain ⟨texts, htexts⟩ := ih fun m hm => h m (mem_cons_of_mem n hm)
    refine ⟨text :: texts, ?_⟩
    rw [printAll_cons, htext, Except.bind, htexts]
    rfl

theorem parts_of_agrees (h : spec.Agrees n) (hn : n.kind.isPart = true) : ∀ m ∈ n.walk, m.kind.isPart = true := by
  intro m hm
  refine (Within.induct (P := fun m => spec.Agrees m ∧ m.kind.isPart = true) ?_ ⟨h, hn⟩ (mem_walk.1 hm)).2
  rintro m ⟨hagrees, hpart⟩ child hchild
  obtain ⟨hat, hchildren⟩ := agrees_iff.1 hagrees
  exact ⟨hchildren child hchild, hat.part hpart child hchild⟩

theorem print_command_ok {shared : Option Nat} (hform : n.form = .command identifier arguments)
    (hwhole : p.spec.prototype? identifier = some whole) (haligned : Aligned whole.signature whole.offsets)
    (hcount : arguments.length = countFrom (shared.getD 0) whole)
    (h : ∀ x ∈ whole.assigned arguments, ∃ text, p.print level
      (if x.1.isSubcommand then some (p.spec.sharedEntries x.1) else none) x.2 = .ok (text, none)) :
    ∃ text, p.print level shared n = .ok (text, none) := by
  rw [countFrom] at hcount
  have hslots := argumentCount_relativeTo haligned (shared.getD 0)
  have hlen : (whole.relativeTo (shared.getD 0)).slots.length = arguments.length := by rw [← hslots, hcount]
  rw [assigned_eq hlen] at h
  obtain ⟨texts, htexts, htextsLength⟩ := printArguments_ok (forall₂_iff_zip.2 ⟨hlen, fun hx => h _ hx⟩)
  obtain ⟨text, htext⟩ := layout_arguments_ok hlen htextsLength
  exact ⟨text, print_command hform hwhole hcount.symm htexts htext⟩

/-- A node that agrees with the prototypes is printed: a command if it leaves out as many entries as `shared`
says, any other node if nothing is left out. -/
theorem print_ok (haligned : ∀ identifier whole, p.spec.prototype? identifier = some whole →
      Aligned whole.signature whole.offsets) {shared : Option Nat} (h : p.spec.Agrees n)
    (hshared : n.kind ≠ .command → shared = none) (hcounts : p.spec.Counts (countFrom (shared.getD 0)) n) :
    ∃ text, p.print level shared n = .ok (text, none) := by
  induction n using Node.induct generalizing level shared with
  | hstep n ih =>
    obtain ⟨hat, hchildren⟩ := agrees_iff.1 h
    rcases n.isPart_or with hpart | ⟨lines, hform⟩ | ⟨identifier, arguments, hform⟩
    · obtain rfl := hshared fun hkind => by rw [hkind] at hpart; cases hpart
      exact ⟨n.text, print_text (parts_of_agrees h hpart)⟩
    · obtain rfl := hshared fun hkind => by rw [kind, hform] at hkind; cases hkind
      have hlines : ∀ line ∈ lines, ∃ text, p.print (level + 1) none line = .ok (text, none) := by
        intro line hline
        have hchild : line ∈ n.children := by rwa [Node.children, hform]
        refine ih line hchild (hchildren line hchild) (fun _ => rfl) ?_
        rw [getD_none, countFrom_zero]
        exact hat.root hform line hline
      obtain ⟨texts, htexts⟩ := printAll_exists hlines
      exact ⟨_, print_root hform htexts⟩
    · obtain ⟨whole, hwhole, hcount⟩ := hcounts identifier arguments hform
      refine print_command_ok hform hwhole (haligned identifier whole hwhole) hcount ?_
      intro x hx
      have hchild : x.2 ∈ n.children := by
        rw [Node.children, hform]
        exact (of_mem_zip hx).2
      have hfills := hat.command hform hwhole x hx
      rw [Fills] at hfills
      by_cases hsub : x.1.isSubcommand = true
      · rw [if_pos hsub] at hfills ⊢
        exact ih x.2 hchild (hchildren x.2 hchild) (fun hkind => absurd hfills.1 hkind) hfills.2
      · rw [if_neg hsub] at hfills ⊢
        refine ih x.2 hchild (hchildren x.2 hchild) (fun _ => rfl) ?_
        intro identifier arguments hform
        exact absurd (by rw [kind, hform]; rfl) hfills

end Printer

/-! ### Grammars -/

theorem Registry.standard_empty : Registry.standard "" = none := by decide +kernel

theorem Spec.ofTree_ok (h : ofTree t legacy = .ok spec) :
    t.resolve legacy = .ok spec.tree ∧ spec.tree.prototypes = .ok spec.prototypes := by
  obtain ⟨tree, htree, h⟩ := bind_eq_ok h
  obtain ⟨prototypes, hprotos, h⟩ := bind_eq_ok h
  cases h
  exact ⟨htree, hprotos⟩

theorem Spec.ofTree_eq {prototypes : Entries Prototype}
    (htree : t.resolve legacy = .ok tree) (hprotos : tree.prototypes = .ok prototypes) :
    ofTree t legacy = .ok ⟨tree, prototypes⟩ := by
  rw [ofTree, htree]
  change (tree.prototypes >>= _) = _
  rw [hprotos]
  rfl

/-- Reading and naming commands agree. In the tree that a grammar reads, each command has a prototype. It has
an argument for each slot of it if it stands in a block, and for each slot behind the entries that it shares
with the command around it if it stands in the place of a whole command; commands stand nowhere else. Hence
the grammar can print every tree that it reads. -/
theorem Parser.read_commands_match_prototypes {t : CommandTree} {legacy : Bool} {spec : Spec}
    {options : ParseOptions} {source : String} {tree : Node} (ht : t.Regular)
    (hspec : ofTree t legacy = .ok spec)
    (hparse : ({ tree := spec.tree, options } : Parser).parse source = .ok tree) :
    (∀ n ∈ tree.walk, spec.AgreesAt n) ∧
      ∀ indent, ∃ text, ({ spec, indent } : Printer).render tree = .ok text := by
  obtain ⟨hresolve, hprototypes⟩ := ofTree_ok hspec
  have hroot : spec.tree.Regular := ht.resolve hresolve
  have hagrees : spec.Agrees tree :=
    agrees_of_parse hroot hprototypes rfl Registry.standard_empty hparse
  refine ⟨hagrees, fun indent => ?_⟩
  have hkind : tree.kind = .root := by
    rw [parse_eq] at hparse
    obtain ⟨x, -, rfl⟩ := map_ok hparse
    rfl
  obtain ⟨text, htext⟩ : ∃ text, ({ spec, indent } : Printer).print 0 none tree = .ok (text, none) := by
    refine Printer.print_ok ?_ hagrees (fun _ => rfl) ?_
    · exact fun identifier whole hwhole => aligned_of_prototype? hprototypes hwhole
    · intro identifier arguments hform
      rw [kind, hform] at hkind
      cases hkind
  exact ⟨text, by rw [Printer.render, htext]⟩

/-- A command in the place of a whole one that leaves out a word, with one inside that leaves out none. -/
theorem Parser.read_commands_match_prototypes_nested :
    let name : CommandTree := { role := .argument, reader? := some "minecraft:objective" }
    let t : CommandTree := { role := .root, children := [
      ("execute", { role := .literal, children := [
        ("as", { role := .literal, children := [("name", { name with redirect? := some ["execute"] })] }),
        ("run", { role := .literal, redirect? := some [] })] }),
      ("stop", { role := .literal, executable? := some true })] }
    t.Regular ∧ ∃ spec tree, ofTree t false = .ok spec ∧
      ({ tree := spec.tree } : Parser).parse "execute as me run stop" = .ok tree ∧
      (∀ n ∈ tree.walk, spec.AgreesAt n) ∧
      ∀ indent, ∃ text, ({ spec, indent } : Printer).render tree = .ok text := by
  intro name t
  have ht : t.Regular := by decide +kernel
  have hresolve : t.resolve false = .ok (t.carryOut { subcommands := [["execute"], []] }) := by
    simp [t, name, resolve, planAll, plan, resolvedRedirect, isDeadEnd, executable, CommandTree.at?]
    rfl
  obtain ⟨prototypes, hprototypes⟩ : ∃ prototypes,
      (t.carryOut { subcommands := [["execute"], []] }).prototypes = .ok prototypes := exists_ok_of (by cbv)
  obtain ⟨tree, htree⟩ : ∃ tree, Parser.parse { tree := t.carryOut { subcommands := [["execute"], []] } }
      "execute as me run stop" = .ok tree := exists_ok_of (by decide +kernel)
  have hspec := ofTree_eq hresolve hprototypes
  exact ⟨ht, _, tree, hspec, htree, Parser.read_commands_match_prototypes ht hspec htree⟩

end Mcfunction
