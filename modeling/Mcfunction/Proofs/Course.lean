import Mcfunction.Proofs.Agreement
import Mcfunction.Proofs.Spaces

/-! Written commands. The script of a command is its way through the command tree, with the words and values that it
takes along and the text that they make; the course of a command is a script that can also be read back. Main
statement: the printer writes a command as the text of its script, or of its course. -/

namespace Mcfunction

open List Option String Printer CommandTree Slot Way Text

/-- The indentation of the lines at some depth of blocks; the outermost lines are given none. -/
def Printer.indentAt (q : Printer) (depth : Nat) : Option Nat := if depth = 0 then none else some (q.indent * depth)

/-- What ends a block of lines indented by `width`: the end of the text, or a line that is indented less and is no
comment. -/
def Closes (width : Nat) (tail : List Char) : Prop :=
  tail = [] ∨ tail = ['\n'] ∨ ∃ n ch rest, tail = '\n' :: (List.replicate n ' ' ++ ch :: rest) ∧ n < width ∧
    isBlank ch = false ∧ ch ≠ '#'

/-- The cursor is before the tail, or behind the line feed that ends the text. -/
def Cursor.Meets (d : Cursor) (tail : List Char) : Prop := d.rest = tail ∨ tail = ['\n'] ∧ d.rest = []

namespace Parser

/-- A place in a command tree: before one of the children of a node, where its children follow, or behind a node. -/
inductive Spot where
  | child (owner : CommandTree)
  | follow (owner : CommandTree)
  | after (node : CommandTree)

def Spot.stage : Spot → Pending → Stage
  | .child owner => .child owner
  | .follow owner => .follow owner
  | .after node => .after node

/-- A block that is written as a text and read back from it, in front of what ends it. -/
structure CopiesBlock (p : Parser) (q : Printer) (depth : Nat) (value : Node) (text : List Char) : Prop where
  kind : value.kind = .root
  opens : ∃ more, text = ':' :: '\n' :: more
  prints : q.print (depth + 1) none value = .ok (ofList text, none)
  reads : ∀ c tail, c.rest = text ++ tail → Closes (q.indent * (depth + 1)) tail →
    ∃ m d, p.blockArgument (q.indentAt depth) c = .ok (m, d) ∧ value.same m = true ∧ d.Meets tail

/-- The course of a command from a place on: the words and the arguments it takes along, their text, and whether a block
ends it. -/
inductive Course (p : Parser) (q : Printer) (depth : Nat) :
    Spot → List String → List Node → List Char → Bool → Prop where
  | literal {owner child word ws ns t b} (hchild : owner.children.lookup word = some child)
      (hrole : child.role = .literal) (hword : ∀ ch ∈ word.toList, isBlank ch = false)
      (rest : Course p q depth (.after child) ws ns t b) :
      Course p q depth (.child owner) (word :: ws) ns (word.toList ++ t) b
  | value {owner entry l value ws ns t b} (hentry : entry ∈ owner.children) (harg : isArgument entry = true)
      (hleaf : p.registry (entry.2.reader?.getD "") = some (.leaf l)) (hparts : ∀ m ∈ value.walk, m.kind.isPart = true)
      (hreturns : l.Returns entry.2.properties value)
      (hshape : l.Shape value.text.toList) (rest : Course p q depth (.after entry.2) ws ns t b) :
      Course p q depth (.child owner) (entry.1 :: ws) (value :: ns) (value.text.toList ++ t) b
  | block {owner entry value text} (hentry : entry ∈ owner.children) (hblock : isBlock entry = true)
      (hexec : entry.2.executable = true) (hvalue : CopiesBlock p q depth value text) :
      Course p q depth (.follow owner) [entry.1] [value] text true
  | separated {owner ws ns t b} (rest : Course p q depth (.child owner) ws ns t b) :
      Course p q depth (.follow owner) ws ns (' ' :: t) b
  | complete {node} (hexec : node.executable = true) : Course p q depth (.after node) [] [] [] false
  | next {node ws ns t b} (hred : node.redirect? = none) (rest : Course p q depth (.follow node) ws ns t b) :
      Course p q depth (.after node) ws ns t b
  | aliased {node path target ws ns t b} (hred : node.redirect? = some path)
      (htarget : p.tree.at? path = some target) (hsub : target.subcommand = false)
      (rest : Course p q depth (.follow target) ws ns t b) : Course p q depth (.after node) ws ns t b
  | subcommand {node path target n ws ns t b} (hred : node.redirect? = some path)
      (htarget : p.tree.at? path = some target) (hsub : target.subcommand = true)
      (hform : n.form = .command (":".intercalate (path ++ ws)) ns)
      (rest : Course p q depth (.child target) ws ns t b) :
      Course p q depth (.after node) [subcommandName] [n] (' ' :: t) b

variable {p : Parser} {q : Printer} {depth : Nat} {ws : List String} {ns : List Node} {t text : List Char} {b : Bool}
  {way way' innerWay : Way} {spot : Spot} {n value : Node}

/-! ### Writing -/

open CommandTree (Leads Way Named Aligned)

/-- The script of a command from a place on: the words and the arguments it takes along, and their text. Of the values
`V` holds, and a block has the text that `B` says. -/
inductive Script (root : CommandTree) (V : Node → Prop) (B : Node → List Char → Prop) :
    Spot → List String → List Node → List Char → Prop where
  | literal {owner child word ws ns t} (hchild : owner.children.lookup word = some child)
      (hrole : child.role = .literal) (hword : ∀ ch ∈ word.toList, isBlank ch = false)
      (rest : Script root V B (.after child) ws ns t) : Script root V B (.child owner) (word :: ws) ns (word.toList ++ t)
  | value {owner entry value ws ns t} (hentry : entry ∈ owner.children) (harg : isArgument entry = true)
      (hreader : entry.2.reader? ≠ none) (hparts : ∀ m ∈ value.walk, m.kind.isPart = true) (hvalue : V value)
      (rest : Script root V B (.after entry.2) ws ns t) :
      Script root V B (.child owner) (entry.1 :: ws) (value :: ns) (value.text.toList ++ t)
  | block {owner entry value text} (hentry : entry ∈ owner.children) (hblock : isBlock entry = true)
      (hexec : entry.2.executable = true) (hvalue : B value text) :
      Script root V B (.follow owner) [entry.1] [value] text
  | separated {owner ws ns t} (rest : Script root V B (.child owner) ws ns t) :
      Script root V B (.follow owner) ws ns (' ' :: t)
  | complete {node} (hexec : node.executable = true) : Script root V B (.after node) [] [] []
  | follows {node owner ws ns t} (hfollows : owner.children = root.following node)
      (rest : Script root V B (.follow owner) ws ns t) : Script root V B (.after node) ws ns t
  | subcommand {node path target n ws ns t} (hto : root.RedirectsTo node path target)
      (hform : n.form = .command (":".intercalate (path ++ ws)) ns) (rest : Script root V B (.child target) ws ns t) :
      Script root V B (.after node) [subcommandName] [n] (' ' :: t)

/-- Behind a way, the words and the arguments are written as a text. -/
def WrittenAs (q : Printer) (depth : Nat) (way : Way) (ws : List String) (ns : List Node) (isFirst : Bool)
    (t : List Char) : Prop :=
  ∃ whole entries texts, q.spec.prototype? (":".intercalate (way.scope ++ ws)) = some whole ∧
    Aligned whole.signature whole.offsets ∧ whole.signature = way.signature ++ entries ∧
    (entries.filterMap Entry.slot?).length = ns.length ∧
    q.printArguments (depth + 1) none (entries.filterMap Entry.slot?) ns = .ok (texts, none) ∧
    layout isFirst entries (texts.zip (ns.map (·.kind = .root))) = .ok (ofList t)

theorem WrittenAs.print {shared : Option Nat} (h : WrittenAs q depth way ws ns true t)
    (hform : n.form = .command (":".intercalate (way.scope ++ ws)) ns)
    (hshared : shared.getD 0 = way.signature.length) : q.print (depth + 1) shared n = .ok (ofList t, none) := by
  obtain ⟨whole, entries, texts, hwhole, haligned, hsig, hlen, hprint, hlayout⟩ := h
  have hdrop : whole.signature.drop (shared.getD 0) = entries := by rw [hsig, hshared, drop_left]
  have hrelative : (whole.relativeTo (shared.getD 0)).signature = entries := by
    rw [Prototype.relativeTo, hshared, hsig]
    rw [List.length_append, Nat.min_eq_left (Nat.le_add_right _ _), drop_left]
  have hslots : (whole.relativeTo (shared.getD 0)).slots = entries.filterMap Entry.slot? := by
    rw [Prototype.slots_relativeTo, hdrop]
  refine print_command hform hwhole ?_ (hslots ▸ hprint) (hrelative ▸ hlayout)
  rw [Prototype.argumentCount_relativeTo haligned, hslots, hlen]

theorem writtenAs_end (hwhole : q.spec.prototype? (":".intercalate way.scope) = some way.prototype)
    (haligned : Aligned way.signature way.offsets) : WrittenAs q depth way [] [] false [] :=
  ⟨way.prototype, [], [], by rwa [append_nil], haligned, (append_nil _).symm, rfl,
    by simp [printArguments], by rw [layout]⟩

theorem WrittenAs.literal {word : String} (h : WrittenAs q depth way' ws ns false t)
    (hscope : way'.scope = way.scope ++ [word]) (hsig : way'.signature = way.signature ++ [.literal word])
    (isFirst : Bool) :
    WrittenAs q depth way (word :: ws) ns isFirst ((if isFirst then [] else [' ']) ++ (word.toList ++ t)) := by
  obtain ⟨whole, entries, texts, hwhole, haligned, hwholeSignature, hlen, hprint, hlayout⟩ := h
  refine ⟨whole, .literal word :: entries, texts, ?_, haligned, ?_, hlen, hprint, ?_⟩
  · rwa [hscope, List.append_assoc] at hwhole
  · rw [hwholeSignature, hsig, List.append_assoc]
    rfl
  · rw [layout, hlayout]
    cases isFirst <;> simp [String.append_assoc]

theorem WrittenAs.argument {name : String} {slot : Slot}
    (h : WrittenAs q depth way' ws ns false t) (hscope : way'.scope = way.scope ++ [name])
    (hsig : way'.signature = way.signature ++ [.argument slot])
    (hvalue : q.print (depth + 1) (if slot.isSubcommand then some (q.spec.sharedEntries slot) else none) value =
      .ok (ofList text, none)) (isFirst : Bool) : WrittenAs q depth way (name :: ws) (value :: ns) isFirst
      ((if isFirst || value.kind = .root then [] else [' ']) ++ (text ++ t)) := by
  obtain ⟨whole, entries, texts, hwhole, haligned, hwholeSignature, hlen, hprint, hlayout⟩ := h
  refine ⟨whole, .argument slot :: entries, ofList text :: texts, ?_, haligned, ?_, ?_, ?_, ?_⟩
  · rwa [hscope, List.append_assoc] at hwhole
  · rw [hwholeSignature, hsig, List.append_assoc]
    rfl
  · exact congrArg Nat.succ hlen
  · change q.printArguments (depth + 1) none (slot :: entries.filterMap Entry.slot?) (value :: ns) = _
    rw [printArguments, hvalue]
    change (q.printArguments _ (if slot.isSubcommand then none else none) _ _ >>= _) = _
    rw [ite_self, hprint]
    rfl
  · rw [map_cons, zip_cons_cons, layout, hlayout]
    cases isFirst <;> cases decide (value.kind = .root) <;> simp [String.append_assoc]

/-- Behind a way to a place, the words and the arguments are written as a text. Before a child a space comes first,
unless the child begins the command. -/
def Spot.Written (q : Printer) (depth : Nat) (ws : List String) (ns : List Node) (t : List Char) : Spot → Prop
  | .child owner => ∀ way node, Leads q.spec.tree way node → owner.children ⊆ q.spec.tree.following node →
      ∀ isFirst, WrittenAs q depth way ws ns isFirst ((if isFirst then [] else [' ']) ++ t)
  | .follow owner => ∀ way node, Leads q.spec.tree way node → owner.children ⊆ q.spec.tree.following node →
      WrittenAs q depth way ws ns false t
  | .after node => ∀ way, Leads q.spec.tree way node → way.scope ≠ [] → WrittenAs q depth way ws ns false t

theorem Spot.Written.print (h : (Spot.child q.spec.tree).Written q depth ws ns t)
    (hred : q.spec.tree.redirect? = none) (hform : n.form = .command (":".intercalate ws) ns) :
    q.print (depth + 1) none n = .ok (ofList t, none) := by
  have hwritten := h {} q.spec.tree .start (by rw [following_of_none hred]; exact Subset.refl _) true
  exact hwritten.print hform rfl

section

variable (htree : p.tree = q.spec.tree) (hreg : p.registry "" = none) (hroot : q.spec.tree.Regular)
  (hspec : q.spec.tree.prototypes = .ok q.spec.prototypes)

include hroot hspec

variable {node target : CommandTree}

theorem writtenAs_complete (hway : Leads q.spec.tree way node) (hne : way.scope ≠ [])
    (hexec : node.executable = true) : WrittenAs q depth way [] [] false [] :=
  writtenAs_end (Named.lookup hroot hspec ⟨way, node, hway, hne, .inl ⟨hexec, rfl⟩⟩) hway.sound.aligned

omit hspec in
theorem signature_step {entry : String × CommandTree}
    (hway : Leads q.spec.tree way node) (hentry : entry ∈ q.spec.tree.following node)
    (hreader : entry.2.reader? ≠ none) :
    (way.step entry.1 entry.2).signature = way.signature ++ [.argument ⟨way.scope ++ [entry.1], entry.2.reader?⟩] := by
  obtain ⟨path, hpath⟩ := (hway.step hentry).at? hroot
  rw [step, if_neg (by rw [hroot.readers path entry.2 hpath hreader]; decide)]

theorem writtenAs_subcommand {path : Path}
    (hway : Leads q.spec.tree way node) (hne : way.scope ≠ []) (hto : q.spec.tree.RedirectsTo node path target)
    (hinner : Leads q.spec.tree innerWay target) (hscope : innerWay.scope = path)
    (hform : n.form = .command (":".intercalate (path ++ ws)) ns) (h : WrittenAs q depth innerWay ws ns true t) :
    WrittenAs q depth way [subcommandName] [n] false (' ' :: t) := by
  have hkind : n.kind ≠ .root := by
    rw [Node.kind, hform]
    exact Kind.noConfusion
  have hend : WrittenAs q depth way.subcommand [] [] false [] :=
    writtenAs_end (Named.lookup hroot hspec ⟨way, node, hway, hne, .inr ⟨⟨path, target, hto⟩, rfl⟩⟩)
      hway.sound.subcommand.aligned
  have hprint : q.print (depth + 1) (some path.length) n = .ok (ofList t, none) :=
    h.print (by rw [hscope, hform]) (by rw [hinner.sound.length_signature, hscope]; rfl)
  have hwritten : WrittenAs q depth way [subcommandName] [n] false _ :=
    hend.argument rfl rfl
      (by rw [if_pos (isSubcommand_added _), Spec.sharedEntries_added (hway.get? hroot) hto.1, hprint]) false
  rwa [decide_eq_false hkind, append_nil] at hwritten

theorem Script.written {V : Node → Prop} {B : Node → List Char → Prop}
    (h : Script q.spec.tree V B spot ws ns t) (hblocks : ∀ value text, B value text → value.kind = .root ∧
      q.print (depth + 1) none value = .ok (ofList text, none)) : spot.Written q depth ws ns t := by
  induction h with
  | @literal owner child word ws ns t hchild hrole _ _ ih =>
    intro way node hway hsub
    refine (ih _ (hway.step (hsub (Entries.mem_of_lookup hchild))) (by simp)).literal (step_scope _ _ _) ?_
    rw [step, if_pos hrole]
  | @value owner entry value ws ns t hentry _ hreader hparts _ _ ih =>
    intro way node hway hsub isFirst
    have hslot : (⟨way.scope ++ [entry.1], entry.2.reader?⟩ : Slot).isSubcommand = false := by
      rw [isSubcommand, isNone_eq_false_iff.2 (isSome_iff_ne_none.2 hreader)]
      rfl
    have hkind : value.kind ≠ .root := by
      intro hkind
      have hpart := hparts value (Node.mem_walk.2 (.self value))
      rw [hkind] at hpart
      cases hpart
    have hwritten := (ih _ (hway.step (hsub hentry)) (by simp)).argument (step_scope _ _ _)
      (signature_step hroot hway (hsub hentry) hreader)
      (by rw [hslot, print_text hparts, ofList_toList]; rfl) isFirst
    rwa [decide_eq_false hkind, Bool.or_false] at hwritten
  | @block owner entry value text hentry hblock hexec hvalue =>
    intro way node hway hsub
    obtain ⟨hkind, hprints⟩ := hblocks value text hvalue
    have hblock : entry.2.reader? = some ArgumentReader.blockName := by simpa [isBlock] using hblock
    have hreader : entry.2.reader? ≠ none := by
      rw [hblock]
      exact some_ne_none _
    have hslot : (⟨way.scope ++ [entry.1], entry.2.reader?⟩ : Slot).isSubcommand = false := by
      rw [hblock]
      rfl
    have hend : WrittenAs q depth (way.step entry.1 entry.2) [] [] false [] :=
      writtenAs_complete hroot hspec (hway.step (hsub hentry)) (by simp) hexec
    have hwritten := hend.argument (step_scope _ _ _) (signature_step hroot hway (hsub hentry) hreader)
      (by rw [hslot]; exact hprints) false
    rwa [decide_eq_true hkind, append_nil] at hwritten
  | separated rest ih => exact fun way node hway hsub => ih way node hway hsub false
  | complete hexec => exact fun way hway hne => writtenAs_complete hroot hspec hway hne hexec
  | follows hfollows rest ih => exact fun way hway _ => ih way _ hway (hfollows ▸ Subset.refl _)
  | @subcommand node path target n ws ns t hto hform rest ih =>
    intro way hway hne
    obtain ⟨innerWay, hinner, hscope⟩ := hroot.leads_at? hto.2.1
    refine writtenAs_subcommand hroot hspec hway hne hto hinner hscope hform ?_
    exact ih innerWay target hinner (hroot.children_subset_following hto.2.1) true

include htree hreg

omit hroot hspec in
theorem Course.script (h : Course p q depth spot ws ns t b) :
    Script q.spec.tree (fun _ => True) (CopiesBlock p q depth) spot ws ns t := by
  induction h with
  | literal hchild hrole hword _ ih => exact .literal hchild hrole hword ih
  | @value owner entry l value ws ns t b hentry harg hleaf hparts _ _ _ ih =>
    refine .value hentry harg ?_ hparts trivial ih
    intro hnone
    rw [hnone, getD_none, hreg] at hleaf
    cases hleaf
  | block hentry hblock hexec hvalue => exact .block hentry hblock hexec hvalue
  | separated _ ih => exact .separated ih
  | complete hexec => exact .complete hexec
  | next hred _ ih => exact .follows (following_of_none hred).symm ih
  | aliased hred htarget hsub _ ih =>
    exact .follows (following_of_alias hred (htree ▸ htarget) hsub).symm ih
  | subcommand hred htarget hsub hform _ ih => exact .subcommand ⟨hred, htree ▸ htarget, hsub⟩ hform ih

theorem Course.written (h : Course p q depth spot ws ns t b) : spot.Written q depth ws ns t :=
  (h.script htree hreg).written hroot hspec fun _ _ hvalue => ⟨hvalue.kind, hvalue.prints⟩

end

end Parser

end Mcfunction
