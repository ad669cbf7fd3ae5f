import Mcfunction.Proofs.Parallel

/-! Aliases. A command that only redirects to another may be written in place of it. Main statement: what follows the
two names is read alike, whatever it is: the outcomes differ in nothing but places and the first word of the identifier. -/

namespace Mcfunction

open List String Location Cursor Node

def Pairing.offsets (i j : Nat) : Pairing :=
  following (fun l k => l.offset + i = k.offset + j)
    (by
      intro l k h ch
      rw [offset_after, offset_after]
      omega)
    (by
      intro l k l' k' h h'
      omega)
    [] no_tail

/-- No white space stands in a name, so that it is read as one word. -/
def Unbroken (name : String) : Prop := ∀ ch ∈ name.toList, Text.isBlank ch = false

instance (name : String) : Decidable (Unbroken name) :=
  decidableBAll (fun ch => Text.isBlank ch = false) name.toList

/-- The name of a literal command that redirects to another one, which does not redirect and stands for no command in
the place of an argument. -/
structure CommandTree.IsAlias (t : CommandTree) (name target : String) : Prop where
  source : ∃ a, t.children.lookup name = some a ∧ a.role = .literal ∧ a.redirect? = some [target]
  destination : ∃ b, t.children.lookup target = some b ∧ b.role = .literal ∧ b.subcommand = false ∧ b.redirect? = none

namespace Parser

variable {p : Parser} {indent : Option Nat} {name target rest : String} {l : Location} {pending : Pending}

def before (name rest : String) (l : Location) : Cursor := ⟨(name ++ " " ++ rest).toList, l⟩

def behind (name rest : String) (l : Location) : Cursor := ⟨' ' :: rest.toList, l.afterAll name.toList⟩

theorem rest_before (name rest : String) (l : Location) :
    (before name rest l).rest = name.toList ++ ' ' :: rest.toList := by
  rw [before, toList_append, toList_append, List.append_assoc]
  rfl

theorem wordLength_before (hname : Unbroken name) : (before name rest l).wordLength = name.toList.length := by
  rw [wordLength, rest_before]
  exact Parse.value_length hname (.cons rfl)

theorem word_before (hname : Unbroken name) : (before name rest l).word = name := by
  rw [word, wordLength_before hname, rest_before, take_left, ofList_toList]

theorem drop_before (hname : Unbroken name) :
    (before name rest l).drop (before name rest l).wordLength = behind name rest l := by
  rw [wordLength_before hname, Cursor.drop_eq, rest_before, drop_left, take_left]
  rfl

theorem outcome_literal {node : CommandTree} (hname : Unbroken name) (hnode : p.tree.children.lookup name = some node)
    (hrole : node.role = .literal) :
    p.outcome indent (.child p.tree { start := l }) (before name rest l) =
      p.outcome indent (.after node { scope := [name], start := l }) (behind name rest l) := by
  have hliteral : literal? p.tree (before name rest l) = some node := by
    rw [literal?, word_before hname, hnode]
    exact Option.filter_some_pos (decide_eq_true hrole)
  rw [outcome_child, hliteral, drop_before hname, word_before hname]
  rfl

theorem outcome_source {a b : CommandTree} (ha : a.redirect? = some [target])
    (hb : p.tree.children.lookup target = some b) (hsub : b.subcommand = false) :
    p.outcome indent (.after a pending) (behind name rest l) =
      p.outcome indent (.follow b pending) (behind name rest l) := by
  have hat : p.tree.at? [target] = some b := by
    rw [CommandTree.at?, hb]
    rfl
  rw [outcome_after, show (behind name rest l).atLineEnd = false from rfl, ha]
  rw [Bool.false_and, if_neg Bool.false_ne_true]
  dsimp only
  rw [hat]
  dsimp only
  rw [hsub, if_neg Bool.false_ne_true]

theorem outcome_destination {b : CommandTree} (hb : b.redirect? = none) :
    p.outcome indent (.after b pending) (behind name rest l) =
      p.outcome indent (.follow b pending) (behind name rest l) := by
  rw [outcome_after, hb]
  rfl

theorem twin_behind (name target rest : String) (l : Location) :
    (Pairing.offsets target.utf8ByteSize name.utf8ByteSize).Twin (behind name rest l) (behind target rest l) := by
  refine Pairing.Follows.mk (append_nil _).symm ?_ (.inl rfl)
  change (l.afterAll name.toList).offset + _ = (l.afterAll target.toList).offset + _
  rw [offset_afterAll, offset_afterAll, ofList_toList, ofList_toList]
  omega

/-- Aliases are transparent. Whatever stands behind the name of an alias and behind the name of its target, anywhere and
in a block of any indentation, either both commands are refused with the same message, or both are read, with equal
arguments, the same text left over, and identifiers that differ in their first word only. -/
theorem alias_transparent (p : Parser) (indent : Option Nat) (l : Location) {name target : String}
    (halias : p.tree.IsAlias name target) (hname : Unbroken name) (htarget : Unbroken target) (rest : String) :
    let read := fun word : String =>
      (p.children indent p.tree { start := l } ⟨(word ++ " " ++ rest).toList, l⟩).map Step.pair
    (∃ e g, read name = .error e ∧ read target = .error g ∧ g.message = e.message) ∨
      ∃ n k c d words ns ks, read name = .ok (n, c) ∧ read target = .ok (k, d) ∧ d.rest = c.rest ∧
        n.form = .command (":".intercalate (name :: words)) ns ∧
        k.form = .command (":".intercalate (target :: words)) ks ∧ allSame ns ks = true := by
  obtain ⟨a, ha, harole, hredirect⟩ := halias.source
  obtain ⟨b, hb, hbrole, hsub, hnone⟩ := halias.destination
  have hne : name ≠ target := by
    rintro rfl
    rw [Option.some.inj (ha.symm.trans hb), hnone] at hredirect
    cases hredirect
  intro read
  have hread : read name = p.outcome indent (.follow b { scope := [name], start := l }) (behind name rest l) := by
    change p.outcome indent (.child p.tree { start := l }) (before name rest l) = _
    rw [outcome_literal hname ha harole, outcome_source hredirect hb hsub]
  have hread' : read target = p.outcome indent (.follow b { scope := [target], start := l }) (behind target rest l) := by
    change p.outcome indent (.child p.tree { start := l }) (before target rest l) = _
    rw [outcome_literal htarget hb hbrole, outcome_destination hnone]
  have htwin := twin_behind name target rest l
  generalize hm : Pairing.offsets target.utf8ByteSize name.utf8ByteSize = m at htwin
  have hwhole : m.tail = [] := by
    rw [← hm]
    rfl
  have hpending : Pendings m [name] [target] { scope := [name], start := l } { scope := [target], start := l } :=
    ⟨⟨[], rfl, rfl⟩, .nil, fun heq => absurd (cons.inj heq).1 hne⟩
  have hmeet : m.Meet (Commands m [name] [target]) (read name) (read target) := by
    rw [hread, hread']
    exact outcome_meet (by simp) (.follow b hpending) htwin (argumentsMeetFrom (fun _ => hwhole) _)
  cases hn : read name <;> cases hk : read target <;> rw [hn, hk] at hmeet
  · rename_i e g
    exact Or.inl ⟨e, g, rfl, rfl, congrArg Complaint.message hmeet.complaint⟩
  · exact hmeet.elim
  · exact hmeet.elim
  · rename_i x y
    obtain ⟨hcommands, htwin⟩ := hmeet
    obtain ⟨words, ns, ks, hform, hform', hsame⟩ := hcommands.forms
    exact Or.inr ⟨x.1, y.1, x.2, y.2, words, ns, ks, rfl, rfl, htwin.rest_eq hwhole, hform, hform',
      allSame_iff.2 hsame⟩

theorem alias_transparent_tp :
    let p : Parser := { tree := .bundled, options := { multiline := true } }
    let read := fun word : String =>
      (p.children none p.tree { start := .origin } ⟨(word ++ " " ++ "@s ~ ~1 ~").toList, .origin⟩).map Step.pair
    p.tree.IsAlias "tp" "teleport" ∧
      ((∃ e g, read "tp" = .error e ∧ read "teleport" = .error g ∧ g.message = e.message) ∨
        ∃ n k c d words ns ks, read "tp" = .ok (n, c) ∧ read "teleport" = .ok (k, d) ∧ d.rest = c.rest ∧
          n.form = .command (":".intercalate ("tp" :: words)) ns ∧
          k.form = .command (":".intercalate ("teleport" :: words)) ks ∧ allSame ns ks = true) := by
  have halias : CommandTree.bundled.IsAlias "tp" "teleport" := ⟨⟨_, rfl, rfl, rfl⟩, ⟨_, rfl, rfl, rfl, rfl⟩⟩
  exact ⟨halias, alias_transparent _ _ _ halias (by decide) (by decide) _⟩

end Parser

end Mcfunction
