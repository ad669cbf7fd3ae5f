import Mathlib.Tactic.MkIffOfInductiveProp
import Mcfunction.Proofs.Course

/-! Tidy command trees. Where several children may read on, the text of each tells it from those that are tried before
it: a coordinate is no word of a literal, and spaces tell coordinates from entities. Main statement: in a tidy tree the
text of a course is read along the course again. -/

namespace Mcfunction

open List Cursor Entries Option String Text Parse EndsAt CommandTree Bool Leaf

/-! ### Tidy trees -/

/-- How many spaces the text of an argument has, unless it holds a selector. -/
def Leaf.spaces? : Leaf → Option Nat
  | .vector3 => some 2
  | .vector2 => some 1
  | .entity => some 0
  | _ => none

variable {word : String}

namespace CommandTree

open Mcfunction.Parser (isArgument isBlock)

def leaf? (node : CommandTree) : Option Leaf :=
  match Registry.standard (node.reader?.getD "") with
  | some (.leaf l) => some l
  | _ => none

def isLast (node : CommandTree) : Bool := node.children.isEmpty && node.redirect?.isNone

/-- Whether what follows a node has, unless it holds a selector, an odd number of spaces if `k` is odd and an even one
if `k` is even. Fewer than `n` arguments follow. -/
def hasParity : Nat → Nat → CommandTree → Bool
  | 0, _, _ => false
  | n + 1, k, node => (!node.executable || k % 2 = 0) && node.redirect?.isNone && node.children.all fun entry =>
    isArgument entry && match entry.2.leaf?.bind spaces? with
      | some spaces => hasParity n (k + 1 + spaces) entry.2
      | none => false

/-- Whether the text of the argument `b` is no text of the argument `a`, with what follows them: coordinates have two
spaces and entities none, and where something must follow one of two entities the other ends the command. -/
def tellsApart (a b : String × CommandTree) : Bool :=
  match a.2.leaf?, b.2.leaf? with
  | some .vector3, some .entity => b.2.isLast || a.2.isLast && hasParity 3 1 b.2
  | some .entity, some .entity => a.2.isLast && !b.2.executable && b.2.redirect?.isNone
  | _, _ => false

@[mk_iff] structure TidyAt (root node : CommandTree) : Prop where
  names : ∀ name ∈ Entries.keys node.children, name ≠ ""
  words : ∀ word ∈ node.children, word.2.role = .literal → ∀ entry ∈ node.children, isArgument entry = true →
    entry.2.leaf? = some .vector3 ∧ word.1.toList.head?.any isCoordinateStart = false
  blocks : (∃ entry ∈ root.following node, isBlock entry = true) → node.leaf? = some .resourceOrTag
  block : (node.children.filter isBlock).length ≤ 1
  whole : node.subcommand = true → ∀ entry ∈ node.children, isBlock entry = false
  message : node.leaf? = some .message → node.isLast = true
  string : node.leaf? = some .string → node.properties.text? "type" ≠ some "greedy"
  apart : (node.children.filter isArgument).Pairwise fun a b => tellsApart a b = true

instance (root node : CommandTree) : Decidable (root.TidyAt node) :=
  decidable_of_iff _ (tidyAt_iff root node).symm

/-- A tree in which no text can be taken for another, and no command for a comment. -/
structure Tidy (t : CommandTree) : Prop where
  root : ∀ entry ∈ t.children, entry.2.role = .literal ∧ entry.1.toList.head? ≠ some '#'
  nodes : ∀ path node, t.at? path = some node → t.TidyAt node

theorem tidy_iff {t : CommandTree} : t.Tidy ↔
    (∀ entry ∈ t.children, entry.2.role = .literal ∧ entry.1.toList.head? ≠ some '#') ∧
      ∀ path ∈ t.paths, ∀ node ∈ t.at? path, t.TidyAt node :=
  ⟨fun h => ⟨h.root, fun path _ node hnode => h.nodes path node hnode⟩,
    fun h => ⟨h.1, fun path node hnode => h.2 path (mem_paths_of_at? hnode) node hnode⟩⟩

instance (t : CommandTree) : Decidable t.Tidy := decidable_of_iff _ tidy_iff.symm

theorem Tidy.first {tree child : CommandTree} (htidy : tree.Tidy)
    (hchild : tree.children.lookup word = some child) (hword : ∀ ch ∈ word.toList, isBlank ch = false) :
    ∃ ch cs, word.toList = ch :: cs ∧ isBlank ch = false ∧ ch ≠ '#' := by
  have hmem := mem_of_lookup hchild
  obtain ⟨ch, cs, hcs⟩ := exists_cons_of_ne_nil fun hnil =>
    (htidy.nodes [] tree rfl).names word (mem_map.2 ⟨_, hmem, rfl⟩) (toList_eq_nil_iff.1 hnil)
  refine ⟨ch, cs, hcs, hword ch (by rw [hcs]; exact mem_cons_self), ?_⟩
  rintro rfl
  exact (htidy.root _ hmem).2 (by rw [hcs]; rfl)

end CommandTree

/-! ### Lines and their spaces -/

def Marked (text : List Char) : Prop := ∃ u v, text = u ++ '@' :: v ∧ '\n' ∉ u

variable {a text b : List Char} {k j depth n : Nat} {c : Cursor} {x : Step c Node} {value : Node} {l : Leaf}

theorem Marked.append (h : Marked a) (b : List Char) : Marked (a ++ b) := by
  obtain ⟨u, v, rfl, hline⟩ := h
  exact ⟨u, v ++ b, by simp, hline⟩

theorem Marked.behind (h : Marked b) (ha : '\n' ∉ a) : Marked (a ++ b) := by
  obtain ⟨u, v, rfl, hline⟩ := h
  exact ⟨a ++ u, v, by simp, by simp [ha, hline]⟩

theorem marked_of_starts (h : StartsAt (fun ch => ch = '@') text) : Marked text := by
  obtain ⟨ch, cs, rfl, hch⟩ := h
  exact ⟨[], cs, by simpa using hch, not_mem_nil⟩

/-- The text holds a selector in its first line, or is one line with a number of spaces. -/
def Counted (k : Nat) (text : List Char) : Prop := Marked text ∨ Spaced k text

theorem Counted.append (ha : Counted j a) (hb : Counted k b) : Counted (j + k) (a ++ b) := by
  rcases ha with ha | ha
  · exact .inl (ha.append b)
  · exact hb.imp (fun hb => hb.behind ha.noLine) ha.append

theorem Leaf.Shape.counted (h : l.Shape text) (hk : l.spaces? = some k) : Counted k text := by
  cases l <;> cases hk
  · exact .inr h.2
  · exact .inr h
  · exact h.1.imp_left marked_of_starts

theorem takeWhile_atLineEnd (htext : '\n' ∉ text) (hc : c.atLineEnd = true) :
    ∃ u, (text ++ c.rest).takeWhile (· ≠ '\n') = text ++ u ∧ Spaced 0 u := by
  rw [atLineEnd] at hc
  split at hc
  · rename_i hrest
    rw [hrest]
    exact ⟨[], by rw [takeWhile_line htext nil, append_nil], spaced_nil⟩
  · rename_i hrest
    rw [hrest]
    exact ⟨[], by rw [takeWhile_line htext (cons rfl), append_nil], spaced_nil⟩
  · rename_i hrest
    rw [hrest]
    refine ⟨['\r'], ?_, rfl, by decide, by decide⟩
    rw [append_cons text '\r', takeWhile_line ?_ (cons rfl)]
    simpa using htext
  · cases hc

/-- A line without selectors that is passed over to its end has as many spaces as were passed over, and a line with a
selector is never passed over so. -/
theorem Counted.eq_of_line {tail other : List Char} (h : Counted k text)
    (htail : LineEnd tail) (hother : Spaced j other) (hc : c.atLineEnd = true) (heq : text ++ tail = other ++ c.rest) :
    k = j := by
  obtain ⟨u, hu, hspaced⟩ := takeWhile_atLineEnd hother.noLine hc
  rw [← heq] at hu
  have htotal := hother.append hspaced
  rcases h with ⟨v, w, rfl, hv⟩ | h
  · refine absurd ?_ htotal.noTarget
    have hpos : ∀ ch ∈ v, decide (ch ≠ '\n') = true := fun ch hch => decide_eq_true fun hfeed => hv (hfeed ▸ hch)
    rw [← hu, List.append_assoc, takeWhile_append_of_pos hpos]
    simp
  · rw [takeWhile_line h.noLine htail] at hu
    have hcount := h.spaces
    rw [hu, htotal.spaces] at hcount
    omega

namespace Parser

variable {owner : CommandTree} {entry : String × CommandTree} {more text : List Char}

variable {p : Parser} {q : Printer} {ws : List String} {ns : List Node} {t tail : List Char} {b : Bool}

/-! ### Where the text of a course begins -/

theorem Course.starts (hnames : ∀ name ∈ Entries.keys owner.children, name ≠ "")
    (h : Course p q depth (.child owner) ws ns t b) : StartsAt (fun ch => !isSpace ch) t := by
  cases h with
  | @literal _ child word _ _ _ _ hchild _ hword _ =>
    have hne : word.toList ≠ [] := by
      intro hnil
      exact hnames word (mem_map.2 ⟨_, mem_of_lookup hchild, rfl⟩) (toList_eq_nil_iff.1 hnil)
    refine (StartsAt.of_all hne fun ch hch => ?_).append _
    exact not_isSpace_of_unblank (hword ch hch)
  | value _ _ _ _ hreturns _ _ => exact hreturns.starts.append _

theorem Course.opens (h : Course p q depth (.follow owner) ws ns t b) :
    (∃ u, t = ' ' :: u) ∨ (∃ u, t = ':' :: '\n' :: u) ∧ ∃ entry ∈ owner.children, isBlock entry = true := by
  cases h with
  | block hentry hblock _ hvalue => exact .inr ⟨hvalue.opens, _, hentry, hblock⟩
  | separated _ => exact .inl ⟨_, rfl⟩

def Spot.node : Spot → CommandTree
  | .child owner => owner
  | .follow owner => owner
  | .after node => node

variable {node : CommandTree}

theorem Course.behind (h : Course p q depth (.after node) ws ns t b) :
    t = [] ∧ node.executable = true ∨ (∃ u, t = ' ' :: u) ∨
      (∃ u, t = ':' :: '\n' :: u) ∧ ∃ entry ∈ p.tree.following node, isBlock entry = true := by
  cases h with
  | complete hexec => exact .inl ⟨rfl, hexec⟩
  | next hred rest =>
    rw [following_of_none hred]
    exact .inr rest.opens
  | aliased hred htarget hsub rest =>
    rw [following_of_alias hred htarget hsub]
    exact .inr rest.opens
  | subcommand => exact .inr (.inl ⟨_, rfl⟩)

theorem Course.ends_or_follows (h : Course p q depth (.after node) ws ns t b) (hred : node.redirect? = none) :
    node.executable = true ∧ t = [] ∨ Course p q depth (.follow node) ws ns t b := by
  cases h with
  | complete hexec => exact .inl ⟨hexec, rfl⟩
  | next _ rest => exact .inr rest
  | aliased hsome | subcommand hsome =>
    rw [hred] at hsome
    cases hsome

theorem Course.children_ne_nil (h : Course p q depth (.follow owner) ws ns t b) : owner.children ≠ [] := by
  cases h with
  | block hentry => exact ne_nil_of_mem hentry
  | separated rest =>
    cases rest with
    | literal hchild => exact ne_nil_of_mem (mem_of_lookup hchild)
    | value hentry => exact ne_nil_of_mem hentry

theorem Course.last (h : Course p q depth (.after node) ws ns t b) (hlast : node.isLast = true) : t = [] := by
  obtain ⟨hchildren, hred⟩ := and_eq_true_iff.1 hlast
  rcases h.ends_or_follows (isNone_iff_eq_none.1 hred) with ⟨-, ht⟩ | h
  · exact ht
  · exact absurd (isEmpty_iff.1 hchildren) h.children_ne_nil

theorem leaf?_eq_some_iff (hreg : p.registry = .standard) :
    node.leaf? = some l ↔ p.registry (node.reader?.getD "") = some (.leaf l) := by
  rw [leaf?]
  split <;> simp_all

theorem leaf?_of_isBlock (h : isBlock entry = true) : entry.2.leaf? = none := by
  rw [leaf?, of_decide_eq_true h]
  rfl

theorem Course.counted (hreg : p.registry = .standard)
    (h : Course p q depth (.after node) ws ns t b) (hparity : node.hasParity n k = true) :
    ∃ m, Counted m t ∧ m % 2 = k % 2 := by
  induction n generalizing k node ws ns t b with
  | zero => cases hparity
  | succ n ih =>
    rw [hasParity, and_eq_true, and_eq_true, isNone_iff_eq_none, List.all_eq_true] at hparity
    obtain ⟨⟨hends, hred⟩, hchildren⟩ := hparity
    rcases h.ends_or_follows hred with ⟨hexec, rfl⟩ | h
    · rw [hexec] at hends
      have heven : k % 2 = 0 := by simpa using hends
      exact ⟨0, .inr spaced_nil, heven.symm⟩
    · cases h with
      | block hentry hblock =>
        have hchild := hchildren _ hentry
        rw [leaf?_of_isBlock hblock, and_eq_true] at hchild
        cases hchild.2
      | separated rest =>
        cases rest with
        | literal hchild hrole =>
          have harg := (and_eq_true_iff.1 (hchildren _ (mem_of_lookup hchild))).1
          rw [isArgument, hrole] at harg
          cases harg
        | value hentry _ hleaf _ _ hshape rest =>
          have hchild := (and_eq_true_iff.1 (hchildren _ hentry)).2
          rw [(leaf?_eq_some_iff hreg).2 hleaf] at hchild
          split at hchild
          · rename_i spaces hspaces
            obtain ⟨m, hm, hmod⟩ := ih rest hchild
            refine ⟨1 + (spaces + m), ?_, by omega⟩
            exact Counted.append (.inr spaced_space) ((hshape.counted hspaces).append hm)
          · cases hchild

/-! ### Children that are tried in vain -/

variable {indent : Option Nat} {pending : Pending} {r : Node × Cursor}

theorem atLineEnd_of_last (hlast : node.isLast = true)
    (h : p.outcome indent (.after node pending) c = .ok r) : c.atLineEnd = true := by
  obtain ⟨hchildren, hred⟩ := and_eq_true_iff.1 hlast
  rw [isNone_iff_eq_none] at hred
  by_contra hend
  rw [outcome_after, eq_false_iff.2 hend, hred] at h
  rw [outcome_follow, if_pos hchildren] at h
  cases h

theorem argumentOutcome_leaf (hreg : p.registry = .standard) (hleaf : node.leaf? = some l) :
    p.argumentOutcome indent node c = (l.read node.properties c).map Step.pair := by
  rw [argumentOutcome_eq, (leaf?_eq_some_iff hreg).1 hleaf]

theorem attempt_leaf (hreg : p.registry = .standard) (hleaf : entry.2.leaf? = some l)
    (h : p.attempt indent pending c entry = .ok r) : ∃ x, l.read entry.2.properties c = .ok x ∧
      p.outcome indent (.after entry.2 (pending.argument entry.1 x.value)) x.next = .ok r := by
  rw [attempt, argumentOutcome_leaf hreg hleaf] at h
  cases hx : l.read entry.2.properties c with
  | error e =>
    rw [hx] at h
    cases h
  | ok x =>
    rw [hx] at h
    exact ⟨x, rfl, h⟩

/-- Coordinates are no part of a line that has no spaces or begins with a selector. -/
theorem not_coordinates (hx : vector3 false c = .ok x)
    (htext : StartsAt (fun ch => ch = '@') text ∨ Spaced 0 text) (hc : c.rest = text ++ tail) (htail : LineEnd tail) :
    False := by
  obtain ⟨s, hs, hspaced⟩ := vector3_passes false c x hx
  rw [hc] at hs
  rcases htext with ⟨ch, cs, rfl, hch⟩ | htext
  · cases s with
    | nil => cases hspaced.spaces
    | cons ch' s =>
      obtain rfl : ch = '@' := by simpa using hch
      rw [cons_append, cons_append, cons.injEq] at hs
      exact hspaced.noTarget (hs.1 ▸ mem_cons_self)
  · have hprefix : s <+: text := by
      rcases append_eq_append_iff.1 hs with ⟨u, rfl, hu⟩ | ⟨u, rfl, -⟩
      · cases u with
        | nil => exact ⟨[], by simp⟩
        | cons ch u =>
          have hch : ch = '\n' := by simpa using htail ch (by rw [hu]; rfl)
          exact absurd (by simp [hch]) hspaced.noLine
      · exact prefix_append s u
    have hcount := hprefix.sublist.count_le ' '
    rw [hspaced.spaces, htext.spaces] at hcount
    omega

theorem entity_stops {properties : Properties} (htext : Accepts anyEntity text (EndsAt isBreak) fun _ => True)
    (hx : entity properties c = .ok x) (hc : c.rest = text ++ tail) (htail : EndsAt isBreak tail) :
    x.next.rest = tail := by
  obtain ⟨y, hy, hrest, -⟩ := htext c tail hc htail
  obtain ⟨z, w, hz, hw, rfl⟩ := Reader.bind_ok hx
  cases hy.symm.trans hz
  rw [checkTarget] at hw
  split at hw
  · cases hw
  · split at hw
    · cases hw
    · cases hw
      exact hrest

/-- Before the text of a course, a child that is told apart from the one on the course is tried in vain. -/
theorem attempt_apart {a : String × CommandTree} (hreg : p.registry = .standard) (htidy : p.tree.TidyAt entry.2)
    (hapart : tellsApart a entry = true) (hleaf : entry.2.leaf? = some l) (hshape : l.Shape text)
    (rest : Course p q depth (.after entry.2) ws ns t b) (hc : c.rest = text ++ (t ++ tail)) (htail : LineEnd tail) :
    ∃ e, p.attempt indent pending c a = .error e := by
  cases hr : p.attempt indent pending c a with
  | error e => exact ⟨e, rfl⟩
  | ok r =>
    exfalso
    rw [tellsApart, hleaf] at hapart
    split at hapart
    -- coordinates would end behind too many spaces, or, where they end the line, behind an even number of them
    · rename_i ha heq
      cases heq
      obtain ⟨x, hx, hrest⟩ := attempt_leaf hreg ha hr
      rcases or_eq_true_iff.1 hapart with hlast | hodd
      · rw [rest.last hlast] at hc
        exact not_coordinates hx hshape.1 hc htail
      · obtain ⟨hlast, hodd⟩ := and_eq_true_iff.1 hodd
        obtain ⟨m, hm, hmod⟩ := rest.counted hreg hodd
        obtain ⟨s, hs, hspaced⟩ := vector3_passes false c x hx
        have hcounted : Counted (0 + m) (text ++ t) := (hshape.counted rfl).append hm
        rw [hc, ← List.append_assoc] at hs
        have htwo := hcounted.eq_of_line htail hspaced (atLineEnd_of_last hlast hrest) hs
        omega
    -- the other entity would end in the same place, before a space, but it has to end the line
    · rename_i ha heq
      cases heq
      obtain ⟨x, hx, hrest⟩ := attempt_leaf hreg ha hr
      simp only [and_eq_true, not_eq_true'] at hapart
      have hspace : ∃ u, t = ' ' :: u := by
        rcases rest.behind with ⟨-, hexec⟩ | hspace | ⟨-, hblock⟩
        · rw [hapart.1.2] at hexec
          cases hexec
        · exact hspace
        · rw [htidy.blocks hblock] at hleaf
          cases hleaf
      obtain ⟨u, rfl⟩ := hspace
      have hnext := entity_stops hshape.2 hx hc (cons rfl)
      have hend := atLineEnd_of_last hapart.1.1 hrest
      rw [atLineEnd, hnext] at hend
      cases hend
    · cases hapart

/-! ### Reading along a course -/

theorem firstOk_append {α β ε : Type} (combine : ε → ε → ε) {f : α → Except ε β} {as bs : List α} {a : α} {x : β}
    (has : ∀ y ∈ as, ∃ e, f y = .error e) (ha : f a = .ok x) : firstOk combine f (as ++ a :: bs) = some (.ok x) := by
  induction as with
  | nil => rw [nil_append, firstOk, ha]
  | cons y as ih =>
    obtain ⟨e, he⟩ := has y mem_cons_self
    rw [cons_append, firstOk, he, ih fun z hz => has z (mem_cons_of_mem y hz)]

theorem Course.breaks (htidy : p.tree.TidyAt node) (hleaf : node.leaf? ≠ some .resourceOrTag)
    (h : Course p q depth (.after node) ws ns t b) (htail : LineEnd tail) : EndsAt isBreak (t ++ tail) := by
  rcases h.behind with ⟨rfl, -⟩ | ⟨u, rfl⟩ | ⟨-, hblock⟩
  · exact lineEnd_break htail
  · exact cons rfl
  · exact absurd (htidy.blocks hblock) hleaf

theorem behindLocation_of_colon (u : List Char) : BehindLocation (':' :: '\n' :: u) where
  noPath := cons (by decide)
  noSecond rest hrest := by
    cases hrest
    exact cons (by decide)

theorem Course.stops (htidy : p.tree.TidyAt node) (hleaf : node.leaf? = some l)
    (h : Course p q depth (.after node) ws ns t b) (htail : LineEnd tail) : l.Stops node.properties (t ++ tail) := by
  have hbreaks : l ≠ .resourceOrTag → EndsAt isBreak (t ++ tail) := by
    intro hne
    refine h.breaks htidy ?_ htail
    rw [hleaf]
    exact fun heq => hne (some.inj heq)
  cases l with
  | message =>
    rw [h.last (htidy.message hleaf)]
    exact htail
  | string =>
    rw [Stops, StringEnd, if_neg (htidy.string hleaf)]
    exact hbreaks noConfusion
  | resource => exact behindLocation_of_break (hbreaks noConfusion)
  | resourceOrTag =>
    rcases h.behind with ⟨rfl, -⟩ | ⟨u, rfl⟩ | ⟨⟨u, rfl⟩, -⟩
    · exact behindLocation_of_break (lineEnd_break htail)
    · exact behindLocation_of_break (cons rfl)
    · exact behindLocation_of_colon _
  | _ => exact hbreaks noConfusion

theorem word_of_rest (hword : ∀ ch ∈ word.toList, isBlank ch = false)
    (hc : c.rest = word.toList ++ more) (hmore : EndsAt isBreak more) :
    c.word = word ∧ (c.drop c.wordLength).rest = more := by
  rw [Cursor.word, rest_drop, wordLength, hc, value_length hword hmore, take_left, drop_left, ofList_toList]
  exact ⟨rfl, rfl⟩

theorem literal?_eq_none {root : CommandTree} (htidy : root.TidyAt owner) (hentry : entry ∈ owner.children)
    (harg : isArgument entry = true) (hleaf : entry.2.leaf? = some l) (hshape : l.Shape text)
    (hc : c.rest = text ++ more) : literal? owner c = none := by
  rw [literal?, filter_eq_none_iff]
  intro child hchild hrole
  obtain ⟨hvector, hstart⟩ := htidy.words _ (mem_of_lookup hchild) (by simpa using hrole) entry hentry harg
  cases hleaf.symm.trans hvector
  obtain ⟨ch, cs, rfl, hch⟩ := hshape.1
  have hword : c.word.toList = (ch :: cs ++ more).take c.wordLength := by rw [Cursor.word, hc, toList_ofList]
  cases hlen : c.wordLength with
  | zero =>
    rw [hlen] at hword
    exact htidy.names _ (mem_map.2 ⟨_, mem_of_lookup hchild, rfl⟩) (toList_eq_nil_iff.1 hword)
  | succ length =>
    rw [hword, hlen] at hstart
    exact false_ne_true (hstart.symm.trans hch)

theorem outcome_word {child : CommandTree} (hchild : owner.children.lookup word = some child)
    (hrole : child.role = .literal) (hword : ∀ ch ∈ word.toList, isBlank ch = false)
    (hc : c.rest = word.toList ++ more) (hmore : EndsAt isBreak more) :
    ∃ d, d.rest = more ∧ ∀ (p : Parser) (indent : Option Nat) (pending : Pending),
      p.outcome indent (.child owner pending) c = p.outcome indent (.after child (pending.literal word)) d := by
  obtain ⟨hword, hrest⟩ := word_of_rest hword hc hmore
  refine ⟨_, hrest, fun p indent pending => ?_⟩
  have hliteral : literal? owner c = some child := by
    rw [literal?, hword, hchild]
    exact filter_some_pos (decide_eq_true hrole)
  rw [outcome_child, hliteral, hword]

theorem outcome_value (hreg : p.registry = .standard) (howner : p.tree.TidyAt owner)
    (htidy : p.tree.TidyAt entry.2) (hentry : entry ∈ owner.children) (harg : isArgument entry = true)
    (hleaf : entry.2.leaf? = some l) (hreturns : l.Returns entry.2.properties value)
    (hshape : l.Shape value.text.toList) (rest : Course p q depth (.after entry.2) ws ns t b)
    (hc : c.rest = value.text.toList ++ (t ++ tail)) (htail : LineEnd tail) :
    ∃ m d, value.same m = true ∧ d.rest = t ++ tail ∧ ∀ indent pending r,
      p.outcome indent (.after entry.2 (pending.argument entry.1 m)) d = .ok r →
        p.outcome indent (.child owner pending) c = .ok r := by
  obtain ⟨x, hx, hrest, hsame⟩ := hreturns.accepts c _ hc (rest.stops htidy hleaf htail)
  refine ⟨x.value, x.next, hsame, hrest, fun indent pending r hr => ?_⟩
  have hattempt : p.attempt indent pending c entry = .ok r := by
    rw [attempt, argumentOutcome_leaf hreg hleaf, hx]
    exact hr
  obtain ⟨as, bs, hsplit⟩ := append_of_mem (mem_filter.2 ⟨hentry, harg⟩)
  have hvain : ∀ a ∈ as, ∃ e, p.attempt indent pending c a = .error e := by
    intro a ha
    have hapart := howner.apart
    rw [hsplit, pairwise_append] at hapart
    exact attempt_apart hreg htidy (hapart.2.2 a ha entry mem_cons_self) hleaf hshape rest hc htail
  rw [outcome_child, literal?_eq_none howner hentry harg hleaf hshape hc, hsplit]
  rw [firstOk_append _ hvain hattempt]
  rfl

theorem gap_of_rest (hc : c.rest = ' ' :: more) (hmore : EndsAt (fun ch => !isSpace ch) more) :
    ∃ d, gap c = .ok d ∧ d.rest = more := by
  refine ⟨c.drop 1, ?_, by rw [rest_drop, hc]; rfl⟩
  have hrest : (c.drop 1).rest = more := by rw [rest_drop, hc]; rfl
  have hpeek : ¬((c.drop 1).peek = some ' ' ∨ (c.drop 1).peek = some '\t') := by
    rw [Cursor.peek, hrest]
    rintro (h | h)
    · cases hmore _ h
    · cases hmore _ h
  rw [gap, separator, dif_pos (by rw [Cursor.peek, hc]; rfl)]
  rw [if_neg hpeek]
  rfl

theorem atLineEnd_of_lineEnd (hc : LineEnd c.rest) : c.atLineEnd = true := by
  rw [atLineEnd]
  cases hrest : c.rest with
  | nil => rfl
  | cons ch cs =>
    have hch : ch = '\n' := by simpa using hc ch (by rw [hrest]; rfl)
    subst hch
    rfl

theorem argumentOutcome_block (hreg : p.registry = .standard) (hblock : isBlock entry = true) :
    p.argumentOutcome indent entry.2 c = p.blockArgument indent c := by
  rw [argumentOutcome_eq, of_decide_eq_true hblock, hreg]
  rfl

theorem outcome_block (hreg : p.registry = .standard) (howner : p.tree.TidyAt owner)
    (hentry : entry ∈ owner.children) (hblock : isBlock entry = true) (hexec : entry.2.executable = true)
    (hvalue : CopiesBlock p q depth value text) (hc : c.rest = text ++ tail) (htail : LineEnd tail)
    (hcloses : Closes (q.indent * (depth + 1)) tail) : ∃ m d, value.same m = true ∧ d.Meets tail ∧ ∀ pending : Pending,
      p.outcome (q.indentAt depth) (.follow owner pending) c = .ok ((pending.argument entry.1 m).finish d, d) := by
  obtain ⟨m, d, hread, hsame, hmeets⟩ := hvalue.reads c tail hc hcloses
  have hend : d.atLineEnd = true := by
    rcases hmeets with hrest | ⟨-, hrest⟩
    · exact atLineEnd_of_lineEnd (hrest ▸ htail)
    · exact atLineEnd_of_lineEnd (hrest ▸ nil)
  refine ⟨m, d, hsame, hmeets, fun pending => ?_⟩
  have hattempt : p.attempt (q.indentAt depth) pending c entry = .ok ((pending.argument entry.1 m).finish d, d) := by
    rw [attempt, argumentOutcome_block hreg hblock, hread]
    dsimp only
    rw [outcome_after, hend, hexec, Bool.and_true, if_pos rfl]
  have honly : owner.children.filter isBlock = [entry] := by
    have hlen := howner.block
    have hmem : entry ∈ owner.children.filter isBlock := mem_filter.2 ⟨hentry, hblock⟩
    rcases hfilter : owner.children.filter isBlock with _ | ⟨other, _ | ⟨another, others⟩⟩
    · rw [hfilter] at hmem
      cases hmem
    · rw [hfilter] at hmem
      rw [mem_singleton.1 hmem]
    · rw [hfilter] at hlen
      simp at hlen
  obtain ⟨more, rfl⟩ := hvalue.opens
  rw [outcome_follow, if_neg (by rw [List.isEmpty_iff]; exact ne_nil_of_mem hentry), blockOutcomes,
    if_pos (by rw [Cursor.peek, hc]; rfl), honly, firstOk, hattempt]

/-- The text of a course is read as a command with the same words and with arguments that are the same, wherever the
line ends behind it. Behind a block, what ends the block has to stand there. -/
def ReadsBack (p : Parser) (q : Printer) (depth : Nat) (spot : Spot) (ws : List String) (ns : List Node) (t : List Char)
    (b : Bool) : Prop :=
  ∀ pending c tail, c.rest = t ++ tail → LineEnd tail → (b = true → Closes (q.indent * (depth + 1)) tail) →
    ∃ n d, p.outcome (q.indentAt depth) (spot.stage pending) c = .ok (n, d) ∧ d.Meets tail ∧
      ∃ ms, AllSame ns ms ∧ n.form = .command (":".intercalate (pending.scope ++ ws)) (pending.arguments ++ ms)

theorem same_command {n m : Node} {identifier : String} {ms : List Node} (hn : n.form = .command identifier ns)
    (hm : m.form = .command identifier ms) (h : AllSame ns ms) : n.same m = true := by
  rw [Node.same_iff, Node.children, Node.children, hn, hm]
  exact ⟨by simp [Form.sameData, h.length_eq], h⟩

theorem atLineEnd_of_space (hc : c.rest = ' ' :: more) : c.atLineEnd = false := by
  rw [atLineEnd, hc]
  rfl

theorem Course.atLineEnd (h : Course p q depth (.follow owner) ws ns t b) (hc : c.rest = t ++ tail) :
    c.atLineEnd = false := by
  rcases h.opens with ⟨u, rfl⟩ | ⟨⟨u, rfl⟩, -⟩
  · exact atLineEnd_of_space hc
  · rw [atLineEnd, hc]
    rfl

section

variable (hreg : p.registry = .standard) (hroot : p.tree.Regular) (htidy : p.tree.Tidy)

include hreg hroot htidy

theorem Course.reads {spot : Spot} {path : Path} (h : Course p q depth spot ws ns t b)
    (hspot : p.tree.at? path = some spot.node) : ReadsBack p q depth spot ws ns t b := by
  induction h generalizing path with
  | @literal owner child word ws ns t b hchild hrole hword rest ih =>
    intro pending c tail hc htail hcloses
    have hat : p.tree.at? (path ++ [word]) = some child := (at?_snoc hspot).trans hchild
    have hleaf : child.leaf? = none := by
      have hreader : child.reader? = none := by
        by_contra hreader
        cases hrole.symm.trans (hroot.readers _ _ hat hreader)
      rw [leaf?, hreader, getD_none, Registry.standard_empty]
    rw [List.append_assoc] at hc
    have hbreaks := rest.breaks (htidy.nodes _ _ hat) (by rw [hleaf]; exact (some_ne_none _).symm) htail
    obtain ⟨d, hd, houtcome⟩ := outcome_word hchild hrole hword hc hbreaks
    obtain ⟨n, e, hn, hmeets, ms, hms, hform⟩ := ih hat (pending.literal word) d tail hd htail hcloses
    refine ⟨n, e, (houtcome p _ pending).trans hn, hmeets, ms, hms, ?_⟩
    rw [hform, Pending.literal, List.append_assoc]
    rfl
  | @value owner entry l value ws ns t b hentry harg hleaf _ hreturns hshape rest ih =>
    intro pending c tail hc htail hcloses
    have hat : p.tree.at? (path ++ [entry.1]) = some entry.2 := hroot.keyed.at?_child hspot hentry
    rw [List.append_assoc] at hc
    obtain ⟨m, d, hsame, hd, houtcome⟩ := outcome_value hreg (htidy.nodes _ _ hspot) (htidy.nodes _ _ hat)
      hentry harg ((leaf?_eq_some_iff hreg).2 hleaf) hreturns hshape rest hc htail
    obtain ⟨n, e, hn, hmeets, ms, hms, hform⟩ := ih hat (pending.argument entry.1 m) d tail hd htail hcloses
    refine ⟨n, e, houtcome _ _ _ hn, hmeets, m :: ms, .cons hsame hms, ?_⟩
    rw [hform, Pending.argument, List.append_assoc, List.append_assoc]
    rfl
  | @block owner entry value text hentry hblock hexec hvalue =>
    intro pending c tail hc htail hcloses
    obtain ⟨m, d, hsame, hmeets, houtcome⟩ := outcome_block hreg (htidy.nodes _ _ hspot) hentry hblock
      hexec hvalue hc htail (hcloses rfl)
    exact ⟨_, d, houtcome pending, hmeets, [m], .cons hsame .nil, rfl⟩
  | @separated owner ws ns t b rest ih =>
    intro pending c tail hc htail hcloses
    have hstarts := rest.starts (htidy.nodes _ _ hspot).names
    obtain ⟨d, hgap, hd⟩ := gap_of_rest hc (hstarts.endsAt tail)
    obtain ⟨n, e, hn, hmeets, ms, hms, hform⟩ := ih hspot pending d tail hd htail hcloses
    refine ⟨n, e, ?_, hmeets, ms, hms, hform⟩
    have hcolon : c.peek ≠ some ':' := by
      rw [Cursor.peek, hc]
      exact fun heq => absurd (some.inj heq) (by decide)
    change p.outcome (q.indentAt depth) (.follow owner pending) c = _
    rw [outcome_follow, if_neg (mt List.isEmpty_iff.1 rest.separated.children_ne_nil), blockOutcomes, if_neg hcolon]
    dsimp only
    rw [atLineEnd_of_space hc, Parser.separated, hgap]
    exact hn
  | @complete node hexec =>
    intro pending c tail hc htail _
    refine ⟨pending.finish c, c, ?_, .inl hc, [], .nil, ?_⟩
    · change p.outcome (q.indentAt depth) (.after node pending) c = _
      rw [outcome_after, atLineEnd_of_lineEnd (hc ▸ htail), hexec, Bool.and_true, if_pos rfl]
    · rw [append_nil, append_nil]
      rfl
  | @next node ws ns t b hred rest ih =>
    intro pending c tail hc htail hcloses
    obtain ⟨n, e, hn, hmeets, ms, hms, hform⟩ := ih hspot pending c tail hc htail hcloses
    refine ⟨n, e, ?_, hmeets, ms, hms, hform⟩
    change p.outcome (q.indentAt depth) (.after node pending) c = _
    rw [outcome_after, rest.atLineEnd hc, Bool.false_and, hred]
    exact hn
  | @aliased node target owner ws ns t b hred htarget hsub rest ih =>
    intro pending c tail hc htail hcloses
    obtain ⟨n, e, hn, hmeets, ms, hms, hform⟩ := ih htarget pending c tail hc htail hcloses
    refine ⟨n, e, ?_, hmeets, ms, hms, hform⟩
    change p.outcome (q.indentAt depth) (.after node pending) c = _
    rw [outcome_after, rest.atLineEnd hc, Bool.false_and, if_neg Bool.false_ne_true, hred]
    dsimp only
    rw [htarget]
    dsimp only
    rw [if_neg (by rw [hsub]; exact Bool.false_ne_true)]
    exact hn
  | @subcommand node target owner inner ws ns t b hred htarget hsub hinner rest ih =>
    intro pending c tail hc htail hcloses
    obtain ⟨d, hgap, hd⟩ := gap_of_rest hc ((rest.starts (htidy.nodes _ _ htarget).names).endsAt tail)
    obtain ⟨n, e, hn, hmeets, ms, hms, hform⟩ :=
      ih htarget { scope := target, start := d.location } d tail hd htail hcloses
    refine ⟨(around pending (n, e)).1, e, ?_, hmeets, [n], .cons (same_command hinner hform hms) .nil, rfl⟩
    change p.outcome (q.indentAt depth) (.after node pending) c = .ok (around pending (n, e))
    rw [outcome_after, atLineEnd_of_space hc, Bool.false_and, hred]
    dsimp only
    rw [htarget]
    dsimp only
    rw [if_pos hsub, if_neg Bool.false_ne_true, Parser.separated, hgap]
    change (p.outcome _ (Spot.stage (.child owner) _) d).map _ = _
    rw [hn]
    rfl

end

end Parser

end Mcfunction
