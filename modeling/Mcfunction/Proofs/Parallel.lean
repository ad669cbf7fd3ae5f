import Mcfunction.Proofs.Alike

/-! Commands side by side. A command is read alike at twins: every choice along the tree is made in the same way, and the
words read so far show up in nothing but the identifier. Blocks are read alike at twins if no further lines stand behind
the second text. -/

namespace Mcfunction

open List Token Cursor

variable {m : Pairing} {p : Parser} {scope scope' : Path}

namespace Pairing

variable {c d : Cursor}

namespace Twin

theorem wordLength_eq (h : m.Twin c d) : d.wordLength = c.wordLength := h.eq_of_lineBound value_onLine.bound

theorem flat_word (h : m.Twin c d) : '\n' ∉ c.rest.take c.wordLength ∧ '\n' ∉ d.rest.take c.wordLength :=
  h.flat value_onLine.bound value_flat

theorem word_eq (h : m.Twin c d) : d.word = c.word := by
  rw [Cursor.word, Cursor.word, h.wordLength_eq, h.take_eq h.flat_word]

theorem drop_word (h : m.Twin c d) : m.Twin (c.drop c.wordLength) (d.drop d.wordLength) := by
  rw [h.wordLength_eq]
  exact h.drop h.flat_word

theorem atComment_eq (h : m.Twin c d) : d.atComment = c.atComment := by
  have hrest := h.skipSpaces.peek_iff (show '#' ≠ '\n' ∧ '#' ≠ '\r' by decide)
  rw [Cursor.peek, Cursor.peek, Cursor.skipSpaces, Cursor.skipSpaces, Cursor.rest_drop, Cursor.rest_drop,
    indentation, indentation, drop_length_takeWhile, drop_length_takeWhile] at hrest
  exact decide_eq_decide.2 hrest

theorem atEnd_eq (h : m.Twin c d) (hm : m.tail.head? ≠ some '\n') : d.atEnd = c.atEnd := by
  have hrests := m.rests h
  rw [atEnd, atEnd]
  generalize c.rest = cs at hrests
  generalize d.rest = ds at hrests
  cases hrests with
  | same => rfl
  | further _ rest htail => exact absurd (by rw [htail]; rfl) hm
  | returned text a b => cases text <;> rfl

end Twin

theorem furthest_errors {e g e' g' : SyntaxError} (h : m.Errors e g) (h' : m.Errors e' g') :
    m.Errors (e.furthest e') (g.furthest g') := by
  rw [SyntaxError.furthest, SyntaxError.furthest]
  by_cases hlt : e.span.start.offset < e'.span.start.offset
  · rw [if_pos hlt, if_pos ((m.offset_lt h.span.start h'.span.start).1 hlt)]
    exact h'
  · rw [if_neg hlt, if_neg fun hg => hlt ((m.offset_lt h.span.start h'.span.start).2 hg)]
    exact h

end Pairing

namespace Parser

variable {c d : Cursor}

/-! ### Commands -/

/-- Commands of which the same part has been read. Their scopes begin with two given ones; if these are equal, the
commands begin at corresponding locations. -/
structure Pendings (m : Pairing) (scope scope' : Path) (a b : Pending) : Prop where
  words : ∃ words, a.scope = scope ++ words ∧ b.scope = scope' ++ words
  arguments : Forall₂ m.Nodes a.arguments b.arguments
  start : scope = scope' → m.Rel a.start b.start

/-- Commands with equal arguments whose identifiers go on alike behind two scopes. -/
structure Commands (m : Pairing) (scope scope' : Path) (n k : Node) : Prop where
  forms : ∃ words ns ks, n.form = .command (":".intercalate (scope ++ words)) ns ∧
    k.form = .command (":".intercalate (scope' ++ words)) ks ∧ Parse.AllSame ns ks
  span : scope = scope' → m.Spans n.span k.span

theorem Commands.nodes {n k : Node} (h : Commands m scope scope n k) : m.Nodes n k where
  same := by
    obtain ⟨words, ns, ks, hn, hk, hsame⟩ := h.forms
    rw [Node.same_iff, Node.children, Node.children, hn, hk]
    exact ⟨by simp [Form.sameData, hsame.length_eq], hsame⟩
  span := h.span rfl

section Scopes

variable {a b : Pending}

theorem Pendings.literal (h : Pendings m scope scope' a b) (word : String) :
    Pendings m scope scope' (a.literal word) (b.literal word) where
  words := by
    obtain ⟨words, ha, hb⟩ := h.words
    refine ⟨words ++ [word], ?_, ?_⟩
    · rw [← append_assoc, ← ha]
      rfl
    · rw [← append_assoc, ← hb]
      rfl
  arguments := h.arguments
  start := h.start

theorem Pendings.argument (h : Pendings m scope scope' a b) (name : String) {n k : Node} (hn : m.Nodes n k) :
    Pendings m scope scope' (a.argument name n) (b.argument name k) where
  words := (h.literal name).words
  arguments := rel_append h.arguments (.cons hn .nil)
  start := h.start

theorem Pendings.finish (h : Pendings m scope scope' a b) (htwin : m.Twin c d) :
    Commands m scope scope' (a.finish c) (b.finish d) where
  forms := by
    obtain ⟨words, ha, hb⟩ := h.words
    exact ⟨words, a.arguments, b.arguments, ha ▸ rfl, hb ▸ rfl, h.arguments.imp fun _ _ hn => hn.same⟩
  span := fun heq => .of_rel (h.start heq) htwin.location

theorem unexpectedHere_errors (h : m.Twin c d) (hscopes : scope = [] ↔ scope' = []) (hp : Pendings m scope scope' a b)
    (owner : CommandTree) : m.Errors (unexpectedHere owner a c) (unexpectedHere owner b d) where
  complaint := by
    obtain ⟨words, ha, hb⟩ := hp.words
    have hempty : b.scope = [] ↔ a.scope = [] := by rw [ha, hb, append_eq_nil_iff, append_eq_nil_iff, hscopes]
    change unexpected b.scope d.word owner = unexpected a.scope c.word owner
    rw [h.word_eq]
    exact if_congr hempty rfl rfl
  span := .of_rel h.location h.drop_word.location

end Scopes

theorem allSame_of_nodes {ns ks : List Node} (h : Forall₂ m.Nodes ns ks) : Parse.AllSame ns ks :=
  h.imp fun _ _ hn => hn.same

theorem commentLine_nodes (h : m.Twin c d) : Forall₂ m.Nodes (p.commentLine c) (p.commentLine d) := by
  rw [commentLine, commentLine, h.skipSpaces.lineRest_eq]
  split
  · refine .cons ⟨Node.same_of_leaf (decide_eq_true rfl) rfl rfl, ?_⟩ .nil
    exact .of_rel h.skipSpaces.location h.skipSpaces.skipLine.location
  · exact .nil

/-- Two scopes that commands begin with. A message only tells whether there is one. -/
structure Scopes where
  left : Path
  right : Path
  nil_iff : left = [] ↔ right = []

end Parser

namespace Pairing

open Mcfunction.Parser

def likeness (m : Pairing) : Likeness Scopes where
  Cursors := m.Twin
  Errors := m.Errors
  Nodes := m.Nodes
  Pendings s := Pendings m s.left s.right
  Commands s := Commands m s.left s.right
  inner scope := ⟨scope, scope, Iff.rfl⟩
  word_eq := Twin.word_eq
  behindWord := Twin.drop_word
  atLineEnd_eq := Twin.atLineEnd_eq
  peek_iff h := h.peek_iff
  overChar h := h.drop_one
  refused h _ := ⟨rfl, h.spanHere⟩
  unexpected {_ _ s _ _} h hp owner := unexpectedHere_errors h s.nil_iff hp owner
  furthest := furthest_errors
  literal hp word := hp.literal word
  argument hp hn name := hp.argument name hn
  finish hp h := hp.finish h
  start h _ := ⟨⟨[], by simp⟩, .nil, fun _ => h.location⟩
  nodes hn := hn.nodes

theorem likeness_singles : m.likeness.Singles := fun l properties _ _ h => (l.read_agree properties h).meet

theorem likeness_linewise (hm : m.tail.head? ≠ some '\n') : m.likeness.Linewise p p.options (Forall₂ m.Nodes) where
  multiline_eq := rfl
  newline := m.newline hm
  atEnd_eq := fun h => h.atEnd_eq hm
  atComment_eq := Twin.atComment_eq
  indentation_eq := Twin.indentation_eq
  spaces := Twin.skipSpaces
  line := Twin.skipLine
  nil := .nil
  cons hn hlines := .cons hn.nodes hlines
  comment h hlines := rel_append (commentLine_nodes h) hlines
  root h h' hlines := ⟨Node.same_iff.2 ⟨decide_eq_true hlines.length_eq, allSame_of_nodes hlines⟩,
    .of_rel h.location h'.location⟩

end Pairing

namespace Parser

open Pairing

variable {c d : Cursor} {indent : Option Nat}

theorem outcome_meet (hscopes : scope = [] ↔ scope' = []) {stage stage' : Stage}
    (hstages : m.likeness.Stages ⟨scope, scope', hscopes⟩ stage stage') (h : m.Twin c d)
    (hargs : m.likeness.ArgumentsFrom p p.options c) :
    m.Meet (Commands m scope scope') (p.outcome indent stage c) (p.outcome indent stage' d) :=
  Likeness.outcome_meet hstages h hargs

theorem command_meet (indent : Option Nat) (h : m.Twin c d) (hargs : m.likeness.ArgumentsFrom p p.options c) :
    m.Meet m.Nodes (p.outcome indent (.child p.tree { start := c.location }) c)
      (p.outcome indent (.child p.tree { start := d.location }) d) :=
  (Likeness.command_meet indent h hargs).mono fun _ _ hn => hn.nodes

theorem blockOutcome_meet (hm : m.tail = []) (indent : Option Nat) (first : Bool) (h : m.Twin c d)
    (hargs : m.likeness.ArgumentsFrom p p.options c) :
    m.Meet (Forall₂ m.Nodes) (p.blockOutcome indent first c) (p.blockOutcome indent first d) :=
  (likeness_linewise (by simp [hm])).blockOutcome_meet indent first h hargs

theorem argumentsMeetFrom (hm : p.options.multiline = true → m.tail = []) (c : Cursor) :
    m.likeness.ArgumentsFrom p p.options c := by
  refine fun _ _ _ h => Likeness.arguments_of_blocks likeness_singles (fun indent c d h hargs => ?_) h
  cases hmulti : p.options.multiline with
  | true => exact (likeness_linewise (by simp [hm hmulti])).blockArgument_meet h hargs
  | false =>
    rw [blockArgument, blockArgument, options_under, hmulti]
    exact Likeness.meet_refused h _

end Parser

end Mcfunction
