import Mcfunction.Proofs.Position
import Mcfunction.Proofs.Tokens
import Mcfunction.Proofs.Walk

/-! Where nodes and errors lie. A node is placed between two cursors if its span runs from one to the other
and its children are in a row between them. What a reader does at a cursor is stated for both of its
outcomes: it either stays on the line and its value has some property, or it fails with an error whose span
lies on the line too. -/

namespace Mcfunction

/-! ### Nodes in a row -/

/-- Nodes in a row between two cursors: each has the span of what was read of it, its children are in a row
within that, and `P` holds of it and the cursors at its ends. -/
inductive Row (P : Cursor → Cursor → Node → Prop) : Cursor → Cursor → List Node → Prop where
  | nil {c d : Cursor} (h : c.Reaches d) : Row P c d []
  | cons {c first last d : Cursor} {n : Node} {ns : List Node} (h : c.Reaches first)
      (hspan : n.span = ⟨first.location, last.location⟩) (hn : P first last n)
      (inside : Row P first last n.children) (rest : Row P last d ns) : Row P c d (n :: ns)

/-- A node from one cursor to another: a row of its own. -/
structure Placed (P : Cursor → Cursor → Node → Prop) (c d : Cursor) (n : Node) : Prop where
  span : n.span = ⟨c.location, d.location⟩
  holds : P c d n
  inside : Row P c d n.children

section Rows

variable {P Q : Cursor → Cursor → Node → Prop} {b c d e : Cursor} {n m : Node} {ns ms : List Node}

theorem Row.reaches (h : Row P c d ns) : c.Reaches d := by
  induction h with
  | nil h => exact h
  | cons h _ _ _ _ ihinside ihrest => exact h.trans (ihinside.trans ihrest)

theorem Placed.reaches (h : Placed P c d n) : c.Reaches d := h.inside.reaches

theorem Row.before (h : b.Reaches c) (hrow : Row P c d ns) : Row P b d ns := by
  cases hrow with
  | nil h' => exact .nil (h.trans h')
  | cons h' hspan hn inside rest => exact .cons (h.trans h') hspan hn inside rest

theorem Row.append (hns : Row P c d ns) (hms : Row P d e ms) : Row P c e (ns ++ ms) := by
  induction hns with
  | nil h => exact hms.before h
  | cons h hspan hn inside _ _ ih => exact .cons h hspan hn inside (ih hms)

theorem Row.single (h : Placed P c d n) : Row P c d [n] :=
  .cons (.refl c) h.span h.holds h.inside (.nil (.refl d))

theorem Row.snoc (hrow : Row P c d ns) (h : Placed P d e n) : Row P c e (ns ++ [n]) :=
  hrow.append (.single h)

theorem Row.mono (hPQ : ∀ c d n, P c d n → Q c d n) (hrow : Row P c d ns) : Row Q c d ns := by
  induction hrow with
  | nil h => exact .nil h
  | cons h hspan hn _ _ ihinside ihrest => exact .cons h hspan (hPQ _ _ _ hn) ihinside ihrest

theorem Placed.mono (hPQ : ∀ c d n, P c d n → Q c d n) (h : Placed P c d n) : Placed Q c d n :=
  ⟨h.span, hPQ _ _ _ h.holds, h.inside.mono hPQ⟩

theorem Row.placed (hrow : Row P c d ns) (hn : n ∈ ns) :
    ∃ first last, c.Reaches first ∧ Placed P first last n ∧ last.Reaches d := by
  induction hrow with
  | nil => cases hn
  | cons h hspan hm inside rest _ ih =>
    rcases List.mem_cons.1 hn with rfl | hn
    · exact ⟨_, _, h, ⟨hspan, hm, inside⟩, rest.reaches⟩
    · obtain ⟨first, last, hfirst, hplaced, hlast⟩ := ih hn
      exact ⟨first, last, h.trans (inside.reaches.trans hfirst), hplaced, hlast⟩

theorem Placed.within (h : Placed P c d n) (hm : m ∈ n.walk) : ∃ first last, Placed P first last m := by
  refine Node.Within.induct (P := fun n => ∃ c d, Placed P c d n) ?_ ⟨c, d, h⟩ (Node.mem_walk.1 hm)
  rintro m ⟨c, d, hm⟩ child hchild
  obtain ⟨first, last, -, hplaced, -⟩ := hm.inside.placed hchild
  exact ⟨first, last, hplaced⟩

theorem Row.pairwise (hrow : Row P c d ns) : ns.Pairwise fun m n => m.span.stop.offset ≤ n.span.start.offset := by
  induction hrow with
  | nil => exact .nil
  | cons h hspan _ _ rest _ ih =>
    refine List.pairwise_cons.2 ⟨?_, ih⟩
    intro n hn
    obtain ⟨first, last, hfirst, hplaced, -⟩ := rest.placed hn
    rw [hspan, hplaced.span]
    exact hfirst.offset_le

end Rows

/-- Whether nodes of a kind are parts of arguments, and neither commands nor blocks of them. -/
def Kind.isPart (k : Kind) : Bool := k ≠ .root && k ≠ .command

theorem Node.isPart_or (n : Node) : n.kind.isPart = true ∨ (∃ lines, n.form = .root lines) ∨
    ∃ identifier arguments, n.form = .command identifier arguments := by
  rw [kind]
  cases n.form
  case root lines => exact .inr (.inl ⟨lines, rfl⟩)
  case command identifier arguments => exact .inr (.inr ⟨identifier, arguments, rfl⟩)
  all_goals exact .inl rfl

/-- A part of an argument, which lies on one line. -/
structure Plain (c d : Cursor) (n : Node) : Prop where
  line : c.OnLine d
  part : n.kind.isPart = true

theorem Placed.isPart {c d : Cursor} {n : Node} (h : Placed Plain c d n) : ∀ m ∈ n.walk, m.kind.isPart = true := by
  intro m hm
  obtain ⟨_, _, hplaced⟩ := h.within hm
  exact hplaced.holds.part

/-! ### What readers do -/

/-- The error is about a stretch of the line of a cursor, behind it. -/
def SyntaxError.On (b : Cursor) (e : SyntaxError) : Prop :=
  ∃ c d : Cursor, b.OnLine c ∧ c.OnLine d ∧ e.span = ⟨c.location, d.location⟩

theorem Cursor.spanHere_eq (c : Cursor) : ∃ d, c.OnLine d ∧ c.spanHere = ⟨c.location, d.location⟩ := by
  rw [spanHere]
  split
  · exact ⟨c, .refl c, rfl⟩
  · rename_i hrest
    split
    · exact ⟨c, .refl c, rfl⟩
    · rename_i hne
      refine ⟨c.drop 1, onLine_over hne (congrArg List.head? hrest), ?_⟩
      rw [drop_eq, hrest]
      rfl

namespace Parse

variable {α : Type} {b c : Cursor} {Q R : α → Cursor → Prop} {r : Parse α}

/-- An outcome at a cursor: an error on the line of `b`, or a value with a property on the same line. -/
def Good (b : Cursor) (r : Except SyntaxError (Step c α)) (Q : α → Cursor → Prop) : Prop :=
  match r with
  | .error e => e.On b
  | .ok x => c.OnLine x.next ∧ Q x.value x.next

def At (b : Cursor) (r : Parse α) (c : Cursor) (Q : α → Cursor → Prop) : Prop := Good b (r c) Q

theorem At.mono (h : At b r c Q) (hQR : ∀ a d, c.OnLine d → Q a d → R a d) : At b r c R := by
  unfold At Good at h ⊢
  split
  · rename_i he
    rwa [he] at h
  · rename_i hx
    rw [hx] at h
    exact ⟨h.1, hQR _ _ h.1 h.2⟩

theorem At.ok (h : At b r c Q) {x : Step c α} (hx : r c = .ok x) : Q x.value x.next := by
  rw [At, hx] at h
  exact h.2

end Parse

end Mcfunction
