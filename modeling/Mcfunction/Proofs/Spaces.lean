import Mcfunction.Proofs.Arguments

/-! Spaces in arguments. A reader of coordinates moves over as many spaces as stand between them, and over no mark of a
selector; a reader of names moves over neither. So the spaces of a line tell which arguments it can hold. -/

namespace Mcfunction

open List Reader Token

/-- A text with a number of spaces, on one line, and without the mark of a selector. -/
structure Spaced (k : Nat) (text : List Char) : Prop where
  spaces : text.count ' ' = k
  noTarget : '@' ∉ text
  noLine : '\n' ∉ text

theorem Spaced.append {k m : Nat} {a b : List Char} (ha : Spaced k a) (hb : Spaced m b) : Spaced (k + m) (a ++ b) where
  spaces := by rw [count_append, ha.spaces, hb.spaces]
  noTarget := by
    rw [mem_append, not_or]
    exact ⟨ha.noTarget, hb.noTarget⟩
  noLine := by
    rw [mem_append, not_or]
    exact ⟨ha.noLine, hb.noLine⟩

theorem spaced_nil : Spaced 0 [] := ⟨rfl, not_mem_nil, not_mem_nil⟩

theorem spaced_space : Spaced 1 [' '] := ⟨rfl, by decide, by decide⟩

/-- A token on one line, without spaces and marks of selectors. -/
structure Token.Sparse (t : Token) : Prop where
  noSpace : t.Avoids ' '
  noTarget : t.Avoids '@'
  noLine : t.Avoids '\n'

namespace Parse

variable {α β : Type} {r t : Parse α} {k m n : Nat}

def Passes (r : Parse α) (k : Nat) : Prop :=
  ∀ c x, r c = .ok x → ∃ text, c.rest = text ++ x.next.rest ∧ Spaced k text

theorem Passes.pure (v : α) : Passes (pure v) 0 := by
  intro c x hx
  cases hx
  exact ⟨[], rfl, spaced_nil⟩

theorem Passes.failAt (span : Span) (complaint : Complaint) : Passes (failAt span complaint : Parse α) k := nofun

theorem Passes.bind {f : α → Parse β} (hr : Passes r k) (hf : ∀ v, Passes (f v) m) : Passes (r >>= f) (k + m) := by
  intro c y hy
  obtain ⟨x, z, hx, hz, rfl⟩ := bind_ok hy
  obtain ⟨a, ha, hspaced⟩ := hr c x hx
  obtain ⟨b, hb, hspaced'⟩ := hf x.value x.next z hz
  exact ⟨a ++ b, by rw [ha, hb, append_assoc]; rfl, hspaced.append hspaced'⟩

theorem Passes.ite {p : Prop} [Decidable p] (hr : Passes r k) (ht : Passes t k) : Passes (if p then r else t) k := by
  split
  · exact hr
  · exact ht

theorem Passes.spanned (h : Passes r k) : Passes (spanned r) k := by
  intro c y hy
  obtain ⟨_, z, hx, hz, rfl⟩ := bind_ok hy
  cases hx
  obtain ⟨x, w, hx, hw, rfl⟩ := bind_ok hz
  obtain ⟨_, v, hl, hv, rfl⟩ := bind_ok hw
  cases hl
  cases hv
  exact h c x hx

theorem drop_passes {c d : Cursor} (hd : d = c.drop n) (hspace : ' ' ∉ c.rest.take n)
    (htarget : '@' ∉ c.rest.take n) (hline : '\n' ∉ c.rest.take n) :
    ∃ text, c.rest = text ++ d.rest ∧ Spaced 0 text := by
  subst hd
  refine ⟨c.rest.take n, ?_, count_eq_zero.2 hspace, htarget, hline⟩
  rw [Cursor.rest_drop, take_append_drop]

/-! ### Coordinates -/

theorem coordinateToken_passes : Passes coordinateToken 0 := by
  intro c x hx
  rw [coordinateToken] at hx
  dsimp only at hx
  split at hx
  · cases hx
  · cases hx
    refine drop_passes rfl ?_ ?_ (coordinate_flat _)
    · exact coordinate_avoids (number_avoids (by decide) (by decide) (by decide)) (by decide) (by decide) _
    · exact coordinate_avoids (number_avoids (by decide) (by decide) (by decide)) (by decide) (by decide) _

theorem numberAt_passes (text : String) (span : Span) (integral : Bool) : Passes (numberAt text span integral) 0 := by
  unfold numberAt
  split
  · exact .pure _
  · exact .failAt _ _

theorem coordinate_passes (integral : Bool) : Passes (coordinate integral) 0 := by
  refine coordinateToken_passes.spanned.bind (m := 0) ?_
  rintro ⟨⟨kind, text⟩, span⟩
  cases text with
  | none => exact .pure _
  | some text => exact .ite (.failAt _ _) ((numberAt_passes _ _ _).bind fun _ => .pure _)

theorem consume_true {text : String} {c : Cursor} {x : Step c Bool} (h : consume text c = .ok x) (hx : x.value = true) :
    c.rest = text.toList ++ x.next.rest := by
  obtain ⟨_, y, hy, hz, rfl⟩ := bind_ok h
  cases hy
  split at hz
  · rename_i hprefix
    obtain ⟨_, w, hw, hv, rfl⟩ := bind_ok hz
    cases hw
    cases hv
    obtain ⟨more, hmore⟩ := isPrefixOf_iff_prefix.1 hprefix
    change c.rest = text.toList ++ (c.drop text.toList.length).rest
    rw [Cursor.rest_drop, ← hmore, drop_left]
  · cases hz
    cases hx

theorem nextCoordinate_passes (integral : Bool) : Passes (nextCoordinate integral) 1 := by
  intro c y hy
  obtain ⟨x, z, hx, hz, rfl⟩ := bind_ok hy
  split at hz
  · rename_i hspace
    obtain ⟨text, htext, hspaced⟩ := coordinate_passes integral _ z hz
    refine ⟨' ' :: text, ?_, spaced_space.append hspaced⟩
    rw [consume_true hx hspace, htext]
    rfl
  · cases hz

theorem checkLocal_passes (allowLocal : Bool) (span : Span) (cs : List Node) :
    Passes (checkLocal allowLocal span cs) 0 :=
  .ite (.failAt _ _) (.ite (.failAt _ _) (.pure _))

theorem vector3_passes (integral : Bool) : Passes (vector3 integral) 2 := by
  refine (Passes.spanned ?_).bind fun _ => (checkLocal_passes _ _ _).bind fun _ => .pure _
  refine (coordinate_passes integral).bind (m := 2) fun _ => ?_
  refine (nextCoordinate_passes integral).bind (m := 1) fun _ => ?_
  exact (nextCoordinate_passes integral).bind fun _ => .pure _

theorem vector2_passes (integral : Bool) : Passes (vector2 integral) 1 := by
  refine (Passes.spanned ?_).bind fun _ => (checkLocal_passes _ _ _).bind fun _ => .pure _
  refine (coordinate_passes integral).bind (m := 1) fun _ => ?_
  exact (nextCoordinate_passes integral).bind fun _ => .pure _

/-! ### Names -/

theorem token?_passes {t : Token} (ht : t.Sparse) : Passes (token? t) 0 := by
  intro c y hy
  obtain ⟨_, z, hx, hz, rfl⟩ := bind_ok hy
  cases hx
  dsimp only at hz
  by_cases hzero : (if c.rest = [] then 0 else t c.rest) = 0
  · rw [if_pos hzero] at hz
    cases hz
    exact ⟨[], rfl, spaced_nil⟩
  · rw [if_neg hzero] at hz
    obtain ⟨w, v, hw, hv, rfl⟩ := bind_ok hz
    cases hw
    cases hv
    have hlen : (if c.rest = [] then 0 else t c.rest) = t c.rest := if_neg fun hnil => hzero (if_pos hnil)
    refine drop_passes rfl ?_ ?_ ?_
    · rw [hlen]
      exact ht.noSpace c.rest
    · rw [hlen]
      exact ht.noTarget c.rest
    · rw [hlen]
      exact ht.noLine c.rest

theorem wordNode_passes {t : Token} (ht : t.Sparse) (what : String) : Passes (wordNode t what) 0 := by
  refine Passes.bind ((token?_passes ht).bind (m := 0) fun found => ?_) fun _ => .pure _
  cases found with
  | none => exact fun _ _ h => by cases h
  | some found => exact .pure _

theorem namedEntity_passes : Passes namedEntity 0 := by
  have huuid : uuid.Sparse := ⟨hexGroups_avoids (by decide) (by decide) _,
    hexGroups_avoids (by decide) (by decide) _, hexGroups_flat _⟩
  refine (token?_passes huuid).bind (m := 0) fun found => ?_
  cases found with
  | some found => exact .pure _
  | none =>
    have hname : playerName.Sparse := ⟨many_avoids rfl, many_avoids rfl, many_avoids rfl⟩
    exact wordNode_passes hname _

theorem Returns.spaced {r : Parse Node} {p : Char → Bool} {F : List Char → Prop} {n : Node} (h : Returns r p F n)
    (hr : Passes r k) (hF : F []) : Spaced k n.text.toList := by
  obtain ⟨x, hx, hrest, -⟩ := h.accepts ⟨n.text.toList, .origin⟩ [] (append_nil _).symm hF
  obtain ⟨text, htext, hspaced⟩ := hr _ x hx
  rw [hrest, append_nil] at htext
  rwa [show n.text.toList = text from htext]

end Parse

open Parse in
/-- What the text of an argument looks like, as far as it tells the argument from others. -/
def Leaf.Shape : Leaf → List Char → Prop
  | .vector3, text => StartsAt isCoordinateStart text ∧ Spaced 2 text
  | .vector2, text => Spaced 1 text
  | .entity, text => (StartsAt (fun ch => ch = '@') text ∨ Spaced 0 text) ∧
      Accepts anyEntity text (EndsAt isBreak) fun _ => True
  | _, _ => True

open Parse in
open Reader (Gives) in
theorem anyEntity_shape (c : Cursor) : Gives anyEntity c fun n => n.Exact → Leaf.entity.Shape n.text.toList := by
  have hshape : Gives anyEntity c fun n => n.Exact →
      StartsAt (fun ch => ch = '@') n.text.toList ∨ Spaced 0 n.text.toList := by
    refine .look_bind (.ite (fun _ => ?_) fun _ => ?_)
    · exact (Selector.selector_returns c).mono fun n hn hexact => .inl (selector_starts (hn hexact))
    · exact (namedEntity_restores c).mono fun n hn _ => .inr (hn.returns.spaced namedEntity_passes EndsAt.nil)
  exact (hshape.and (anyEntity_returns c)).mono fun n hn hexact =>
    ⟨hn.1 hexact, (hn.2 hexact).accepts.mono fun _ _ => trivial⟩

open Parse in
open Reader (Gives) in
theorem Leaf.read_shape (p : Properties) (l : Leaf) (c : Cursor) :
    Gives (l.read p) c fun n => n.Exact → l.Shape n.text.toList := by
  cases l with
  | vector3 =>
    exact (vector3_returns false c).mono fun n hn hexact =>
      ⟨(hn hexact).starts, (hn hexact).spaced (vector3_passes false) EndsAt.nil⟩
  | vector2 =>
    exact (vector2_returns false c).mono fun n hn hexact => (hn hexact).spaced (vector2_passes false) EndsAt.nil
  | entity =>
    refine (anyEntity_shape c).bind fun n d _ hn => (checkTarget_gives (F := fun _ => True) p true n d).mono ?_
    rintro _ ⟨rfl, -⟩
    exact hn
  | _ => exact fun _ _ _ => trivial

end Mcfunction
