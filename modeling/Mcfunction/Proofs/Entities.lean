import Mcfunction.Proofs.Selectors

/-! Entities and the holders of scores are read back from their texts. A name is no selector and no identifier, and
stays so before what may follow it; whether a selector is allowed depends only on what it selects. -/

namespace Mcfunction

open List Cursor Reader Text Token Option Selector Bool Node Form

namespace Token

/-! ### Identifiers -/

variable {q p : Char → Bool} {tail : List Char}

theorem takeWhile_takeWhile_append (hpq : ∀ ch, p ch = true → q ch = true)
    (htail : EndsAt (fun ch => !q ch) tail) (cs : List Char) :
    (cs.takeWhile q ++ tail).takeWhile p = cs.takeWhile p := by
  induction cs with
  | nil => exact (htail.mono_not hpq).takeWhile_eq_nil
  | cons ch cs ih =>
    by_cases hq : q ch = true
    · rw [takeWhile_cons_of_pos hq, cons_append, takeWhile_cons, takeWhile_cons, ih]
    · have hp : ¬p ch = true := fun hp => hq (hpq ch hp)
      rw [takeWhile_cons_of_neg hq, takeWhile_cons_of_neg hp]
      exact (htail.mono_not hpq).takeWhile_eq_nil

theorem dropWhile_takeWhile_append (hpq : ∀ ch, p ch = true → q ch = true)
    (htail : EndsAt (fun ch => !q ch) tail) (cs : List Char) :
    (cs.takeWhile q ++ tail).dropWhile p = (cs.dropWhile p).takeWhile q ++ tail := by
  have hstop : tail.dropWhile p = tail := by
    cases tail with
    | nil => rfl
    | cons ch tail => exact dropWhile_cons_of_neg (by simpa using (htail.mono_not hpq).of_cons)
  induction cs with
  | nil => exact hstop
  | cons ch cs ih =>
    by_cases hq : q ch = true
    · by_cases hp : p ch = true
      · rw [takeWhile_cons_of_pos hq, cons_append, dropWhile_cons_of_pos hp, dropWhile_cons_of_pos hp, ih]
      · rw [dropWhile_cons_of_neg hp, takeWhile_cons_of_pos hq, cons_append, dropWhile_cons_of_neg hp]
    · have hp : ¬p ch = true := fun hp => hq (hpq ch hp)
      rw [dropWhile_cons_of_neg hp, takeWhile_cons_of_neg hq]
      exact hstop

/-- A character of the class at the front stands there before what follows is put behind it. -/
theorem exists_of_takeWhile_append {ch : Char} (hch : q ch = true) {cs more : List Char}
    (htail : EndsAt (fun ch => !q ch) tail) (h : cs.takeWhile q ++ tail = ch :: more) :
    ∃ rest, cs = ch :: rest ∧ more = rest.takeWhile q ++ tail := by
  cases cs with
  | nil =>
    obtain rfl : tail = ch :: more := h
    cases hch.symm.trans (by simpa using htail.of_cons)
  | cons first cs =>
    by_cases hq : q first = true
    · rw [takeWhile_cons_of_pos hq] at h
      obtain ⟨rfl, rfl⟩ := cons.inj h
      exact ⟨cs, rfl, rfl⟩
    · rw [takeWhile_cons_of_neg hq] at h
      subst h
      cases hch.symm.trans (by simpa using htail.of_cons)

section

variable {size next : Nat} {sizes : List Nat} {cs rest : List Char}

theorem hexGroups_ne_zero (h : hexGroups (size :: next :: sizes) cs ≠ 0) :
    ∃ rest, cs.dropWhile isHexDigit = '-' :: rest ∧ ¬(many isHexDigit cs = 0 ∨ size < many isHexDigit cs) ∧
      hexGroups (next :: sizes) rest ≠ 0 := by
  rw [hexGroups, many, drop_length_takeWhile] at h
  · split at h
    · exact absurd rfl h
    · rename_i hsize
      split at h
      · rename_i rest hrest
        refine ⟨rest, hrest, hsize, ?_⟩
        intro hzero
        rw [hzero] at h
        exact h rfl
      · exact absurd rfl h
  · exact cons_ne_nil next sizes

theorem hexGroups_eq (hrest : cs.dropWhile isHexDigit = '-' :: rest)
    (hsize : ¬(many isHexDigit cs = 0 ∨ size < many isHexDigit cs)) (h : hexGroups (next :: sizes) rest ≠ 0) :
    hexGroups (size :: next :: sizes) cs = many isHexDigit cs + 1 + hexGroups (next :: sizes) rest := by
  rw [hexGroups]
  · rw [if_neg hsize, many, drop_length_takeWhile, hrest]
    split
    · rename_i more hmore
      obtain rfl : rest = more := (cons.inj hmore).2
      split
      · exact absurd ‹_› h
      · rfl
    · rename_i hmore
      exact absurd rfl (hmore rest)
  · exact cons_ne_nil next sizes

end

theorem hexGroups_takeWhile (hq : ∀ ch, isHexDigit ch = true → q ch = true) (hminus : q '-' = true)
    (htail : EndsAt (fun ch => !q ch) tail) (sizes : List Nat) (cs : List Char)
    (h : hexGroups sizes (cs.takeWhile q ++ tail) ≠ 0) : hexGroups sizes cs ≠ 0 := by
  have hmany : ∀ cs, many isHexDigit (cs.takeWhile q ++ tail) = many isHexDigit cs := fun cs =>
    congrArg length (takeWhile_takeWhile_append hq htail cs)
  induction sizes generalizing cs with
  | nil => exact h
  | cons size sizes ih =>
    cases sizes with
    | nil =>
      rw [hexGroups, hmany] at h
      rwa [hexGroups]
    | cons next sizes =>
      obtain ⟨more, hmore, hsize, hgroups⟩ := hexGroups_ne_zero h
      rw [dropWhile_takeWhile_append hq htail] at hmore
      rw [hmany] at hsize
      obtain ⟨rest, hrest, rfl⟩ := exists_of_takeWhile_append hminus htail hmore
      rw [hexGroups_eq hrest hsize (ih rest hgroups)]
      omega

theorem hexGroups_again (sizes : List Nat) (cs : List Char) (h : hexGroups sizes cs ≠ 0) :
    ∃ text more, cs = text ++ more ∧ text.length = hexGroups sizes cs ∧ StartsAt isHexDigit text ∧
      ∀ tail, EndsAt (fun ch => !isHexDigit ch) tail → hexGroups sizes (text ++ tail) = text.length := by
  induction sizes generalizing cs with
  | nil => exact absurd rfl h
  | cons size sizes ih =>
    have hall : ∀ ch ∈ cs.takeWhile isHexDigit, isHexDigit ch = true := fun ch hch => mem_takeWhile_imp hch
    cases sizes with
    | nil =>
      have hlen : ((cs.takeWhile isHexDigit).take size).length = hexGroups [size] cs := length_take
      have htake : ∀ ch ∈ (cs.takeWhile isHexDigit).take size, isHexDigit ch = true :=
        fun ch hch => hall ch (mem_of_mem_take hch)
      refine ⟨(cs.takeWhile isHexDigit).take size, (cs.takeWhile isHexDigit).drop size ++ cs.dropWhile isHexDigit,
        ?_, hlen, StartsAt.of_all ?_ htake, fun tail htail => ?_⟩
      · rw [← append_assoc, take_append_drop, takeWhile_append_dropWhile]
      · exact length_pos_iff.1 (by omega)
      · rw [hexGroups, many, EndsAt.takeWhile_append htake htail, length_take]
        omega
    | cons next sizes =>
      obtain ⟨rest, hrest, hsize, hgroups⟩ := hexGroups_ne_zero h
      obtain ⟨text, more, htext, hlen, -, hagain⟩ := ih rest hgroups
      refine ⟨cs.takeWhile isHexDigit ++ '-' :: text, more, ?_, ?_, ?_, fun tail htail => ?_⟩
      · rw [append_assoc, cons_append, ← htext, ← hrest, takeWhile_append_dropWhile]
      · rw [hexGroups_eq hrest hsize hgroups, length_append, length_cons, many]
        omega
      · refine (StartsAt.of_all (length_pos_iff.1 ?_) hall).append _
        rw [many] at hsize
        omega
      · rw [append_assoc, cons_append]
        have hdigits : (cs.takeWhile isHexDigit ++ '-' :: (text ++ tail)).takeWhile isHexDigit =
            cs.takeWhile isHexDigit := EndsAt.takeWhile_append hall (EndsAt.cons rfl)
        have hbehind : (cs.takeWhile isHexDigit ++ '-' :: (text ++ tail)).dropWhile isHexDigit =
            '-' :: (text ++ tail) := by
          rw [← drop_length_takeWhile, hdigits, drop_left]
        have hmany : many isHexDigit (cs.takeWhile isHexDigit ++ '-' :: (text ++ tail)) = many isHexDigit cs :=
          congrArg length hdigits
        rw [hexGroups_eq hbehind, hmany, hagain tail htail, length_append, length_cons, many]
        · omega
        · rwa [hmany]
        · rw [hagain tail htail, hlen]
          exact hgroups

theorem uuid_stable : uuid.Stable isHexDigit (EndsAt fun ch => !isHexDigit ch) where
  starts cs hne := by
    obtain ⟨text, more, rfl, hlen, hstarts, -⟩ := hexGroups_again _ cs hne
    rwa [uuid, ← hlen, take_left]
  stays cs tail hne htail := by
    obtain ⟨text, more, rfl, hlen, -, hagain⟩ := hexGroups_again _ cs hne
    rw [uuid, ← hlen, take_left]
    exact hagain tail htail

end Token

/-! ### What is selected -/

namespace Selector

open Parse (AllSame)

/-- The value of an argument with a key, if a node is one, and whether it is inverted. -/
def valueOf (key : String) (n : Node) : Option (Node × Bool) := argumentOf key [n]

theorem argumentOf_cons (key : String) (n : Node) (ns : List Node) :
    argumentOf key (n :: ns) = (valueOf key n).or (argumentOf key ns) := by
  simp only [valueOf, argumentOf, findSome?_cons]
  split <;> simp_all

abbrev SameValue (a b : Option (Node × Bool)) : Prop :=
  Rel (fun x y => x.1.same y.1 = true ∧ x.2 = y.2) a b

theorem SameValue.or {a b c d : Option (Node × Bool)} (h : SameValue a b) (h' : SameValue c d) :
    SameValue (a.or c) (b.or d) := by
  cases h with
  | none => exact h'
  | some h => exact Rel.some h

variable {n m : Node}

theorem valueOf_same (key : String) (h : n.same m = true) : SameValue (valueOf key n) (valueOf key m) := by
  obtain ⟨hdata, hchildren⟩ := same_iff.1 h
  obtain ⟨f, _⟩ := n
  obtain ⟨g, _⟩ := m
  dsimp only at hdata
  unfold sameData at hdata
  split at hdata
  -- only arguments have values
  all_goals try exact Rel.none
  · rename_i i k a j l b
    simp only [and_eq_true, decide_eq_true_eq] at hdata
    obtain ⟨⟨rfl, rfl⟩, hsome⟩ := hdata
    cases a with
    | none =>
      cases b with
      | none => exact Rel.none
      | some b => cases hsome
    | some a =>
      cases b with
      | none => cases hsome
      | some b =>
        have hvalue : ∀ (value : Node) (span : Span), valueOf key ⟨.selectorArgument i k (some value), span⟩ =
            if k = key then some (value, i) else none := by
          intro value span
          simp only [valueOf, argumentOf]
          split <;> simp_all
        rw [hvalue, hvalue]
        split
        · exact Rel.some ⟨(forall₂_cons.1 hchildren).1, rfl⟩
        · exact Rel.none
  · cases hdata

theorem argumentOf_same (key : String) {ns ms : List Node} (h : AllSame ns ms) :
    SameValue (argumentOf key ns) (argumentOf key ms) := by
  induction h with
  | nil => exact Rel.none
  | cons hhead _ ih =>
    rw [argumentOf_cons, argumentOf_cons]
    exact (valueOf_same key hhead).or ih

theorem isSingle_same (h : n.same m = true) : isSingle m = isSingle n := by
  obtain ⟨hdata, hchildren⟩ := same_iff.1 h
  obtain ⟨f, _⟩ := n
  obtain ⟨g, _⟩ := m
  dsimp only at hdata
  unfold sameData at hdata
  split at hdata
  all_goals try rfl
  · rename_i as w bs
    simp only [and_eq_true, decide_eq_true_eq] at hdata
    obtain ⟨rfl, -⟩ := hdata
    have hlimit := argumentOf_same "limit" (show AllSame as bs from hchildren)
    dsimp only [isSingle]
    generalize argumentOf "limit" as = a at hlimit
    generalize argumentOf "limit" bs = b at hlimit
    cases hlimit with
    | none => rfl
    | @some x y hvalue =>
      obtain ⟨⟨fx, _⟩, _⟩ := x
      obtain ⟨⟨fy, _⟩, _⟩ := y
      have hnumber := (same_iff.1 hvalue.1).1
      dsimp only at hnumber
      unfold sameData at hnumber
      split at hnumber
      all_goals try rfl
      · rename_i i j
        cases i with
        | int i =>
          cases j with
          | int j =>
            obtain rfl : i = j := of_decide_eq_true hnumber
            rfl
          | float y => cases hnumber
        | float x =>
          cases j with
          | int j => cases hnumber
          | float y => rfl
      · cases hnumber
  · cases hdata

theorem isPlayers_same (h : n.same m = true) : isPlayers m = isPlayers n := by
  obtain ⟨hdata, hchildren⟩ := same_iff.1 h
  obtain ⟨f, _⟩ := n
  obtain ⟨g, _⟩ := m
  dsimp only at hdata
  unfold sameData at hdata
  split at hdata
  all_goals try rfl
  · rename_i as w bs
    simp only [and_eq_true, decide_eq_true_eq] at hdata
    obtain ⟨rfl, -⟩ := hdata
    have htype := argumentOf_same "type" (show AllSame as bs from hchildren)
    dsimp only [isPlayers]
    generalize argumentOf "type" as = a at htype
    generalize argumentOf "type" bs = b at htype
    cases htype with
    | none => rfl
    | @some x y hvalue =>
      obtain ⟨⟨fx, _⟩, inverted⟩ := x
      obtain ⟨⟨fy, _⟩, inverted'⟩ := y
      obtain ⟨hsame, rfl⟩ : _ ∧ inverted = inverted' := hvalue
      have hlocation := (same_iff.1 hsame).1
      dsimp only at hlocation
      unfold sameData at hlocation
      split at hlocation
      all_goals try rfl
      · obtain rfl := of_decide_eq_true hlocation
        rfl
      · cases hlocation
  · cases hdata

end Selector

/-! ### Entities -/

namespace Token

theorem isNameChar_of_isHexDigit {ch : Char} (h : isHexDigit ch = true) : isNameChar ch = true := by
  have hcode : 48 ≤ ch.toNat ∧ ch.toNat ≤ 102 := by
    simp only [isHexDigit, Char.isDigit, or_eq_true, and_eq_true, decide_eq_true_eq, Char.le_def,
      UInt32.le_iff_toNat_le, Char.reduceVal, UInt32.reduceToNat, Char.toNat_val] at h
    omega
  have hblank : isBlank ch = false := by
    simp only [isBlank, inRanges, blankRanges, any_cons, any_nil, Bool.or_false,
      or_eq_false_iff, and_eq_false_iff, decide_eq_false_iff_not]
    omega
  have hne : ∀ other, isHexDigit other = false → (ch != other) = true := by
    intro other hother
    refine bne_iff_ne.2 ?_
    rintro rfl
    cases h.symm.trans hother
  simp only [isNameChar, hblank, Bool.not_false, Bool.true_and, Bool.and_eq_true]
  exact ⟨⟨⟨⟨⟨⟨⟨⟨hne '@' rfl, hne '[' rfl⟩, hne ']' rfl⟩, hne '{' rfl⟩, hne '}' rfl⟩, hne '"' rfl⟩, hne '\'' rfl⟩,
    hne ',' rfl⟩, hne '=' rfl⟩

end Token

namespace Parse

open Reader (Gives)

variable {F : List Char → Prop} {text : List Char} {α : Type} {Q : α → Prop} {n : Node}

theorem checkTarget_gives (p : Properties) (players : Bool) (n : Node) (c : Cursor) :
    Gives (checkTarget p players n) c fun k => k = n ∧ ∀ m, n.same m = true →
      Accepts (checkTarget p players m) [] F fun found => found = m := by
  refine .ite (fun _ => .fail) fun hsingle => ?_
  refine .ite (fun _ => .fail) fun hplayers => .pure ⟨rfl, fun m hm => ?_⟩
  unfold checkTarget
  rw [isSingle_same hm, isPlayers_same hm, if_neg hsingle, if_neg hplayers]
  exact Reader.Accepts.pure rfl

theorem wordNode_gives (t : Token) (what : String) (c : Cursor) :
    Gives (wordNode t what) c fun n => n.text.toList = c.rest.take (t c.rest) := by
  refine (token_gives t what c).bind ?_
  rintro ⟨text, span⟩ d - ⟨-, rfl⟩
  refine .pure ?_
  rw [text_eq]
  exact String.toList_ofList

theorem token?_eq_none {t : Token} {c : Cursor} {x : Step c (Option (String × Span))} (h : token? t c = .ok x)
    (hx : x.value = none) : x.next = c ∧ (c.rest = [] ∨ t c.rest = 0) := by
  obtain ⟨y, z, hy, hz, rfl⟩ := bind_ok h
  cases hy
  split at hz
  · rename_i hzero
    cases hz
    refine ⟨rfl, ?_⟩
    by_cases hrest : c.rest = []
    · exact .inl hrest
    · exact .inr ((if_neg hrest).symm.trans hzero)
  · obtain ⟨y, w, -, hw, rfl⟩ := bind_ok hz
    cases hw
    cases hx

theorem namedEntity_restores (c : Cursor) : Gives namedEntity c fun n =>
    Restores namedEntity isNameChar (EndsAt fun ch => !isNameChar ch) n := by
  intro x hx
  obtain ⟨⟨found, d, hd⟩, z, hy, hz, rfl⟩ := bind_ok hx
  cases found with
  | some found =>
    obtain ⟨text, span⟩ := found
    cases hz
    obtain ⟨hne, hfound⟩ := token?_gives uuid c _ hy _ rfl
    have hstarts := uuid_stable.starts c.rest hne
    obtain rfl : text = String.ofList (c.rest.take (uuid c.rest)) := hfound
    refine word_restores (hstarts.mono fun ch => isNameChar_of_isHexDigit) ?_ span
    intro e tail he htail
    refine (token?_accepts hstarts.ne_nil (fun tail => uuid_stable.stays _ tail hne) e tail he
      (htail.mono_not fun ch => isNameChar_of_isHexDigit)).bind ?_
    rintro _ f ⟨⟨_, place⟩, rfl, rfl⟩ hf
    exact .pure hf rfl
  | none =>
    obtain ⟨hstay, hnone⟩ : d = c ∧ _ := token?_eq_none hy rfl
    have hzero : uuid d.rest = 0 := by
      rw [hstay]
      rcases hnone with hnil | hzero
      · rw [hnil]
        rfl
      · exact hzero
    have hname := wordNode_restores (many_stable isNameChar) _ _ z hz
    have htext := wordNode_gives _ _ _ z hz
    refine ⟨hname.starts, ?_, hname.isLeaf, hname.same⟩
    refine (token?_refuses fun tail htail => .inr htail).bind_nil ?_ ?_
    · rintro _ rfl
      exact hname.accepts
    · intro tail htail
      by_contra hne
      have hprefix : z.value.text.toList = d.rest.takeWhile isNameChar := htext.trans (take_length_takeWhile _ _)
      rw [Step.since_value, hprefix] at hne
      exact hexGroups_takeWhile (fun ch => isNameChar_of_isHexDigit) rfl htail _ _ hne hzero

def isEntityStart (ch : Char) : Bool := ch = '@' || isNameChar ch

theorem selector_starts (h : SelectorReturns n) : StartsAt (fun ch => ch = '@') n.text.toList := by
  obtain ⟨ch, arguments, -, -, htext⟩ := h.form
  rw [htext]
  exact StartsAt.cons rfl

theorem selector_accepts (h : SelectorReturns n) :
    Accepts selector n.text.toList (EndsAt isBreak) fun m => n.same m = true :=
  h.accepts.before fun _ htail _ => endsAt_of_break htail rfl rfl

theorem target_first {r other : Parse α} (htext : StartsAt (fun ch => ch = '@') text) (h : Accepts r text F Q) :
    Accepts (peek >>= fun next => if next = some '@' then r else other) text F Q := by
  obtain ⟨ch, cs, rfl, hch⟩ := htext
  obtain rfl : ch = '@' := of_decide_eq_true hch
  refine Accepts.peek ?_
  rwa [if_pos rfl]

theorem name_first {r other : Parse α} (htext : StartsAt (fun ch => ch != '@') text) (h : Accepts other text F Q) :
    Accepts (peek >>= fun next => if next = some '@' then r else other) text F Q := by
  obtain ⟨ch, cs, rfl, hch⟩ := htext
  refine Accepts.peek ?_
  rwa [if_neg]
  intro hsome
  exact bne_iff_ne.1 hch (some.inj hsome)

theorem anyEntity_returns (c : Cursor) : Gives anyEntity c fun n =>
    n.Exact → Returns anyEntity isEntityStart (EndsAt isBreak) n := by
  refine .look_bind (.ite (fun _ => ?_) fun _ => ?_)
  · refine (selector_returns c).mono fun n hn hexact => ?_
    have hstarts := selector_starts (hn hexact)
    refine ⟨hstarts.mono fun ch hch => by rw [isEntityStart, hch, Bool.true_or], ?_⟩
    exact target_first hstarts (selector_accepts (hn hexact))
  · refine (namedEntity_restores c).mono fun n hn _ => ?_
    refine ⟨hn.starts.mono fun ch hch => by rw [isEntityStart, hch, Bool.or_true], ?_⟩
    refine name_first (hn.starts.mono fun ch hch => ?_)
      (hn.returns.accepts.before fun _ htail => endsAt_of_break htail rfl rfl)
    refine bne_iff_ne.2 ?_
    rintro rfl
    cases hch

theorem entity_returns (p : Properties) (c : Cursor) : Gives (entity p) c fun n =>
    n.Exact → Returns (entity p) isEntityStart (EndsAt isBreak) n := by
  refine (anyEntity_returns c).bind fun n d _ hn => (checkTarget_gives (F := EndsAt isBreak) p true n d).mono ?_
  rintro _ ⟨rfl, hallowed⟩ hexact
  refine ⟨(hn hexact).starts, fun e tail he htail => ?_⟩
  refine ((hn hexact).accepts e tail he htail).bind fun m f hm hf => ?_
  exact (hallowed m hm f tail hf htail).mono fun k hk => hk ▸ hm

theorem scoreHolder_returns (p : Properties) (c : Cursor) : Gives (scoreHolder p) c fun n =>
    n.Exact → Returns (scoreHolder p) (fun ch => !isBlank ch) (EndsAt isBreak) n := by
  refine .look_bind (.ite (fun _ => ?_) fun hpeek => ?_)
  · refine (selector_returns c).bind fun n d _ hn => (checkTarget_gives (F := EndsAt isBreak) p false n d).mono ?_
    rintro _ ⟨rfl, hallowed⟩ hexact
    have hstarts := selector_starts (hn hexact)
    refine ⟨hstarts.mono fun ch hch => by rw [of_decide_eq_true hch]; rfl, ?_⟩
    refine target_first hstarts fun e tail he htail => ?_
    refine (selector_accepts (hn hexact) e tail he htail).bind fun m f hm hf => ?_
    exact (hallowed m hm f tail hf htail).mono fun k hk => hk ▸ hm
  · refine ((wordNode_restores (many_stable _) _ c).and (wordNode_gives _ _ c)).mono ?_
    rintro n ⟨hn, htext⟩ -
    refine ⟨hn.starts, ?_⟩
    refine name_first ?_ (hn.returns.accepts.before fun _ htail => endsAt_of_break htail rfl rfl)
    obtain ⟨ch, cs, hcons, -⟩ := hn.starts
    refine ⟨ch, cs, hcons, bne_iff_ne.2 ?_⟩
    rintro rfl
    refine hpeek ?_
    replace htext : n.text.toList = c.rest.take (value c.rest) := htext
    rw [Cursor.peek, ← take_append_drop (value c.rest) c.rest, ← htext, hcons]
    rfl

end Parse

end Mcfunction
