import Mathlib.Data.List.Forall2
import Mcfunction.Proofs.Line

/-! What readers do with a text that was written for them. A reader accepts a text if it succeeds wherever
that text stands before one of the tails it expects, and stops at the tail; pieces of text are accepted one
after the other by readers one after the other. What a reader gives is told apart from that: it is known of
every value that was read from any text whatever. -/

namespace Mcfunction

open List Cursor String Reader Cursor Bool Token Option

def EndsAt (p : Char → Bool) (tail : List Char) : Prop := ∀ ch, tail.head? = some ch → p ch = true

variable {ch close first : Char} {cs text tail more : List Char} {q p : Char → Bool} {γ : Type} {n limit : Nat}

namespace EndsAt

theorem nil : EndsAt p [] := fun _ h => by cases h

theorem cons (h : p ch = true) : EndsAt p (ch :: tail) := fun _ hch => (some.inj hch) ▸ h

theorem of_cons (h : EndsAt p (ch :: tail)) : p ch = true := h ch rfl

theorem mono (h : EndsAt p tail) (hpq : ∀ ch, p ch = true → q ch = true) : EndsAt q tail :=
  fun ch hch => hpq ch (h ch hch)

theorem mono_not (h : EndsAt (fun ch => !q ch) tail) (hpq : ∀ ch, p ch = true → q ch = true) :
    EndsAt (fun ch => !p ch) tail := by
  refine h.mono fun ch hq => ?_
  cases hp : p ch with
  | false => rfl
  | true =>
    rw [hpq ch hp] at hq
    cases hq

theorem takeWhile_append (htext : ∀ ch ∈ text, q ch = true)
    (h : EndsAt (fun ch => !q ch) tail) : (text ++ tail).takeWhile q = text := by
  rw [takeWhile_append_of_pos htext]
  cases tail with
  | nil => rw [takeWhile_nil, append_nil]
  | cons ch tail =>
    have hch : q ch = false := by simpa using h.of_cons
    rw [takeWhile_cons_of_neg (by rw [hch]; exact false_ne_true), append_nil]

theorem takeWhile_eq_nil (h : EndsAt (fun ch => !q ch) tail) : tail.takeWhile q = [] := by
  have hnone : ([] ++ tail).takeWhile q = [] := takeWhile_append (by simp) h
  exact hnone

end EndsAt

def StartsAt (p : Char → Bool) (text : List Char) : Prop := ∃ ch cs, text = ch :: cs ∧ p ch = true

namespace StartsAt

theorem cons (h : p ch = true) : StartsAt p (ch :: cs) := ⟨ch, cs, rfl, h⟩

theorem mono (h : StartsAt p text) (hpq : ∀ ch, p ch = true → q ch = true) : StartsAt q text := by
  obtain ⟨ch, cs, rfl, hch⟩ := h
  exact cons (hpq ch hch)

theorem append (h : StartsAt p text) (more : List Char) : StartsAt p (text ++ more) := by
  obtain ⟨ch, cs, rfl, hch⟩ := h
  exact cons hch

theorem endsAt (h : StartsAt p text) (tail : List Char) : EndsAt p (text ++ tail) := by
  obtain ⟨ch, cs, rfl, hch⟩ := h
  exact EndsAt.cons hch

theorem ne_nil (h : StartsAt p text) : text ≠ [] := by
  obtain ⟨ch, cs, rfl, -⟩ := h
  exact cons_ne_nil ch cs

theorem of_all (hne : text ≠ []) (hall : ∀ ch ∈ text, p ch = true) : StartsAt p text := by
  obtain ⟨ch, cs, rfl⟩ := exists_cons_of_ne_nil hne
  exact cons (hall ch mem_cons_self)

end StartsAt

theorem Cursor.not_isSpace (h : p ch = true) (hblank : p ' ' = false)
    (htab : p '\t' = false) : (!isSpace ch) = true := by
  cases hspace : isSpace ch with
  | false => rfl
  | true =>
    simp only [isSpace, or_eq_true, decide_eq_true_eq] at hspace
    rcases hspace with rfl | rfl
    · rw [h] at hblank
      cases hblank
    · rw [h] at htab
      cases htab

theorem Cursor.not_isSpace_of_unblank (h : Text.isBlank ch = false) : (!isSpace ch) = true :=
  not_isSpace (p := fun ch => !Text.isBlank ch) (by rw [h]; rfl) (by decide) (by decide)

namespace Reader

variable {σ ε α β : Type} [Forward σ] {rest : σ → List Char} {r t : Reader σ ε α} {f : α → Reader σ ε β} {s : σ}
  {Q Q' : α → Prop} {R : β → Prop} {g : α → β} {v : α}

/-! ### Reading a text -/

/-- The reader succeeds, stops before `tail`, and gives a value with a property. -/
def Reads (rest : σ → List Char) (r : Reader σ ε α) (s : σ) (tail : List Char) (Q : α → Prop) : Prop :=
  ∃ x, r s = .ok x ∧ rest x.next = tail ∧ Q x.value

/-- The reader reads a text wherever it stands before one of some tails. -/
def Accepts (rest : σ → List Char) (r : Reader σ ε α) (text : List Char) (F : List Char → Prop)
    (Q : α → Prop) : Prop :=
  ∀ s tail, rest s = text ++ tail → F tail → Reads rest r s tail Q

section

variable {mid a b : List Char} {F G : List Char → Prop}

theorem Reads.mono (h : Reads rest r s tail Q) (hQ : ∀ a, Q a → Q' a) : Reads rest r s tail Q' := by
  obtain ⟨x, hx, htail, hq⟩ := h
  exact ⟨x, hx, htail, hQ _ hq⟩

theorem Reads.pure (hs : rest s = tail) (h : Q v) : Reads rest (pure v : Reader σ ε α) s tail Q :=
  ⟨_, rfl, hs, h⟩

theorem Reads.bind (h : Reads rest r s mid Q) (hf : ∀ v t, Q v → rest t = mid → Reads rest (f v) t tail R) :
    Reads rest (r >>= f) s tail R := by
  obtain ⟨x, hx, hmid, hq⟩ := h
  obtain ⟨y, hy, htail, hr⟩ := hf x.value x.next hq hmid
  refine ⟨y.since x.ahead, ?_, htail, hr⟩
  simp only [Bind.bind, Reader.bind, hx, hy]

theorem Reads.map (h : Reads rest r s tail fun v => R (g v)) : Reads rest (g <$> r) s tail R :=
  Reads.bind h fun _ _ hv ht => Reads.pure ht hv

theorem Accepts.mono (h : Accepts rest r text F Q) (hQ : ∀ v, Q v → Q' v) : Accepts rest r text F Q' :=
  fun s tail hs htail => (h s tail hs htail).mono hQ

theorem Accepts.before (h : Accepts rest r text F Q) (hF : ∀ tail, G tail → F tail) : Accepts rest r text G Q :=
  fun s tail hs htail => h s tail hs (hF tail htail)

theorem Accepts.pure (h : Q v) : Accepts rest (pure v : Reader σ ε α) [] F Q :=
  fun _ _ hs _ => Reads.pure hs h

/-- One text after the other: the second one, with what may follow it, is a tail of the first. -/
theorem Accepts.bind (h : Accepts rest r a F Q) (hf : ∀ v, Q v → Accepts rest (f v) b G R)
    (hF : ∀ tail, G tail → F (b ++ tail)) : Accepts rest (r >>= f) (a ++ b) G R := by
  intro s tail hs htail
  rw [List.append_assoc] at hs
  exact (h s (b ++ tail) hs (hF tail htail)).bind fun v t hv ht => hf v hv t tail ht htail

theorem Accepts.bind_nil (h : Accepts rest r [] F Q) (hf : ∀ v, Q v → Accepts rest (f v) b G R)
    (hF : ∀ tail, G tail → F (b ++ tail)) : Accepts rest (r >>= f) b G R :=
  h.bind hf hF

theorem Accepts.bind_pure (h : Accepts rest r text F Q) (hR : ∀ v, Q v → R (g v)) :
    Accepts rest (r >>= fun v => Pure.pure (g v)) text F R :=
  fun s tail hs htail => (h s tail hs htail).bind fun v _ hv ht => Reads.pure ht (hR v hv)

theorem Accepts.map (h : Accepts rest r text F fun v => R (g v)) : Accepts rest (g <$> r) text F R :=
  fun s tail hs htail => (h s tail hs htail).map

theorem Reads.look_bind {g : σ → γ} {f : γ → Reader σ ε β} (h : Reads rest (f (g s)) s tail R) :
    Reads rest (Reader.look g >>= f) s tail R := by
  obtain ⟨x, hx, htail, hr⟩ := h
  refine ⟨x.since (Forward.refl s), ?_, htail, hr⟩
  simp only [Bind.bind, Reader.bind, Reader.look, hx]

end

/-! ### What a reader gives -/

def Gives (r : Reader σ ε α) (s : σ) (Q : α → Prop) : Prop := ∀ x, r s = .ok x → Q x.value

theorem Gives.mono (h : Gives r s Q) (hQ : ∀ a, Q a → Q' a) : Gives r s Q' :=
  fun x hx => hQ _ (h x hx)

theorem Gives.and (h : Gives r s Q) (h' : Gives r s Q') : Gives r s fun v => Q v ∧ Q' v :=
  fun x hx => ⟨h x hx, h' x hx⟩

theorem Gives.trivial (r : Reader σ ε α) (s : σ) : Gives r s fun _ => True := fun _ _ => True.intro

theorem Gives.pure (h : Q v) : Gives (pure v : Reader σ ε α) s Q := by
  intro x hx
  cases hx
  exact h

theorem Gives.fail {e : ε} : Gives (fail e : Reader σ ε α) s Q := fun x hx => by cases hx

theorem Gives.failHere {e : σ → ε} : Gives (failHere e : Reader σ ε α) s Q := fun x hx => by cases hx

theorem Gives.bind (h : Gives r s Q) (hf : ∀ v t, Forward.Ahead s t → Q v → Gives (f v) t R) :
    Gives (r >>= f) s R := by
  intro y hy
  obtain ⟨x, z, hx, hz, rfl⟩ := bind_ok hy
  exact hf x.value x.next x.ahead (h x hx) z hz

theorem Gives.map (h : Gives r s fun v => R (g v)) : Gives (g <$> r) s R :=
  Gives.bind h fun _ _ _ hv => Gives.pure hv

theorem Gives.look_bind {g : σ → γ} {f : γ → Reader σ ε β} (h : Gives (f (g s)) s R) : Gives (look g >>= f) s R := by
  intro y hy
  obtain ⟨x, z, hx, hz, rfl⟩ := bind_ok hy
  cases hx
  exact h z hz

theorem Gives.ite {p : Prop} [Decidable p] (hr : p → Gives r s Q)
    (ht : ¬p → Gives t s Q) : Gives (if p then r else t) s Q := by
  split
  · exact hr ‹p›
  · exact ht ‹¬p›

end Reader

namespace Parse

open Reader (Gives)

variable {α β : Type} {r : Parse α} {c : Cursor} {F : List Char → Prop} {Q : α → Prop}

/-- The reader succeeds at a cursor, stops before `tail`, and gives a value with a property. -/
abbrev Reads (r : Parse α) (c : Cursor) (tail : List Char) (Q : α → Prop) : Prop :=
  Reader.Reads rest r c tail Q

/-- The reader reads a text wherever it stands before one of some tails. -/
abbrev Accepts (r : Parse α) (text : List Char) (F : List Char → Prop) (Q : α → Prop) : Prop :=
  Reader.Accepts rest r text F Q

/-- What ends an argument: the space before the next one, or the line. -/
def isBreak (ch : Char) : Bool := ch = ' ' || ch = '\n'

theorem endsAt_of_break (h : EndsAt isBreak tail) (hblank : q ' ' = true) (hline : q '\n' = true) : EndsAt q tail := by
  refine h.mono fun ch hch => ?_
  simp only [isBreak, or_eq_true, decide_eq_true_eq] at hch
  rcases hch with rfl | rfl
  · exact hblank
  · exact hline

theorem value_length (htext : ∀ ch ∈ text, Text.isBlank ch = false)
    (htail : EndsAt isBreak tail) : value (text ++ tail) = text.length := by
  refine congrArg List.length (EndsAt.takeWhile_append (fun ch hch => ?_) ?_)
  · rw [htext ch hch]
    rfl
  · exact endsAt_of_break htail (by decide) (by decide)

/-! ### The parts of readers -/

variable {t : Token} {item : Parse α}

theorem Accepts.peek {f : Option Char → Parse β} {R : β → Prop}
    (h : Accepts (f (some ch)) (ch :: text) F R) : Accepts (peek >>= f) (ch :: text) F R := by
  intro c tail hc htail
  refine Reader.Reads.look_bind ?_
  have hpeek : c.peek = some ch := by
    rw [Cursor.peek, hc]
    rfl
  rw [hpeek]
  exact h c tail hc htail

theorem advance_accepts (hn : text.length = n) : Accepts (advance n) text (fun _ => True) fun _ => True := by
  intro c tail hc _
  refine ⟨_, rfl, ?_, trivial⟩
  change (c.drop n).rest = tail
  rw [rest_drop, hc, ← hn, drop_left]

theorem skipSpaces_accepts : Accepts skipSpaces [] (EndsAt fun ch => !Cursor.isSpace ch) fun _ => True := by
  intro c tail hc htail
  refine ⟨_, rfl, ?_, trivial⟩
  have hnone : c.rest.takeWhile isSpace = [] := by
    rw [hc]
    exact htail.takeWhile_eq_nil
  change c.skipSpaces.rest = tail
  rw [Cursor.skipSpaces, Cursor.indentation, hnone]
  exact hc

theorem spanned_accepts (h : Accepts r text F Q) : Accepts (spanned r) text F fun x => Q x.1 := by
  intro c tail hc htail
  refine Reader.Reads.look_bind ((h c tail hc htail).bind fun v t hv ht => ?_)
  exact Reader.Reads.look_bind (Reader.Reads.pure ht hv)

theorem node_accepts {r : Parse (Form Node)} {Q : Form Node → Prop} (h : Accepts r text F Q) :
    Accepts (node r) text F fun n => Q n.form :=
  fun c tail hc htail => ((spanned_accepts h) c tail hc htail).bind fun _ _ hx ht => Reader.Reads.pure ht hx

theorem take_accepts (hn : text.length = n) : Accepts (take n) text (fun _ => True) fun x => x.1 = ofList text := by
  refine spanned_accepts (Q := fun s => s = ofList text) fun c tail hc _ => ?_
  refine Reader.Reads.look_bind ((advance_accepts hn c tail hc trivial).bind fun _ t _ ht => ?_)
  refine Reader.Reads.pure ht ?_
  rw [hc, ← hn, take_left]

theorem token?_accepts (hne : text ≠ []) (ht : ∀ tail, F tail → t (text ++ tail) = text.length) :
    Accepts (token? t) text F fun o => ∃ x, o = some x ∧ x.1 = ofList text := by
  intro c tail hc htail
  refine Reader.Reads.look_bind ?_
  have hrest : c.rest ≠ [] := by
    rw [hc]
    exact append_ne_nil_of_left_ne_nil hne tail
  have hlen : t c.rest = text.length := by
    rw [hc]
    exact ht tail htail
  rw [if_neg hrest, hlen, if_neg (length_pos_iff.2 hne).ne']
  exact (take_accepts rfl c tail hc trivial).bind fun x t hx ht => Reader.Reads.pure ht ⟨x, rfl, hx⟩

theorem token?_refuses (ht : ∀ tail, F tail → tail = [] ∨ t tail = 0) :
    Accepts (token? t) [] F fun o => o = none := by
  intro c tail hc htail
  refine Reader.Reads.look_bind ?_
  have hzero : (if c.rest = [] then 0 else t c.rest) = 0 := by
    rw [hc]
    split
    · rfl
    · exact (ht tail htail).resolve_left ‹_›
  rw [hzero]
  exact Reader.Reads.pure hc rfl

theorem token_accepts (what : String) (hne : text ≠ []) (ht : ∀ tail, F tail → t (text ++ tail) = text.length) :
    Accepts (token t what) text F fun x => x.1 = ofList text := by
  intro c tail hc htail
  refine (token?_accepts hne ht c tail hc htail).bind ?_
  rintro _ t ⟨x, rfl, hx⟩ ht
  exact Reader.Reads.pure ht hx

theorem many_accepts (what : String) (hne : text ≠ []) (hp : ∀ ch ∈ text, p ch = true) :
    Accepts (token (many p) what) text (EndsAt fun ch => !p ch) fun x => x.1 = ofList text :=
  token_accepts what hne fun _ htail => congrArg List.length (EndsAt.takeWhile_append hp htail)

theorem consume_accepts (word : String) :
    Accepts (consume word) word.toList (fun _ => True) fun found => found = true := by
  intro c tail hc _
  refine Reader.Reads.look_bind ?_
  have hfound : word.toList.isPrefixOf c.rest = true := by
    rw [hc]
    exact isPrefixOf_iff_prefix.2 (prefix_append _ _)
  rw [if_pos hfound]
  exact (advance_accepts rfl c tail hc trivial).bind fun _ t _ ht => Reader.Reads.pure ht rfl

theorem consume_refuses (word : String) (hword : word.toList.head? = some first) :
    Accepts (consume word) [] (EndsAt fun ch => ch != first) fun found => found = false := by
  intro c tail hc htail
  refine Reader.Reads.look_bind ?_
  have hfound : word.toList.isPrefixOf c.rest = false := by
    obtain ⟨more, hmore⟩ := head?_eq_some_iff.1 hword
    rw [hmore, hc, nil_append]
    cases tail with
    | nil => rfl
    | cons ch tail =>
      have hne : ch ≠ first := bne_iff_ne.1 htail.of_cons
      rw [List.isPrefixOf, beq_false_of_ne hne.symm, Bool.false_and]
  rw [hfound]
  exact Reader.Reads.pure hc rfl

theorem expect_accepts (word : String) : Accepts (expect word) word.toList (fun _ => True) fun _ => True := by
  intro c tail hc htail
  refine (consume_accepts word c tail hc htail).bind fun found t hfound ht => ?_
  rw [if_pos hfound]
  exact Reader.Reads.pure ht trivial

/-! ### What they give -/

theorem spanned_apply (r : Parse α) (c : Cursor) :
    spanned r c = (r c).map fun x => ⟨(x.value, x.next.spanFrom c.location), x.next, x.ahead⟩ := by
  simp only [spanned, bind, Reader.bind, here, Reader.look]
  cases r c <;> rfl

theorem spanned_gives (h : Gives r c Q) : Gives (spanned r) c fun x => Q x.1 :=
  Gives.look_bind (h.bind fun _ _ _ hv => Gives.look_bind (Gives.pure hv))

theorem node_gives {r : Parse (Form Node)} {Q : Node → Prop} (h : Gives r c fun form => ∀ span, Q ⟨form, span⟩) :
    Gives (node r) c Q :=
  (spanned_gives h).bind fun _ _ _ hx => Gives.pure (hx _)

theorem take_gives (n : Nat) (c : Cursor) : Gives (take n) c fun x => x.1 = ofList (c.rest.take n) := by
  refine spanned_gives (Q := fun s => s = ofList (c.rest.take n)) (Gives.look_bind ?_)
  exact (Gives.trivial _ _).bind fun _ _ _ _ => Gives.pure rfl

theorem token?_gives (t : Token) (c : Cursor) :
    Gives (token? t) c fun o => ∀ x ∈ o, t c.rest ≠ 0 ∧ x.1 = ofList (c.rest.take (t c.rest)) := by
  refine Gives.look_bind ?_
  split
  · exact Gives.pure (by simp)
  · refine Gives.ite (fun _ => Gives.pure (by simp)) fun hne => ?_
    refine (take_gives _ c).bind fun x _ _ hx => Gives.pure ?_
    rintro _ ⟨⟩
    exact ⟨hne, hx⟩

theorem token_gives (t : Token) (what : String) (c : Cursor) :
    Gives (token t what) c fun x => t c.rest ≠ 0 ∧ x.1 = ofList (c.rest.take (t c.rest)) := by
  refine (token?_gives t c).bind ?_
  rintro (_ | found) d - hfound
  · exact Gives.failHere
  · exact Gives.pure (hfound found rfl)

theorem many_gives (p : Char → Bool) (what : String) (c : Cursor) :
    Gives (token (many p) what) c fun x => x.1.toList ≠ [] ∧ ∀ ch ∈ x.1.toList, p ch = true := by
  refine (token_gives _ what c).mono ?_
  rintro x ⟨hne, hx⟩
  rw [hx, toList_ofList, many, take_length_takeWhile]
  refine ⟨fun hnil => hne ?_, fun ch hch => mem_takeWhile_imp hch⟩
  rw [many, hnil]
  rfl

/-! ### Lists -/

theorem items_gives {item : (c : Cursor) → c.remaining ≤ limit → Except SyntaxError (Step c α)}
    (hitem : ∀ d hd x, item d hd = .ok x → Q x.value) (read : List α) (c : Cursor) (h : c.remaining ≤ limit)
    (hread : ∀ v ∈ read, Q v) (x : Step c (List α)) (hx : items close item read c h = .ok x) : ∀ v ∈ x.value, Q v := by
  fun_induction items close item read c h with
  | case1 | case2 | case5 => cases hx
  | case3 read c h y hy _ _ _ z hz ih =>
    cases hx
    refine ih (fun v hv => ?_) z hz
    rcases mem_cons.1 hv with rfl | hv
    · exact hitem _ _ _ hy
    · exact hread v hv
  | case4 read c h y hy =>
    cases hx
    intro v hv
    rcases mem_cons.1 (mem_reverse.1 hv) with rfl | hv
    · exact hitem _ _ _ hy
    · exact hread v hv

theorem list_gives (hitem : ∀ d, d.remaining ≤ c.remaining → Gives item d Q) :
    Gives (list close item) c fun vs => ∀ v ∈ vs, Q v := by
  intro x hx
  rw [list, listWithin] at hx
  split at hx
  · cases hx
    simp
  · split at hx
    · cases hx
    · rename_i y hy
      cases hx
      exact items_gives (fun d hd z hz => hitem d hd z hz) [] _ _ (by simp) y hy

def isSeparator (close ch : Char) : Bool := ch = ',' || ch = close

theorem endsAt_of_separator (h : StartsAt (isSeparator close) tail)
    (hcomma : q ',' = true) (hclose : q close = true) : EndsAt q tail := by
  obtain ⟨ch, cs, rfl, hch⟩ := h
  simp only [isSeparator, or_eq_true, decide_eq_true_eq] at hch
  rcases hch with rfl | rfl
  · exact EndsAt.cons hcomma
  · exact EndsAt.cons hclose

theorem rest_skipSpaces (hc : c.rest = ch :: cs) (hch : isSpace ch = false) : c.skipSpaces.rest = ch :: cs := by
  rw [Cursor.skipSpaces, Cursor.rest_drop, Cursor.indentation, hc,
    takeWhile_cons_of_neg (by rw [hch]; exact false_ne_true)]
  rfl

theorem peek_eq (hc : c.rest = ch :: cs) : c.peek = some ch := by
  rw [Cursor.peek, hc]
  rfl

section

variable {text : γ → List Char} {R : γ → α → Prop}

theorem item_reads {v : γ} (hitem : Accepts item (text v) (StartsAt (isSeparator close)) (R v))
    (hhead : StartsAt (fun ch => !isSpace ch) (text v)) (hch : isSeparator close ch = true)
    (hspace : isSpace ch = false) (hc : c.rest = text v ++ ch :: more) :
    ∃ x, item c.skipSpaces = .ok x ∧ x.next.skipSpaces.rest = ch :: more ∧ R v x.value := by
  obtain ⟨x, hx, hnext, hv⟩ : Reads item c.skipSpaces (ch :: more) (R v) := by
    refine hitem c.skipSpaces (ch :: more) ?_ (StartsAt.cons hch)
    obtain ⟨d, ds, hd, hdspace⟩ := hhead
    rw [hd] at hc ⊢
    exact rest_skipSpaces hc (by simpa using hdspace)
  exact ⟨x, hx, rest_skipSpaces hnext hspace, hv⟩

/-- The items of a list in front of its closing bracket are read one by one: `v :: vs` was written, and what is
read agrees with it. -/
theorem items_reads (limit : Nat) (hclose : isSpace close = false) (hcomma : close ≠ ',') (v : γ) (vs : List γ)
    (hitem : ∀ w ∈ v :: vs, Accepts item (text w) (StartsAt (isSeparator close)) (R w))
    (hhead : ∀ w ∈ v :: vs, StartsAt (fun ch => !isSpace ch) (text w))
    (read : List α) (c : Cursor) (h : c.remaining ≤ limit)
    (hc : c.rest = [','].intercalate ((v :: vs).map text) ++ close :: tail) :
    ∃ x, items close (fun d (_ : d.remaining ≤ limit) => item d) read c h = .ok x ∧ x.next.rest = tail ∧
      ∃ ws, x.value = read.reverse ++ ws ∧ Forall₂ R (v :: vs) ws := by
  induction vs generalizing v read c with
  | nil =>
    rw [map_singleton, List.intercalate_singleton] at hc
    obtain ⟨x, hx, hnext, hv⟩ := item_reads (hitem v mem_cons_self) (hhead v mem_cons_self)
      (by simp [isSeparator]) hclose hc
    rw [items]
    simp only [hx, peek_eq hnext, some.injEq, hcomma]
    refine ⟨_, rfl, ?_, [x.value], reverse_cons, .cons hv .nil⟩
    rw [rest_drop, hnext]
    rfl
  | cons w vs ih =>
    rw [map_cons, map_cons, List.intercalate_cons_cons, List.append_assoc, List.append_assoc] at hc
    obtain ⟨x, hx, hnext, hv⟩ := item_reads (hitem v mem_cons_self) (hhead v mem_cons_self)
      (by simp [isSeparator]) (by decide) hc
    have hbehind : (x.next.skipSpaces.drop 1).rest = [','].intercalate ((w :: vs).map text) ++ close :: tail := by
      rw [rest_drop, hnext]
      rfl
    have hle : (x.next.skipSpaces.drop 1).remaining ≤ limit := by
      have hreach : c.Reaches (x.next.skipSpaces.drop 1) :=
        (c.reaches_drop _).trans (x.ahead.trans ((x.next.reaches_drop _).trans (reaches_drop 1 _)))
      exact le_trans hreach.remaining_le h
    obtain ⟨y, hy, htail, ws, hws, hall⟩ := ih w (fun u hu => hitem u (mem_cons_of_mem v hu))
      (fun u hu => hhead u (mem_cons_of_mem v hu)) (x.value :: read) _ hle hbehind
    rw [items]
    simp only [hx, peek_eq hnext, hy]
    refine ⟨_, rfl, htail, x.value :: ws, ?_, .cons hv hall⟩
    rw [Step.since_value, hws, reverse_cons, List.append_assoc]
    rfl

theorem exists_intercalate_eq (separator a : List Char) (bs : List (List Char)) :
    ∃ more, separator.intercalate (a :: bs) = a ++ more := by
  cases bs with
  | nil => exact ⟨[], by rw [List.intercalate_singleton, append_nil]⟩
  | cons b bs => exact ⟨_, by rw [List.intercalate_cons_cons, List.append_assoc]⟩

theorem list_accepts (hclose : isSpace close = false) (hcomma : close ≠ ',') (vs : List γ)
    (hitem : ∀ v ∈ vs, Accepts item (text v) (StartsAt (isSeparator close)) (R v))
    (hhead : ∀ v ∈ vs, StartsAt (fun ch => !Cursor.isSpace ch && ch != close) (text v)) :
    Accepts (list close item) ([','].intercalate (vs.map text) ++ [close]) F fun ws => Forall₂ R vs ws := by
  intro c tail hc _
  rw [List.append_assoc, singleton_append] at hc
  cases vs with
  | nil =>
    have hspaces : c.skipSpaces.rest = close :: tail := rest_skipSpaces (by simpa using hc) hclose
    refine ⟨⟨[], c.skipSpaces.drop 1, (c.reaches_drop _).trans (reaches_drop 1 _)⟩, ?_, ?_, .nil⟩
    · rw [list, listWithin, if_pos (peek_eq hspaces)]
    · rw [rest_drop, hspaces]
      rfl
  | cons v vs =>
    have hfront : ∃ ch cs, c.rest = ch :: cs ∧ isSpace ch = false ∧ ch ≠ close := by
      obtain ⟨ch, cs, hv, hch⟩ := hhead v mem_cons_self
      obtain ⟨more, hmore⟩ := exists_intercalate_eq [','] (text v) (vs.map text)
      rw [map_cons, hmore, hv] at hc
      exact ⟨ch, _, hc, by simpa using hch⟩
    obtain ⟨ch, cs, hfront, hch, hne⟩ := hfront
    have hspaces := rest_skipSpaces hfront hch
    obtain ⟨x, hx, htail, ws, hws, hall⟩ := items_reads c.remaining hclose hcomma v vs hitem
      (fun w hw => (hhead w hw).mono fun ch hch => (and_eq_true_iff.1 hch).1) [] c.skipSpaces
      c.skipSpaces_remaining_le (by rw [hspaces, ← hfront, hc])
    refine ⟨x.since (c.reaches_drop _), ?_, htail, ?_⟩
    · rw [list, listWithin, if_neg, hx]
      rw [peek_eq hspaces]
      exact fun h => hne (some.inj h)
    · change Forall₂ R (v :: vs) x.value
      rw [hws]
      exact hall

end

end Parse

end Mcfunction
