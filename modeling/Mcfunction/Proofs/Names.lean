import Mcfunction.Proofs.Exact

/-! Words, quoted strings and resource locations are read back from their texts. -/

namespace Mcfunction

open List Cursor Option String Token StartsAt EndsAt ResourceLocation Text

/-! ### Quoted strings -/

variable {p : Char → Bool} {q ch other : Char} {n : Nat} {cs : List Char}

namespace Text

def isQuote (q : Char) : Bool := q = '"' || q = '\''

theorem isQuote_quoteFor (cs : List Char) : isQuote (quoteFor cs) = true := by
  rw [quoteFor]
  split <;> rfl

theorem ne_of_isQuote (hq : isQuote q = true) (hother : isQuote other = false) : q ≠ other := by
  rintro rfl
  rw [hq] at hother
  cases hother

theorem not_isQuote (h : p ch = true) (hdouble : p '"' = false) (hsingle : p '\'' = false) : (!isQuote ch) = true := by
  cases hquote : isQuote ch with
  | false => rfl
  | true =>
    simp only [isQuote, Bool.or_eq_true, decide_eq_true_eq] at hquote
    rcases hquote with rfl | rfl
    · rw [h] at hdouble
      cases hdouble
    · rw [h] at hsingle
      cases hsingle

theorem unquote_close (hq : isQuote q = true) (tail : List Char) : unquote q (q :: tail) = .ok ([], 1) := by
  have hline : q ≠ '\n' := ne_of_isQuote hq rfl
  have hslash : q ≠ '\\' := ne_of_isQuote hq rfl
  cases tail <;> rw [unquote, if_neg hline, if_neg hslash, if_pos rfl]

theorem unquote_escapeWith (hq : isQuote q = true) (hcs : '\n' ∉ cs) (tail : List Char) :
    unquote q (escapeWith q cs ++ q :: tail) = .ok (cs, (escapeWith q cs).length + 1) := by
  induction cs with
  | nil => exact unquote_close hq tail
  | cons c cs ih =>
    rw [mem_cons, not_or] at hcs
    rw [escapeWith]
    split
    · rename_i hc
      have hescapable : isEscapable c = true := by
        rcases hc with rfl | rfl
        · rfl
        · simp only [isQuote, isEscapable, Bool.or_eq_true] at hq ⊢
          exact hq.elim (fun h => .inl (.inr h)) .inr
      rw [cons_append, cons_append, unquote, if_pos hescapable, ih hcs.2]
      rfl
    · rename_i hc
      rw [not_or] at hc
      obtain ⟨d, ds, hds⟩ : ∃ d ds, escapeWith q cs ++ q :: tail = d :: ds :=
        exists_cons_of_ne_nil (append_ne_nil_of_right_ne_nil _ (cons_ne_nil q tail))
      rw [cons_append, hds, unquote, if_neg (Ne.symm hcs.1), if_neg hc.1, if_neg hc.2, ← hds, ih hcs.2]
      rfl

theorem newline_not_mem_of_unquote {text : List Char} (h : unquote q cs = .ok (text, n)) : '\n' ∉ text := by
  have cons {c : Char} {k m : Nat} {r : Except QuoteFault (List Char × Nat)} (hc : c ≠ '\n')
      (hr : ∀ text n, r = .ok (text, n) → '\n' ∉ text) {text : List Char} (h : quotedCons c k r = .ok (text, m)) :
      '\n' ∉ text := by
    cases r with
    | error e => cases h
    | ok x =>
      cases h
      rw [mem_cons, not_or]
      exact ⟨hc.symm, hr _ _ rfl⟩
  fun_induction unquote q cs generalizing text n with
  | case1 | case2 | case3 | case5 | case6 | case8 => cases h
  | case4 | case9 =>
    cases h
    exact not_mem_nil
  | case7 d cs hd _ ih =>
    refine cons ?_ (fun _ _ => ih) h
    rintro rfl
    cases hd
  | case10 c d cs hc _ _ ih => exact cons hc (fun _ _ => ih) h

theorem toList_quoted (text : String) : (quoted text).toList =
    quoteFor text.toList :: (escapeWith (quoteFor text.toList) text.toList ++ [quoteFor text.toList]) := by
  rw [quoted, toList_ofList]

theorem quoted_starts (text : String) : StartsAt isQuote (quoted text).toList := by
  rw [toList_quoted]
  exact cons (isQuote_quoteFor _)

end Text

variable {text : String} {F : List Char → Prop} {c : Cursor}

namespace Parse

open Reader (Gives)

theorem quotedText_gives (c : Cursor) : Gives quotedText c fun text => '\n' ∉ text.toList := by
  intro x hx
  rw [quotedText] at hx
  split at hx
  · cases hx
  · split at hx
    · split at hx
      · rename_i hunquote
        cases hx
        rw [toList_ofList]
        exact newline_not_mem_of_unquote hunquote
      · cases hx
      · cases hx
    · cases hx

theorem quotedText_accepts (h : '\n' ∉ text.toList) :
    Accepts quotedText (Text.quoted text).toList F fun found => found = text := by
  rintro ⟨rest, l⟩ tail hc -
  have hq := isQuote_quoteFor text.toList
  have hquote : quoteFor text.toList = '"' ∨ Text.quoteFor text.toList = '\'' := by simpa [Text.isQuote] using hq
  have hunquote := Text.unquote_escapeWith hq h tail
  rw [Text.toList_quoted, cons_append, List.append_assoc, singleton_append] at hc
  subst hc
  generalize Text.quoteFor text.toList = q at *
  refine ⟨⟨ofList text.toList, drop ((Text.escapeWith q text.toList).length + 1 + 1) _,
    reaches_drop _ _⟩, ?_, ?_, ofList_toList⟩
  · rw [quotedText]
    dsimp only
    rw [if_pos hquote, hunquote]
  · rw [rest_drop]
    rw [List.drop_succ_cons, append_cons, drop_left' (by simp)]

theorem quoted_gives (c : Cursor) : Gives quoted c fun x => '\n' ∉ x.1.toList := spanned_gives (quotedText_gives c)

theorem quoted_accepts (h : '\n' ∉ text.toList) : Accepts quoted (Text.quoted text).toList F fun x => x.1 = text :=
  spanned_accepts (quotedText_accepts h)

theorem Accepts.atQuote {β : Type} {f : Bool → Parse β} {text : List Char} {R : β → Prop} (quote : Bool)
    (htext : StartsAt (fun ch => Text.isQuote ch = quote) text) (h : Accepts (f quote) text F R) :
    Accepts (atQuote >>= f) text F R := by
  obtain ⟨ch, cs, rfl, hch⟩ := htext
  intro d tail hd htail
  have hanswer : Reads Parse.atQuote d d.rest fun b => b = quote := by
    refine .look_bind (.pure rfl ?_)
    rw [peek_eq hd, ← of_decide_eq_true hch]
    simp [Text.isQuote]
  refine hanswer.bind ?_
  rintro _ t rfl ht
  exact h t tail (ht.trans hd) htail

end Parse

/-! ### Words -/

namespace Token

/-- A token that begins with a character of a class, and that is found again wherever it stands before one of
some tails. -/
structure Stable (t : Token) (p : Char → Bool) (F : List Char → Prop) : Prop where
  starts : ∀ cs, t cs ≠ 0 → StartsAt p (cs.take (t cs))
  stays : ∀ cs tail, t cs ≠ 0 → F tail → t (cs.take (t cs) ++ tail) = (cs.take (t cs)).length

theorem many_stable (p : Char → Bool) : (many p).Stable p (EndsAt fun ch => !p ch) where
  starts cs hne := by
    rw [show cs.take (many p cs) = cs.takeWhile p from take_length_takeWhile p cs]
    exact of_all (length_pos_iff.1 (Nat.pos_of_ne_zero hne)) fun ch hch => mem_takeWhile_imp hch
  stays cs tail _ htail := by
    rw [show cs.take (many p cs) = cs.takeWhile p from take_length_takeWhile p cs]
    exact congrArg List.length (takeWhile_append (fun ch hch => mem_takeWhile_imp hch) htail)

def isOperator (ch : Char) : Bool := ch ∈ ['>', '=', '-', '+', '*', '/', '%', '<']

theorem operation_stable : operation.Stable isOperator (EndsAt fun ch => ch != '<') where
  starts cs hne := by
    unfold operation at hne ⊢
    split at hne
    all_goals first | exact cons rfl | exact absurd rfl hne
  stays cs tail hne htail := by
    revert hne
    fun_cases operation cs with
    | case9 rest =>
      -- only a `>` would be read as a longer operation before some text
      intro _
      change operation ('>' :: tail) = 1
      rw [operation]
      rintro more rfl
      cases htail.of_cons
    | case10 => exact fun hne => absurd rfl hne
    | _ => exact fun _ => rfl

end Token

namespace Parse

open Reader (Gives)

theorem word_restores {r : Parse Node} {text : List Char}
    (hstarts : StartsAt p text) (haccepts : Accepts r text F fun m => m.form = .word (ofList text))
    (span : Span) : Restores r p F ⟨.word (ofList text), span⟩ := by
  have htext : (⟨.word (ofList text), span⟩ : Node).text.toList = text := by
    rw [Node.text_eq]
    exact toList_ofList
  refine ⟨?_, ?_, rfl, by simp [Form.sameData]⟩
  · rwa [htext]
  · rwa [htext]

theorem wordNode_restores {t : Token} (ht : t.Stable p F) (what : String)
    (c : Cursor) : Gives (wordNode t what) c fun n => Restores (wordNode t what) p F n := by
  refine (token_gives t what c).bind ?_
  rintro ⟨text, span⟩ d - ⟨hne, rfl⟩
  have hstarts := ht.starts _ hne
  refine .pure (word_restores hstarts (fun e tail he htail => ?_) span)
  refine (token_accepts what hstarts.ne_nil (fun tail => ht.stays _ tail hne) e tail he htail).bind ?_
  rintro ⟨found, span⟩ f rfl hf
  exact .pure hf rfl

/-! ### Resource locations -/

end Parse

/-- What readers of resource locations give: a path, and a namespace that is not empty if there is one. -/
structure ResourceLocation.IsRead (l : ResourceLocation) : Prop where
  path_ne : l.path.toList ≠ []
  path_all : ∀ ch ∈ l.path.toList, isPathChar ch = true
  namespace_ne : ∀ n ∈ l.inNamespace?, n.toList ≠ []
  namespace_all : ∀ n ∈ l.inNamespace?, ∀ ch ∈ n.toList, isNamespaceChar ch = true

/-- What may stand behind a resource location: no character of a path, and no colon with one behind it. -/
structure BehindLocation (tail : List Char) : Prop where
  noPath : EndsAt (fun ch => !isPathChar ch) tail
  noSecond : ∀ rest, tail = ':' :: rest → EndsAt (fun ch => !isPathChar ch) rest

variable {l : ResourceLocation}

namespace Token

variable {tail path ns : List Char}

def locationText (l : ResourceLocation) : List Char :=
  match l.inNamespace? with
  | some n => n.toList ++ ':' :: l.path.toList
  | none => l.path.toList

theorem untagged?_isRead {isTag : Bool} (h : untagged? isTag cs = some (l, n)) :
    l.IsRead ∧ l.isTag = isTag ∧ locationText l = cs.take n := by
  have bare : ∀ {l : ResourceLocation} {n : Nat}, (if cs.takeWhile isPathChar = [] then none
      else some ((⟨isTag, none, ofList (cs.takeWhile isPathChar)⟩ : ResourceLocation),
        (cs.takeWhile isPathChar).length)) = some (l, n) →
        l.IsRead ∧ l.isTag = isTag ∧ locationText l = cs.take n := by
    intro l n h
    split at h
    · cases h
    · cases h
      refine ⟨⟨?_, ?_, by simp, by simp⟩, rfl, ?_⟩
      · rwa [toList_ofList]
      · rw [toList_ofList]
        exact fun ch hch => mem_takeWhile_imp hch
      · rw [take_length_takeWhile]
        exact toList_ofList
  unfold untagged? at h
  dsimp only at h
  split at h
  · rename_i hrest
    split at h
    · exact bare h
    · rename_i hne
      rw [not_or] at hne
      cases h
      refine ⟨⟨?_, ?_, ?_, ?_⟩, rfl, ?_⟩
      · rw [toList_ofList]
        exact hne.2
      · rw [toList_ofList]
        exact fun ch hch => mem_takeWhile_imp hch
      · rintro _ ⟨⟩
        rw [toList_ofList]
        exact hne.1
      · rintro _ ⟨⟩
        rw [toList_ofList]
        exact fun ch hch => mem_takeWhile_imp hch
      · rw [Nat.add_assoc, take_add, take_length_takeWhile, hrest, Nat.add_comm 1, take_succ_cons,
          take_length_takeWhile]
        dsimp only [locationText]
        rw [toList_ofList, toList_ofList]
  · exact bare h

theorem isPathChar_of_isNamespaceChar (h : isNamespaceChar ch = true) : isPathChar ch = true := by
  rw [isPathChar, h, Bool.true_or]

theorem untagged?_namespaced (isTag : Bool) (hns : ns ≠ [])
    (hnsall : ∀ ch ∈ ns, isNamespaceChar ch = true) (hpath : path ≠ []) (hpathall : ∀ ch ∈ path, isPathChar ch = true)
    (htail : EndsAt (fun ch => !isPathChar ch) tail) : untagged? isTag (ns ++ ':' :: (path ++ tail)) =
      some (⟨isTag, some (ofList ns), ofList path⟩, ns.length + 1 + path.length) := by
  have hfirst : (ns ++ ':' :: (path ++ tail)).takeWhile isNamespaceChar = ns :=
    takeWhile_append hnsall (cons (by decide))
  rw [untagged?, hfirst, drop_left]
  split
  · rename_i hrest
    rw [← (cons.inj hrest).2, takeWhile_append hpathall htail, if_neg (not_or.2 ⟨hns, hpath⟩)]
  · rename_i hcolon
    exact absurd rfl (hcolon _)

theorem untagged?_bare (isTag : Bool) (hpath : path ≠ [])
    (hpathall : ∀ ch ∈ path, isPathChar ch = true) (htail : BehindLocation tail) :
    untagged? isTag (path ++ tail) = some (⟨isTag, none, String.ofList path⟩, path.length) := by
  have hbehind : EndsAt (fun ch => !isNamespaceChar ch) (path.dropWhile isNamespaceChar ++ tail) := by
    cases hrest : path.dropWhile isNamespaceChar with
    | nil => exact htail.noPath.mono_not fun ch => isPathChar_of_isNamespaceChar
    | cons d ds =>
      have hdrop := head?_dropWhile_not isNamespaceChar path
      rw [hrest] at hdrop
      exact cons (by simpa using hdrop)
  have hfirst : (path ++ tail).takeWhile isNamespaceChar = path.takeWhile isNamespaceChar := by
    conv_lhs => rw [← takeWhile_append_dropWhile (p := isNamespaceChar) (l := path), List.append_assoc]
    exact takeWhile_append (fun ch hch => mem_takeWhile_imp hch) hbehind
  have hrest : (path ++ tail).drop (path.takeWhile isNamespaceChar).length = path.dropWhile isNamespaceChar ++ tail := by
    rw [drop_append_of_le_length (List.takeWhile_prefix _).length_le, drop_length_takeWhile]
  rw [untagged?, hfirst, hrest, takeWhile_append hpathall htail.noPath, if_neg hpath]
  split
  · rename_i rest heq
    refine if_pos (.inr ?_)
    -- the colon is no part of the path, so it begins the tail
    cases hds : path.dropWhile isNamespaceChar with
    | nil =>
      rw [hds] at heq
      exact (htail.noSecond rest heq).takeWhile_eq_nil
    | cons d ds =>
      rw [hds] at heq
      have hd : d ∈ path := dropWhile_subset _ (hds ▸ mem_cons_self)
      have hcolon := hpathall d hd
      rw [(List.cons.inj heq).1] at hcolon
      cases hcolon
  · rfl

theorem untagged?_locationText (hl : l.IsRead) (htail : BehindLocation tail) :
    untagged? l.isTag (locationText l ++ tail) = some (l, (locationText l).length) := by
  obtain ⟨isTag, ns, path⟩ := l
  cases ns with
  | none =>
    refine (untagged?_bare isTag hl.path_ne hl.path_all htail).trans ?_
    rw [ofList_toList]
    rfl
  | some ns =>
    have hnamespaced := untagged?_namespaced isTag (hl.namespace_ne ns rfl) (hl.namespace_all ns rfl) hl.path_ne
      hl.path_all htail.noPath
    rw [ofList_toList, ofList_toList] at hnamespaced
    dsimp only [locationText]
    rw [List.append_assoc, cons_append, hnamespaced, List.length_append, length_cons]
    simp only [some.injEq, Prod.mk.injEq, true_and]
    omega

theorem locationText_starts (hl : l.IsRead) : StartsAt isPathChar (locationText l) := by
  obtain ⟨isTag, ns, path⟩ := l
  cases ns with
  | none => exact of_all hl.path_ne hl.path_all
  | some ns =>
    refine (of_all (hl.namespace_ne ns rfl) fun ch hch => ?_).append _
    exact isPathChar_of_isNamespaceChar (hl.namespace_all ns rfl ch hch)

theorem toList_write (l : ResourceLocation) : l.write.toList = (if l.isTag then ['#'] else []) ++ locationText l := by
  obtain ⟨isTag, ns, path⟩ := l
  cases isTag <;> cases ns <;> simp [write, locationText]

theorem resourceLocation?_isRead (h : resourceLocation? cs = some (l, n)) : l.IsRead ∧ l.write.toList = cs.take n := by
  rw [toList_write]
  unfold resourceLocation? at h
  split at h
  · obtain ⟨⟨l, n⟩, hl, heq⟩ := map_eq_some_iff.1 h
    cases heq
    obtain ⟨hread, htag, htext⟩ := untagged?_isRead hl
    rw [htag, htext]
    exact ⟨hread, rfl⟩
  · obtain ⟨hread, htag, htext⟩ := untagged?_isRead h
    rw [htag, htext]
    exact ⟨hread, rfl⟩

theorem resourceLocation?_write (hl : l.IsRead) (htail : BehindLocation tail) :
    resourceLocation? (l.write.toList ++ tail) = some (l, l.write.toList.length) := by
  have huntagged := untagged?_locationText hl htail
  rw [toList_write]
  cases htag : l.isTag with
  | true =>
    rw [htag] at huntagged
    change Option.map _ (untagged? true (locationText l ++ tail)) = _
    rw [huntagged]
    rfl
  | false =>
    rw [htag] at huntagged
    obtain ⟨ch, cs, htext, hch⟩ := locationText_starts hl
    change resourceLocation? (locationText l ++ tail) = some (l, (locationText l).length)
    rw [← huntagged, htext, resourceLocation?]
    rintro rest h
    rw [(cons.inj h).1] at hch
    cases hch

end Token

/-! ### Locations that texts name -/

namespace ResourceLocation

variable {a b : List Char}

theorem splitColon_some (h : splitColon cs = some (a, b)) : cs = a ++ ':' :: b := by
  induction cs generalizing a with
  | nil => cases h
  | cons ch cs ih =>
    rw [splitColon] at h
    split at h
    · rename_i hch
      cases h
      rw [hch, nil_append]
    · obtain ⟨⟨a, b⟩, hab, heq⟩ := map_eq_some_iff.1 h
      cases heq
      rw [ih hab, cons_append]

theorem splitColon_append (h : ':' ∉ a) (b : List Char) : splitColon (a ++ ':' :: b) = some (a, b) := by
  induction a with
  | nil => rfl
  | cons ch a ih =>
    rw [mem_cons, not_or] at h
    rw [cons_append, splitColon, if_neg (Ne.symm h.1), ih h.2]
    rfl

theorem splitColon_none (h : ':' ∉ cs) : splitColon cs = none := by
  rw [eq_none_iff_forall_ne_some]
  rintro ⟨a, b⟩ hab
  rw [splitColon_some hab] at h
  exact h (by simp)

/-- What is named behind the mark of a tag, or without one. -/
def unmarked (isTag : Bool) (cs : List Char) : ResourceLocation :=
  match splitColon cs with
  | some (a, b) => ⟨isTag, some (ofList a), ofList b⟩
  | none => ⟨isTag, none, ofList cs⟩

theorem ofText_tag (h : text.toList = '#' :: cs) : ofText text = unmarked true cs := by
  rw [ofText, h]
  rfl

theorem ofText_untagged (h : ∀ cs, text.toList ≠ '#' :: cs) : ofText text = unmarked false text.toList := by
  rw [ofText]
  split
  rename_i hmatch
  split at hmatch
  · rename_i htext
    exact absurd htext (h _)
  · cases hmatch
    rfl

theorem toList_write_unmarked (isTag : Bool) (cs : List Char) :
    (unmarked isTag cs).write.toList = (if isTag then ['#'] else []) ++ cs := by
  rw [toList_write, unmarked]
  split
  · rename_i hab
    rw [splitColon_some hab]
    simp [locationText]
  · simp [locationText]

theorem unmarked_locationText (hl : l.IsRead) : unmarked l.isTag (locationText l) = l := by
  obtain ⟨isTag, ns, path⟩ := l
  have hpath : ':' ∉ path.toList := fun h => absurd (hl.path_all _ h) (by decide)
  cases ns with
  | none =>
    dsimp only [unmarked, locationText]
    rw [splitColon_none hpath, ofList_toList]
  | some ns =>
    have hns : ':' ∉ ns.toList := fun h => absurd (hl.namespace_all ns rfl _ h) (by decide)
    dsimp only [unmarked, locationText]
    rw [splitColon_append hns]
    dsimp only
    rw [ofList_toList, ofList_toList]

theorem write_ofText (text : String) : (ofText text).write = text := by
  rw [← toList_inj]
  by_cases h : ∃ cs, text.toList = '#' :: cs
  · obtain ⟨cs, hcs⟩ := h
    rw [ofText_tag hcs, toList_write_unmarked, hcs]
    rfl
  · rw [ofText_untagged (not_exists.1 h), toList_write_unmarked]
    rfl

theorem ofText_write (hl : l.IsRead) : ofText l.write = l := by
  have htext := toList_write l
  have hnamed := unmarked_locationText hl
  cases htag : l.isTag with
  | true =>
    rw [htag] at htext hnamed
    exact (ofText_tag htext).trans hnamed
  | false =>
    rw [htag] at htext hnamed
    rw [ofText_untagged, htext]
    · exact hnamed
    · intro cs hcs
      obtain ⟨ch, rest, hrest, hch⟩ := locationText_starts hl
      rw [htext, hrest] at hcs
      rw [(cons.inj hcs).1] at hch
      cases hch

end ResourceLocation

namespace Parse

open Reader (Gives)

/-- The reader of resource locations and the function from texts to them agree: what is read from a whole text is the
location that the text names, and whatever a text names is written as the text. -/
theorem location_readers_agree (text : String) : (ResourceLocation.ofText text).write = text ∧
    ∀ x, resourceLocation true (.start text) = .ok x → x.next.rest = [] →
      x.value.form = .resourceLocation (.ofText text) ∧ x.value.text = text := by
  refine ⟨ResourceLocation.write_ofText text, fun x hx hrest => ?_⟩
  obtain ⟨⟨⟨l, span⟩, _, _⟩, z, hy, hz, rfl⟩ := Reader.bind_ok hx
  rw [spanned_apply, anyLocation] at hy
  split at hy
  · cases hy
  · rename_i l n hl
    cases hy
    simp only [Bool.not_true, Bool.false_eq_true, and_false, if_false] at hz
    cases hz
    obtain ⟨hread, htext⟩ := Token.resourceLocation?_isRead hl
    replace hrest : text.toList.drop n = [] := ((Cursor.start text).rest_drop n).symm.trans hrest
    have hwrite : l.write = text := by
      rw [← String.toList_inj, htext]
      exact take_of_length_le (drop_eq_nil_iff.1 hrest)
    have hname : ResourceLocation.ofText text = l := by rw [← hwrite, ResourceLocation.ofText_write hread]
    exact ⟨congrArg Form.resourceLocation hname.symm, (Node.text_eq _).trans hwrite⟩

/-- A tag of a namespace is read up to the end of its text. -/
theorem location_readers_agree_tag : ∃ x, resourceLocation true (.start "#demo:a/b") = .ok x ∧ x.next.rest = [] ∧
    x.value.form = .resourceLocation (.ofText "#demo:a/b") ∧ x.value.text = "#demo:a/b" := by
  refine ⟨⟨_, _, Cursor.reaches_drop 9 (.start "#demo:a/b")⟩, rfl, rfl, ?_⟩
  exact (location_readers_agree "#demo:a/b").2 _ rfl rfl

theorem anyLocation_gives (c : Cursor) : Gives anyLocation c IsRead := by
  intro x hx
  rw [anyLocation] at hx
  split at hx
  · cases hx
  · rename_i hl
    cases hx
    exact (resourceLocation?_isRead hl).1

theorem anyLocation_accepts (hl : l.IsRead) :
    Accepts anyLocation l.write.toList BehindLocation fun found => found = l := by
  intro c tail hc htail
  refine ⟨⟨l, c.drop l.write.toList.length, c.reaches_drop _⟩, ?_, ?_, rfl⟩
  · rw [anyLocation, hc, resourceLocation?_write hl htail]
  · rw [rest_drop, hc, drop_left]

def isLocationStart (ch : Char) : Bool := isPathChar ch || ch = '#'

theorem write_starts (hl : l.IsRead) : StartsAt isLocationStart l.write.toList := by
  rw [toList_write]
  split
  · exact cons rfl
  · exact (locationText_starts hl).mono fun ch hch => by rw [isLocationStart, hch, Bool.true_or]

theorem resourceLocation_restores (allowTag : Bool) (c : Cursor) : Gives (resourceLocation allowTag) c fun n =>
      Restores (resourceLocation allowTag) isLocationStart BehindLocation n := by
  refine (spanned_gives (anyLocation_gives c)).bind ?_
  rintro ⟨l, span⟩ d - hl
  refine .ite (fun _ => .fail) fun htag => .pure ?_
  have htext : (⟨.resourceLocation l, span⟩ : Node).text = l.write := Node.text_eq _
  refine .of_text (congrArg _ htext) (write_starts hl) ?_ rfl (by simp [Form.sameData])
  intro e tail he htail
  refine (spanned_accepts (anyLocation_accepts hl) e tail he htail).bind ?_
  rintro ⟨found, span⟩ f hfound hf
  obtain rfl : found = l := hfound
  dsimp only
  rw [if_neg htag]
  exact .pure hf rfl

def isWordEnd (ch : Char) : Bool := !isWordChar ch

theorem blockProperty_restores (c : Cursor) : Gives blockProperty c fun n =>
    Restores blockProperty isWordChar (EndsAt isWordEnd) n := by
  refine node_gives ?_
  refine (many_gives _ _ c).bind ?_
  rintro ⟨key, _⟩ d - ⟨hkey, hkeyall⟩
  refine (Reader.Gives.trivial _ d).bind fun _ e _ _ => (Reader.Gives.trivial _ e).bind fun _ f _ _ => ?_
  refine (Reader.Gives.trivial _ f).bind fun _ g _ _ => (many_gives _ _ g).bind ?_
  rintro ⟨value, _⟩ - - ⟨hvalue, hvalueall⟩
  refine .pure fun span => ?_
  have htext : (⟨.blockProperty key value, span⟩ : Node).text.toList =
      key.toList ++ ("=".toList ++ value.toList) := by
    rw [Node.text_eq]
    simp [Printer.assemble]
  refine .of_text htext ((of_all hkey hkeyall).append _) ?_ rfl (by simp [Form.sameData])
  refine node_accepts (Q := fun form => form = .blockProperty key value) ?_
  refine (many_accepts _ hkey hkeyall).bind (fun x hx => ?_) fun _ _ => cons (by decide)
  refine skipSpaces_accepts.bind_nil (fun _ _ => ?_) fun _ _ => cons (by decide)
  refine (expect_accepts "=").bind (fun _ _ => ?_) fun _ _ => trivial
  refine skipSpaces_accepts.bind_nil (fun _ _ => ?_) fun tail _ =>
    ((of_all hvalue hvalueall).mono fun ch hch => not_isSpace hch rfl rfl).endsAt tail
  refine (many_accepts _ hvalue hvalueall).bind_pure fun y hy => ?_
  rw [hx, hy, ofList_toList, ofList_toList]

end Parse

end Mcfunction
