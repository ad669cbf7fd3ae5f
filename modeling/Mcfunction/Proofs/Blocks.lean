import Mcfunction.Proofs.Tags

/-! Blocks and items are read back from their texts: a resource location with properties and data behind it. -/

namespace Mcfunction.Parse

open List Node Printer Snbt
open Reader (Gives)

variable {F : List Char → Prop}

/-! ### Optional parts -/

/-- The text of a list between brackets, which is left out if it is empty. -/
def bracketText (ns : List Node) : List Char :=
  if ns.isEmpty then [] else "[".toList ++ ([','].intercalate (ns.map fun n => n.text.toList) ++ "]".toList)

theorem toList_bracketText (ns : List Node) :
    (if ns.isEmpty then "" else Printer.bracketed "[" "]" (ns.map text)).toList = bracketText ns := by
  cases ns with
  | nil => rfl
  | cons n ns => exact toList_bracketed "[" "]" (n :: ns)

theorem bracketed_gives {item : Parse Node} {Q : Node → Prop} (hitem : ∀ d, Gives item d Q) (c : Cursor) :
    Gives (bracketed item) c fun ns => ∀ n ∈ ns, Q n := by
  refine (Reader.Gives.trivial _ c).bind fun found d _ _ => ?_
  exact Reader.Gives.ite (fun _ => list_gives fun e _ => hitem e) fun _ => Reader.Gives.pure (by simp)

theorem bracketed_accepts {item : Parse Node} {p : Char → Bool} {ns : List Node} (hblank : p ' ' = false)
    (htab : p '\t' = false) (hend : p ']' = false) (hitems : ∀ n ∈ ns, Returns item p (StartsAt (isSeparator ']')) n) :
    Accepts (bracketed item) (bracketText ns) (fun tail => ns = [] → EndsAt (fun ch => ch != '[') tail)
      (AllSame ns) := by
  cases ns with
  | nil =>
    refine (consume_refuses "[" rfl).bind_nil (fun found hfound => ?_) fun _ htail => htail rfl
    rw [hfound]
    exact Reader.Accepts.pure .nil
  | cons n ns =>
    refine (consume_accepts "[").bind (fun found hfound => ?_) fun _ _ => trivial
    rw [hfound]
    exact list_returns rfl (by decide) hblank htab hend hitems

def optionText (o : Option Node) : List Char := o.toList.flatMap fun n => n.text.toList

theorem optionText_some (n : Node) : optionText (some n) = n.text.toList := by simp [optionText]

theorem toList_join (o : Option Node) : (String.join (o.toList.map text)).toList = optionText o := by
  cases o <;> simp [optionText]

variable {o found : Option Node} {tail : List Char}

theorem AllSame.isSome_eq (h : AllSame o.toList found.toList) : o.isSome = found.isSome := by
  cases o <;> cases found <;> simp_all

theorem dataTags_gives (c : Cursor) : Gives dataTags c fun o => ∀ n ∈ o,
    n.Exact → Returns compound (fun ch => ch = '{') (fun _ => True) n := by
  refine .look_bind (.ite (fun _ => ?_) fun _ => .pure (by simp))
  refine (compound_returns c).bind fun n _ _ hn => .pure ?_
  rintro _ ⟨⟩
  exact hn

theorem dataTags_accepts
    (ho : ∀ n ∈ o, Returns compound (fun ch => ch = '{') (fun _ => True) n) :
    Accepts dataTags (optionText o) (EndsAt fun ch => ch != '{') fun found => AllSame o.toList found.toList := by
  cases o with
  | none =>
    intro c tail hc htail
    refine .look_bind ?_
    rw [if_neg]
    · exact .pure hc .nil
    · intro hpeek
      rw [Cursor.peek, hc] at hpeek
      cases htail _ hpeek
  | some n =>
    obtain ⟨ch, cs, htext, hch⟩ := (ho n rfl).starts
    obtain rfl : ch = '{' := of_decide_eq_true hch
    have haccepts := (ho n rfl).accepts
    rw [optionText_some]
    rw [htext] at haccepts ⊢
    refine Accepts.peek ?_
    exact Reader.Accepts.bind_pure (haccepts.before fun _ _ => trivial) fun m hm => .cons hm .nil

/-! ### Blocks and items -/

/-- What may stand behind an item. -/
structure BehindItem (tail : List Char) : Prop where
  location : BehindLocation tail
  noData : EndsAt (fun ch => ch != '{') tail

/-- What may stand behind a block. -/
structure BehindBlock (tail : List Char) : Prop extends BehindItem tail where
  noProperties : EndsAt (fun ch => ch != '[') tail

theorem behindLocation_of_ne {ch : Char} (hpath : Token.isPathChar ch = false) (hcolon : ch ≠ ':') :
    BehindLocation (ch :: tail) := by
  refine ⟨EndsAt.cons (by rw [hpath]; rfl), ?_⟩
  rintro rest h
  exact absurd (cons.inj h).1 hcolon

theorem behindLocation_optionText (ho : ∀ n ∈ o, StartsAt (fun ch => ch = '{') n.text.toList)
    (htail : BehindLocation tail) : BehindLocation (optionText o ++ tail) := by
  cases o with
  | none => exact htail
  | some n =>
    obtain ⟨ch, cs, htext, hch⟩ := ho n rfl
    obtain rfl : ch = '{' := of_decide_eq_true hch
    rw [optionText_some, htext]
    exact behindLocation_of_ne rfl (by decide)

theorem item_returns (allowTag : Bool) (c : Cursor) : Gives (item allowTag) c fun n =>
    n.Exact → Returns (item allowTag) isLocationStart BehindItem n := by
  refine node_gives ((resourceLocation_restores allowTag c).bind fun identifier d _ hid => ?_)
  refine (dataTags_gives d).bind fun tags _ _ htags => .pure fun span hexact => ?_
  replace htags : ∀ n ∈ tags, Returns compound (fun ch => ch = '{') (fun _ => True) n := fun n hn =>
    htags n hn (hexact.child (mem_cons_of_mem _ (Option.mem_toList.2 hn)))
  have htext : (⟨.itemStack identifier tags, span⟩ : Node).text.toList =
      identifier.text.toList ++ optionText tags := by
    rw [text_eq]
    simp [assemble, children, Form.children, ← toList_join]
  refine .of_text htext (hid.starts.append _) ?_
  refine (node_accepts (Q := fun form => ∃ name data, form = .itemStack name data ∧ identifier.same name = true ∧
    AllSame tags.toList data.toList) ?_).mono ?_
  · refine hid.returns.accepts.bind (fun name hname => ?_) fun tail htail =>
      behindLocation_optionText (fun n hn => (htags n hn).starts) htail.location
    exact Reader.Accepts.bind_pure ((dataTags_accepts htags).before fun _ htail => htail.noData)
      fun data hdata => ⟨name, data, rfl, hname, hdata⟩
  · rintro ⟨_, span⟩ ⟨name, data, rfl, hname, hdata⟩
    exact same_iff.2 ⟨decide_eq_true (AllSame.isSome_eq hdata), .cons hname hdata⟩

theorem behindLocation_bracketText (ns : List Node) (htail : BehindLocation tail) :
    BehindLocation (bracketText ns ++ tail) := by
  cases ns with
  | nil => exact htail
  | cons n ns => exact behindLocation_of_ne rfl (by decide)

theorem endsAt_optionText (ho : ∀ n ∈ o, StartsAt (fun ch => ch = '{') n.text.toList)
    {q : Char → Bool} (hq : q '{' = true) (htail : EndsAt q tail) :
    EndsAt q (optionText o ++ tail) := by
  cases o with
  | none => exact htail
  | some n =>
    rw [optionText_some]
    refine ((ho n rfl).mono fun ch hch => ?_).endsAt tail
    rw [of_decide_eq_true hch]
    exact hq

theorem toList_blockState (identifier : Node) (properties : List Node) (tags : Option Node) :
    (assemble (.blockState identifier properties tags)
      ((identifier :: (properties ++ tags.toList)).map text)).toList =
      identifier.text.toList ++ (bracketText properties ++ optionText tags) := by
  have htake : ((properties ++ tags.toList).map text).take properties.length = properties.map text := by
    rw [map_append, take_left' (length_map _)]
  have hdrop : ((properties ++ tags.toList).map text).drop properties.length = tags.toList.map text := by
    rw [map_append, drop_left' (length_map _)]
  have hname : (String.join [identifier.text]).toList = identifier.text.toList := by simp
  simp only [assemble, map_cons, take_succ_cons, take_zero, drop_succ_cons, drop_zero,
    htake, hdrop, String.toList_append, toList_join, append_assoc, toList_bracketText, hname]

theorem block_returns (allowTag : Bool) (c : Cursor) : Gives (block allowTag) c fun n =>
    n.Exact → Returns (block allowTag) isLocationStart BehindBlock n := by
  rw [block_eq]
  refine node_gives ((resourceLocation_restores allowTag c).bind fun identifier d _ hid => ?_)
  refine (bracketed_gives blockProperty_restores d).bind fun properties e _ hprops => ?_
  refine (dataTags_gives e).bind fun tags _ _ htags => .pure fun span hexact => ?_
  replace htags : ∀ n ∈ tags, Returns compound (fun ch => ch = '{') (fun _ => True) n := fun n hn =>
    htags n hn (hexact.child (mem_cons_of_mem _ (mem_append_right _ (Option.mem_toList.2 hn))))
  have hitems : ∀ n ∈ properties, Returns blockProperty Token.isWordChar (StartsAt (isSeparator ']')) n := fun n hn =>
    ⟨(hprops n hn).starts, (hprops n hn).returns.accepts.before fun _ h => endsAt_of_separator h rfl rfl⟩
  have htext : (⟨.blockState identifier properties tags, span⟩ : Node).text.toList =
      identifier.text.toList ++ (bracketText properties ++ optionText tags) := by
    rw [text_eq]
    exact toList_blockState identifier properties tags
  refine .of_text htext (hid.starts.append _) ?_
  refine (node_accepts (Q := fun form => ∃ name ps data, form = .blockState name ps data ∧
    identifier.same name = true ∧ AllSame properties ps ∧ AllSame tags.toList data.toList) ?_).mono ?_
  · refine hid.returns.accepts.bind (fun name hname => ?_) fun tail htail => ?_
    · refine (bracketed_accepts rfl rfl rfl hitems).bind (fun ps hps => ?_) fun tail htail => ?_
      · exact Reader.Accepts.bind_pure ((dataTags_accepts htags).before fun _ htail => htail.noData)
          fun data hdata => ⟨name, ps, data, rfl, hname, hps, hdata⟩
      · exact fun _ => endsAt_optionText (fun n hn => (htags n hn).starts) rfl htail.noProperties
    · rw [append_assoc]
      exact behindLocation_bracketText _ (behindLocation_optionText (fun n hn => (htags n hn).starts) htail.location)
  · rintro ⟨_, span⟩ ⟨name, ps, data, rfl, hname, hps, hdata⟩
    refine same_iff.2 ⟨?_, .cons hname (rel_append hps hdata)⟩
    exact Bool.and_eq_true_iff.2 ⟨decide_eq_true hps.length_eq, decide_eq_true (AllSame.isSome_eq hdata)⟩

end Mcfunction.Parse
