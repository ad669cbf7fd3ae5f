import Mcfunction.Proofs.Components
import Mcfunction.Proofs.Names

/-! Trees on one line. What a printer puts around the texts of an argument adds no line feed. Main statement: an argument
whose texts hold no line feed is printed without one. -/

namespace Mcfunction

open List String Text Snbt

/-! ### Texts without line feeds -/

namespace Text

def Flat (text : String) : Prop := '\n' ∉ text.toList

instance (text : String) : Decidable (Flat text) := inferInstanceAs (Decidable ('\n' ∉ text.toList))

@[simp] theorem flat_append {s t : String} : Flat (s ++ t) ↔ Flat s ∧ Flat t := by
  rw [Flat, toList_append, mem_append, not_or]
  rfl

theorem flat_of_not_control {text : String} (h : ∀ ch ∈ text.toList, 32 ≤ ch.toNat) : Flat text :=
  fun hmem => absurd (h _ hmem) (by decide)

variable {texts : List String}

theorem flat_join (h : ∀ t ∈ texts, Flat t) : Flat (String.join texts) := by
  rw [Flat, toList_join, mem_flatMap]
  rintro ⟨t, ht, hmem⟩
  exact h t ht hmem

theorem flat_intercalate {sep : String} (hsep : Flat sep) (h : ∀ t ∈ texts, Flat t) : Flat (sep.intercalate texts) := by
  rw [Flat, toList_intercalate]
  induction texts with
  | nil => exact not_mem_nil
  | cons t texts ih =>
    have ht := h t mem_cons_self
    have ih := ih fun u hu => h u (mem_cons_of_mem t hu)
    cases texts with
    | nil => simpa [Flat] using ht
    | cons u texts =>
      rw [map_cons, map_cons, List.intercalate_cons_cons, mem_append, mem_append, not_or, not_or]
      exact ⟨⟨ht, hsep⟩, ih⟩

theorem mem_escapeWith {q ch : Char} {cs : List Char} (h : ch ∈ escapeWith q cs) : ch = '\\' ∨ ch ∈ cs := by
  induction cs with
  | nil => cases h
  | cons c cs ih =>
    rw [escapeWith] at h
    split at h <;>
      · simp only [mem_cons] at h ⊢
        tauto

theorem flat_quoted {text : String} (h : Flat text) : Flat (quoted text) := by
  have hquote : '\n' ≠ quoteFor text.toList := by
    rw [quoteFor]
    split <;> decide
  rw [Flat, quoted, toList_ofList, mem_cons, mem_append, mem_singleton]
  rintro (hmem | hmem | hmem)
  · exact hquote hmem
  · exact (mem_escapeWith hmem).elim (by decide) h
  · exact hquote hmem

theorem flat_toString (i : Int) : Flat (toString i) := flat_of_not_control (Json.not_control_of_mem_toString i)

end Text

open Text (Flat)

theorem Floating.flat_write (f : Floating.Format) (style : Floating.Style) (x : Floating) : Flat (x.write f style) :=
  flat_of_not_control (Json.not_control_of_mem_write f style x)

theorem Floating.flat_writeWhole (x : Floating) : Flat x.writeWhole := by
  cases x with
  | nan => decide
  | infinite negative => cases negative <;> decide
  | finite negative m e =>
    have htext : ∀ n : Nat, Flat (toString n ++ ".0") := fun n => flat_append.2 ⟨flat_toString n, by decide⟩
    cases negative with
    | false => exact htext _
    | true => exact flat_append.2 ⟨by decide, htext _⟩

theorem Number.flat_write (v : Number) : Flat v.write := by
  cases v with
  | int i => exact flat_toString i
  | float x =>
    rw [write]
    split
    · exact x.flat_writeWhole
    · exact x.flat_write _ _

theorem ResourceLocation.flat_write {l : ResourceLocation} (hl : l.IsRead) : Flat l.write := by
  have hpath : Flat l.path := fun hmem => absurd (hl.path_all _ hmem) (by decide)
  have hspace : ∀ n ∈ l.inNamespace?, Flat n := fun n hn hmem => absurd (hl.namespace_all n hn _ hmem) (by decide)
  rw [write, flat_append, flat_append]
  refine ⟨⟨?_, ?_⟩, hpath⟩
  · split <;> decide
  · split
    · rename_i n hn
      exact flat_append.2 ⟨hspace n hn, by decide⟩
    · decide

/-! ### Trees without line feeds -/

/-- The texts in a form that stand as they are in what is printed for it. -/
def Form.texts {ν : Type} : Form ν → List String
  | .comment text | .word text | .string text | .greedy text | .messageText text => [text]
  | .time _ unit => (unit.map String.singleton).toList
  | .resourceLocation location => [location.write]
  | .selector target _ => [target]
  | .selectorArgument _ key _ | .selectorScoreMatch key _ | .selectorCriteriaMatch key _ | .nbtCompoundEntry key _ => [key]
  | .json value => [value.write]
  | .nbtValue (.string text) => [text]
  | .blockProperty key value => [key, value]
  | _ => []

/-- No text in a tree holds a line feed. -/
inductive Node.Flat : Node → Prop where
  | mk {n : Node} (htexts : ∀ t ∈ n.form.texts, Text.Flat t) (hchildren : ∀ c ∈ n.children, Flat c) : Flat n

namespace Printer

variable {texts : List String}

theorem flat_bracketed {opening closing : String} (hopening : Flat opening) (hclosing : Flat closing)
    (h : ∀ t ∈ texts, Flat t) : Flat (bracketed opening closing texts) := by
  have htexts := flat_intercalate (by decide : Flat ",") h
  simp [bracketed, hopening, hclosing, htexts]

theorem flat_keyText {key : String} (h : Flat key) : Flat (keyText key) := by
  rw [keyText]
  split
  · exact h
  · exact flat_quoted h

theorem flat_coordinateText (kind : CoordinateKind) (value : Number) : Flat (coordinateText kind value) := by
  have hmark : Flat kind.mark := by cases kind <;> decide
  rw [coordinateText, flat_append]
  refine ⟨hmark, ?_⟩
  split
  · exact value.flat_write
  · decide

theorem flat_rangeText (min max : Option Number) : Flat (rangeText min max) := by
  have hend (o : Option Number) : Flat ((o.map Number.write).getD "") := by
    cases o with
    | none => exact not_mem_nil
    | some v => exact v.flat_write
  have hends : Flat ((min.map Number.write).getD "" ++ ".." ++ (max.map Number.write).getD "") := by
    simp +decide [hend]
  rw [rangeText.eq_def]
  split
  · split
    · exact Number.flat_write _
    · exact hends
  · exact hends

theorem flat_scalar {s : Scalar} (h : ∀ t ∈ (Form.nbtValue s : Form Node).texts, Flat t) : Flat s.write := by
  cases s with
  | bool value => cases value <;> decide
  | string text => exact flat_quoted (h text mem_cons_self)
  | int value => exact flat_toString value
  | byte value | short value | long value =>
    rw [Scalar.write, flat_append]
    exact ⟨flat_toString value, by decide⟩
  | float value | double value =>
    rw [Scalar.write, flat_append]
    exact ⟨value.flat_write _ _, by decide⟩

theorem flat_assemble {form : Form Node} (hform : ∀ t ∈ form.texts, Flat t)
    (htexts : ∀ t ∈ texts, Flat t) : Flat (assemble form texts) := by
  have hjoin := flat_join htexts
  cases form with
  | root | command => exact not_mem_nil
  | bool value => exact (by cases value <;> decide : Flat (toString value))
  | number value => exact value.flat_write
  | word | greedy | messageText | resourceLocation | json value => exact hform _ mem_cons_self
  | comment text => exact flat_append.2 ⟨by decide, hform _ mem_cons_self⟩
  | string text => exact flat_quoted (hform _ mem_cons_self)
  | coordinate kind value => exact flat_coordinateText kind value
  | range min max => exact flat_rangeText min max
  | message | itemStack => exact hjoin
  | vector2 | vector3 | selectorAdvancementMatch => exact flat_intercalate (by decide) htexts
  | selectorScores | selectorAdvancements | selectorCriteria | nbtCompound =>
    exact flat_bracketed (by decide) (by decide) htexts
  | nbtList => exact flat_bracketed (by decide) (by decide) htexts
  | nbtArray kind => exact flat_bracketed (by cases kind <;> decide) (by decide) htexts
  | nbtValue s => exact flat_scalar hform
  | time value unit =>
    refine flat_append.2 ⟨value.flat_write, ?_⟩
    cases unit with
    | none => exact not_mem_nil
    | some u => exact hform _ mem_cons_self
  | blockProperty key value =>
    have hkey := hform key mem_cons_self
    have hvalue := hform value (mem_cons_of_mem _ mem_cons_self)
    simp +decide [assemble, hkey, hvalue]
  | selector target arguments =>
    have htarget := hform target mem_cons_self
    have hlist := flat_bracketed (by decide : Flat "[") (by decide : Flat "]") htexts
    simp only [assemble]
    split <;> simp +decide [htarget, hlist]
  | selectorArgument inverted key value =>
    have hkey := hform key mem_cons_self
    cases inverted <;> simp +decide [assemble, hkey, hjoin]
  | selectorScoreMatch key value =>
    have hkey := hform key mem_cons_self
    simp +decide [assemble, hkey, hjoin]
  | selectorCriteriaMatch key value =>
    have hkey := hform key mem_cons_self
    cases value <;> simp +decide [assemble, hkey]
  | nbtCompoundEntry key value =>
    have hkey := flat_keyText (hform key mem_cons_self)
    simp +decide [assemble, hkey, hjoin]
  | blockState identifier properties tags =>
    have hname := flat_join fun t ht => htexts t (mem_of_mem_take (i := 1) ht)
    have hdata := flat_join fun t ht => htexts t (mem_of_mem_drop (mem_of_mem_drop
      (i := properties.length) (l := texts.drop 1) ht))
    have hlist := flat_bracketed (by decide : Flat "[") (by decide : Flat "]")
      fun t ht => htexts t (mem_of_mem_drop (mem_of_mem_take (i := properties.length) (l := texts.drop 1) ht))
    simp only [assemble, flat_append]
    refine ⟨⟨hname, ?_⟩, hdata⟩
    split
    · decide
    · exact hlist

end Printer

namespace Node

variable {n : Node}

theorem Flat.text (h : n.Flat) : Text.Flat n.text := by
  induction h with
  | mk htexts _ ih =>
    rw [text_eq]
    refine Printer.flat_assemble htexts ?_
    rw [forall_mem_map]
    exact ih

end Node

end Mcfunction
