import Mcfunction.Proofs.Parallel

/-! Line ends. A line may end with a line feed, or with a carriage return and a line feed. Main statement: a text without
carriage returns is read alike with one in front of each line feed. Every place of the first text has a twin in the second:
on the line, they see the same characters up to its end. -/

namespace Mcfunction

open List Cursor Text Location

variable {text line : List Char}

namespace Text

def withReturns (text : List Char) : List Char := text.flatMap fun ch => if ch = '\n' then ['\r', '\n'] else [ch]

@[simp] theorem withReturns_nil : withReturns [] = [] := rfl

@[simp] theorem withReturns_append (a b : List Char) : withReturns (a ++ b) = withReturns a ++ withReturns b :=
  flatMap_append

@[simp] theorem withReturns_newline (text : List Char) : withReturns ('\n' :: text) = '\r' :: '\n' :: withReturns text := rfl

theorem withReturns_eq_nil_iff : withReturns text = [] ↔ text = [] := by
  cases text with
  | nil => simp
  | cons ch text =>
    by_cases hch : ch = '\n' <;> simp [withReturns, hch]

theorem withReturns_of_not_mem (h : '\n' ∉ line) : withReturns line = line := by
  induction line with
  | nil => rfl
  | cons ch line ih =>
    rw [mem_cons, not_or] at h
    rw [← singleton_append, withReturns_append, ih h.2]
    simp [withReturns, Ne.symm h.1]

theorem rests_withReturns (h : '\r' ∉ text) : Rests ['\r'] text (withReturns text) := by
  by_cases hmem : '\n' ∈ text
  · obtain ⟨line, rest, rfl, hline⟩ := eq_append_cons_of_mem hmem
    rw [withReturns_append, withReturns_of_not_mem hline]
    refine .returned line rest _ rfl (fun hlast => h ?_) hline
    exact mem_append_left _ (mem_of_getLast? hlast)
  · rw [withReturns_of_not_mem hmem]
    exact .same text

end Text

open Text (withReturns)

theorem Location.offset_lt_afterAll_iff (l : Location) (cs : List Char) :
    l.offset < (l.afterAll cs).offset ↔ cs ≠ [] := by
  rw [offset_afterAll]
  cases cs with
  | nil => simp
  | cons ch cs => simpa using Nat.add_pos_left ch.utf8Size_pos _

/-- A place of a text, and the same place in the text with carriage returns. -/
structure Returned (text : List Char) (c d : Cursor) : Prop where
  rest : d.rest = withReturns c.rest
  before : ∃ before, before ++ c.rest = text ∧ c.location = origin.afterAll before ∧
    d.location = origin.afterAll (withReturns before)

namespace Returned

variable {c d : Cursor}

/-- The location behind some characters of a text, and the one behind them in the text with carriage returns. -/
def Places (text : List Char) (l k : Location) : Prop :=
  ∃ before, before <+: text ∧ l = origin.afterAll before ∧ k = origin.afterAll (withReturns before)

theorem Places.offset_lt {l k l' k' : Location} (h : Places text l k) (h' : Places text l' k') :
    l.offset < l'.offset ↔ k.offset < k'.offset := by
  obtain ⟨a, ha, rfl, rfl⟩ := h
  obtain ⟨b, hb, rfl, rfl⟩ := h'
  have hback : ∀ (l : Location) (cs : List Char), ¬(l.afterAll cs).offset < l.offset := by
    intro l cs
    rw [offset_afterAll]
    omega
  rcases prefix_or_prefix_of_prefix ha hb with ⟨e, rfl⟩ | ⟨e, rfl⟩
  · rw [withReturns_append, afterAll_append, afterAll_append, offset_lt_afterAll_iff,
      offset_lt_afterAll_iff, Ne, Ne, withReturns_eq_nil_iff]
  · rw [withReturns_append, afterAll_append, afterAll_append]
    exact iff_of_false (hback _ _) (hback _ _)

/-- Over some characters in the one text, and over the same with the carriage returns in the other. -/
theorem ahead (h : Returned text c d) {pre post : List Char} (hc : c.rest = pre ++ post) :
    Returned text ⟨post, c.location.afterAll pre⟩ ⟨withReturns post, d.location.afterAll (withReturns pre)⟩ where
  rest := rfl
  before := by
    obtain ⟨before, htext, hl, hk⟩ := h.before
    refine ⟨before ++ pre, ?_, ?_, ?_⟩
    · rw [append_assoc, ← hc, htext]
    · rw [hl, afterAll_append]
    · rw [hk, withReturns_append, afterAll_append]

theorem places (h : Returned text c d) : Places text c.location d.location := by
  obtain ⟨before, htext, hl, hk⟩ := h.before
  exact ⟨before, ⟨c.rest, htext⟩, hl, hk⟩

variable (htext : '\r' ∉ text)

include htext

theorem return_not_mem (h : Returned text c d) : '\r' ∉ c.rest := by
  obtain ⟨before, hbefore, -⟩ := h.before
  rw [← hbefore, mem_append, not_or] at htext
  exact htext.2

theorem rests (h : Returned text c d) : Rests ['\r'] c.rest d.rest := by
  rw [h.rest]
  exact rests_withReturns (h.return_not_mem htext)

theorem drop (h : Returned text c d) {n : Nat} (hn : '\n' ∉ c.rest.take n ∧ '\n' ∉ d.rest.take n) :
    Returned text (c.drop n) (d.drop n) := by
  have hsplit : d.rest = c.rest.take n ++ withReturns (c.rest.drop n) := by
    rw [h.rest, ← withReturns_of_not_mem hn.1, ← withReturns_append, take_append_drop]
  have htake : d.rest.take n = withReturns (c.rest.take n) := by
    rw [(h.rests htext).take_eq hn, withReturns_of_not_mem hn.1]
  have hdrop : d.rest.drop n = withReturns (c.rest.drop n) := by
    refine append_cancel_left (?_ : d.rest.take n ++ _ = d.rest.take n ++ _)
    rw [take_append_drop, (h.rests htext).take_eq hn, ← hsplit]
  rw [drop_eq, drop_eq, htake, hdrop]
  exact h.ahead (take_append_drop n c.rest).symm

theorem newline (h : Returned text c d) : Option.Rel (Returned text) c.skipNewline? d.skipNewline? := by
  have hreturn := h.return_not_mem htext
  obtain ⟨cs, l⟩ := c
  obtain ⟨ds, k⟩ := d
  obtain rfl : ds = withReturns cs := h.rest
  cases cs with
  | nil => exact .none
  | cons ch cs =>
    by_cases hch : ch = '\n'
    · subst hch
      exact .some (h.ahead (show '\n' :: cs = ['\n'] ++ cs from rfl))
    · have hr : ch ≠ '\r' := fun heq => hreturn (heq ▸ mem_cons_self)
      have hd : withReturns (ch :: cs) = ch :: withReturns cs := by simp [withReturns, hch]
      rw [skipNewline?, skipNewline?, hd]
      simp [hch, hr]

end Returned

/-- Every place of a text, and the same place in the text with carriage returns. -/
def Pairing.returned (text : List Char) (htext : '\r' ∉ text) : Pairing where
  Twin := Returned text
  Rel := Returned.Places text
  tail := ['\r']
  rests h := h.rests htext
  location h := h.places
  offset_lt h h' := h.offset_lt h'
  drop h _ hn := h.drop htext hn
  newline _ _ _ h := h.newline htext

namespace Parser

/-- Line ends do not matter. A text without carriage returns, and the text with one in front of each line feed, are both
refused with the same message, or both are read, with equal trees. -/
theorem parse_withReturns (p : Parser) (source : String) (hsource : '\r' ∉ source.toList) :
    let returned := String.ofList (withReturns source.toList)
    (∃ e g, p.parse source = .error e ∧ p.parse returned = .error g ∧ g.message = e.message) ∨
      ∃ n k, p.parse source = .ok n ∧ p.parse returned = .ok k ∧ n.same k = true := by
  intro returned
  have hstart : (Pairing.returned source.toList hsource).Twin (.start source) (.start returned) :=
    Returned.mk (String.toList_ofList) ⟨[], rfl, rfl, rfl⟩
  have hlines := Pairing.likeness_linewise (m := .returned source.toList hsource) (p := p)
    fun htail => absurd (Option.some.inj htail) (by decide)
  rcases hlines.parse_alike Pairing.likeness_singles hstart with ⟨e, g, he, hg, herrors⟩ | ⟨n, k, hn, hk, hnodes⟩
  · exact Or.inl ⟨e, g, he, hg, congrArg Complaint.message herrors.complaint⟩
  · exact Or.inr ⟨n, k, hn, hk, hnodes.same⟩

/-- A comment, a blank line, and a block with a selector and a quoted text at line ends. -/
theorem parse_withReturns_block :
    let p : Parser := { tree := .bundled, options := { multiline := true, keepComments := true } }
    let source := "# greet\n\nfunction demo:a:\n  say hi @s\n  tellraw @s \"x\"\nsay bye"
    let returned := "# greet\r\n\r\nfunction demo:a:\r\n  say hi @s\r\n  tellraw @s \"x\"\r\nsay bye"
    '\r' ∉ source.toList ∧ returned = String.ofList (withReturns source.toList) ∧
      ∃ n k, p.parse source = .ok n ∧ p.parse returned = .ok k ∧ n.same k = true := by
  intro p source returned
  have hsource : '\r' ∉ source.toList := by decide
  have hreturned : returned = String.ofList (withReturns source.toList) := by decide
  have hread : (p.parse source).toOption.isSome = true := by decide +kernel
  rw [hreturned]
  rcases parse_withReturns p source hsource with ⟨e, g, he, -⟩ | hboth
  · rw [he] at hread
    cases hread
  · exact ⟨hsource, rfl, hboth⟩

end Parser

end Mcfunction
