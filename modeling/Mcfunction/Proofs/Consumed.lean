import Mathlib.Data.List.DropRight
import Mcfunction.Proofs.Indentation
import Mcfunction.Proofs.Spans

/-! What a reading leaves over. The lines of a text are read to its end, with one exception: the text of a comment stops
before a carriage return at the end of the text, which is no line end of its own, and nothing reads on from there. Main
statement: a text that is read is read as a whole, but for a carriage return behind a comment in its last line. -/

namespace Mcfunction

open List Cursor Option String Cursor

namespace Text

/-- A line with nothing but a comment and a carriage return behind it. -/
structure IsReturned (line : List Char) : Prop where
  flat : '\n' ∉ line
  comment : (line.dropWhile isSpace).head? = some '#'
  last : line.getLast? = some '\r'

/-- Whether the last line of a text holds nothing but a comment and a carriage return behind it. -/
def endsReturned (text : List Char) : Bool :=
  let line := text.rtakeWhile (· ≠ '\n')
  (line.dropWhile isSpace).head? = some '#' && line.getLast? = some '\r'

variable {text line : List Char}

theorem lineStart_last (text : List Char) : LineStart text (text.rtakeWhile (· ≠ '\n')) := by
  have hsplit := takeWhile_append_dropWhile (p := fun x => decide (x ≠ '\n')) (l := text.reverse)
  have hhead := head?_dropWhile_not (fun x => decide (x ≠ '\n')) text.reverse
  have htext : text = (text.reverse.dropWhile (fun x => decide (x ≠ '\n'))).reverse ++
      text.rtakeWhile (fun x => decide (x ≠ '\n')) := by
    rw [rtakeWhile, ← reverse_append, hsplit, reverse_reverse]
  cases hdrop : text.reverse.dropWhile (fun x => decide (x ≠ '\n')) with
  | nil =>
    rw [hdrop] at htext
    exact .inl htext.symm
  | cons x before =>
    rw [hdrop] at hhead htext
    obtain rfl : x = '\n' := by simpa using hhead
    rw [reverse_cons, List.append_assoc] at htext
    exact .inr ⟨_, htext⟩

theorem rtakeWhile_of_lineStart (h : LineStart text line) (hline : '\n' ∉ line) :
    text.rtakeWhile (· ≠ '\n') = line := by
  have hall : ∀ x ∈ line.reverse, decide (x ≠ '\n') = true := by
    intro x hx
    refine decide_eq_true ?_
    rintro rfl
    exact hline (mem_reverse.1 hx)
  rcases h with rfl | ⟨before, rfl⟩
  · rw [rtakeWhile, takeWhile_eq_self_iff.2 hall, reverse_reverse]
  · rw [List.rtakeWhile, reverse_append, reverse_cons, List.append_assoc, takeWhile_append_of_pos hall]
    simp

theorem endsReturned_iff : endsReturned text = true ↔ ∃ line, LineStart text line ∧ IsReturned line := by
  rw [endsReturned, Bool.and_eq_true, decide_eq_true_eq, decide_eq_true_eq]
  constructor
  · rintro ⟨hcomment, hlast⟩
    have hflat : '\n' ∉ text.rtakeWhile (· ≠ '\n') := by
      rw [rtakeWhile, mem_reverse]
      exact not_mem_takeWhile rfl _
    exact ⟨_, lineStart_last text, hflat, hcomment, hlast⟩
  · rintro ⟨line, hstart, hline⟩
    rw [rtakeWhile_of_lineStart hstart hline.flat]
    exact ⟨hline.comment, hline.last⟩

end Text

open Text

namespace Cursor

variable {c d : Cursor} {text line : List Char}

theorem Reaches.offset_add (h : c.Reaches d) :
    d.location.offset + (ofList d.rest).utf8ByteSize = c.location.offset + (ofList c.rest).utf8ByteSize := by
  obtain ⟨n, rfl⟩ := h
  have hsplit : (ofList c.rest).utf8ByteSize =
      (ofList (c.rest.take n)).utf8ByteSize + (ofList (c.rest.drop n)).utf8ByteSize := by
    rw [← utf8ByteSize_append, ← ofList_append, take_append_drop]
  rw [drop_eq]
  dsimp only
  rw [Location.offset_afterAll]
  omega

/-! ### A line further on -/

def Ahead (line : List Char) (c : Cursor) : Prop := ∃ before, c.rest = before ++ '\n' :: line

theorem Ahead.onLine (h : c.Ahead line) (hd : c.OnLine d) : d.Ahead line := by
  obtain ⟨before, hrest⟩ := h
  obtain ⟨n, rfl, hn⟩ := hd
  have hle : n ≤ before.length := by
    refine Nat.le_of_not_lt fun hlt => hn ?_
    obtain ⟨k, hk⟩ := Nat.exists_eq_add_of_lt hlt
    rw [hrest, take_append, show n - before.length = k + 1 by omega]
    simp
  exact ⟨before.drop n, by rw [rest_drop, hrest, drop_append_of_le_length hle]⟩

theorem Ahead.rest_ne (h : c.Ahead line) : c.rest ≠ [] := by
  obtain ⟨before, hrest⟩ := h
  simp [hrest]

theorem Ahead.lineStart (h : c.Ahead line) (hd : c.skipNewline? = some d) : LineStart d.rest line := by
  obtain ⟨before, hbefore⟩ := h
  rcases skipNewline?_some hd with hrest | hrest <;> rw [hbefore] at hrest
  · cases before with
    | nil => exact .inl (cons.inj hrest).2
    | cons x before => exact .inr ⟨before, (cons.inj hrest).2.symm⟩
  · rcases before with _ | ⟨x, _ | ⟨y, before⟩⟩
    · cases hrest
    · exact .inl (cons.inj (cons.inj hrest).2).2
    · exact .inr ⟨before, (cons.inj (cons.inj hrest).2).2.symm⟩

section Returned

variable (hline : IsReturned line)

include hline

theorem rest_skipSpaces_of_line (h : c.rest = line) : ∃ tail, c.skipSpaces.rest = '#' :: tail := by
  rw [skipSpaces, rest_drop, indentation, drop_length_takeWhile, h]
  exact head?_eq_some_iff.1 hline.comment

theorem ahead_skipBlankLines (h : LineStart c.rest line) : LineStart c.skipBlankLines.rest line := by
  fun_induction skipBlankLines c with
  | case1 c hend =>
    have hnil : c.skipSpaces.rest = [] := isEmpty_iff.1 hend
    rcases h with h | h
    · obtain ⟨tail, htail⟩ := rest_skipSpaces_of_line hline h.symm
      rw [htail] at hnil
      cases hnil
    · exact absurd hnil (Ahead.onLine h c.skipSpaces_onLine).rest_ne
  | case2 c hend d hd ih =>
    rcases h with h | h
    · obtain ⟨tail, htail⟩ := rest_skipSpaces_of_line hline h.symm
      rcases skipNewline?_some hd with hrest | hrest <;> rw [htail] at hrest <;> cases hrest
    · exact ih ((Ahead.onLine h c.skipSpaces_onLine).lineStart hd)
  | case3 c hend hd => exact h

theorem rest_skipLine_of_line (h : c.rest = line) : c.skipSpaces.skipLine.rest = ['\r'] := by
  obtain ⟨tail, htail⟩ := rest_skipSpaces_of_line hline h
  have hsuffix : c.skipSpaces.rest <:+ line := h ▸ c.skipSpaces_reaches.suffix
  have hflat : '\n' ∉ c.skipSpaces.rest := fun hmem => hline.flat (hsuffix.subset hmem)
  have hlast : c.skipSpaces.rest.getLast? = some '\r' := by
    obtain ⟨before, hbefore⟩ := hsuffix
    have hreturn := hline.last
    rwa [← hbefore, getLast?_append, htail, getLast?_cons, some_or, ← getLast?_cons, ← htail] at hreturn
  have hall : c.skipSpaces.rest.takeWhile (· ≠ '\n') = c.skipSpaces.rest := by
    refine takeWhile_eq_self_iff.2 fun x hx => decide_eq_true ?_
    rintro rfl
    exact hflat hx
  have hrest : c.skipSpaces.lineRest = c.skipSpaces.rest.dropLast := by rw [lineRest, hall, if_pos hlast]
  rw [skipLine, rest_drop, hrest]
  conv => lhs; rw [← dropLast_append_getLast? '\r' hlast]
  simp

end Returned

end Cursor

namespace Parser

variable {p : Parser} {indent : Option Nat} {first : Bool} {c d : Cursor} {n : Node} {text line : List Char}
  {lines : List Node} {r : Except SyntaxError (Node × Cursor)} {stage : Stage} {ks : List Nat}

/-! ### Up to the end of the text -/

/-- Where a text is read on: at the start of a line, at the end of one, or before the carriage return behind a comment in
the last one. -/
inductive ReadsOn (text : List Char) : Bool → Cursor → Prop where
  | start {c : Cursor} (hstart : LineStart text c.rest) : ReadsOn text true c
  | ended {c : Cursor} (hsuffix : c.rest <:+ text) (hend : c.atLineEnd = true) : ReadsOn text false c
  | returned {c : Cursor} (hsuffix : c.rest <:+ text) (hrest : c.rest = ['\r']) (htext : endsReturned text = true) :
      ReadsOn text false c

theorem ReadsOn.suffix (h : ReadsOn text first c) : c.rest <:+ text := by
  cases h with
  | start hstart => exact hstart.suffix
  | ended hsuffix | returned hsuffix => exact hsuffix

theorem ReadsOn.nextLine? (h : ReadsOn text first c) (hd : c.nextLine? first = some d) (hend : d.atEnd = false) :
    LineStart text d.rest := by
  refine lineStart_nextLine? h.suffix (fun hfirst => ?_) hd hend
  cases h with
  | start hstart => exact hstart
  | ended | returned => cases hfirst

theorem readsOn_comment (h : LineStart text c.rest) (hcomment : c.atComment = true) :
    ReadsOn text false c.skipSpaces.skipLine := by
  have hsuffix := (c.skipSpaces_reaches.trans c.skipSpaces.skipLine_reaches).suffix.trans h.suffix
  rcases c.skipSpaces.skipLine_stops with hend | ⟨hrest, hline⟩
  · exact .ended hsuffix hend
  · have hsplit : c.rest = c.rest.takeWhile isSpace ++ (c.skipSpaces.lineRest ++ ['\r']) := by
      rw [← hline, skipSpaces, rest_drop, indentation, drop_length_takeWhile, List.takeWhile_append_dropWhile]
    refine .returned hsuffix hrest (endsReturned_iff.2 ⟨c.rest, h, ?_, of_decide_eq_true hcomment, ?_⟩)
    · rw [hsplit, mem_append, mem_append, not_or, not_or]
      exact ⟨not_mem_takeWhile rfl _, c.skipSpaces.newline_not_mem_lineRest, by decide⟩
    · rw [hsplit, ← List.append_assoc, getLast?_concat]

/-- At top level, lines are read up to the end of the text, or up to the carriage return behind the last comment. -/
theorem BlockRead.stops (h : BlockRead p none first c lines d) (hc : ReadsOn text first c) :
    d.rest = [] ∨ d.rest = ['\r'] ∧ endsReturned text = true := by
  induction h with
  | unended hline =>
    cases hc with
    | start => cases hline
    | ended _ hend =>
      have hnone := skipNewline?_eq_none_iff.1 (map_eq_none_iff.1 hline)
      rw [hend, or_iff_left Bool.noConfusion] at hnone
      exact .inl (isEmpty_iff.1 hnone)
    | returned _ hrest htext => exact .inr ⟨hrest, htext⟩
  | ended _ hend => exact .inl (isEmpty_iff.1 hend)
  | @comment first c d lines e hline hcomment _ ih =>
    exact ih (readsOn_comment (hc.nextLine? hline (atEnd_of_atComment hcomment)) hcomment)
  | left _ _ _ horder => exact absurd horder (indentationOrder_none_ne p _)
  | @command first c d n e lines f hline _ _ _ hn _ ih =>
    have hreach := ((nextLine?_reaches hline).trans d.skipSpaces_reaches).trans (outcome_reaches hn)
    exact ih (.ended (hreach.suffix.trans hc.suffix) (outcome_atLineEnd hn))

/-! ### Up to the last comment -/

/-- Where neither a separator nor a colon follows and the line does not end, no command is complete. -/
theorem Branch.stuck (h : Branch p indent stage c ks r) (hc : Settled c) (hend : c.atLineEnd = false)
    (hstage : ∀ owner pending, stage ≠ .child owner pending) {x : Node × Cursor} (hx : r = .ok x) : False := by
  induction h generalizing x with
  | literal | refused | accepted | unknown => exact absurd rfl (hstage _ _)
  | blockAccepted hcolon => exact absurd hcolon hc.2
  | separated _ _ _ hgap | subcommand _ _ _ _ _ hgap => exact absurd (gap_ok hgap).1 hc.1
  | complete hstop =>
    rw [hend] at hstop
    cases hstop
  | next _ _ _ ih | aliased _ _ _ _ _ ih => exact ih hc hend (fun _ _ h => by cases h) hx
  | childless | blockRefused | ended | unseparated | unresolved | subcommandEnded | subcommandUnseparated => cases hx

/-- The last line is still ahead, or all of it but the carriage return has been read. -/
def Holds (line : List Char) (c : Cursor) : Prop := c.Ahead line ∨ c.rest = ['\r']

/-- An argument that is read before the last line does not read the end of it. -/
def ArgumentsHold (line : List Char) (p : Parser) (c : Cursor) : Prop :=
  c.Ahead line → ∀ indent node n d, p.argumentOutcome indent node c = .ok (n, d) → Holds line d

theorem Branch.ahead
    (h : Branch p indent stage c ks r) (hargs : ∀ d, d.remaining ≤ c.remaining → ArgumentsHold line p d)
    (hc : c.Ahead line) (x : Node × Cursor) (hx : r = .ok x) : x.2.Ahead line := by
  have behind : ∀ {node : CommandTree} {pending : Pending} {d : Cursor} {ks : List Nat}
      {r : Except SyntaxError (Node × Cursor)} {x : Node × Cursor}, Branch p indent (.after node pending) d ks r →
      r = .ok x → Holds line d → d.Ahead line := by
    intro node pending d ks r x hbranch hr hd
    refine hd.resolve_right fun hrest => hbranch.stuck ?_ ?_ (fun _ _ h => by cases h) hr
    · simp [Settled, peek, hrest]
    · simp [Cursor.atLineEnd, hrest]
  induction h generalizing x with
  | @literal owner pending c child ks r _ _ ih =>
    have hword : c.OnLine (c.drop c.wordLength) := onLine_drop (Token.value_flat c.rest)
    exact ih (fun d hd => hargs d (le_trans hd hword.reaches.remaining_le)) (hc.onLine hword) x hx
  | accepted _ _ _ hread rest ih | blockAccepted _ _ _ hread rest ih =>
    have hd := behind rest hx (hargs _ (le_refl _) hc _ _ _ _ hread)
    exact ih (fun e he => hargs e (le_trans he (argumentOutcome_reaches hread).remaining_le)) hd x hx
  | separated _ _ _ hgap _ ih =>
    have hline := gap_onLine hgap
    exact ih (fun d hd => hargs d (le_trans hd hline.reaches.remaining_le)) (hc.onLine hline) x hx
  | complete =>
    cases hx
    exact hc
  | next _ _ _ ih | aliased _ _ _ _ _ ih => exact ih hargs hc x hx
  | @subcommand node pending c path target d ks inner _ _ _ _ _ hgap _ ih =>
    have hline := gap_onLine hgap
    obtain ⟨y, hy, rfl⟩ := map_ok hx
    exact ih (fun e he => hargs e (le_trans he hline.reaches.remaining_le)) (hc.onLine hline) y hy
  | refused | unknown | childless | blockRefused | ended | unseparated | unresolved | subcommandEnded
  | subcommandUnseparated => cases hx

section Returned

variable (hline : IsReturned line)

include hline

theorem ahead_of_not_comment (h : LineStart c.rest line) (hc : c.atComment = false) : c.Ahead line := by
  refine h.resolve_left ?_
  rintro rfl
  rw [atComment, hline.comment] at hc
  cases hc

theorem lineStart_next (hc : if first then LineStart c.rest line else Holds line c) (hd : c.nextLine? first = some d) :
    LineStart d.rest line := by
  obtain ⟨e, he, rfl⟩ := map_eq_some_iff.1 hd
  refine ahead_skipBlankLines hline ?_
  cases first with
  | true =>
    cases he
    exact hc
  | false =>
    rcases hc with hc | hc
    · exact hc.lineStart he
    · rw [skipNewline?, hc] at he
      cases he

theorem BlockRead.holds (h : BlockRead p indent first c lines d)
    (hargs : ∀ e, e.remaining ≤ c.remaining → ArgumentsHold line p e)
    (hc : if first then LineStart c.rest line else Holds line c) : Holds line d := by
  induction h with
  | @unended first c hnone =>
    cases first with
    | true => cases hnone
    | false => exact hc
  | @ended first c d hnext hend =>
    have hstart := lineStart_next hline hc hnext
    rw [isEmpty_iff.1 hend] at hstart
    rcases hstart with hnil | ⟨before, hbefore⟩
    · have hlast := hline.last
      rw [hnil] at hlast
      cases hlast
    · simp at hbefore
  | @comment first c d lines e hnext _ _ ih =>
    have hreach := d.skipSpaces_reaches.trans d.skipSpaces.skipLine_reaches
    have hle := ((nextLine?_reaches hnext).trans hreach).remaining_le
    refine ih (fun e he => hargs e (le_trans he hle)) ?_
    rcases lineStart_next hline hc hnext with hstart | hahead
    · exact .inr (rest_skipLine_of_line hline hstart.symm)
    · exact .inl (Ahead.onLine hahead (d.skipSpaces_onLine.trans d.skipSpaces.skipLine_onLine))
  | @left first c d hnext _ hcomment _ =>
    obtain ⟨before, hbefore⟩ := (nextLine?_reaches hnext).suffix
    obtain ⟨more, hmore⟩ := ahead_of_not_comment hline (lineStart_next hline hc hnext) hcomment
    exact .inl ⟨before ++ more, by rw [← hbefore, hmore, List.append_assoc]⟩
  | @command first c d n e lines f hnext _ hcomment _ hn _ ih =>
    have hahead := ahead_of_not_comment hline (lineStart_next hline hc hnext) hcomment
    have hspaces := (nextLine?_reaches hnext).trans d.skipSpaces_reaches
    obtain ⟨ks, hks⟩ := exists_branch p indent (.child p.tree { start := d.skipSpaces.location }) d.skipSpaces
    have hend := hks.ahead (fun e he => hargs e (le_trans he hspaces.remaining_le))
      (hahead.onLine d.skipSpaces_onLine) (n, e) hn
    refine ih (fun e he => hargs e (le_trans he ?_)) (.inl hend)
    exact (hspaces.trans (outcome_reaches hn)).remaining_le

theorem argumentsHold (p : Parser) (c : Cursor) : ArgumentsHold line p c := by
  induction c using induct with
  | hstep c ih =>
    intro hc indent node n d hread
    rw [argumentOutcome_eq] at hread
    split at hread
    · cases hread
    · obtain ⟨x, hx, heq⟩ := map_ok hread
      cases heq
      exact .inl (hc.onLine (Leaf.read_placed hx).holds.line)
    · obtain ⟨-, hcolon, -, -, lines, hlines, -⟩ := blockArgument_ok hread
      have hdrop := c.drop_one_remaining hcolon
      refine (blockRead_of_ok hlines).holds hline (fun e he => ih e (lt_of_le_of_lt he hdrop)) ?_
      exact .inl (hc.onLine (onLine_over (by decide) hcolon))

end Returned

/-! ### Whole texts -/

/-- What is left of a text that is read as a whole: nothing, or the carriage return behind a comment in the last line. -/
theorem rest_of_blockOutcome {source : String} (h : p.blockOutcome none true (.start source) = .ok (lines, d)) :
    d.rest = if endsReturned source.toList then ['\r'] else [] := by
  have hread := blockRead_of_ok h
  have hstop := hread.stops (.start (.inl rfl : LineStart source.toList (start source).rest))
  split
  · rename_i hends
    refine (hstop.resolve_left fun hnil => ?_).1
    obtain ⟨line, hstart, hline⟩ := endsReturned_iff.1 hends
    rcases hread.holds hline (fun e _ => argumentsHold hline p e) hstart with hahead | hrest
    · exact hahead.rest_ne hnil
    · rw [hnil] at hrest
      cases hrest
  · rename_i hends
    exact hstop.resolve_right fun hreturn => hends hreturn.2

/-- Reading consumes the whole text: if a text is read, its tree begins at its start and stops at its end. There is one
exception. If the last line holds nothing but a comment and a carriage return behind it, that carriage return is left
over. -/
theorem parse_consumes (p : Parser) (source : String) {root : Node} (h : p.parse source = .ok root) :
    root.span.start.offset = 0 ∧
      root.span.stop.offset + (if endsReturned source.toList then 1 else 0) = source.utf8ByteSize := by
  rw [parse_eq] at h
  obtain ⟨⟨lines, d⟩, hlines, rfl⟩ := map_ok h
  have hplaced := blockOutcome_placed p none true (.start source) fun d _ => argumentsPlaced p d
  rw [hlines] at hplaced
  have hbytes := hplaced.reaches.offset_add
  rw [rest_of_blockOutcome hlines] at hbytes
  refine ⟨rfl, ?_⟩
  change d.location.offset + _ = _
  have hsource : (start source).location.offset + (String.ofList (start source).rest).utf8ByteSize =
      source.utf8ByteSize := by
    rw [start, String.ofList_toList]
    exact Nat.zero_add _
  rw [← hsource, ← hbytes]
  split <;> rfl

/-- A comment and a carriage return behind it: the text is read, but not to its end. -/
theorem not_consumed_return :
    ∃ root, Parser.parse { tree := .bundled } "#\r" = .ok root ∧ root.span.stop.offset ≠ "#\r".utf8ByteSize := by
  have hstop : (Parser.parse { tree := .bundled } "#\r").toOption.map (·.span.stop.offset) = some 1 := by decide +kernel
  cases hroot : Parser.parse { tree := .bundled } "#\r" with
  | error e =>
      rw [hroot] at hstop
      cases hstop
  | ok root =>
      rw [hroot] at hstop
      have hone : root.span.stop.offset = 1 := Option.some.inj hstop
      exact ⟨root, rfl, by rw [hone]; decide⟩

/-- A block, a command and a comment: all is read but the carriage return behind the comment. -/
theorem parse_consumes_block :
    let p : Parser := { tree := .bundled, options := { multiline := true, keepComments := true } }
    let source := "function demo:a:\n  say hi\n  # bye\nsay é\n\t# x\r"
    ∃ root, p.parse source = .ok root ∧ root.span.start.offset = 0 ∧ root.span.stop.offset + 1 = source.utf8ByteSize := by
  intro p source
  have hread : (p.parse source).toOption.isSome = true := by decide +kernel
  cases hroot : p.parse source with
  | error e =>
      rw [hroot] at hread
      cases hread
  | ok root =>
      have hconsumes := parse_consumes p source hroot
      have hends : endsReturned source.toList = true := by decide
      rw [hends] at hconsumes
      exact ⟨root, rfl, hconsumes⟩

end Parser

end Mcfunction
