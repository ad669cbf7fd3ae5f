import Mcfunction.Proofs.Parallel
import Mcfunction.Proofs.Search

/-! Texts put together at a line end. Where no block can stand in an argument, no command looks behind the end of its
line. Main statement: a text of two parts is read as its parts are, the second with its places moved behind the first. -/

namespace Mcfunction

open List Cursor Option String Pairing Location Cursor

def Location.shift (l : Location) (bytes lines : Nat) : Location := ⟨l.offset + bytes, l.line + lines, l.column⟩

def Span.shift (s : Span) (bytes lines : Nat) : Span := ⟨s.start.shift bytes lines, s.stop.shift bytes lines⟩

theorem Location.after_shift (l : Location) (bytes lines : Nat) (ch : Char) :
    (l.shift bytes lines).after ch = (l.after ch).shift bytes lines := by
  rw [after, after]
  split <;> simp only [shift] <;> congr 1 <;> omega

namespace Pairing

def continued (further : List Char) : Pairing :=
  following (fun l k => k = l) (fun h _ => h ▸ rfl)
    (by
      rintro l _ l' _ rfl rfl
      exact Iff.rfl)
    ('\n' :: further) (.inr ⟨further, rfl⟩)

def shifted (bytes lines : Nat) : Pairing :=
  following (fun l k => k = l.shift bytes lines)
    (by
      rintro l _ rfl ch
      exact l.after_shift bytes lines ch)
    (by
      rintro l _ l' _ rfl rfl
      exact (Nat.add_lt_add_iff_right).symm)
    [] no_tail

end Pairing

namespace Cursor

variable {c d : Cursor} (further : List Char)

def extend (c : Cursor) : Cursor := ⟨c.rest ++ '\n' :: further, c.location⟩

def beyond (c : Cursor) : Cursor := ⟨further, (c.location.afterAll c.rest).after '\n'⟩

def Clean (c : Cursor) : Prop := c.rest.getLast? ≠ some '\r'

theorem Clean.of_reaches (hc : c.Clean) (h : c.Reaches d) : d.Clean := by
  obtain ⟨n, rfl⟩ := h
  rw [Clean, rest_drop, getLast?_drop]
  split
  · exact nofun
  · exact hc

theorem Clean.twin (hc : c.Clean) : (continued further).Twin c (c.extend further) :=
  Follows.mk rfl rfl (.inr hc)

theorem eq_extend (h : (continued further).Twin c d) : d = c.extend further := by
  obtain ⟨rest, l⟩ := d
  have hrest : rest = c.rest ++ '\n' :: further := Follows.rest h
  have hl : l = c.location := h.location
  rw [hrest, hl]
  rfl

theorem beyond_of_reaches (h : c.Reaches d) : d.beyond further = c.beyond further := by
  obtain ⟨n, rfl⟩ := h
  rw [beyond, beyond, drop_eq, ← afterAll_append, take_append_drop]

theorem drop_extend {n : Nat} (hn : n ≤ c.rest.length) : (c.extend further).drop n = (c.drop n).extend further := by
  rw [drop_eq, drop_eq, extend, extend, drop_append_of_le_length hn, take_append_of_le_length hn]

/-! ### Over the line ends -/

theorem skipNewline?_eq_none_iff : c.skipNewline? = none ↔ c.atEnd = true ∨ c.atLineEnd = false := by
  rw [skipNewline?, atEnd, atLineEnd]
  split
  · rename_i hrest
    simp [hrest]
  · rename_i hrest
    simp [hrest]
  · refine ⟨fun _ => ?_, fun _ => rfl⟩
    cases hrest : c.rest with
    | nil => exact .inl rfl
    | cons ch cs =>
      right
      split <;> simp_all

theorem skipNewline?_extend_of_atEnd (h : c.atEnd = true) : (c.extend further).skipNewline? = some (c.beyond further) := by
  obtain ⟨rest, l⟩ := c
  have hrest : rest = [] := isEmpty_iff.1 h
  subst hrest
  rfl

theorem skipNewline?_extend (hc : c.Clean) (h : c.atEnd = false) :
    (c.extend further).skipNewline? = c.skipNewline?.map (extend further) := by
  cases hd : c.skipNewline? with
  | none =>
    have hend := skipNewline?_eq_none_iff.1 hd
    rw [h, or_iff_right Bool.false_ne_true, ← (hc.twin further).atLineEnd_eq] at hend
    exact skipNewline?_eq_none_iff.2 (.inr hend)
  | some d =>
    rw [skipNewline?] at hd
    split at hd
    · rename_i hrest
      cases hd
      rw [map_some, ← drop_extend further (by simp [hrest]), extend, hrest]
      rfl
    · rename_i hrest
      cases hd
      rw [map_some, ← drop_extend further (by simp [hrest]), extend, hrest]
      rfl
    · cases hd

theorem atEnd_extend (c : Cursor) : (c.extend further).atEnd = false := by
  obtain ⟨rest, l⟩ := c
  cases rest <;> rfl

theorem skipBlankLines_extend (hc : c.Clean) :
    (c.extend further).skipBlankLines =
      if c.skipBlankLines.atEnd then (c.beyond further).skipBlankLines else c.skipBlankLines.extend further := by
  have hspaces : ∀ {c : Cursor}, c.Clean → (c.extend further).skipSpaces = c.skipSpaces.extend further :=
    fun hc => eq_extend further (hc.twin further).skipSpaces
  fun_induction skipBlankLines c with
  | case1 c hend =>
    rw [if_pos hend, skipBlankLines_eq, hspaces hc, atEnd_extend, if_neg Bool.false_ne_true,
      skipNewline?_extend_of_atEnd further hend, beyond_of_reaches further c.skipSpaces_reaches]
  | case2 c hend e he ih =>
    have hreach := c.skipSpaces_reaches
    rw [skipBlankLines_eq, hspaces hc, atEnd_extend, if_neg Bool.false_ne_true,
      skipNewline?_extend further (hc.of_reaches hreach) (by simpa using hend), he, map_some]
    have hce := hreach.trans (skipNewline?_reaches he)
    dsimp only
    rw [ih (hc.of_reaches hce), beyond_of_reaches further hce]
  | case3 c hend he =>
    have hreach := c.skipSpaces_reaches
    have hne : c.atEnd = false := by
      by_contra hat
      rw [Bool.not_eq_false] at hat
      obtain ⟨rest, l⟩ := c
      have hrest : rest = [] := isEmpty_iff.1 hat
      subst hrest
      exact hend rfl
    rw [skipBlankLines_eq, hspaces hc, atEnd_extend,
      skipNewline?_extend further (hc.of_reaches hreach) (by simpa using hend), he, hne]
    rfl

theorem nextLine?_extend {first : Bool} (hc : c.Clean) (hfirst : first = true ∨ c.atLineEnd = true) :
    (c.extend further).nextLine? first = some
      (match c.nextLine? first with
      | none => (c.beyond further).skipBlankLines
      | some d => if d.atEnd then (c.beyond further).skipBlankLines else d.extend further) := by
  cases first with
  | true => exact congrArg some (skipBlankLines_extend further hc)
  | false =>
    rw [nextLine?, nextLine?, if_neg Bool.false_ne_true, if_neg Bool.false_ne_true]
    cases hend : c.atEnd with
    | true =>
      have hrest : c.rest = [] := isEmpty_iff.1 hend
      rw [skipNewline?_extend_of_atEnd further hend, skipNewline?.eq_def c, hrest]
      rfl
    | false =>
      rw [skipNewline?_extend further hc hend]
      cases hd : c.skipNewline? with
      | none =>
        have hline := hfirst.resolve_left Bool.false_ne_true
        rw [skipNewline?_eq_none_iff, hend, hline] at hd
        rcases hd with hd | hd <;> cases hd
      | some d =>
        have hcd := skipNewline?_reaches hd
        rw [map_some, map_some, map_some, skipBlankLines_extend further (hc.of_reaches hcd),
          beyond_of_reaches further hcd]

theorem skipLine_stops (c : Cursor) :
    c.skipLine.atLineEnd = true ∨ c.skipLine.rest = ['\r'] ∧ c.rest = c.lineRest ++ ['\r'] := by
  have hsplit := takeWhile_append_dropWhile (p := fun x => decide (x ≠ '\n')) (l := c.rest)
  have hhead := head?_dropWhile_not (fun x => decide (x ≠ '\n')) c.rest
  generalize hline : c.rest.takeWhile (fun x => decide (x ≠ '\n')) = line at hsplit
  generalize c.rest.dropWhile (fun x => decide (x ≠ '\n')) = tail at hsplit hhead
  rw [atLineEnd, skipLine, rest_drop, lineRest, hline]
  by_cases hlast : line.getLast? = some '\r'
  · have hreturn := dropLast_append_getLast? '\r' hlast
    rw [if_pos hlast, ← hsplit, ← hreturn, List.append_assoc, dropLast_concat, drop_left]
    cases tail with
    | nil => exact .inr ⟨rfl, rfl⟩
    | cons x tail =>
      obtain rfl : x = '\n' := by simpa using hhead
      exact .inl rfl
  · rw [if_neg hlast, ← hsplit, drop_left]
    cases tail with
    | nil => exact .inl rfl
    | cons x tail =>
      obtain rfl : x = '\n' := by simpa using hhead
      exact .inl rfl

theorem skipLine_atLineEnd (hc : c.Clean) : c.skipLine.atLineEnd = true := by
  refine c.skipLine_stops.resolve_right fun hstop => hc ?_
  rw [hstop.2, getLast?_concat]

end Cursor

namespace Parser

variable {p : Parser} {c d : Cursor}

/-- How the outcome of a block goes on into further lines: with the same error, or with the same lines and then those of
the further ones. -/
def GoesOn (x further whole : Except SyntaxError (List Node × Cursor)) : Prop :=
  match x with
  | .error e => whole = .error e
  | .ok (ns, _) => ∃ ks, Parse.AllSame ns ks ∧ whole = further.map fun (lines, e) => (ks ++ lines, e)

theorem GoesOn.append {x further whole : Except SyntaxError (List Node × Cursor)} (h : GoesOn x further whole)
    {ns ks : List Node} (hsame : Parse.AllSame ns ks) :
    GoesOn (x.map fun (lines, e) => (ns ++ lines, e)) further (whole.map fun (lines, e) => (ks ++ lines, e)) := by
  cases x with
  | error e =>
    rw [show whole = .error e from h]
    rfl
  | ok x =>
    obtain ⟨ks', hks', rfl⟩ := h
    refine ⟨ks ++ ks', rel_append hsame hks', ?_⟩
    cases further with
    | error e => rfl
    | ok y => exact congrArg (fun lines => Except.ok (lines, y.2)) (append_assoc ks ks' y.1).symm

theorem goesOn_nil (d : Cursor) (whole : Except SyntaxError (List Node × Cursor)) : GoesOn (.ok ([], d)) whole whole := by
  refine ⟨[], .nil, ?_⟩
  cases whole <;> rfl

theorem indentationOrder_none (hp : p.options.multiline = false) (width : Nat) : p.indentationOrder none width = .eq := by
  rw [indentationOrder, hp]
  rfl

theorem blockOutcome_of_nextLine? (hp : p.options.multiline = false) {first : Bool}
    (h : c.nextLine? first = some d.skipBlankLines) : p.blockOutcome none first c = p.blockOutcome none true d := by
  have hd : d.nextLine? true = some d.skipBlankLines := rfl
  rw [blockOutcome_eq, blockOutcome_eq, h, hd]
  dsimp only
  rw [indentationOrder_none hp]

theorem eq_of_errors {further : List Char} {e g : SyntaxError} (h : (continued further).Errors e g) : g = e := by
  obtain ⟨complaint, start, stop⟩ := g
  have hcomplaint : complaint = e.complaint := h.complaint
  have hstart : start = e.span.start := h.span.start
  have hstop : stop = e.span.stop := h.span.stop fun htail => absurd (cons.inj htail).1 (by decide)
  rw [hcomplaint, hstart, hstop]

theorem blockOutcome_extend (hp : p.options.multiline = false) (further : List Char) (first : Bool) (c : Cursor) :
    c.Clean → (first = true ∨ c.atLineEnd = true) →
      GoesOn (p.blockOutcome none first c) (p.blockOutcome none true (c.beyond further))
        (p.blockOutcome none first (c.extend further)) := by
  induction first, c using block_induction with
  | step first c ih =>
    intro hc hfirst
    have hline := nextLine?_extend further hc hfirst
    rw [blockOutcome_eq p none first c]
    cases hx : c.nextLine? first with
    | none =>
      rw [hx] at hline
      rw [blockOutcome_of_nextLine? hp hline]
      exact goesOn_nil _ _
    | some e =>
      rw [hx] at hline
      dsimp only at hline ⊢
      have hce := nextLine?_reaches hx
      cases hend : e.atEnd with
      | true =>
        rw [hend] at hline
        rw [blockOutcome_of_nextLine? hp hline]
        exact goesOn_nil _ _
      | false =>
        have htwin := (hc.of_reaches hce).twin further
        have hspaces := htwin.skipSpaces
        rw [hend, if_neg Bool.false_ne_true] at hline
        rw [blockOutcome_eq p none first (c.extend further), hline]
        dsimp only
        rw [atEnd_extend, htwin.atComment_eq, indentationOrder_none hp, indentationOrder_none hp]
        rw [if_neg Bool.false_ne_true]
        -- a line of the first part: a comment and a command both stop at its end, where the induction goes on
        split
        · have hreach := e.skipSpaces_reaches.trans e.skipSpaces.skipLine_reaches
          have hclean := hc.of_reaches (hce.trans hreach)
          have hline := skipLine_atLineEnd (hc.of_reaches (hce.trans e.skipSpaces_reaches))
          have hrest := ih e _ hx hreach.remaining_le hclean (.inr hline)
          rw [eq_extend further hspaces.skipLine, ← beyond_of_reaches further (hce.trans hreach)]
          exact hrest.append (allSame_of_nodes (commentLine_nodes htwin))
        · have hmeet := command_meet none hspaces (argumentsMeetFrom (fun h => absurd (hp ▸ h) Bool.false_ne_true) _)
          cases hn : p.outcome none (.child p.tree { start := e.skipSpaces.location }) e.skipSpaces <;>
            cases hk : p.outcome none (.child p.tree { start := (e.extend further).skipSpaces.location })
              (e.extend further).skipSpaces <;>
            rw [hn, hk] at hmeet
          · exact congrArg Except.error (eq_of_errors hmeet)
          · exact hmeet.elim
          · exact hmeet.elim
          · have hreach := e.skipSpaces_reaches.trans (outcome_reaches hn)
            have hclean := hc.of_reaches (hce.trans hreach)
            have hrest := ih e _ hx hreach.remaining_le hclean (.inr (outcome_atLineEnd hn))
            dsimp only
            rw [eq_extend further hmeet.2, ← beyond_of_reaches further (hce.trans hreach)]
            exact hrest.append (.cons hmeet.1.same .nil)

/-! ### Whole texts -/

theorem extend_start (a b : String) : (start a).extend b.toList = .start (a ++ "\n" ++ b) := by
  rw [start, start, toList_append, toList_append, List.append_assoc]
  rfl

theorem location_beyond_start (a : String) (further : List Char) : ((start a).beyond further).location =
      origin.shift (a ++ "\n").utf8ByteSize ((a ++ "\n").toList.count '\n') := by
  have hoffset := offset_afterAll .origin (a ++ "\n").toList
  have hline := line_afterAll .origin (a ++ "\n").toList
  have hcolumn := column_origin_afterAll (a ++ "\n").toList
  have hlocation : origin.afterAll (a ++ "\n").toList = ((start a).beyond further).location := by
    rw [toList_append]
    exact afterAll_snoc _ _ _
  rw [ofList_toList] at hoffset
  rw [hlocation] at hoffset hline hcolumn
  generalize ((start a).beyond further).location = l at hoffset hline hcolumn
  obtain ⟨offset, line, column⟩ := l
  dsimp only at hoffset hline hcolumn
  rw [hoffset, hline, hcolumn, toList_append, reverse_append]
  rfl

theorem twin_beyond_start (a b : String) :
    (shifted (a ++ "\n").utf8ByteSize ((a ++ "\n").toList.count '\n')).Twin (.start b) ((start a).beyond b.toList) :=
  Follows.mk (append_nil _).symm (location_beyond_start a b.toList) (.inl rfl)

theorem eq_shift_of_spans {bytes lines : Nat} {s t : Span} (h : (shifted bytes lines).Spans s t) :
    t = s.shift bytes lines := by
  obtain ⟨start, stop⟩ := t
  have hstart : start = s.start.shift bytes lines := h.start
  have hstop : stop = s.stop.shift bytes lines := h.stop (cons_ne_nil _ _).symm
  rw [hstart, hstop]
  rfl

/-- Outside multiline mode, reading is local to the lines. A text of two parts is read if and only if both are, and has
the lines of the first and then those of the second. It is refused as the first part is, if that is, and otherwise as the
second is, at a span moved by the bytes and lines of the first. -/
theorem parse_line_local (p : Parser) (hp : p.options.multiline = false) (a b : String) (ha : a.toList.getLast? ≠ some '\r') :
    match p.parse a, p.parse b, p.parse (a ++ "\n" ++ b) with
    | .ok s, .ok t, .ok u => Node.allSame (s.children ++ t.children) u.children = true
    | .ok _, .error e, .error g => g.message = e.message ∧
        g.span = e.span.shift (a ++ "\n").utf8ByteSize ((a ++ "\n").toList.count '\n')
    | .error e, _, .error g => g.message = e.message ∧ g.span = e.span
    | _, _, _ => False := by
  have hwhole := blockOutcome_extend hp b.toList true (.start a) ha (Or.inl rfl)
  rw [extend_start] at hwhole
  have hmeet := blockOutcome_meet (p := p) rfl none true (twin_beyond_start a b)
    (argumentsMeetFrom (fun h => absurd (hp ▸ h) Bool.false_ne_true) _)
  rw [parse_eq, parse_eq, parse_eq]
  generalize p.blockOutcome none true (.start a) = x at hwhole
  generalize p.blockOutcome none true (.start b) = y at hmeet
  generalize p.blockOutcome none true ((Cursor.start a).beyond b.toList) = z at hwhole hmeet
  cases x with
  | error e =>
      rw [show p.blockOutcome none true (.start (a ++ "\n" ++ b)) = .error e from hwhole]
      exact ⟨rfl, rfl⟩
  | ok x =>
      obtain ⟨ks, hks, hwhole⟩ := hwhole
      rw [hwhole]
      cases y <;> cases z
      · exact ⟨congrArg Complaint.message hmeet.complaint, eq_shift_of_spans hmeet.span⟩
      · exact hmeet.elim
      · exact hmeet.elim
      · rename_i y z
        exact Node.allSame_iff.2 (rel_append hks (allSame_of_nodes hmeet.1))

/-- A comment and a command, and then a line that is refused two lines further down than alone. -/
theorem parse_line_local_refused :
    let p : Parser := { tree := .bundled, options := { keepComments := true } }
    let a := "# greet\nsay hi"
    let b := "  gibberish"
    p.options.multiline = false ∧ a.toList.getLast? ≠ some '\r' ∧
      ∃ s e g, p.parse a = .ok s ∧ p.parse b = .error e ∧ p.parse (a ++ "\n" ++ b) = .error g ∧
        g.message = e.message ∧ g.span = e.span.shift 15 2 := by
  intro p a b
  have hlocal := parse_line_local p rfl a b (by decide)
  have ha : (p.parse a).toOption.isSome = true := by decide +kernel
  have hb : (p.parse b).toOption.isSome = false := by decide +kernel
  have hbytes : (a ++ "\n").utf8ByteSize = 15 := by decide
  have hlines : (a ++ "\n").toList.count '\n' = 2 := by decide
  rw [hbytes, hlines] at hlocal
  cases hs : p.parse a with
  | error =>
      rw [hs] at ha
      cases ha
  | ok s =>
      cases he : p.parse b with
      | ok =>
          rw [he] at hb
          cases hb
      | error e =>
          rw [hs, he] at hlocal
          cases hg : p.parse (a ++ "\n" ++ b) with
          | ok =>
              rw [hg] at hlocal
              exact hlocal.elim
          | error g =>
              rw [hg] at hlocal
              exact ⟨rfl, by decide, s, e, g, rfl, rfl, rfl, hlocal⟩

end Parser

end Mcfunction
