import Mcfunction.Proofs.Indentation
import Mcfunction.Proofs.Tidy

/-! Written lines. The lines of a block are comments and commands, each indented as deep as the block is. Main
statement: a block whose commands take courses is written with its lines, and read back from them. -/

namespace Mcfunction

open List Cursor Option String Text Cursor Printer Node

variable {width width' depth : Nat} {tail more t : List Char}

namespace Cursor

/-! ### A line that is not blank -/

/-- The cursor stands before the indentation of a line that holds something. -/
structure AtLine (c : Cursor) (width : Nat) (ch : Char) (more : List Char) : Prop where
  rest : c.rest = List.replicate width ' ' ++ ch :: more
  unblank : isBlank ch = false

variable {c : Cursor} {ch : Char}

theorem AtLine.takeWhile (h : c.AtLine width ch more) : c.rest.takeWhile isSpace = List.replicate width ' ' := by
  rw [h.rest]
  refine EndsAt.takeWhile_append (fun x hx => ?_) (EndsAt.cons (not_isSpace_of_unblank h.unblank))
  rw [eq_of_mem_replicate hx]
  rfl

theorem AtLine.indentation (h : c.AtLine width ch more) : c.indentation = width := by
  rw [Cursor.indentation, h.takeWhile, List.length_replicate]

theorem AtLine.skipSpaces (h : c.AtLine width ch more) : c.skipSpaces.rest = ch :: more := by
  rw [Cursor.skipSpaces, h.indentation, rest_drop, h.rest, drop_left' length_replicate]

theorem AtLine.atEnd (h : c.AtLine width ch more) : c.atEnd = false := by
  rw [Cursor.atEnd, h.rest]
  cases width <;> rfl

theorem AtLine.atComment (h : c.AtLine width ch more) : c.atComment = decide (ch = '#') := by
  have hdrop : c.rest.dropWhile isSpace = ch :: more := by
    rw [← drop_length_takeWhile, h.takeWhile, h.rest, drop_left' rfl]
  rw [Cursor.atComment, hdrop]
  exact decide_eq_decide.2 some_inj

theorem AtLine.skipBlankLines (h : c.AtLine width ch more) : c.skipBlankLines = c := by
  have hend : c.skipSpaces.atEnd = false := by
    rw [Cursor.atEnd, h.skipSpaces]
    rfl
  have hline : c.skipSpaces.skipNewline? = none := by
    rw [skipNewline?, h.skipSpaces]
    have hunblank := h.unblank
    split
    · rename_i heq
      cases heq
      exact absurd hunblank (by decide)
    · rename_i heq
      cases heq
      exact absurd hunblank (by decide)
    · rfl
  rw [skipBlankLines_eq, hend, if_neg Bool.false_ne_true, hline]

theorem skipNewline?_of_feed (h : c.rest = '\n' :: more) :
    c.skipNewline? = some (c.drop 1) ∧ (c.drop 1).rest = more := by
  rw [skipNewline?, rest_drop, h]
  exact ⟨rfl, rfl⟩

theorem nextLine?_of_feed (h : c.rest = '\n' :: (List.replicate width ' ' ++ ch :: more)) (hch : isBlank ch = false) :
    ∃ d, d.AtLine width ch more ∧ c.nextLine? false = some d ∧ (c.skipNewline?.getD c).skipBlankLines = d := by
  obtain ⟨hskip, hrest⟩ := skipNewline?_of_feed h
  have hline : (c.drop 1).AtLine width ch more := ⟨hrest, hch⟩
  refine ⟨c.drop 1, hline, ?_, ?_⟩
  · rw [nextLine?, if_neg Bool.false_ne_true, hskip, map_some, hline.skipBlankLines]
  · rw [hskip, getD_some, hline.skipBlankLines]

theorem nextLine?_of_end (h : c.rest = []) : c.nextLine? false = none := by
  rw [nextLine?, skipNewline?, h]
  rfl

end Cursor

/-! ### Texts of lines -/

theorem lineEnd_of_closes (h : Closes width tail) : LineEnd tail := by
  rcases h with rfl | rfl | ⟨_, _, _, rfl, -⟩
  · exact EndsAt.nil
  · exact EndsAt.cons rfl
  · exact EndsAt.cons rfl

theorem Closes.mono (h : Closes width tail) (hle : width ≤ width') : Closes width' tail := by
  rcases h with h | h | ⟨n, ch, rest, h, hn, hch⟩
  · exact .inl h
  · exact .inr (.inl h)
  · exact .inr (.inr ⟨n, ch, rest, h, lt_of_lt_of_le hn hle, hch⟩)

namespace Parser

/-- A line of a block with its text, and whether a block ends it: a comment, if comments are kept, or a command. -/
inductive CopiesLine (p : Parser) (q : Printer) (depth : Nat) : Node → List Char → Bool → Prop where
  | comment {n text} (hkeep : p.options.keepComments = true) (hform : n.form = .comment (ofList text))
      (hfeed : '\n' ∉ text) (hreturn : '\r' ∉ text) : CopiesLine p q depth n ('#' :: text) false
  | command {n ws ns t b} (hform : n.form = .command (":".intercalate ws) ns)
      (h : Course p q depth (.child p.tree) ws ns t b) : CopiesLine p q depth n t b

/-- The lines of a block with their texts. No comment stands behind a line that a block ends: it would belong to that
block. -/
inductive CopiesLines (p : Parser) (q : Printer) (depth : Nat) : List Node → List (List Char) → Prop where
  | nil : CopiesLines p q depth [] []
  | cons {n ns t ts b} (hline : CopiesLine p q depth n t b) (hnext : b = true → ∀ u ∈ ts.head?, u.head? ≠ some '#')
      (rest : CopiesLines p q depth ns ts) : CopiesLines p q depth (n :: ns) (t :: ts)

def linesText (width : Nat) (ts : List (List Char)) : List Char :=
  ts.flatMap fun t => '\n' :: (List.replicate width ' ' ++ t)

variable {p : Parser} {q : Printer} {n value : Node} {ns : List Node} {ts : List (List Char)} {b : Bool} {c d : Cursor}

theorem linesText_cons (width : Nat) (t : List Char) (ts : List (List Char)) (tail : List Char) :
    linesText width (t :: ts) ++ tail = '\n' :: (List.replicate width ' ' ++ (t ++ (linesText width ts ++ tail))) := by
  simp [linesText]

theorem flatMap_feeds (ts : List (List Char)) :
    ['\n'] ++ (ts.flatMap fun t => t ++ ['\n']) = linesText 0 ts ++ ['\n'] := by
  induction ts with
  | nil => rfl
  | cons t ts ih =>
    rw [linesText_cons, ← ih]
    simp

theorem lineEnd_linesText (htail : LineEnd tail) : LineEnd (linesText width ts ++ tail) := by
  cases ts with
  | nil => exact htail
  | cons t ts =>
    exact EndsAt.cons rfl

section

variable (htidy : p.tree.Tidy)

include htidy

theorem Course.first {ws : List String} (h : Course p q depth (.child p.tree) ws ns t b) :
    ∃ ch more, t = ch :: more ∧ isBlank ch = false ∧ ch ≠ '#' := by
  cases h with
  | @literal _ child word _ _ u _ hchild _ hword _ =>
    obtain ⟨ch, cs, hcs, hch⟩ := htidy.first hchild hword
    exact ⟨ch, cs ++ u, by rw [hcs]; rfl, hch⟩
  | value hentry harg =>
    rw [isArgument, (htidy.root _ hentry).1] at harg
    cases harg

theorem CopiesLine.first (h : CopiesLine p q depth n t b) : ∃ ch more, t = ch :: more ∧ isBlank ch = false := by
  cases h with
  | comment => exact ⟨'#', _, rfl, by decide⟩
  | command _ h =>
    obtain ⟨ch, more, rfl, hch, -⟩ := h.first htidy
    exact ⟨ch, more, rfl, hch⟩

theorem CopiesLines.closes (h : CopiesLines p q depth ns ts) (htail : Closes width tail)
    (hwidth : width < width') (hnext : ∀ u ∈ ts.head?, u.head? ≠ some '#') :
    Closes width' (linesText width ts ++ tail) := by
  cases h with
  | nil => exact htail.mono (le_of_lt hwidth)
  | cons hline _ _ =>
    obtain ⟨ch, more, rfl, hch⟩ := hline.first htidy
    rw [linesText_cons]
    refine .inr (.inr ⟨width, ch, _, rfl, hwidth, hch, ?_⟩)
    rintro rfl
    exact hnext _ rfl rfl

end

/-! ### Reading lines -/

theorem indentationOrder_indentAt (p : Parser) (q : Printer) (depth : Nat) :
    p.indentationOrder (q.indentAt depth) (q.indent * depth) = .eq := by
  by_cases hdepth : depth = 0
  · rw [hdepth]
    exact ite_self _
  · rw [indentAt, if_neg hdepth]
    exact Nat.compare_eq_eq.2 rfl

theorem indentationOrder_of_lt (h : width < q.indent * depth) : p.indentationOrder (q.indentAt depth) width = .lt := by
  have hdepth : depth ≠ 0 := by
    rintro rfl
    exact absurd h (by simp)
  rw [indentAt, if_neg hdepth]
  exact Nat.compare_eq_lt.2 h

theorem blockOutcome_closes (htail : Closes (q.indent * depth) tail) (hc : c.Meets tail) :
    ∃ d, p.blockOutcome (q.indentAt depth) false c = .ok ([], d) ∧ d.Meets tail := by
  rw [blockOutcome_eq]
  rcases hc with hc | ⟨rfl, hc⟩
  · rcases htail with rfl | rfl | ⟨width, ch, more, rfl, hwidth, hch, hcomment⟩
    · rw [nextLine?_of_end hc]
      exact ⟨c, rfl, .inl hc⟩
    · obtain ⟨hskip, hrest⟩ := skipNewline?_of_feed hc
      obtain ⟨k, hk⟩ := (c.drop 1).skipBlankLines_reaches
      have hend : (c.drop 1).skipBlankLines.rest = [] := by rw [hk, rest_drop, hrest, List.drop_nil]
      refine ⟨(c.drop 1).skipBlankLines, ?_, .inr ⟨rfl, hend⟩⟩
      rw [nextLine?, if_neg Bool.false_ne_true, hskip]
      dsimp only [Option.map]
      rw [Cursor.atEnd, hend, isEmpty_nil, if_pos rfl]
    · obtain ⟨d, hd, hnextLine, -⟩ := nextLine?_of_feed hc hch
      refine ⟨c, ?_, .inl hc⟩
      rw [hnextLine]
      dsimp only
      rw [hd.atEnd, if_neg Bool.false_ne_true, hd.atComment, decide_eq_false hcomment, if_neg Bool.false_ne_true,
        hd.indentation, indentationOrder_of_lt hwidth]
  · rw [nextLine?_of_end hc]
    exact ⟨c, rfl, .inr ⟨rfl, hc⟩⟩

section

variable (hreg : p.registry = .standard) (hroot : p.tree.Regular) (htidy : p.tree.Tidy)

include hreg hroot htidy

theorem CopiesLine.reads {first : Bool} (h : CopiesLine p q depth n t b)
    (hd : c.nextLine? first = some d) (hrest : d.rest = List.replicate (q.indent * depth) ' ' ++ (t ++ more))
    (hmore : LineEnd more) (hb : b = true → Closes (q.indent * (depth + 1)) more) :
    ∃ m e, n.same m = true ∧ e.Meets more ∧ p.blockOutcome (q.indentAt depth) first c =
      (p.blockOutcome (q.indentAt depth) false e).map fun (ms, f) => (m :: ms, f) := by
  rw [blockOutcome_eq, hd]
  dsimp only
  cases h with
  | @comment text hkeep hform hfeed hreturn =>
    have hline : d.AtLine _ '#' (text ++ more) := ⟨hrest, by decide⟩
    have hskip := hline.skipSpaces
    have hlineRest : d.skipSpaces.lineRest = '#' :: text :=
      Parse.lineRest_of_lineEnd hskip (by simpa using hfeed) (by simpa using hreturn) hmore
    obtain ⟨m, hm, hcomment⟩ : ∃ m : Node, m.form = .comment (ofList text) ∧ p.commentLine d = [m] := by
      rw [commentLine, if_pos hkeep, hlineRest]
      exact ⟨_, rfl, rfl⟩
    refine ⟨m, d.skipSpaces.skipLine, ?_, .inl ?_, ?_⟩
    · refine Node.same_of_leaf ?_ (by rw [Node.children, hform]; rfl) (by rw [Node.children, hm]; rfl)
      rw [hform, hm]
      exact decide_eq_true rfl
    · rw [skipLine, rest_drop, hskip, hlineRest]
      exact drop_left
    · rw [hline.atEnd, hline.atComment, hcomment]
      rfl
  | @command ws ns t b hform hcourse =>
    obtain ⟨ch, u, rfl, hch, hcomment⟩ := hcourse.first htidy
    have hline : d.AtLine _ ch (u ++ more) := ⟨hrest, hch⟩
    have hat : p.tree.at? [] = some (Spot.child p.tree).node := rfl
    obtain ⟨m, e, hm, hmeets, ms, hms, hform'⟩ := hcourse.reads hreg hroot htidy hat
      { start := d.skipSpaces.location } d.skipSpaces more hline.skipSpaces hmore hb
    refine ⟨m, e, same_command hform hform' hms, hmeets, ?_⟩
    change p.outcome (q.indentAt depth) (.child p.tree { start := d.skipSpaces.location }) d.skipSpaces = _ at hm
    rw [hline.atEnd, if_neg Bool.false_ne_true, hline.atComment, decide_eq_false hcomment, if_neg Bool.false_ne_true,
      hline.indentation, indentationOrder_indentAt, hm]

theorem CopiesLines.reads (hindent : 1 ≤ q.indent) (h : CopiesLines p q depth ns ts)
    (htail : Closes (q.indent * depth) tail) (hc : c.Meets (linesText (q.indent * depth) ts ++ tail)) :
    ∃ ms d, p.blockOutcome (q.indentAt depth) false c = .ok (ms, d) ∧ Parse.AllSame ns ms ∧ d.Meets tail := by
  induction h generalizing c with
  | nil =>
    obtain ⟨d, hd, hmeets⟩ := blockOutcome_closes htail hc
    exact ⟨[], d, hd, .nil, hmeets⟩
  | @cons n ns t ts b hline hnext rest ih =>
    obtain ⟨ch, more, rfl, hch⟩ := hline.first htidy
    have hcrest : c.rest = '\n' :: (List.replicate (q.indent * depth) ' ' ++
        (ch :: more ++ (linesText (q.indent * depth) ts ++ tail))) := by
      rw [linesText_cons] at hc
      rcases hc with hc | ⟨hc, -⟩
      · exact hc
      · simp at hc
    obtain ⟨d, hd, hnextLine, -⟩ := nextLine?_of_feed hcrest hch
    have hdepth : q.indent * depth < q.indent * (depth + 1) := by
      rw [Nat.mul_succ]
      omega
    obtain ⟨m, e, hsame, hmeets, hblock⟩ := hline.reads hreg hroot htidy hnextLine hd.rest
      (lineEnd_linesText (lineEnd_of_closes htail)) fun hb => rest.closes htidy htail hdepth (hnext hb)
    obtain ⟨ms, f, hms, hall, hf⟩ := ih hmeets
    exact ⟨m :: ms, f, by rw [hblock, hms]; rfl, .cons hsame hall, hf⟩

omit hreg hroot in
theorem CopiesLines.blockIndentation (h : CopiesLines p q depth ns ts)
    (hcmd : ∃ n ∈ ns, n.kind = .command) (hc : c.rest = linesText width ts ++ tail) (htail : LineEnd tail) :
    c.blockIndentation = width := by
  induction h generalizing c with
  | nil =>
    obtain ⟨n, hn, -⟩ := hcmd
    cases hn
  | @cons n ns t ts b hline hnext rest ih =>
    rw [linesText_cons] at hc
    cases hline with
    | @comment text _ hform hfeed hreturn =>
      obtain ⟨d, hd, -, hskip⟩ := nextLine?_of_feed hc (by decide)
      rw [blockIndentation_comment hskip (by rw [hd.atComment]; rfl)]
      refine ih ?_ ?_
      · obtain ⟨m, hm, hkind⟩ := hcmd
        rcases mem_cons.1 hm with rfl | hm
        · rw [kind, hform] at hkind
          cases hkind
        · exact ⟨m, hm, hkind⟩
      · have hrest : d.rest = (List.replicate width ' ' ++ '#' :: text) ++ (linesText width ts ++ tail) := by
          rw [hd.rest, List.append_assoc]
          rfl
        have hlineRest : d.lineRest = List.replicate width ' ' ++ '#' :: text := by
          refine Parse.lineRest_of_lineEnd hrest ?_ ?_ (lineEnd_linesText htail)
          · simpa [mem_replicate] using hfeed
          · simpa [mem_replicate] using hreturn
        rw [skipLine, rest_drop, hlineRest, hrest, drop_left]
    | command _ hcourse =>
      obtain ⟨ch, more, rfl, hch, hcomment⟩ := hcourse.first htidy
      obtain ⟨d, hd, -, hskip⟩ := nextLine?_of_feed hc hch
      rw [blockIndentation_line hskip (by rw [hd.atComment]; exact decide_eq_false hcomment), hd.atEnd,
        if_neg Bool.false_ne_true, hd.indentation]

theorem CopiesLines.readsBlock (hindent : 1 ≤ q.indent) (hmultiline : p.options.multiline = true)
    (h : CopiesLines p q (depth + 1) ns ts) (hcmd : ∃ n ∈ ns, n.kind = .command)
    (hc : c.rest = ':' :: linesText (q.indent * (depth + 1)) ts ++ tail)
    (htail : Closes (q.indent * (depth + 1)) tail) :
    ∃ ms d span, p.blockArgument (q.indentAt depth) c = .ok (⟨.root ms, span⟩, d) ∧
      Parse.AllSame ns ms ∧ d.Meets tail := by
  have hrest : (c.drop 1).rest = linesText (q.indent * (depth + 1)) ts ++ tail := by
    rw [rest_drop, hc]
    rfl
  have hend : (c.drop 1).atLineEnd = true :=
    atLineEnd_of_lineEnd (hrest ▸ lineEnd_linesText (lineEnd_of_closes htail))
  have hdeep := h.blockIndentation htidy hcmd hrest (lineEnd_of_closes htail)
  have hdeeper : ¬q.indent * (depth + 1) ≤ (q.indentAt depth).getD 0 := by
    rw [indentAt]
    split
    · rw [getD_none, Nat.mul_succ]
      omega
    · rw [getD_some, Nat.mul_succ]
      omega
  obtain ⟨ms, d, hms, hall, hmeets⟩ := h.reads hreg hroot htidy hindent htail (.inl hrest)
  refine ⟨ms, d, d.spanFrom c.location, ?_, hall, hmeets⟩
  rw [blockArgument, hmultiline, if_neg (by decide), if_pos (by rw [peek, hc]; rfl), hend,
    hdeep, if_neg hdeeper]
  change (p.blockOutcome (q.indentAt (depth + 1)) false (c.drop 1)).map _ = _
  rw [hms]
  rfl

theorem CopiesLines.readsAll (hindent : 1 ≤ q.indent) (h : CopiesLines p q 0 ns ts)
    (hc : c.rest = ts.flatMap fun t => t ++ ['\n']) :
    ∃ ms d, p.blockOutcome none true c = .ok (ms, d) ∧ Parse.AllSame ns ms := by
  cases h with
  | nil =>
    obtain ⟨k, hk⟩ := c.skipBlankLines_reaches
    have hend : c.skipBlankLines.atEnd = true := by
      rw [Cursor.atEnd, hk, Cursor.rest_drop, hc]
      exact isEmpty_iff.2 drop_nil
    refine ⟨[], c.skipBlankLines, ?_, .nil⟩
    rw [blockOutcome_eq, nextLine?, if_pos rfl]
    dsimp only [Option.map]
    rw [if_pos hend]
  | @cons n ns t ts b hline hnext rest =>
    obtain ⟨ch, more, rfl, hch⟩ := hline.first htidy
    have htail : Closes (q.indent * 0) ['\n'] := .inr (.inl rfl)
    have hcrest : c.rest = List.replicate (q.indent * 0) ' ' ++
        (ch :: more ++ (linesText (q.indent * 0) ts ++ ['\n'])) := by
      rw [hc, flatMap_cons, List.append_assoc]
      exact congrArg _ (flatMap_feeds ts)
    have hat : c.AtLine (q.indent * 0) ch (more ++ (linesText (q.indent * 0) ts ++ ['\n'])) := ⟨hcrest, hch⟩
    have hnextLine : c.nextLine? true = some c := congrArg some hat.skipBlankLines
    obtain ⟨m, e, hsame, hmeets, hblock⟩ := hline.reads hreg hroot htidy hnextLine hcrest
      (lineEnd_linesText (lineEnd_of_closes htail)) fun hb =>
        rest.closes htidy htail (by rw [Nat.mul_zero]; omega) (hnext hb)
    obtain ⟨ms, f, hms, hall, -⟩ := rest.reads hreg hroot htidy hindent htail hmeets
    refine ⟨m :: ms, f, ?_, .cons hsame hall⟩
    change p.blockOutcome (q.indentAt 0) true c = _
    rw [hblock, hms]
    rfl

end

/-! ### Writing lines -/

section

variable (htree : p.tree = q.spec.tree) (hreg : p.registry = .standard) (hroot : q.spec.tree.Regular)
  (hspec : q.spec.tree.prototypes = .ok q.spec.prototypes)

include htree hreg hroot hspec

theorem CopiesLine.print (h : CopiesLine p q depth n t b) : q.print (depth + 1) none n = .ok (ofList t, none) := by
  cases h with
  | comment _ hform => exact print_comment hform
  | @command ws ns _ _ hform hcourse =>
    have hreg' : p.registry "" = none := by rw [hreg, Registry.standard_empty]
    have hwritten := hcourse.written htree hreg' hroot hspec
    rw [htree] at hwritten
    exact hwritten.print hroot.root hform

theorem CopiesLines.print (h : CopiesLines p q depth ns ts) :
    q.printAll (depth + 1) none ns = .ok (ts.map ofList, none) := by
  induction h with
  | nil => rw [printAll]; rfl
  | cons hline _ _ ih =>
    rw [printAll_cons, hline.print htree hreg hroot hspec, Except.bind, ih]
    rfl

end

theorem toList_blockText_zero (ts : List (List Char)) :
    (q.blockText 0 (ts.map String.ofList)).toList = ts.flatMap fun t => t ++ ['\n'] := by
  rw [blockText, if_pos rfl, String.toList_join, flatMap_map, flatMap_map]
  refine flatMap_congr fun t _ => ?_
  simp

theorem toList_blockText (level : Nat) (ts : List (List Char)) :
    (q.blockText (level + 1) (ts.map String.ofList)).toList = ':' :: linesText (q.indent * (level + 1)) ts := by
  rw [blockText, if_neg (Nat.succ_ne_zero level), String.toList_append, String.toList_join, flatMap_map, flatMap_map]
  refine congrArg (cons ':') (flatMap_congr fun t _ => ?_)
  simp

theorem CopiesLines.copiesBlock (htree : p.tree = q.spec.tree) (hreg : p.registry = .standard)
    (hroot : q.spec.tree.Regular) (htidy : q.spec.tree.Tidy) (hspec : q.spec.tree.prototypes = .ok q.spec.prototypes)
    (hindent : 1 ≤ q.indent) (hmultiline : p.options.multiline = true) (h : CopiesLines p q (depth + 1) ns ts)
    (hcmd : ∃ n ∈ ns, n.kind = .command) (hvalue : value.form = .root ns) :
    CopiesBlock p q depth value (':' :: linesText (q.indent * (depth + 1)) ts) where
  kind := by
    rw [kind, hvalue]
    rfl
  opens := by
    cases h with
    | nil =>
      obtain ⟨n, hn, -⟩ := hcmd
      cases hn
    | cons => exact ⟨_, rfl⟩
  prints := by rw [print_root hvalue (h.print htree hreg hroot hspec), ← toList_blockText, ofList_toList]
  reads := by
    intro c tail hc htail
    rw [← htree] at hroot htidy
    obtain ⟨ms, d, span, hread, hall, hmeets⟩ := h.readsBlock hreg hroot htidy hindent hmultiline hcmd hc htail
    refine ⟨⟨.root ms, span⟩, d, hread, same_iff.2 ⟨?_, ?_⟩, hmeets⟩
    · rw [hvalue]
      exact decide_eq_true hall.length_eq
    · rw [Node.children, hvalue]
      exact hall

end Parser

end Mcfunction
