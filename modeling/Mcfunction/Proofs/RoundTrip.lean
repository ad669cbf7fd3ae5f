import Mcfunction.Proofs.Lines
import Mcfunction.Proofs.Resolved

/-! Reading, writing and reading again. Every command that a tidy tree reads takes a course, so that the lines of a text
can be written, and read back from what is written. Main statement: what the bundled grammar writes for a text that it
has read is read as the same tree. -/

namespace Mcfunction

open List Cursor CommandTree Spec Printer

def Cursor.Uncommented (c : Cursor) : Prop := ∀ d, c.nextLine? false = some d → d.atComment = false

theorem Cursor.Reaches.not_mem {c d : Cursor} (h : c.Reaches d) {ch : Char} (hc : ch ∉ c.rest) : ch ∉ d.rest := by
  obtain ⟨n, rfl⟩ := h
  rw [rest_drop]
  exact fun hmem => hc (mem_of_mem_drop hmem)

theorem Registry.standard_block {name : String} (h : Registry.standard name = some .block) :
    name = ArgumentReader.blockName := by
  have honly : ∀ x ∈ ArgumentReader.standard, x.2 = .block → x.1 = ArgumentReader.blockName := by decide
  exact honly _ (Entries.mem_of_lookup h) rfl

namespace Parser

variable {p : Parser} {q : Printer} {depth width : Nat} {indent : Option Nat} {c d e : Cursor} {n tree m : Node}
  {ks : List Nat} {ns lines : List Node} {l : Location}

theorem isBlock_of_registry (hreg : p.registry = .standard) {entry : String × CommandTree}
    (h : p.registry (entry.2.reader?.getD "") = some .block) : isBlock entry = true := by
  rw [hreg] at h
  have hname := Registry.standard_block h
  cases hreader : entry.2.reader? with
  | none =>
    rw [hreader] at hname
    exact absurd hname (by decide)
  | some name =>
    rw [hreader] at hname
    rw [isBlock, hreader]
    exact decide_eq_true (congrArg some hname)

/-- Whatever block is read at the cursor can be copied at any depth, and no comment comes next behind it. -/
def BlocksCopied (p : Parser) (q : Printer) (c : Cursor) : Prop :=
  ∀ indent depth value d, p.blockArgument indent c = .ok (value, d) → '\r' ∉ c.rest → value.Exact →
    (∃ text, CopiesBlock p q depth value text) ∧ d.Uncommented

def Spot.Begins (c : Cursor) : Spot → Prop
  | .child _ => EndsAt (fun ch => !isSpace ch) c.rest
  | _ => True

/-- What a command has taken along, from a place up to a cursor: the words and the arguments. A block may stand behind a
space as well. -/
inductive Took (p : Parser) (indent : Option Nat) : Spot → Cursor → List String → List Node → Cursor → Prop where
  | literal {owner child c ws ns e} (hchild : owner.children.lookup c.word = some child) (hrole : child.role = .literal)
      (rest : Took p indent (.after child) (c.drop c.wordLength) ws ns e) :
      Took p indent (.child owner) c (c.word :: ws) ns e
  | value {owner entry l c x ws ns e} (hentry : entry ∈ owner.children) (harg : isArgument entry = true)
      (hleaf : p.registry (entry.2.reader?.getD "") = some (.leaf l)) (hx : l.read entry.2.properties c = .ok x)
      (rest : Took p indent (.after entry.2) x.next ws ns e) :
      Took p indent (.child owner) c (entry.1 :: ws) (x.value :: ns) e
  | block {owner entry c d value e} (hentry : entry ∈ owner.children) (hblock : isBlock entry = true)
      (hexec : entry.2.executable = true) (hreach : c.Reaches d)
      (hread : p.blockArgument indent d = .ok (value, e)) : Took p indent (.follow owner) c [entry.1] [value] e
  | separated {owner c d ws ns e} (hgap : gap c = .ok d) (rest : Took p indent (.child owner) d ws ns e) :
      Took p indent (.follow owner) c ws ns e
  | complete {node c} (hexec : node.executable = true) : Took p indent (.after node) c [] [] c
  | next {node c ws ns e} (hred : node.redirect? = none) (rest : Took p indent (.follow node) c ws ns e) :
      Took p indent (.after node) c ws ns e
  | aliased {node path target c ws ns e} (hred : node.redirect? = some path)
      (htarget : p.tree.at? path = some target) (hsub : target.subcommand = false)
      (rest : Took p indent (.follow target) c ws ns e) : Took p indent (.after node) c ws ns e
  | subcommand {node path target c d n ws ns e} (hred : node.redirect? = some path)
      (htarget : p.tree.at? path = some target) (hsub : target.subcommand = true) (hgap : gap c = .ok d)
      (hform : n.form = .command (":".intercalate (path ++ ws)) ns) (rest : Took p indent (.child target) d ws ns e) :
      Took p indent (.after node) c [Slot.subcommandName] [n] e

/-- What a command has taken along from a stage on. A block that is read as a child is taken from where its owner is
followed. -/
def Stage.Took (p : Parser) (indent : Option Nat) (c : Cursor) (ws : List String) (ns : List Node) (e : Cursor) :
    Stage → Prop
  | .child owner _ => Parser.Took p indent (.child owner) c ws ns e ∨ (∃ entry ∈ owner.children, isBlock entry = true) ∧
      ∀ b : Cursor, b.Reaches c → Parser.Took p indent (.follow owner) b ws ns e
  | .follow owner _ => Parser.Took p indent (.follow owner) c ws ns e
  | .after node _ => Parser.Took p indent (.after node) c ws ns e

theorem gap_begins (h : gap c = .ok d) : EndsAt (fun ch => !isSpace ch) d.rest := by
  rw [gap, separator] at h
  split at h
  · dsimp only at h
    split at h
    · cases h
    · rename_i hspace
      cases h
      intro ch hch
      change (c.drop 1).peek = some ch at hch
      rw [hch] at hspace
      simpa [isSpace] using hspace
  · cases h

theorem Branch.ends {node : CommandTree} {pending : Pending} {r : Node × Cursor}
    (h : Branch p indent (.after node pending) c ks (.ok r)) (hc : Settled c) :
    node.executable = true ∧ r = (pending.finish c, c) := by
  have follows : ∀ {owner : CommandTree}, ¬Branch p indent (.follow owner pending) c ks (.ok r) := by
    intro owner h
    cases h with
    | blockAccepted hcolon => exact hc.2 hcolon
    | separated _ _ _ hgap => exact hc.1 (gap_ok hgap).1
  generalize hr : Except.ok r = result at h
  cases h with
  | complete hstop =>
    cases hr
    exact ⟨(Bool.and_eq_true_iff.1 hstop).2, rfl⟩
  | next _ _ rest | aliased _ _ _ _ rest => exact absurd (hr ▸ rest) follows
  | subcommand _ _ _ _ _ hgap => exact absurd (gap_ok hgap).1 hc.1
  | unresolved | subcommandEnded | subcommandUnseparated => cases hr

theorem exact_of_mem {identifier : String} (hn : n.Exact)
    (hform : n.form = .command identifier ns) (hm : m ∈ ns) : m.Exact := by
  refine hn.child ?_
  rw [Node.children, hform]
  exact hm

theorem word_unblank (c : Cursor) : ∀ ch ∈ c.word.toList, Text.isBlank ch = false := by
  intro ch hch
  rw [word, String.toList_ofList, wordLength, Token.value, Token.many, take_length_takeWhile] at hch
  simpa using mem_takeWhile_imp hch

section

variable (hreg : p.registry = .standard) (htidy : p.tree.Tidy)

include hreg htidy

/-- Every command that is read has taken along its words and its arguments. -/
theorem Branch.took {stage : Stage} {r : Except SyntaxError (Node × Cursor)} (h : Branch p indent stage c ks r) :
    ∀ n e, r = .ok (n, e) → ∃ ws ns,
      n.form = .command (":".intercalate (stage.pending.scope ++ ws)) (stage.pending.arguments ++ ns) ∧
        stage.Took p indent c ws ns e := by
  induction h with
  | @literal owner pending c child ks r hword rest ih =>
    intro n e hr
    obtain ⟨hlookup, hrole⟩ := Option.filter_eq_some_iff.1 hword
    obtain ⟨ws, ns, hform, htook⟩ := ih n e hr
    refine ⟨c.word :: ws, ns, ?_, .inl (.literal hlookup (by simpa using hrole) htook)⟩
    simpa [Stage.pending, Pending.literal] using hform
  | @accepted owner pending c i entry value d ks r hword hentry harg hread rest ih =>
    intro n e hr
    subst hr
    have hmem := mem_of_getElem? hentry
    rw [argumentOutcome_eq] at hread
    split at hread
    · cases hread
    · rename_i hleaf
      obtain ⟨x, hx, heq⟩ := map_ok hread
      cases heq
      obtain ⟨ws, ns, hform, htook⟩ := ih n e rfl
      refine ⟨entry.1 :: ws, x.value :: ns, ?_, .inl (.value hmem harg hleaf hx htook)⟩
      simpa [Stage.pending, Pending.argument, Step.pair] using hform
    · rename_i hreader
      have hblock := isBlock_of_registry hreg hreader
      obtain ⟨hexec, heq⟩ := rest.ends (blockArgument_settled hread)
      cases heq
      exact ⟨[entry.1], [value], rfl, .inr ⟨⟨entry, hmem, hblock⟩, fun b hb => .block hmem hblock hexec hb hread⟩⟩
  | @blockAccepted owner pending c i entry value d ks r _ hentry hblock hread rest _ =>
    intro n e hr
    subst hr
    rw [argumentOutcome_block hreg hblock] at hread
    obtain ⟨hexec, heq⟩ := rest.ends (blockArgument_settled hread)
    cases heq
    exact ⟨[entry.1], [value], rfl, .block (mem_of_getElem? hentry) hblock hexec (.refl c) hread⟩
  | separated _ _ _ hgap _ ih =>
    intro n e hr
    obtain ⟨ws, ns, hform, htook | ⟨-, hblock⟩⟩ := ih n e hr
    · exact ⟨ws, ns, hform, .separated hgap htook⟩
    · exact ⟨ws, ns, hform, hblock _ ⟨1, (gap_ok hgap).2⟩⟩
  | @complete node pending c hstop =>
    intro n e hr
    cases hr
    refine ⟨[], [], ?_, .complete (Bool.and_eq_true_iff.1 hstop).2⟩
    rw [append_nil, append_nil]
    rfl
  | next _ hred _ ih =>
    intro n e hr
    obtain ⟨ws, ns, hform, htook⟩ := ih n e hr
    exact ⟨ws, ns, hform, .next hred htook⟩
  | aliased _ hred htarget hsub _ ih =>
    intro n e hr
    obtain ⟨ws, ns, hform, htook⟩ := ih n e hr
    exact ⟨ws, ns, hform, .aliased hred htarget hsub htook⟩
  | @subcommand node pending c path target d ks inner _ hred htarget hsub _ hgap _ ih =>
    intro n e hr
    cases inner with
    | error e => cases hr
    | ok x =>
      cases hr
      obtain ⟨ws, ns, hform, htook | ⟨⟨entry, hentry, hblock⟩, -⟩⟩ := ih x.1 x.2 rfl
      · exact ⟨_, [x.1], rfl, .subcommand hred htarget hsub hgap hform htook⟩
      · rw [(htidy.nodes _ _ htarget).whole hsub entry hentry] at hblock
        cases hblock
  | _ =>
    intro n e hr
    cases hr

theorem outcome_took (hroot : p.tree.Regular) (h : p.outcome indent (.child p.tree { start := l }) c = .ok (n, e)) :
    ∃ ws ns, n.form = .command (":".intercalate ws) ns ∧ Took p indent (.child p.tree) c ws ns e := by
  obtain ⟨ks, hks⟩ := exists_branch p indent (.child p.tree { start := l }) c
  obtain ⟨ws, ns, hform, htook | ⟨⟨entry, hentry, hblock⟩, -⟩⟩ := hks.took hreg htidy n e h
  · exact ⟨ws, ns, hform, htook⟩
  · have hreader := hroot.readers _ _ (hroot.keyed.at?_child (show p.tree.at? [] = some p.tree from rfl) hentry)
      (by rw [of_decide_eq_true hblock]; exact nofun)
    rw [(htidy.root entry hentry).1] at hreader
    cases hreader

omit hreg htidy in
/-- What a command has taken along is a course that can be read back. -/
theorem Took.course {spot : Spot} {ws : List String} (h : Took p indent spot c ws ns e)
    (hcopied : ∀ d, d.remaining ≤ c.remaining → BlocksCopied p q d) (hreturn : '\r' ∉ c.rest) (hbegins : spot.Begins c)
    (hexact : ∀ n ∈ ns, n.Exact) : ∃ t b, Course p q depth spot ws ns t b ∧ (b = true → e.Uncommented) := by
  have later : ∀ {c d : Cursor}, c.Reaches d → (∀ e, e.remaining ≤ c.remaining → BlocksCopied p q e) →
      ∀ e, e.remaining ≤ d.remaining → BlocksCopied p q e :=
    fun hreach hcopied e he => hcopied e (le_trans he hreach.remaining_le)
  induction h with
  | @literal owner child c ws ns e hchild hrole _ ih =>
    have hreach := c.reaches_drop c.wordLength
    obtain ⟨t, b, hcourse, hb⟩ := ih (later hreach hcopied) (hreach.not_mem hreturn) trivial hexact
    exact ⟨_, b, .literal hchild hrole (word_unblank c) hcourse, hb⟩
  | @value owner entry l c x ws ns e hentry harg hleaf hx _ ih =>
    obtain ⟨hvalue, hexact⟩ := forall_mem_cons.1 hexact
    have hplaced := (Leaf.read_placed hx).plain
    have hparts := parts_of_agrees (agrees_of_placed hplaced : q.spec.Agrees x.value) hplaced.holds.part
    obtain ⟨t, b, hcourse, hb⟩ := ih (later x.ahead hcopied) (Reaches.not_mem x.ahead hreturn) trivial hexact
    refine ⟨_, b, .value hentry harg hleaf hparts ?_ ?_ hcourse, hb⟩
    · exact l.read_returns entry.2.properties c hreturn hbegins x hx hvalue
    · exact l.read_shape entry.2.properties c x hx hvalue
  | block hentry hblock hexec hreach hread =>
    obtain ⟨⟨text, htext⟩, huncommented⟩ := hcopied _ hreach.remaining_le indent depth _ _ hread
      (hreach.not_mem hreturn) (hexact _ mem_cons_self)
    exact ⟨text, true, .block hentry hblock hexec htext, fun _ => huncommented⟩
  | separated hgap _ ih =>
    have hreach : Reaches _ _ := ⟨1, (gap_ok hgap).2⟩
    obtain ⟨t, b, hcourse, hb⟩ := ih (later hreach hcopied) (hreach.not_mem hreturn) (gap_begins hgap) hexact
    exact ⟨_, b, .separated hcourse, hb⟩
  | complete hexec => exact ⟨[], false, .complete hexec, Bool.noConfusion⟩
  | next hred _ ih =>
    obtain ⟨t, b, hcourse, hb⟩ := ih hcopied hreturn trivial hexact
    exact ⟨t, b, .next hred hcourse, hb⟩
  | aliased hred htarget hsub _ ih =>
    obtain ⟨t, b, hcourse, hb⟩ := ih hcopied hreturn trivial hexact
    exact ⟨t, b, .aliased hred htarget hsub hcourse, hb⟩
  | subcommand hred htarget hsub hgap hform _ ih =>
    have hreach : Reaches _ _ := ⟨1, (gap_ok hgap).2⟩
    obtain ⟨t, b, hcourse, hb⟩ := ih (later hreach hcopied) (hreach.not_mem hreturn) (gap_begins hgap)
      fun m hm => exact_of_mem (hexact _ mem_cons_self) hform hm
    exact ⟨_, b, .subcommand hred htarget hsub hform hcourse, hb⟩

theorem outcome_taken (hroot : p.tree.Regular)
    (hcopied : ∀ d, d.remaining ≤ c.remaining → BlocksCopied p q d) (hreturn : '\r' ∉ c.rest)
    (hbegins : EndsAt (fun ch => !isSpace ch) c.rest)
    (h : p.outcome indent (.child p.tree { start := l }) c = .ok (n, e)) (hn : n.Exact) :
    ∃ t b, CopiesLine p q depth n t b ∧ (∃ ch more, t = ch :: more ∧ ch ≠ '#') ∧ (b = true → e.Uncommented) := by
  obtain ⟨ws, ns, hform, htook⟩ := outcome_took hreg htidy hroot h
  obtain ⟨t, b, hcourse, hb⟩ := htook.course hcopied hreturn hbegins fun m hm => exact_of_mem hn hform hm
  obtain ⟨ch, more, ht, -, hch⟩ := hcourse.first htidy
  exact ⟨t, b, .command hform hcourse, ⟨ch, more, ht, hch⟩, hb⟩

end

/-! ### Lines that were read -/

theorem skipSpaces_begins (c : Cursor) : EndsAt (fun ch => !isSpace ch) c.skipSpaces.rest := by
  intro ch hch
  rw [skipSpaces, rest_drop, indentation, drop_length_takeWhile] at hch
  have hhead := head?_dropWhile_not isSpace c.rest
  rw [hch] at hhead
  simpa using hhead

theorem commentLine_copies {ts : List (List Char)} (hreturn : '\r' ∉ d.rest)
    (h : CopiesLines p q depth ns ts) : ∃ us, CopiesLines p q depth (p.commentLine d ++ ns) us := by
  rw [commentLine]
  split
  · rename_i hkeep
    obtain ⟨more, hmore, -⟩ := d.skipSpaces.rest_eq_lineRest
    refine ⟨_, .cons (.comment hkeep rfl ?_ ?_) Bool.noConfusion h⟩
    · exact fun hmem => d.skipSpaces.newline_not_mem_lineRest (mem_of_mem_drop hmem)
    · intro hmem
      refine d.skipSpaces_reaches.not_mem hreturn ?_
      rw [hmore]
      exact mem_append_left more (mem_of_mem_drop hmem)
  · exact ⟨ts, h⟩

section

variable (hreg : p.registry = .standard) (htidy : p.tree.Tidy) (hroot : p.tree.Regular)

include hreg htidy hroot

/-- The lines of a block that was read can be copied. No comment comes first if none stands in the next line, and none
comes behind the block. -/
theorem blockOutcome_copies (depth : Nat) (indent : Option Nat) (first : Bool) (c : Cursor) :
    (∀ d, d.remaining ≤ c.remaining → BlocksCopied p q d) → '\r' ∉ c.rest → ∀ lines e,
      p.blockOutcome indent first c = .ok (lines, e) → (∀ n ∈ lines, n.Exact) →
        (∃ ts, CopiesLines p q depth lines ts ∧
          (first = false → c.Uncommented → ∀ u ∈ ts.head?, u.head? ≠ some '#')) ∧
        (first = false → e.Uncommented) := by
  intro hcopied hreturn lines e h hexact
  replace h := blockRead_of_ok h
  induction h with
  | unended hline =>
    refine ⟨⟨[], .nil, fun _ _ => nofun⟩, ?_⟩
    rintro rfl d hd
    cases hline.symm.trans hd
  | ended hline hend =>
    refine ⟨⟨[], .nil, fun _ _ => nofun⟩, fun _ d hd => ?_⟩
    rw [nextLine?_of_end (isEmpty_iff.1 hend)] at hd
    cases hd
  | @comment first c d rest e hline hcomment _ ih =>
    have hreach := nextLine?_reaches hline
    have hskip := hreach.trans (d.skipSpaces_reaches.trans d.skipSpaces.skipLine_reaches)
    obtain ⟨⟨ts, hts, -⟩, he⟩ := ih (fun f hf => hcopied f (le_trans hf hskip.remaining_le))
      (hskip.not_mem hreturn) fun n hn => hexact n (mem_append_right _ hn)
    obtain ⟨us, hus⟩ := commentLine_copies (hreach.not_mem hreturn) hts
    refine ⟨⟨us, hus, ?_⟩, fun _ => he rfl⟩
    rintro rfl huncommented
    rw [huncommented d hline] at hcomment
    cases hcomment
  | left hline _ hcomment =>
    refine ⟨⟨[], .nil, fun _ _ => nofun⟩, ?_⟩
    rintro rfl d hd
    cases hline.symm.trans hd
    exact hcomment
  | @command first c d n e rest f hline _ _ _ hn _ ih =>
    -- if a block ends the command, no comment comes first behind it
    have hcs := (nextLine?_reaches hline).trans d.skipSpaces_reaches
    have hce := hcs.trans (outcome_reaches hn)
    obtain ⟨t, b, hcopies, ⟨ch, more, rfl, hch⟩, hb⟩ := outcome_taken hreg htidy hroot
      (fun g hg => hcopied g (le_trans hg hcs.remaining_le)) (hcs.not_mem hreturn) (skipSpaces_begins d) hn
      (hexact n mem_cons_self)
    obtain ⟨⟨ts, hts, hfirst⟩, hf⟩ := ih (fun g hg => hcopied g (le_trans hg hce.remaining_le))
      (hce.not_mem hreturn) fun m hm => hexact m (mem_cons_of_mem n hm)
    refine ⟨⟨_, .cons hcopies (fun hb' => hfirst rfl (hb hb')) hts, fun _ _ u hu => ?_⟩, fun _ => hf rfl⟩
    cases hu
    exact fun hhead => hch (Option.some.inj hhead)

end

/-! ### Blocks that were read -/

section

variable (htree : p.tree = q.spec.tree) (hreg : p.registry = .standard) (hroot : q.spec.tree.Regular)
  (hspec : q.spec.tree.prototypes = .ok q.spec.prototypes)

include htree hreg hroot hspec

theorem outcome_kind
    (h : p.outcome indent (.child p.tree { start := c.location }) c = .ok (n, e)) : n.kind = .command := by
  have hempty : p.registry "" = none := by rw [hreg, Registry.standard_empty]
  exact (outcome_agrees hroot hspec indent htree (fun d _ => argumentsAgree hroot hspec htree hempty d) n e h).1

theorem exists_command (hwidth : 0 < width) (hdeep : c.blockIndentation = width) (hend : c.atLineEnd = true)
    (h : p.blockOutcome (some width) false c = .ok (lines, e)) : ∃ n ∈ lines, n.kind = .command := by
  obtain ⟨_, _, n, _, -, -, -, -, -, hn, hread⟩ := (blockRead_of_ok h).first_command hwidth hdeep (.inl hend)
  exact ⟨n, hn, outcome_kind htree hreg hroot hspec hread⟩

theorem blocksCopied (htidy : q.spec.tree.Tidy) (hindent : 1 ≤ q.indent) (c : Cursor) : BlocksCopied p q c := by
  induction c using induct with
  | hstep c ih =>
    intro indent depth value d h hreturn hexact
    obtain ⟨hmultiline, hcolon, hend, hdeeper, lines, hlines, rfl⟩ := blockArgument_ok h
    have hreach := c.reaches_drop 1
    have hlt := c.drop_one_remaining hcolon
    obtain ⟨⟨ts, hts, -⟩, huncommented⟩ := blockOutcome_copies hreg (htree ▸ htidy) (htree ▸ hroot)
      (depth + 1) _ false (c.drop 1) (fun d hd => ih d (lt_of_le_of_lt hd hlt))
      (hreach.not_mem hreturn) lines d hlines fun n hn => hexact.child hn
    have hcmd := exists_command htree hreg hroot hspec (Nat.zero_lt_of_lt hdeeper) rfl hend hlines
    have hcopies := hts.copiesBlock htree hreg hroot htidy hspec hindent hmultiline hcmd
      (show (Node.mk (.root lines) (d.spanFrom c.location)).form = _ from rfl)
    exact ⟨⟨_, hcopies⟩, huncommented rfl⟩

/-- What is written for the tree of a text is read back as the same tree. -/
theorem render_parse (htidy : q.spec.tree.Tidy) (hindent : 1 ≤ q.indent) {source : String}
    (hsource : '\r' ∉ source.toList) (hparse : p.parse source = .ok tree) (hexact : tree.Exact) :
    ∃ text, q.render tree = .ok text ∧ ∃ again, p.parse text = .ok again ∧ tree.same again = true := by
  rw [parse_eq] at hparse
  obtain ⟨⟨lines, d⟩, hlines, rfl⟩ := map_ok hparse
  obtain ⟨⟨ts, hts, -⟩, -⟩ := blockOutcome_copies hreg (htree ▸ htidy) (htree ▸ hroot) 0 none true (.start source)
    (fun d _ => blocksCopied htree hreg hroot hspec htidy hindent d) hsource lines d hlines
    fun n hn => hexact.child hn
  have hprint := print_root (n := ⟨.root lines, d.spanFrom .origin⟩) rfl (hts.print htree hreg hroot hspec)
  refine ⟨q.blockText 0 (ts.map String.ofList), by rw [render, hprint], ?_⟩
  obtain ⟨ms, e, hms, hall⟩ := hts.readsAll hreg (htree ▸ hroot) (htree ▸ htidy) hindent
    (show (start _).rest = _ from toList_blockText_zero ts)
  refine ⟨⟨.root ms, e.spanFrom .origin⟩, by rw [parse_eq, hms]; rfl, Node.same_iff.2 ⟨?_, hall⟩⟩
  exact decide_eq_true hall.length_eq

end

end Parser

/-! ### The bundled commands -/

namespace CommandTree

/-- What the walk over the bundled commands finds: one dead end, and the targets of whole commands. -/
def bundledPlan : Plan where
  deadEnds := [["execute", "run"]]
  subcommands := List.replicate 8 ["execute"] ++ [] :: List.replicate 2 ["execute"]

theorem bundled_resolve : bundled.resolve true = .ok (bundled.carryOut bundledPlan) := by
  have hplan : planAll bundled true [] [] [] bundled.children = .ok bundledPlan := by cbv
  rw [resolve, hplan]

theorem bundled_regular : bundled.Regular := by decide +kernel

theorem bundled_tidy : (bundled.carryOut bundledPlan).Tidy := by decide +kernel

end CommandTree

theorem Spec.bundled_ok {spec : Spec} (h : withTrees [] true = .ok spec) :
    spec.tree = bundled.carryOut bundledPlan ∧
      spec.tree.prototypes = .ok spec.prototypes := by
  obtain ⟨hresolve, hprotos⟩ := ofTree_ok h
  exact ⟨Except.ok.inj (hresolve.symm.trans bundled_resolve), hprotos⟩

namespace Parser

/-- The round trip of a whole text. Take a text without carriage returns that the bundled grammar reads, under any
options. If its numbers are integers and no selector of a message runs into the text behind it, then the tree is
written, with any indentation of blocks, and what is written is read, under the same options, as the same tree. -/
theorem parse_render_parse {spec : Spec} (hspec : withTrees [] true = .ok spec) (options : ParseOptions)
    {indent : Nat} (hindent : 1 ≤ indent) {source : String} (hsource : '\r' ∉ source.toList) {tree : Node}
    (hparse : ({ tree := spec.tree, options } : Parser).parse source = .ok tree) (hexact : tree.Exact) :
    ∃ text, ({ spec, indent } : Printer).render tree = .ok text ∧
      ∃ again, ({ tree := spec.tree, options } : Parser).parse text = .ok again ∧ tree.same again = true := by
  obtain ⟨htree, hprototypes⟩ := bundled_ok hspec
  have hroot : spec.tree.Regular := htree ▸ bundled_regular.resolve bundled_resolve
  have htidy : spec.tree.Tidy := htree ▸ bundled_tidy
  exact render_parse (q := { spec, indent }) rfl rfl hroot hprototypes htidy hindent hsource hparse hexact

/-- A block in a block, a comment that belongs to the inner one although it is indented less, and children that are
tried in vain. -/
theorem parse_render_parse_nested :
    let options : ParseOptions := { multiline := true, keepComments := true }
    let source := "function a:b :\n tp @s\n\n execute as @a[ tag = x ] run function c:\n   tp 01 ~ ~-0\n# end\nsay hi"
    ∃ spec tree, withTrees [] true = .ok spec ∧ '\r' ∉ source.toList ∧
      ({ tree := spec.tree, options } : Parser).parse source = .ok tree ∧ tree.Exact ∧
      ∃ text, ({ spec, indent := 2 } : Printer).render tree = .ok text ∧
        ∃ again, ({ tree := spec.tree, options } : Parser).parse text = .ok again ∧ tree.same again = true := by
  intro options source
  obtain ⟨prototypes, hprototypes⟩ :=
    bundled_regular.keyed.exists_prototypes bundled_resolve
  have hspec := ofTree_eq bundled_resolve hprototypes
  have hread : (Parser.parse { tree := bundled.carryOut bundledPlan, options }
      source).toOption.any (fun tree => decide tree.Exact) = true := by decide +kernel
  cases hparse : Parser.parse { tree := bundled.carryOut bundledPlan, options } source with
  | error e =>
      rw [hparse] at hread
      cases hread
  | ok tree =>
      rw [hparse] at hread
      have hexact : tree.Exact := of_decide_eq_true hread
      have hsource : '\r' ∉ source.toList := by decide +kernel
      exact ⟨_, tree, hspec, hsource, hparse, hexact,
        parse_render_parse hspec options (by decide) hsource hparse hexact⟩

end Parser

end Mcfunction
