import Mcfunction.Proofs.Faults
import Mcfunction.Proofs.Remains
import Mcfunction.Proofs.Snippets

/-! Where the locations of diagnostics point. A unit that was made of a definition has no text of its own, and its tree
is a part of the tree of some file. Main statement: the location of a diagnostic marks a place in the text of the unit
that the diagnostic names, or else in the text of a file that defines it. -/

namespace Mcfunction

open List Option CommandTree Spec Diagnostic
open NestedFunction (Definition defined? marks)
open Options (Lies)

variable {text : String} {p : Parser}

namespace Parser

theorem lies_of_parse {tree : Node} (h : p.parse text = .ok tree) : Lies (Span.Marks text) tree := by
  have hplaced := parse_placed p text
  rw [h] at hplaced
  obtain ⟨d, hplaced⟩ := hplaced
  intro m hm
  obtain ⟨c, d, hc, hinner⟩ := Node.Within.induct
    (P := fun m => ∃ c d, (Cursor.start text).Reaches c ∧ Placed Spread c d m) (by
      rintro m ⟨c, d, hc, hm⟩ child hchild
      obtain ⟨first, last, hfirst, hinner, -⟩ := hm.inside.placed hchild
      exact ⟨first, last, hc.trans hfirst, hinner⟩) ⟨_, d, .refl _, hplaced⟩ hm
  rw [hinner.span]
  exact hc.span_marks hinner.reaches

theorem marks_of_error {e : SyntaxError} (h : p.parse text = .error e) : e.span.Marks text := by
  have hbehind := parse_placed p text
  rw [h] at hbehind
  obtain ⟨c, d, hc, hd, hspan⟩ := hbehind
  rw [hspan]
  exact hc.span_marks hd

end Parser

theorem Span.Marks.isKnown {s : Span} (h : s.Marks text) : s.start.isKnown = true := by
  obtain ⟨before, after, -, -, hline, -⟩ := h.start
  rw [Location.isKnown, hline]
  exact decide_eq_true (lt_of_lt_of_le Nat.one_pos (Nat.le_add_right 1 _))

namespace Compiler

variable {σ : Type} {spec : Spec} {o : Options} {c c' fresh reached : Compiler σ} {u u' : CompilationUnit} {v : Visit}
  {visits : List Visit} {h : Handle} {step : Nat} {w : Work} {x : Diagnostic}

/-- The text that the locations in a unit are about: its own, or else that of a file with a definition of the function
that the unit is. -/
inductive Concerns (o : Options) (c : Compiler σ) (u : CompilationUnit) (text : String) : Prop where
  | own (hsource : u.source = some text) : Concerns o c u text
  | definition {k : Handle} {file : CompilationUnit} {tree m : Node} {d : Definition}
      (hnested : o.enables .nestedFunction = true) (hsource : u.source = none) (hfile : c.database.get? k = some file)
      (htext : file.source = some text) (hparse : c.parser.parse text = .ok tree) (hm : m ∈ tree.walk)
      (hd : defined? m = some d) (hname : u.resourceName = some d.title) : Concerns o c u text

/-- The location of a diagnostic, if it has one, marks a place in the text that the locations in its unit are about. -/
def Points (o : Options) (c : Compiler σ) (x : Diagnostic) : Prop :=
  ∀ start ∈ x.start, ∃ h u text stop, x.file = some h ∧ c.database.get? h = some u ∧ Concerns o c u text ∧
    x.stop = some stop ∧ Span.Marks text ⟨start, stop⟩

/-- A tree is a part of the tree of a text, but for definitions in the tree that became calls. -/
structure Stems (o : Options) (p : Parser) (text : String) (tree : Node) : Prop where
  lies : Lies (Span.Marks text) tree
  whole : ∃ root, p.parse text = .ok root ∧ (o.enables .nestedFunction = true → (marks tree).Subperm (marks root))

/-- The units and the diagnostics of a compiler are about texts of files. -/
structure Sourced (o : Options) (c : Compiler σ) : Prop where
  units : ∀ h u, c.database.get? h = some u → ∃ text, Concerns o c u text ∧ ∀ tree ∈ u.tree, Stems o c.parser text tree
  entries : ∀ x ∈ c.diagnostics.entries, Points o c x

/-! ### What is kept -/

/-- The units stay, with their names and sources, and texts are read as before. -/
structure Keeps (c c' : Compiler σ) : Prop where
  parser : c'.parser = c.parser
  units : ∀ h u, c.database.get? h = some u →
    ∃ u', c'.database.get? h = some u' ∧ u'.source = u.source ∧ u'.resourceName = u.resourceName

theorem Does.keeps (hc : c.Standard o) (hv : Does c v c') : Keeps c c' where
  parser := (hv.tools hc).1
  units := fun h u hu => by
    obtain ⟨u', hu', hsource, hname, -⟩ := hv.source_eq hc hu
    exact ⟨u', hu', hsource, hname⟩

theorem Keeps.rest (c : Compiler σ) : Keeps c c.rest := ⟨rfl, fun _ u hu => ⟨u, hu, rfl, rfl⟩⟩

theorem Keeps.add (hc : c.Standard o) (f : SourceFile) : Keeps c (c.add f).2 := by
  refine ⟨rfl, fun h u hu => ⟨u, ?_, rfl, rfl⟩⟩
  rw [get?_add, if_neg, hu]
  rintro rfl
  exact lt_irrefl _ (index_lt_nextHandle hc hu)

theorem Keeps.concerns (hkeeps : Keeps c c') (hconcerns : Concerns o c u text) (hsource : u'.source = u.source)
    (hname : u'.resourceName = u.resourceName) : Concerns o c' u' text := by
  cases hconcerns with
  | own htext => exact .own (hsource.trans htext)
  | definition hnested hnone hfile htext hparse hm hd htitle =>
    obtain ⟨file', hfile', hsource', -⟩ := hkeeps.units _ _ hfile
    exact .definition hnested (hsource.trans hnone) hfile' (hsource'.trans htext) (by rwa [hkeeps.parser]) hm hd
      (hname.trans htitle)

theorem Keeps.points (hkeeps : Keeps c c') (hx : Points o c x) : Points o c' x := by
  intro start hstart
  obtain ⟨h, u, text, stop, hfile, hu, hconcerns, hstop, hmarks⟩ := hx start hstart
  obtain ⟨u', hu', hsource, hname⟩ := hkeeps.units h u hu
  exact ⟨h, u', text, stop, hfile, hu', hkeeps.concerns hconcerns hsource hname, hstop, hmarks⟩

theorem Sourced.unit (hsourced : c.Sourced o) (hkeeps : Keeps c c') (hu : c.database.get? h = some u) :
    ∃ text, Concerns o c' u text ∧ ∀ tree ∈ u.tree, Stems o c'.parser text tree := by
  obtain ⟨text, hconcerns, htrees⟩ := hsourced.units h u hu
  exact ⟨text, hkeeps.concerns hconcerns rfl rfl, hkeeps.parser ▸ htrees⟩

/-- What a job of a unit leaves stems from the text that the unit is about, and what it reports lies in there. -/
theorem Effect.stems (hc : c.Presentable spec o) (hw : c.Effect o u step w) (hu : c.database.get? h = some u)
    (hconcerns : Concerns o c u text) (htrees : ∀ tree ∈ u.tree, Stems o c.parser text tree) :
    (∀ tree ∈ w.unit.tree, Stems o c.parser text tree) ∧
    (∀ d ∈ w.definitions, Stems o c.parser text d.body ∧ o.enables .nestedFunction = true ∧
      ∃ root, c.parser.parse text = .ok root ∧ d.mark ∈ marks root) ∧
    ∀ x ∈ w.reports, ∃ s, Span.Marks text s ∧ x.LiesOn s := by
  have hown : ∀ source, u.source = some source → source = text := by
    intro source hsource
    cases hconcerns with
    | own htext => exact some.inj (hsource.symm.trans htext)
    | definition _ hnone => cases hsource.symm.trans hnone
  cases hw with
  | @read source tree hsource hparse =>
    obtain rfl := hown source hsource
    refine ⟨fun tree' htree' => ?_, forall_mem_nil _, forall_mem_nil _⟩
    obtain rfl : tree = tree' := some.inj htree'
    exact ⟨Parser.lies_of_parse hparse, tree, hparse, fun _ => .refl _⟩
  | @unread source e hsource hparse =>
    obtain rfl := hown source hsource
    refine ⟨htrees, forall_mem_nil _, forall_mem_singleton.2 ⟨e.span, Parser.marks_of_error hparse, ?_⟩⟩
    exact liesOn_withSpan _ _
  | @transformed tree tree' definitions left reports htree hextracts =>
    obtain ⟨hlies, root, hparse, hmarks⟩ := htrees tree htree
    obtain ⟨htree', hbodies, hleft⟩ := hextracts.reworked.lies (forall_mem_singleton.2 hlies)
    refine ⟨fun tree'' htree'' => ?_, fun d hd => ?_, fun x hx => ?_⟩
    · obtain rfl : tree' = tree'' := some.inj htree''
      refine ⟨forall_mem_singleton.1 htree', root, hparse, fun hnested => ?_⟩
      obtain ⟨htree, -, hleft⟩ := hextracts.reworked.marks_subperm hnested
      exact (htree.trans hleft).trans (hmarks hnested)
    · have hnested := hextracts.reworked.enabled.1 d hd
      obtain ⟨-, hblocks, hleft⟩ := hextracts.reworked.marks_subperm hnested
      exact ⟨⟨hbodies d hd, root, hparse, fun _ => ((hblocks d hd).2.trans hleft).trans (hmarks hnested)⟩, hnested, root,
        hparse, (hmarks hnested).subset (hblocks d hd).1⟩
    · obtain ⟨d, hd, hrefuses⟩ := hextracts.refused x hx
      exact ⟨d.mark.span, hleft d hd, hrefuses.place⟩
  | @linted tree reports htree hremarks =>
    refine ⟨htrees, forall_mem_nil _, fun x hx => ?_⟩
    obtain ⟨m, hm, hplace⟩ := (hremarks x hx).place
    exact ⟨m.span, (htrees tree htree).lies m hm, hplace⟩
  | @unprinted tree fault htree hprint =>
    obtain ⟨output, houtput⟩ := hc.prints tree (hc.trees h u hu tree htree)
    cases houtput.symm.trans hprint
  | _ => exact ⟨htrees, forall_mem_nil _, forall_mem_nil _⟩

theorem Does.sourced (hc : c.Presentable spec o) (hv : Does c v c') (hsourced : c.Sourced o) : c'.Sourced o := by
  have hkeeps := hv.keeps hc.standard
  have hentries := hv.diagnostics hc.standard
  have hstamped := hv.stamped hc.standard
  have hold := fun x hx => hkeeps.points (hsourced.entries x hx)
  rcases hv.cases hc.standard.ruled with ⟨-, hgained, -, hresult⟩ | ⟨u, w, hu, hw, hgained, -, hresult⟩
  · refine ⟨fun h u hu => ?_, ?_⟩
    · rw [hresult] at hu
      exact hsourced.unit hkeeps hu
    · rw [hentries, hgained, append_nil]
      exact hold
  obtain ⟨text, hconcerns, htrees⟩ := hsourced.units _ u hu
  obtain ⟨htrees', hdefs, hreports⟩ := hw.stems hc hu hconcerns htrees
  have hclosed : Concerns o c' w.closed text := by
    refine hkeeps.concerns hconcerns ?_ ?_ <;> rw [Work.closed, hw.unit_eq]
  have hself : c'.database.get? v.job.handle = some w.closed := by
    rw [hresult]
    exact get?_finish_self hc.standard.ruled.takeNext.counted hu w
  refine ⟨fun k u' hu' => ?_, ?_⟩
  · rw [hresult, get?_finish hc.standard.ruled.takeNext.counted hu] at hu'
    split at hu'
    · obtain rfl := some.inj hu'
      exact ⟨text, hclosed, hkeeps.parser ▸ htrees'⟩
    split at hu'
    · exact hsourced.unit hkeeps hu'
    · -- the unit of a definition is about the text that the unit with the definition is about
      obtain ⟨d, hd, rfl⟩ := map_eq_some_iff.1 hu'
      obtain ⟨hstems, hnested, root, hparse, hmark⟩ := hdefs d (mem_of_getElem? hd)
      obtain ⟨m, d', hm, hd', heq⟩ := NestedFunction.mem_marks.1 hmark
      have hm := Node.mem_walk.2 hm
      have htitle : (Database.stamped k d.unit).resourceName = some d'.title := by
        rw [← d'.title_mark, heq, d.title_mark]
        rfl
      rw [← hkeeps.parser] at hparse
      refine ⟨text, ?_, fun tree htree => ?_⟩
      · cases hclosed with
        | own htext => exact .definition hnested rfl hself htext hparse hm hd' htitle
        | definition _ _ hfile htext => exact .definition hnested rfl hfile htext hparse hm hd' htitle
      · obtain rfl : d.body = tree := some.inj htree
        rwa [hkeeps.parser]
  · rw [hentries]
    refine forall_mem_append.2 ⟨hold, fun x hx start hstart => ?_⟩
    have hfile := hstamped x hx
    rw [hgained] at hx
    obtain ⟨y, hy, rfl⟩ := mem_map.1 hx
    obtain ⟨s, hmarks, hlies⟩ := hreports y hy
    obtain ⟨hstart', hstop⟩ := hlies hmarks.isKnown
    obtain rfl : s.start = start := some.inj (hstart'.symm.trans hstart)
    exact ⟨_, _, text, s.stop, hfile, hself, hclosed, hstop, hmarks⟩

theorem sourced_of_ofSpec {memory : σ} (hfresh : ofSpec spec o memory = .ok fresh) : fresh.Sourced o := by
  rw [ofSpec] at hfresh
  split at hfresh <;> cases hfresh
  exact ⟨fun h u hu => (by cases hu), forall_mem_nil _⟩

theorem Sourced.rest (hsourced : c.Sourced o) : c.rest.Sourced o :=
  ⟨fun _ _ hu => hsourced.unit (.rest c) hu, fun x hx => (Keeps.rest c).points (hsourced.entries x hx)⟩

theorem Sourced.add (hc : c.Standard o) (hsourced : c.Sourced o) (f : SourceFile) : (c.add f).2.Sourced o := by
  have hkeeps := Keeps.add hc f
  refine ⟨fun k u hu => ?_, fun x hx => hkeeps.points (hsourced.entries x hx)⟩
  rw [get?_add] at hu
  split at hu
  · obtain rfl := some.inj hu
    exact ⟨f.text, .own rfl, fun tree htree => by cases htree⟩
  · exact hsourced.unit hkeeps hu

theorem Trace.sourced (hc : c.Presentable spec o) (htrace : Trace c visits c') (hsourced : c.Sourced o) :
    c'.Sourced o := by
  induction htrace with
  | done => exact hsourced
  | pause _ ih => exact ih hc.rest hsourced.rest
  | visit hdoes _ ih => exact ih (hdoes.presentable hc) (hdoes.sourced hc hsourced)

theorem Fed.sourced (hpresentable : fresh.Presentable spec o) (hsourced : fresh.Sourced o) (hc : Fed fresh c) :
    c.Presentable spec o ∧ c.Sourced o := by
  induction hc with
  | fresh => exact ⟨hpresentable, hsourced⟩
  | add f _ ih => exact ⟨ih.1.add f, ih.2.add ih.1.standard f⟩
  | run extra _ ih =>
    obtain ⟨visits, htrace, -⟩ := run_trace ih.1.standard extra
    exact ⟨htrace.presentable ih.1, htrace.sourced ih.1 ih.2⟩

/-! ### Builds that break off -/

def printingWith (q : Printer) (c : Compiler σ) : Compiler σ := { c with printer := q }

theorem process_printingWith (q : Printer) (hstep : step ≠ Stage.print) (c : Compiler σ) (h : Handle) :
    (c.printingWith q).process h step = ((c.process h step).1, (c.process h step).2.printingWith q) := by
  have hperform : ∀ (c : Compiler σ) (u : CompilationUnit), (c.printingWith q).perform h u step =
      { c.perform h u step with compiler := (c.perform h u step).compiler.printingWith q } := by
    intro c u
    rw [perform, perform]
    split
    · rw [parse, parse]
      split
      · rfl
      · dsimp only [printingWith]
        split <;> rfl
    · split
      · rw [reduce, reduce]
        split
        · rfl
        · dsimp only [printingWith]
          split <;> rfl
      · split
        · rw [reduce, reduce]
          split
          · rfl
          · dsimp only [printingWith]
            split <;> rfl
        · rfl
  have hdb : (c.printingWith q).database = c.database := rfl
  rw [process, process, hdb]
  cases c.database.get? h with
  | none => rfl
  | some u =>
    have hstart : (c.printingWith q).start h = (c.start h).printingWith q := rfl
    simp only [hstart, hperform, close]
    cases ((c.start h).perform h u step).next <;> rfl

theorem drain_printingWith (q : Printer) (hstep : step ≠ Stage.print) (limit : Nat) (c : Compiler σ) :
    (c.printingWith q).drain step limit = ((c.drain step limit).1, (c.drain step limit).2.printingWith q) := by
  induction limit generalizing c with
  | zero => rfl
  | succ limit ih =>
    have hdb : (c.printingWith q).database = c.database := rfl
    rw [drain, drain]
    simp only [hdb]
    cases c.database.popStep? step with
    | none => rfl
    | some x =>
      have hprocess := process_printingWith q hstep { c with database := x.2 } x.1
      simp only [printingWith] at hprocess ih ⊢
      simp only [hprocess, ih]

theorem addAll_printingWith (q : Printer) (c : Compiler σ) (files : List SourceFile) :
    ((c.printingWith q).addAll files).2 = (c.addAll files).2.printingWith q := by
  induction files generalizing c with
  | nil => rfl
  | cons f files ih => exact ih (c.add f).2

/-- Where a build gets to that breaks off before it comes to printing. -/
def breakOff? (extra : Nat) : Nat → Compiler σ → Option (Compiler σ)
  | 0, _ => none
  | limit + 1, c =>
    match c.database.nextStep? with
    | none => none
    | some step =>
      if step = Stage.print then none
      else
        match c.drain step (c.jobLimit extra) with
        | (some true, c) => some c.rest
        | (some false, c) => breakOff? extra limit c.rest
        | (none, _) => none

theorem steps_of_breakOff? {extra limit : Nat} (q : Printer) (h : c.breakOff? extra limit = some c') :
    (c.printingWith q).steps extra limit = (.failed, c'.printingWith q) := by
  induction limit generalizing c with
  | zero => cases h
  | succ limit ih =>
    rw [breakOff?] at h
    split at h
    · cases h
    rename_i step hnext
    split at h
    · cases h
    rename_i hstep
    have hnext' : (c.printingWith q).database.nextStep? = some step := hnext
    have hdrain := drain_printingWith q hstep ((c.printingWith q).jobLimit extra) c
    have hlimit : (c.printingWith q).jobLimit extra = c.jobLimit extra := rfl
    rw [hlimit] at hdrain
    split at h <;> rename_i heq <;> rw [heq] at hdrain
    · cases h
      simp only [steps, hnext', hlimit, hdrain]
      rfl
    · simp only [steps, hnext', hlimit, hdrain]
      exact ih h
    · cases h

/-- A compiler with the bundled commands and a printer that knows no prototypes. -/
def bundled (o : Options) (memory : σ) : Compiler σ where
  parser.tree := CommandTree.bundled.carryOut CommandTree.bundledPlan
  parser.options := { multiline := o.multiline, keepComments := o.keepComments }
  printer := ⟨⟨.bundled, []⟩, o.indent⟩
  transforms := o.transforms σ
  lints := o.lints σ
  memory

/-- With the bundled commands, a build that breaks off gets to where it gets with no prototypes. -/
theorem exists_bundled_run (o : Options) (hrules : o.unknownRule? = none) (memory : σ) (files : List SourceFile)
    (h : ((bundled o memory).addAll files).2.breakOff? 0
      (((bundled o memory).addAll files).2.stepLimit 0) = some reached) :
    ∃ spec fresh q, withTrees [] true = .ok spec ∧ ofSpec spec o memory = .ok fresh ∧
      fresh.parser = (bundled o memory).parser ∧ (fresh.addAll files).2.run 0 = (.failed, reached.printingWith q) := by
  obtain ⟨spec, fresh, hspec, hfresh, htree⟩ := exists_bundled o hrules memory
  have hplain : fresh = (bundled o memory).printingWith fresh.printer := by
    rw [ofSpec] at hfresh
    split at hfresh <;> cases hfresh
    rw [printingWith, bundled, htree]
  refine ⟨spec, fresh, fresh.printer, hspec, hfresh, by rw [hplain]; rfl, ?_⟩
  rw [hplain, addAll_printingWith]
  exact steps_of_breakOff? _ h

/-- Definitions of tags in the block of a definition: they are refused in the file, and again in the unit of the block. -/
def tagsInBlock : SourceFile where
  text := "function a:b:\n    function #c:d:\n        say hi\n    function #c:e:\n        say hi\n"
  filename := some "main.mcfunction"

/-- The later refusals name the unit of the block, which has no text. -/
theorem refused_in_block : let o : Options := { multiline := true }
    ∃ (spec : Spec) (fresh : Compiler Unit), withTrees [] true = .ok spec ∧ ofSpec spec o () = .ok fresh ∧
      ∃ x ∈ ((fresh.addAll [tagsInBlock]).2.run 0).2.diagnostics.entries, ∃ h u, x.start.isSome = true ∧ x.file = some h ∧
        ((fresh.addAll [tagsInBlock]).2.run 0).2.database.get? h = some u ∧ u.source = none := by
  intro o
  have hreached : (((bundled o ()).addAll [tagsInBlock]).2.breakOff? 0
      (((bundled o ()).addAll [tagsInBlock]).2.stepLimit 0)).any (fun c => c.diagnostics.entries.any fun x =>
        x.start.isSome && x.file.any fun h => (c.database.get? h).any fun u => u.source.isNone) = true := by
    decide +kernel
  obtain ⟨reached, hbreak, hentries⟩ := (any_eq_true _ _).1 hreached
  obtain ⟨x, hx, hfound⟩ := any_eq_true.1 hentries
  obtain ⟨hstart, hfile⟩ := (Bool.and_eq_true_iff).1 hfound
  obtain ⟨h, hh, hunit⟩ := (any_eq_true _ _).1 hfile
  obtain ⟨u, hu, hsource⟩ := (any_eq_true _ _).1 hunit
  obtain ⟨spec, fresh, q, hspec, hfresh, -, hrun⟩ := exists_bundled_run o (by decide) () [tagsInBlock] hbreak
  refine ⟨spec, fresh, hspec, hfresh, ?_⟩
  rw [hrun]
  exact ⟨x, hx, h, u, hstart, hh, hu, isNone_iff_eq_none.1 hsource⟩

/-- Locations point into texts of files. With the bundled commands and any standard rules, whatever files were added to
a fresh compiler and however often it was run, each diagnostic with a location names a unit. The location marks a place,
from its start to its stop, in the text of this unit if it has one. If it has none then functions are taken out of
others, and the place is in the text of a file with a definition of the function that the unit is. -/
theorem diagnostics_point_into_files {memory : σ} (hspec : withTrees [] true = .ok spec)
    (hfresh : ofSpec spec o memory = .ok fresh) (hc : Fed fresh c) :
    ∀ x ∈ c.diagnostics.entries, ∀ start ∈ x.start, ∃ h u text stop, x.file = some h ∧ c.database.get? h = some u ∧
      Concerns o c u text ∧ x.stop = some stop ∧ Span.Marks text ⟨start, stop⟩ := by
  exact (hc.sourced (presentable_of_bundled hspec hfresh) (sourced_of_ofSpec hfresh)).2.entries

/-- In the build of that file the diagnostics with locations name units, and one of them has no text. -/
theorem diagnostics_point_into_files_block :
    let o : Options := { multiline := true }
    ∃ (spec : Spec) (fresh c : Compiler Unit), withTrees [] true = .ok spec ∧ ofSpec spec o () = .ok fresh ∧
      c = ((fresh.addAll [tagsInBlock]).2.run 0).2 ∧ Fed fresh c ∧
      ∃ x ∈ c.diagnostics.entries, ∃ start h u text stop, x.start = some start ∧ x.file = some h ∧
        c.database.get? h = some u ∧ u.source = none ∧ Concerns o c u text ∧ x.stop = some stop ∧
        Span.Marks text ⟨start, stop⟩ := by
  intro o
  obtain ⟨spec, fresh, hspec, hfresh, x, hx, h, u, hstart, hfile, hu, hsource⟩ := refused_in_block
  have hfed : Fed fresh ((fresh.addAll [tagsInBlock]).2.run 0).2 := .run 0 (Fed.fresh.addAll [tagsInBlock])
  obtain ⟨start, hstart⟩ := isSome_iff_exists.1 hstart
  obtain ⟨h', u', text, stop, hfile', hu', hconcerns, hstop, hmarks⟩ :=
    diagnostics_point_into_files hspec hfresh hfed x hx start hstart
  obtain rfl := some.inj (hfile.symm.trans hfile')
  obtain rfl := some.inj (hu.symm.trans hu')
  exact ⟨spec, fresh, _, hspec, hfresh, rfl, hfed, x, hx, start, h, u, text, stop, hstart, hfile, hu, hsource, hconcerns,
    hstop, hmarks⟩

/-- A unit that a diagnostic with a location names need not have a text. -/
theorem refusal_names_unit_without_text : ¬∀ (spec : Spec) (o : Options) (fresh : Compiler Unit) (files : List SourceFile),
    withTrees [] true = .ok spec → ofSpec spec o () = .ok fresh →
      ∀ x ∈ ((fresh.addAll files).2.run 0).2.diagnostics.entries, ∀ start ∈ x.start,
        ∃ h u text, x.file = some h ∧ ((fresh.addAll files).2.run 0).2.database.get? h = some u ∧
          u.source = some text ∧ start.Marks text := by
  intro hclaim
  obtain ⟨spec, fresh, hspec, hfresh, x, hx, h, u, hstart, hfile, hu, hsource⟩ := refused_in_block
  obtain ⟨start, hstart⟩ := isSome_iff_exists.1 hstart
  obtain ⟨h', u', text, hfile', hu', htext, -⟩ := hclaim spec _ fresh [tagsInBlock] hspec hfresh x hx start hstart
  obtain rfl := some.inj (hfile.symm.trans hfile')
  obtain rfl := some.inj (hu.symm.trans hu')
  cases hsource.symm.trans htext

end Compiler

/-! ### Errors that are printed -/

open CommandTree

end Mcfunction
