import Mcfunction.Proofs.Origins

/-! How often definitions are refused. A definition that is refused stays in its tree, or in a block that is taken out of
the tree, and then it is met again in the unit of the block. Main statement: a build of a file refuses a definition at
most once in each unit. -/

namespace Mcfunction

open List Diagnostic Option Stage Spec
open NestedFunction (Definition Mark Refuses defined? marks)

def Diagnostic.content (x : Diagnostic) : String × Option Location × Option Location := (x.message, x.start, x.stop)

/-- What the refusal of a definition says, and about which place. -/
def NestedFunction.Mark.refusal (m : Mark) : String × Option Location × Option Location :=
  (m.problem.message, some m.span.start, some m.span.stop)

theorem NestedFunction.content_of_refuses {ls : List Definition} {reports : List Diagnostic} (ds : Diagnostics)
    (h : Forall₂ Refuses ls reports) (hls : ∀ d ∈ ls, d.mark.span.start.isKnown = true) :
    ((reports.map ds.stamp).filter isError).map content =
      (ls.map Definition.mark).map Mark.refusal := by
  induction h with
  | nil => rfl
  | @cons d x ls reports hx _ ih =>
    rw [forall_mem_cons] at hls
    obtain ⟨hstart, hstop⟩ := hx.place hls.1
    have herror : (ds.stamp x).isError = true := hx.isError
    have hcontent : (ds.stamp x).content = d.mark.refusal := by
      change (x.message, x.start, x.stop) = _
      rw [hx.message, hstart, hstop]
      rfl
    rw [map_cons, filter_cons_of_pos herror, map_cons, hcontent, ih hls.2, map_cons, map_cons]

namespace Compiler

variable {σ : Type} {spec : Spec} {o : Options} {c c' fresh : Compiler σ} {u : CompilationUnit} {v : Visit}
  {visits : List Visit} {h : Handle} {step : Nat} {w : Work} {text : String} {root : Node} {memory : σ}

def errors (c : Compiler σ) : List Diagnostic := c.diagnostics.entries.filter isError

/-- The errors among reports of a step are refusals of definitions in a tree, each of another one, and are reported when
the tree is transformed. -/
def OnlyRefuses (root : Node) (step : Nat) (reports : List Diagnostic) : Prop :=
  ∃ ms : List Mark, ms.Subperm (marks root) ∧ (ms ≠ [] → step = transform) ∧
    (reports.filter isError).map content = ms.map Mark.refusal

theorem onlyRefuses_of_no_errors {reports : List Diagnostic} (h : reports.filter isError = []) :
    OnlyRefuses root step reports :=
  ⟨[], nil_subperm, fun hne => absurd rfl hne, by rw [h]; rfl⟩

theorem Effect.refusals (hc : c.Presentable spec o) (hw : c.Effect o u step w) (hu : c.database.get? h = some u)
    (hparse : c.parser.parse text = .ok root) (htext : ∀ source ∈ u.source, source = text)
    (htrees : ∀ tree ∈ u.tree, Stems o c.parser text tree) : OnlyRefuses root step w.gained := by
  cases hw with
  | unread hsource herror =>
    rw [htext _ hsource] at herror
    cases hparse.symm.trans herror
  | @transformed tree tree' ds ls reports htree hextracts =>
    obtain ⟨hlies, root', hparse', hmarks⟩ := htrees tree htree
    obtain rfl := Except.ok.inj (hparse.symm.trans hparse')
    refine ⟨ls.map Definition.mark, ?_, fun _ => rfl, NestedFunction.content_of_refuses _ hextracts.refuses fun d hd => ?_⟩
    · by_cases hnested : o.enables .nestedFunction = true
      · exact (hextracts.reworked.marks_subperm hnested).2.2.trans (hmarks hnested)
      · rw [eq_nil_iff_forall_not_mem.2 fun d hd => hnested (hextracts.reworked.enabled.2 d hd)]
        exact nil_subperm
    · exact ((hextracts.reworked.lies (forall_mem_singleton.2 hlies)).2.2 d hd).isKnown
  | linted _ hremarks =>
    refine onlyRefuses_of_no_errors (filter_eq_nil_iff.2 (forall_mem_map.2 fun x hx => ?_))
    have hwarning : ((u.diagnostics.stamp x).isError) = false := (hremarks x hx).isError
    rw [hwarning]
    exact Bool.false_ne_true
  | unprinted htree hprint =>
    obtain ⟨output, houtput⟩ := hc.prints _ (hc.trees h u hu _ htree)
    cases houtput.symm.trans hprint
  | read | given | printed | idle => exact onlyRefuses_of_no_errors rfl

/-- The refusals that the unit `h` reports. -/
def refusalsOf (c : Compiler σ) (h : Handle) : List (String × Option Location × Option Location) :=
  (c.errors.filter fun x => x.file = some h).map content

/-- The errors of a build of a text are refusals of definitions in its tree, each unit refuses a definition at most once,
and a unit that waits to be transformed has not refused any. -/
structure RefusesOnce (text : String) (root : Node) (c : Compiler σ) : Prop where
  reads : c.parser.parse text = .ok root
  texts : ∀ h u, c.database.get? h = some u → ∀ source ∈ u.source, source = text
  jobs : c.OneJobEach
  waiting : ∀ j ∈ c.database.jobs, j.step ≤ transform → ∀ x ∈ c.errors, x.file ≠ some j.handle
  found : ∀ x ∈ c.errors, x.content ∈ (marks root).map Mark.refusal
  once : ∀ h, (c.refusalsOf h).Subperm ((marks root).map Mark.refusal)

theorem OneJobEach.does (hc : c.Standard o) (hone : c.OneJobEach) (hv : Does c v c') : c'.OneJobEach := by
  obtain ⟨waiting, hjobs⟩ := head?_eq_some_iff.1 hv.next
  rcases hv.cases hc.ruled with ⟨-, -, -, rfl⟩ | ⟨u, w, -, -, -, -, rfl⟩
  · exact ⟨hone.single.sublist ((tail_sublist _).map _), fun j hj => hone.known j (mem_of_mem_tail hj)⟩
  · exact hone.finish hc.ruled.counted hjobs w

theorem Does.refusals (hc : c.Presentable spec o) (hsourced : c.Sourced o) (honce : c.RefusesOnce text root)
    (hv : Does c v c') : OnlyRefuses root v.job.step v.gained := by
  rcases hv.cases hc.standard.ruled with ⟨-, hgained, -⟩ | ⟨u, w, hu, hw, hgained, -⟩ <;> rw [hgained]
  · exact onlyRefuses_of_no_errors rfl
  · obtain ⟨text', hconcerns, htrees⟩ := hsourced.units _ u hu
    obtain rfl : text' = text := by
      cases hconcerns with
      | own hsource => exact honce.texts _ u hu _ hsource
      | definition _ _ hfile hsource => exact honce.texts _ _ hfile _ hsource
    exact hw.refusals hc hu honce.reads (honce.texts _ u hu) htrees

/-- Errors are of units that came in before. -/
theorem RefusesOnce.index_lt (hc : c.Presentable spec o) (hsourced : c.Sourced o) (honce : c.RefusesOnce text root)
    {x : Diagnostic} (hx : x ∈ c.errors) (hfile : x.file = some h) : h.index < c.database.nextHandle := by
  obtain ⟨m, -, hm⟩ := List.mem_map.1 (honce.found x hx)
  obtain ⟨h', u, -, -, hfile', hu, -⟩ :=
    hsourced.entries x (mem_of_mem_filter hx) m.span.start (congrArg (·.2.1) hm.symm)
  obtain rfl := some.inj (hfile.symm.trans hfile')
  exact index_lt_nextHandle hc.standard hu

theorem Does.refusesOnce (hc : c.Presentable spec o) (hsourced : c.Sourced o) (honce : c.RefusesOnce text root)
    (hv : Does c v c') : c'.RefusesOnce text root := by
  have herrors : c'.errors = c.errors ++ v.gained.filter isError := by
    rw [errors, hv.diagnostics hc.standard, filter_append]
    rfl
  have hstamped : ∀ x ∈ v.gained.filter isError, x.file = some v.job.handle :=
    fun x hx => hv.stamped hc.standard x (mem_of_mem_filter hx)
  obtain ⟨ms, hms, hstep, hcontents⟩ := hv.refusals hc hsourced honce
  have hrefusals : (ms.map Mark.refusal).Subperm ((marks root).map Mark.refusal) := by
    obtain ⟨ms', hperm, hsublist⟩ := hms
    exact ⟨ms'.map Mark.refusal, hperm.map _, hsublist.map _⟩
  have hmark : ∀ x ∈ v.gained.filter isError, x.content ∈ ms.map Mark.refusal :=
    fun x hx => hcontents ▸ mem_map_of_mem hx
  have hlate : ∀ x ∈ v.gained.filter isError, v.job.step = transform := by
    intro x hx
    obtain ⟨m, hm, -⟩ := List.mem_map.1 (hmark x hx)
    exact hstep (ne_nil_of_mem hm)
  have hjob := mem_of_head? hv.next
  refine ⟨(hv.tools hc.standard).1 ▸ honce.reads, fun k u hu source hsource => ?_, honce.jobs.does hc.standard hv, ?_, ?_,
    fun h => ?_⟩
  · obtain ⟨u', hu', hsource'⟩ := hv.origin hc.standard hu hsource
    exact honce.texts k u' hu' source hsource'
  · intro j hj hearly
    rw [herrors, forall_mem_append]
    obtain ⟨waiting, hjobs⟩ := head?_eq_some_iff.1 hv.next
    rcases mem_append.1 (hv.scheduled.mem_iff.1 hj) with hj | hj
    · refine ⟨honce.waiting j (mem_of_mem_tail hj) hearly, fun x hx hfile => ?_⟩
      rw [hjobs] at hj
      exact honce.jobs.ne_of_mem hjobs j hj (some.inj (hfile.symm.trans (hstamped x hx)))
    · rcases (hv.scheduled_cases hc.standard.ruled j hj).2 with ⟨hhandle, hlater⟩ | ⟨hnew, -⟩
      · rw [hhandle]
        refine ⟨honce.waiting v.job hjob (le_of_lt (lt_of_lt_of_le hlater hearly)), fun x hx => ?_⟩
        have := hlate x hx
        omega
      · refine ⟨fun x hx hfile => Nat.not_lt_of_le hnew (honce.index_lt hc hsourced hx hfile), fun x hx hfile => ?_⟩
        rw [some.inj (hfile.symm.trans (hstamped x hx))] at hnew
        exact Nat.not_lt_of_le hnew (honce.jobs.known _ hjob)
  · rw [herrors]
    exact forall_mem_append.2 ⟨honce.found, fun x hx => hrefusals.subset (hmark x hx)⟩
  · rw [refusalsOf, herrors, filter_append]
    by_cases hnew : ∃ x ∈ v.gained.filter isError, x.file = some h
    · -- there are no errors yet of a unit that is transformed
      obtain ⟨x, hx, hfile⟩ := hnew
      obtain rfl := some.inj ((hstamped x hx).symm.trans hfile)
      have hnone := honce.waiting v.job hjob (le_of_eq (hlate x hx))
      rw [filter_eq_nil_iff.2 fun y hy => by simpa using hnone y hy, nil_append,
        filter_eq_self.2 fun y hy => decide_eq_true (hstamped y hy), hcontents]
      exact hrefusals
    · rw [filter_eq_nil_iff.2 fun y hy hfile => hnew ⟨y, hy, of_decide_eq_true hfile⟩, append_nil]
      exact honce.once h

theorem Trace.refusesOnce (hc : c.Presentable spec o) (hsourced : c.Sourced o) (honce : c.RefusesOnce text root)
    (htrace : Trace c visits c') : c'.RefusesOnce text root := by
  induction htrace with
  | done => exact honce
  | pause _ ih => exact ih hc.rest hsourced.rest { honce with jobs := ⟨honce.jobs.single, honce.jobs.known⟩ }
  | visit hdoes _ ih => exact ih (hdoes.presentable hc) (hdoes.sourced hc hsourced) (hdoes.refusesOnce hc hsourced honce)

theorem refusesOnce_add {f : SourceFile} (hfresh : ofSpec spec o memory = .ok fresh)
    (hparse : fresh.parser.parse f.text = .ok root) : (fresh.add f).2.RefusesOnce f.text root := by
  rw [ofSpec] at hfresh
  split at hfresh <;> cases hfresh
  refine ⟨hparse, fun h u hu source hsource => ?_, .add f ⟨nodup_nil, forall_mem_nil _⟩, fun _ _ _ => forall_mem_nil _,
    forall_mem_nil _, fun _ => nil_subperm⟩
  rw [get?_add] at hu
  split at hu <;> cases hu
  exact (some.inj hsource).symm

/-- Each offending definition is refused at most once in each unit. Take a file that the bundled grammar reads, and a build
of it with any standard rules. Errors are refusals of definitions in the tree of the file, and of the errors of one unit
no two are for the same definition. So there are no more errors than definitions if all errors are of one unit. -/
theorem definitions_refused_once_in_each_unit {memory : σ} {f : SourceFile} {tree : Node} (extra : Nat)
    (hspec : withTrees [] true = .ok spec) (hfresh : ofSpec spec o memory = .ok fresh)
    (hparse : fresh.parser.parse f.text = .ok tree) :
    let result := ((fresh.add f).2.run extra).2
    let refusals := (tree.walk.filterMap defined?).map fun d => d.mark.refusal
    (∀ x ∈ result.errors, x.content ∈ refusals) ∧ ∀ h, (result.refusalsOf h).Subperm refusals ∧
      ((∀ x ∈ result.errors, x.file = some h) → result.errors.length ≤ refusals.length) := by
  intro result refusals
  have hpresentable := presentable_of_bundled hspec hfresh
  obtain ⟨visits, htrace, -⟩ := run_trace (hpresentable.add f).standard extra
  have honce := htrace.refusesOnce (hpresentable.add f) ((sourced_of_ofSpec hfresh).add hpresentable.standard f)
    (refusesOnce_add hfresh hparse)
  have hperm : ((marks tree).map Mark.refusal).Perm refusals := by
    rw [marks, List.map_map]
    exact (tree.walk_perm.filterMap defined?).symm.map _
  refine ⟨fun x hx => hperm.subset (honce.found x hx), fun h => ⟨(honce.once h).trans hperm.subperm, fun hfile => ?_⟩⟩
  have hlength := ((honce.once h).trans hperm.subperm).length_le
  rwa [refusalsOf, filter_eq_self.2 fun x hx => decide_eq_true (hfile x hx), length_map] at hlength

/-- Of the three definitions in that file two are refused, each in two units. -/
theorem refused_twice : let o : Options := { multiline := true }
    ∃ (spec : Spec) (fresh : Compiler Unit) (tree : Node), withTrees [] true = .ok spec ∧
      ofSpec spec o () = .ok fresh ∧ fresh.parser.parse tagsInBlock.text = .ok tree ∧
      (tree.walk.filterMap defined?).length < ((fresh.add tagsInBlock).2.run 0).2.errors.length ∧
      ¬(((fresh.add tagsInBlock).2.run 0).2.errors.map content).Nodup := by
  intro o
  have hreached : (((bundled o ()).addAll [tagsInBlock]).2.breakOff? 0
      (((bundled o ()).addAll [tagsInBlock]).2.stepLimit 0)).any (fun c =>
        ((bundled o ()).parser.parse tagsInBlock.text).toOption.any fun tree =>
          decide ((tree.walk.filterMap defined?).length < c.errors.length ∧
            ¬(c.errors.map content).Nodup)) = true := by
    decide +kernel
  obtain ⟨reached, hbreak, hreads⟩ := (any_eq_true _ _).1 hreached
  obtain ⟨tree, hparse, hfound⟩ := exists_ok_of_any hreads
  obtain ⟨spec, fresh, q, hspec, hfresh, hparser, hrun⟩ := exists_bundled_run o (by decide) () [tagsInBlock] hbreak
  have hresult : ((fresh.add tagsInBlock).2.run 0).2.errors = reached.errors := congrArg (fun x => x.2.errors) hrun
  refine ⟨spec, fresh, tree, hspec, hfresh, by rw [hparser]; exact hparse, ?_⟩
  rw [hresult]
  exact of_decide_eq_true hfound

/-- In the build of that file there are more errors than definitions, but not in one unit. -/
theorem definitions_refused_once_in_each_unit_block : let o : Options := { multiline := true }
    ∃ (spec : Spec) (fresh : Compiler Unit) (tree : Node), withTrees [] true = .ok spec ∧
      ofSpec spec o () = .ok fresh ∧ fresh.parser.parse tagsInBlock.text = .ok tree ∧
      let result := ((fresh.add tagsInBlock).2.run 0).2
      let refusals := (tree.walk.filterMap defined?).map fun d => d.mark.refusal
      refusals.length < result.errors.length ∧ ∀ h, (result.refusalsOf h).Subperm refusals := by
  intro o
  obtain ⟨spec, fresh, tree, hspec, hfresh, hparse, hmore, -⟩ := refused_twice
  refine ⟨spec, fresh, tree, hspec, hfresh, hparse, ?_, fun h => ?_⟩
  · rwa [length_map]
  · exact ((definitions_refused_once_in_each_unit 0 hspec hfresh hparse).2 h).1

/-- There may be more errors than definitions, and errors that say the same about the same place. -/
theorem definition_refused_twice : ¬∀ (spec : Spec) (fresh : Compiler Unit) (f : SourceFile) (tree : Node),
    withTrees [] true = .ok spec → ofSpec spec { multiline := true } () = .ok fresh →
      fresh.parser.parse f.text = .ok tree →
        ((fresh.add f).2.run 0).2.errors.length ≤ (tree.walk.filterMap defined?).length ∨
          (((fresh.add f).2.run 0).2.errors.map content).Nodup := by
  intro hclaim
  obtain ⟨spec, fresh, tree, hspec, hfresh, hparse, hmore, hdouble⟩ := refused_twice
  rcases hclaim spec fresh tagsInBlock tree hspec hfresh hparse with hle | hnodup
  · exact absurd hle (Nat.not_le_of_lt hmore)
  · exact hdouble hnodup

end Compiler

end Mcfunction
