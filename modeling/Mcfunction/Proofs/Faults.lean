import Mcfunction.Proofs.Independence

/-! What may go wrong in builds. With the bundled commands, every tree that a unit ever has can be printed, and no unit
is forgotten: a job for it waits, or it was printed, or something was wrong with it. Main statement: an error of a build
is a syntax error or the refusal of a definition, and a build that finishes has printed the tree of every unit. -/

namespace Mcfunction

open List Option Stage Spec
open NestedFunction (Definition)

theorem Diagnostics.isError_stamp (ds : Diagnostics) (x : Diagnostic) : (ds.stamp x).isError = x.isError := rfl

/-- A tree agrees with the prototypes, and is no command, so that it can be printed by itself. -/
def Spec.Presents (s : Spec) (n : Node) : Prop := s.Agrees n ∧ n.kind ≠ .command

namespace Compiler

variable {σ : Type} {spec : Spec} {o : Options} {c c' fresh : Compiler σ} {u : CompilationUnit} {v v' : Visit}
  {visits : List Visit} {h k : Handle} {step : Nat} {w : Work} {x : Diagnostic}

/-! ### Trees that can be printed -/

/-- A compiler with standard rules and a grammar that suits them. It reads trees that it can print, and all trees of
units are such. -/
structure Presentable (spec : Spec) (o : Options) (c : Compiler σ) : Prop where
  standard : c.Standard o
  suits : spec.Suits
  reads : ∀ text tree, c.parser.parse text = .ok tree → spec.Presents tree
  prints : ∀ tree, spec.Presents tree → ∃ text, c.printer.render tree = .ok text
  trees : ∀ h u, c.database.get? h = some u → ∀ tree ∈ u.tree, spec.Presents tree

theorem presentable_of_bundled {memory : σ} (hspec : withTrees [] true = .ok spec)
    (hfresh : ofSpec spec o memory = .ok fresh) : fresh.Presentable spec o where
  standard := standard_of_ofSpec hfresh
  suits := suits_bundled hspec
  reads := by
    intro text tree hparse
    rw [(tools_of_ofSpec hfresh).1] at hparse
    exact Parser.agrees_of_bundled hspec hparse
  prints := by
    intro tree htree
    rw [(tools_of_ofSpec hfresh).2]
    exact Printer.exists_render hspec htree.1 htree.2 o.indent
  trees := by
    intro h u hu
    rw [database_of_ofSpec hfresh] at hu
    cases hu

theorem Effect.presents (hc : c.Presentable spec o) (hw : c.Effect o u step w)
    (hu : ∀ tree ∈ u.tree, spec.Presents tree) :
    (∀ tree ∈ w.unit.tree, spec.Presents tree) ∧ ∀ d ∈ w.definitions, spec.Presents d.body := by
  cases hw with
  | @read text tree _ hparse =>
    refine ⟨fun tree' htree' => ?_, forall_mem_nil _⟩
    obtain rfl : tree = tree' := some.inj htree'
    exact hc.reads text tree hparse
  | @transformed tree tree' _ _ _ htree hextracts =>
    obtain ⟨hagrees, hkind⟩ := hu tree htree
    obtain ⟨hfits, hbodies⟩ := hextracts.reworked.fits hc.suits (forall_mem_singleton.2 hagrees)
    obtain ⟨hlike, hsame⟩ := (forall₂_cons.1 hfits).1
    refine ⟨fun tree'' htree'' => ?_, hbodies⟩
    obtain rfl : tree' = tree'' := some.inj htree''
    exact ⟨hlike.1, by rwa [hsame]⟩
  | _ => exact ⟨hu, forall_mem_nil _⟩

theorem Does.presentable (hc : c.Presentable spec o) (hv : Does c v c') : c'.Presentable spec o := by
  obtain ⟨hparser, hprinter⟩ := hv.tools hc.standard
  refine ⟨hv.standard hc.standard, hc.suits, ?_, ?_, ?_⟩
  · rw [hparser]
    exact hc.reads
  · rw [hprinter]
    exact hc.prints
  rcases hv.cases hc.standard.ruled with ⟨-, -, -, rfl⟩ | ⟨u, w, hu, hw, -, -, rfl⟩
  · exact hc.trees
  · obtain ⟨htree, hbodies⟩ := hw.presents hc (hc.trees _ u hu)
    intro k u' hu'
    rw [get?_finish hc.standard.ruled.takeNext.counted hu] at hu'
    split at hu'
    · obtain rfl := some.inj hu'
      exact htree
    split at hu'
    · exact hc.trees k u' hu'
    · obtain ⟨d, hd, rfl⟩ := map_eq_some_iff.1 hu'
      intro tree htree
      obtain rfl : d.body = tree := some.inj htree
      exact hbodies d (mem_of_getElem? hd)

theorem Presentable.rest (hc : c.Presentable spec o) : c.rest.Presentable spec o :=
  ⟨hc.standard.rest, hc.suits, hc.reads, hc.prints, hc.trees⟩

theorem Trace.presentable (hc : c.Presentable spec o) (htrace : Trace c visits c') : c'.Presentable spec o := by
  induction htrace with
  | done => exact hc
  | pause _ ih => exact ih hc.rest
  | visit hdoes _ ih => exact ih (hdoes.presentable hc)

theorem Presentable.add (hc : c.Presentable spec o) (f : SourceFile) : (c.add f).2.Presentable spec o := by
  refine ⟨hc.standard.add f, hc.suits, hc.reads, hc.prints, fun k u hu => ?_⟩
  rw [get?_add] at hu
  split at hu
  · obtain rfl := some.inj hu
    exact fun tree htree => by cases htree
  · exact hc.trees k u hu

/-! ### Errors -/

/-- What an error of a visit may be: a syntax error in the source of the unit that is parsed, or the refusal of a
definition in the unit that is transformed. -/
inductive Fault (o : Options) (c : Compiler σ) (v : Visit) (x : Diagnostic) : Prop where
  | syntactic {u : CompilationUnit} {text : String} {e : SyntaxError} (hstep : v.job.step = Stage.parse)
      (hu : c.database.get? v.job.handle = some u) (hsource : u.source = some text)
      (hparse : c.parser.parse text = .error e) (hx : x = u.diagnostics.stamp e.diagnostic) : Fault o c v x
  | refusal (hstep : v.job.step = transform) (henabled : o.enables .nestedFunction = true)
      (hx : NestedFunction.Refusal x) : Fault o c v x

theorem Does.fault (hc : c.Presentable spec o) (hv : Does c v c') : ∀ x ∈ v.gained,
  x.isError = true → Fault o c v x := by
  intro x hx herror
  rcases hv.cases hc.standard.ruled with ⟨-, hgained, -, -⟩ | ⟨u, w, hu, hw, hgained, -, -⟩
  · rw [hgained] at hx
    cases hx
  rw [hgained] at hx
  obtain ⟨y, hy, rfl⟩ := mem_map.1 hx
  rw [Diagnostics.isError_stamp] at herror
  generalize hstep : v.job.step = step at hw
  cases hw with
  | unread hsource hparse =>
    obtain rfl := mem_singleton.1 hy
    exact .syntactic hstep hu hsource hparse rfl
  | transformed _ hextracts =>
    obtain ⟨henabled, hrefusal⟩ := hextracts.refusals y hy
    exact .refusal hstep henabled (hrefusal.stamp _)
  | linted _ hremarks =>
    rw [(hremarks y hy).isError] at herror
    cases herror
  | @unprinted tree fault htree hprint =>
    obtain ⟨text, htext⟩ := hc.prints tree (hc.trees _ u hu tree htree)
    rw [htext] at hprint
    cases hprint
  | _ => cases hy

theorem Does.source_eq (hc : c.Standard o) (hv : Does c v c') (hu : c.database.get? h = some u) :
    ∃ u', c'.database.get? h = some u' ∧ u'.source = u.source ∧ u'.resourceName = u.resourceName ∧
      u'.diagnostics.stamp = u.diagnostics.stamp := by
  by_cases hh : v.job.handle = h
  · subst hh
    rcases hv.cases hc.ruled with ⟨-, -, -, rfl⟩ | ⟨u', w, hu', hw, -, -, rfl⟩
    · exact ⟨u, hu, rfl, rfl, rfl⟩
    · obtain rfl := some.inj (hu.symm.trans hu')
      refine ⟨_, get?_finish_self hc.ruled.takeNext.counted hu w, ?_⟩
      rw [Work.closed, Diagnostics.foldl_add, hw.unit_eq]
      exact ⟨rfl, rfl, rfl⟩
  · exact ⟨u, (hv.get?_other hc hh (index_lt_nextHandle hc hu)).trans hu, rfl, rfl, rfl⟩

theorem Fault.does (hc : c.Standard o) (hfault : Fault o c v x) (hv : Does c v' c') : Fault o c' v x := by
  cases hfault with
  | @syntactic u text e hstep hu hsource hparse hx =>
    obtain ⟨u', hu', hsource', -, hstamp⟩ := hv.source_eq hc hu
    exact .syntactic hstep hu' (hsource'.trans hsource) (by rwa [(hv.tools hc).1]) (by rw [hstamp, hx])
  | refusal hstep henabled hx => exact .refusal hstep henabled hx

theorem Fault.rest (hfault : Fault o c v x) : Fault o c.rest v x := by
  cases hfault with
  | syntactic hstep hu hsource hparse hx => exact .syntactic hstep hu hsource hparse hx
  | refusal hstep henabled hx => exact .refusal hstep henabled hx

theorem Fault.trace (hc : c.Standard o) (hfault : Fault o c v x) (htrace : Trace c visits c') : Fault o c' v x := by
  induction htrace with
  | done => exact hfault
  | pause _ ih => exact ih hc.rest hfault.rest
  | visit hdoes _ ih => exact ih (hdoes.standard hc) (hfault.does hc hdoes)

theorem Trace.fault (hc : c.Presentable spec o) (htrace : Trace c visits c') :
    ∀ v ∈ visits, ∀ x ∈ v.gained, x.isError = true → Fault o c' v x := by
  induction htrace with
  | done => exact forall_mem_nil _
  | pause _ ih => exact ih hc.rest
  | visit hdoes hrest ih =>
    refine forall_mem_cons.2 ⟨fun x hx herror => ?_, ih (hdoes.presentable hc)⟩
    exact ((hdoes.fault hc x hx herror).does hc.standard hdoes).trace (hdoes.standard hc.standard) hrest

/-! ### Units -/

def HasOutput (c : Compiler σ) (u : CompilationUnit) : Prop :=
  ∃ tree text, u.tree = some tree ∧ c.printer.render tree = .ok text ∧ u.output = some text

/-- What has become of a unit: a job for it waits, for a step for which it has what is needed; or its tree was printed; or
an error was reported about it. -/
inductive Accounted (c : Compiler σ) (h : Handle) (u : CompilationUnit) : Prop where
  | waits {j : Job} (hj : j ∈ c.database.jobs) (hhandle : j.handle = h) (hstep : j.step ≤ Stage.print)
      (hready : u.tree.isSome = true ∨ j.step = Stage.parse ∧ u.source.isSome = true) : Accounted c h u
  | printed (houtput : c.HasOutput u) : Accounted c h u
  | blamed (herrors : u.diagnostics.hasErrors = true) : Accounted c h u

theorem Accounted.congr (haccounted : Accounted c h u) (hprinter : c'.printer = c.printer)
    (hjobs : ∀ j ∈ c.database.jobs, j.handle = h → j ∈ c'.database.jobs) : Accounted c' h u := by
  cases haccounted with
  | waits hj hhandle hstep hready => exact .waits (hjobs _ hj hhandle) hhandle hstep hready
  | printed houtput => exact .printed (by rwa [HasOutput, hprinter])
  | blamed herrors => exact .blamed herrors

theorem hasErrors_closed (hx : x ∈ w.reports) (herror : x.isError = true) : w.closed.diagnostics.hasErrors = true := by
  rw [Diagnostics.hasErrors, entries_closed, List.any_eq_true]
  exact ⟨_, mem_append_right _ (mem_map_of_mem hx), herror⟩

/-- A unit that is visited is accounted for afterwards: it waits for the next step, or was printed, or an error was
reported. -/
theorem Effect.accounted (hw : c.Effect o u v.job.step w) (haccounted : Accounted c v.job.handle u)
    (hjob : c.database.jobs.head? = some v.job) (hprinter : c'.printer = c.printer)
    (htail : ∀ j ∈ c.database.jobs.tail, j ∈ c'.database.jobs)
    (hnext : ∀ later ∈ w.next, ⟨later, 0, v.job.handle⟩ ∈ c'.database.jobs) : Accounted c' v.job.handle w.closed := by
  generalize hstep : v.job.step = step at hw
  cases hw with
  | read _ _ => exact .waits (hnext _ rfl) rfl (show Stage.transform ≤ Stage.print by decide) (.inl rfl)
  | unread _ _ => exact .blamed (hasErrors_closed mem_cons_self (SyntaxError.isError_diagnostic _))
  | given _ htree =>
    exact .waits (hnext _ rfl) rfl (show Stage.transform ≤ Stage.print by decide) (.inl (isSome_of_mem htree))
  | transformed _ _ => exact .waits (hnext _ rfl) rfl (show Stage.lint ≤ Stage.print by decide) (.inl rfl)
  | linted htree _ =>
    exact .waits (hnext _ rfl) rfl (show Stage.print ≤ Stage.print by decide) (.inl (isSome_of_mem htree))
  | printed htree hprint => exact .printed ⟨_, _, htree, by rwa [hprinter], rfl⟩
  | unprinted _ _ => exact .blamed (hasErrors_closed mem_cons_self (PrintFault.isError_diagnostic _))
  | idle hidle hunread =>
    -- the job was not one for which the unit had what is needed, so if one waited it still does
    cases haccounted with
    | @waits j hj hhandle hlast hready =>
      obtain ⟨waiting, hwaiting⟩ := head?_eq_some_iff.1 hjob
      rw [hwaiting] at hj htail
      rcases mem_cons.1 hj with rfl | hj
      · rw [hstep] at hlast hready
        rw [hidle hlast] at hready
        rcases hready with hready | ⟨hparse, hready⟩
        · cases hready
        · rw [hunread hparse] at hready
          cases hready
      · exact .waits (htail j hj) hhandle hlast hready
    | printed houtput => exact .printed (by rwa [HasOutput, hprinter])
    | blamed herrors => exact .blamed herrors

def AllAccounted (c : Compiler σ) : Prop := ∀ h u, c.database.get? h = some u → Accounted c h u

theorem Does.accounted (hc : c.Standard o) (hv : Does c v c') (hall : c.AllAccounted) : c'.AllAccounted := by
  have hprinter := (hv.tools hc).2
  have htail : ∀ j ∈ c.database.jobs.tail, j ∈ c'.database.jobs := fun j hj =>
    hv.scheduled.mem_iff.2 (mem_append_left _ hj)
  have hother : ∀ h, h ≠ v.job.handle → ∀ j ∈ c.database.jobs, j.handle = h → j ∈ c'.database.jobs := by
    rintro h hh j hj rfl
    obtain ⟨waiting, hwaiting⟩ := head?_eq_some_iff.1 hv.next
    rw [hwaiting] at hj htail
    rcases mem_cons.1 hj with rfl | hj
    · exact absurd rfl hh
    · exact htail j hj
  intro h u' hu'
  rcases hv.cases hc.ruled with ⟨hnone, -, -, hresult⟩ | ⟨u, w, hu, hw, -, hsched, hresult⟩
  · rw [hresult] at hu'
    refine (hall h u' hu').congr hprinter (hother h ?_)
    rintro rfl
    cases hnone.symm.trans hu'
  have hadded : ∀ j ∈ w.scheduled c.database v.job.handle, j ∈ c'.database.jobs := fun j hj =>
    hv.scheduled.mem_iff.2 (mem_append_right _ (hsched.mem_iff.2 hj))
  rw [hresult, get?_finish hc.ruled.takeNext.counted hu] at hu'
  split at hu'
  · rename_i hh
    obtain rfl := some.inj hu'
    rw [hh]
    refine hw.accounted (hall _ u hu) hv.next hprinter htail fun later hlater => hadded _ ?_
    exact mem_append_right _ (mem_map_of_mem (mem_toList.2 hlater))
  rename_i hh
  split at hu'
  · exact (hall h u' hu').congr hprinter (hother h hh)
  · -- the unit of a definition waits to be transformed
    rename_i hnew
    obtain ⟨d, hd, rfl⟩ := map_eq_some_iff.1 hu'
    have hbound := (List.getElem?_eq_some_iff.1 hd).1
    refine .waits (hadded ⟨transform, 0, h⟩ (mem_append_left _ (mem_map_of_mem ?_))) rfl
      (show Stage.transform ≤ Stage.print by decide) (.inl rfl)
    refine mem_map.2 ⟨h.index, mem_range'_1.2 ⟨Nat.le_of_not_lt hnew, ?_⟩, rfl⟩
    change h.index - c.database.nextHandle < _ at hbound
    omega

theorem AllAccounted.rest (hall : c.AllAccounted) : c.rest.AllAccounted := fun h u hu =>
  (hall h u hu).congr rfl fun _ hj _ => hj

theorem Trace.accounted (hc : c.Standard o) (htrace : Trace c visits c') (hall : c.AllAccounted) : c'.AllAccounted := by
  induction htrace with
  | done => exact hall
  | pause _ ih => exact ih hc.rest hall.rest
  | visit hdoes _ ih => exact ih (hdoes.standard hc) (hdoes.accounted hc hall)

theorem AllAccounted.add (hall : c.AllAccounted) (f : SourceFile) : (c.add f).2.AllAccounted := by
  have hperm := jobs_add_perm c f
  intro k u hu
  rw [get?_add] at hu
  split at hu
  · rename_i hk
    obtain rfl := some.inj hu
    exact .waits (hperm.mem_iff.2 mem_cons_self) hk.symm (show Stage.parse ≤ Stage.print by decide) (.inr ⟨rfl, rfl⟩)
  · exact (hall k u hu).congr rfl fun j hj _ => hperm.mem_iff.2 (mem_cons_of_mem _ hj)

/-! ### Builds -/

/-- A fresh compiler after files were added to it and builds were run, in any order. -/
inductive Fed (fresh : Compiler σ) : Compiler σ → Prop where
  | fresh : Fed fresh fresh
  | add {c : Compiler σ} (f : SourceFile) (hc : Fed fresh c) : Fed fresh (c.add f).2
  | run {c : Compiler σ} (extra : Nat) (hc : Fed fresh c) : Fed fresh (c.run extra).2

theorem Fed.addAll (hc : Fed fresh c) (files : List SourceFile) : Fed fresh (c.addAll files).2 := by
  induction files generalizing c with
  | nil => exact hc
  | cons f files ih => exact ih (hc.add f)

theorem Fed.kept (hpresentable : fresh.Presentable spec o) (hall : fresh.AllAccounted) (hc : Fed fresh c) :
    c.Presentable spec o ∧ c.AllAccounted := by
  induction hc with
  | fresh => exact ⟨hpresentable, hall⟩
  | add f _ ih => exact ⟨ih.1.add f, ih.2.add f⟩
  | run extra _ ih =>
    obtain ⟨visits, htrace, -⟩ := run_trace ih.1.standard extra
    exact ⟨htrace.presentable ih.1, htrace.accounted ih.1.standard ih.2⟩

theorem entriesOf_addAll (hc : ∀ h, c.entriesOf h = []) (files : List SourceFile) (h : Handle) :
    (c.addAll files).2.entriesOf h = [] := by
  induction files generalizing c with
  | nil => exact hc h
  | cons f files ih =>
    refine ih fun k => ?_
    rw [entriesOf, get?_add]
    split
    · rfl
    · exact hc k

theorem Accounted.hasOutput (hc : c.Standard o) (htrace : Trace c visits c') (haccounted : Accounted c' h u)
    (hu : c'.database.get? h = some u) (hjobs : c'.database.jobs = []) (hnone : ∀ v ∈ visits, v.failed = false)
    (hbefore : ∀ x ∈ c.entriesOf h, x.isError = false) : c'.HasOutput u := by
  cases haccounted with
  | waits hj =>
    rw [hjobs] at hj
    cases hj
  | printed houtput => exact houtput
  | blamed herrors =>
    obtain ⟨x, hx, herror⟩ := any_eq_true.1 herrors
    rw [← entriesOf_of_get? hu, htrace.entries hc] at hx
    rcases mem_append.1 hx with hx | hx
    · rw [hbefore x hx] at herror
      cases herror
    · obtain ⟨v, hv, hx⟩ := mem_flatMap.1 hx
      have hfailed : v.failed = true := any_eq_true.2 ⟨x, hx, herror⟩
      rw [hnone v (mem_of_mem_filter hv)] at hfailed
      cases hfailed

/-- The outputs after a build that finishes, and its errors in any case. -/
theorem Presentable.run (hc : c.Presentable spec o) (hall : c.AllAccounted) (extra : Nat) :
    ∃ visits, Trace c visits (c.run extra).2 ∧
      (∀ v ∈ visits, ∀ x ∈ v.gained, x.isError = true → Fault o (c.run extra).2 v x) ∧
      ((c.run extra).1 = .finished → ∀ h u, (c.run extra).2.database.get? h = some u →
        (∀ x ∈ c.entriesOf h, x.isError = false) → (c.run extra).2.HasOutput u) := by
  obtain ⟨visits, htrace, -, hends⟩ := run_trace hc.standard extra
  refine ⟨visits, htrace, htrace.fault hc, fun hfinished h u hu hbefore => ?_⟩
  rw [hfinished] at hends
  cases hends with
  | finished hjobs hnone =>
    exact (htrace.accounted hc.standard hall h u hu).hasOutput hc.standard htrace hu hjobs hnone hbefore

/-- What may go wrong with the bundled commands, whatever rules are enabled. In any build, whatever files were added and
whatever was built before, no error is reported when a unit is printed; each error is a syntax error in the source of
its unit, or the refusal of a definition; and if the build finishes, each unit about which there was no error before has
the text of its tree as its output. So has every unit if files were added to a fresh compiler and the build of them
finishes. -/
theorem faults_of_bundled {memory : σ} (hspec : withTrees [] true = .ok spec)
    (hfresh : ofSpec spec o memory = .ok fresh) :
    (∀ c extra, Fed fresh c → ∃ visits, Trace c visits (c.run extra).2 ∧
      (c.run extra).2.diagnostics.entries = c.diagnostics.entries ++ visits.flatMap Visit.gained ∧
      (∀ v ∈ visits, v.job.step = Stage.print → v.failed = false) ∧
      (∀ v ∈ visits, ∀ x ∈ v.gained, x.isError = true → Fault o (c.run extra).2 v x) ∧
      ((c.run extra).1 = .finished → ∀ h u, (c.run extra).2.database.get? h = some u →
        (∀ x ∈ c.entriesOf h, x.isError = false) → (c.run extra).2.HasOutput u)) ∧
    ∀ files extra, ((fresh.addAll files).2.run extra).1 = .finished →
      ∀ h u, ((fresh.addAll files).2.run extra).2.database.get? h = some u →
        ((fresh.addAll files).2.run extra).2.HasOutput u := by
  have hempty : ∀ h, fresh.database.get? h = none := fun h => by rw [database_of_ofSpec hfresh]; rfl
  have hkept : ∀ c, Fed fresh c → c.Presentable spec o ∧ c.AllAccounted := fun c hc =>
    hc.kept (presentable_of_bundled hspec hfresh) fun h u hu => by rw [hempty] at hu; cases hu
  constructor
  · intro c extra hc
    obtain ⟨hpresentable, hall⟩ := hkept c hc
    obtain ⟨visits, htrace, hfault, houtput⟩ := hpresentable.run hall extra
    refine ⟨visits, htrace, htrace.diagnostics hpresentable.standard, fun v hv hstep => ?_, hfault, houtput⟩
    refine any_eq_false.2 fun x hx herror => ?_
    cases hfault v hv x hx herror with
    | syntactic hparse => cases hstep.symm.trans hparse
    | refusal htransform => cases hstep.symm.trans htransform
  · intro files extra hfinished h u hu
    obtain ⟨hpresentable, hall⟩ := hkept _ (Fed.fresh.addAll files)
    obtain ⟨visits, -, -, houtput⟩ := hpresentable.run hall extra
    have hnothing : ∀ k, fresh.entriesOf k = [] := fun k => by rw [entriesOf, hempty]; rfl
    refine houtput hfinished h u hu ?_
    rw [entriesOf_addAll hnothing]
    exact forall_mem_nil _

/-- A file with a definition in a command that is only run, and one with a syntax error that is added after the build. -/
theorem faults_of_bundled_nested :
    let o : Options := { multiline := true, rules := some ["execute_run", "nested_function"] }
    let file : SourceFile := ⟨"execute run function a:d:\n say hi\n", none, some "a:y"⟩
    let other : SourceFile := ⟨"function\n", none, some "a:z"⟩
    ∃ (spec : Spec) (fresh : Compiler Unit), withTrees [] true = .ok spec ∧ ofSpec spec o () = .ok fresh ∧
      ((fresh.addAll [file]).2.run 0).1 = .finished ∧
      (∀ h u, ((fresh.addAll [file]).2.run 0).2.database.get? h = some u →
        ((fresh.addAll [file]).2.run 0).2.HasOutput u) ∧
      ∃ visits, Trace (((fresh.addAll [file]).2.run 0).2.add other).2 visits
          ((((fresh.addAll [file]).2.run 0).2.add other).2.run 0).2 ∧
        ∀ v ∈ visits, v.job.step = Stage.print → v.failed = false := by
  intro o file other
  obtain ⟨spec, fresh, hspec, hfresh, htree⟩ := exists_bundled o (by decide) ()
  let parser : Parser :=
    { tree := CommandTree.bundled.carryOut CommandTree.bundledPlan, options := { multiline := true } }
  have hparser : fresh.parser = parser := by rw [(tools_of_ofSpec hfresh).1, htree]
  have hsound : (Setting.mk parser ⟨⟨.bundled, []⟩, 4⟩ o).Sound [file] := by decide +kernel
  have hrun := (run_finished_iff_sound hspec hfresh [file] 0).2 (hsound.congr hparser rfl)
  obtain ⟨hbuilds, houtputs⟩ := faults_of_bundled hspec hfresh
  obtain ⟨visits, htrace, -, hprinted, -⟩ := hbuilds _ 0 (.add other (.run 0 (Fed.fresh.addAll [file])))
  exact ⟨spec, fresh, hspec, hfresh, hrun, houtputs [file] 0 hrun, visits, htrace, hprinted⟩

end Compiler

end Mcfunction
