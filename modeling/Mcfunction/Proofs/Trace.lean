import Mcfunction.Proofs.Jobs

/-! Jobs that are done one after the other. A visit is one job, with what its unit gained and the jobs that it added; a
trace is a sequence of visits. Main statements: the jobs that waited and those that were added are those that were done
and those that still wait; what units gained is, in order, what the build gained; and a unit that cannot be parsed is
left alone. -/

namespace Mcfunction

open List Stage
open NestedFunction (Definition)

structure Visit where
  job : Job
  /-- What was reported, as it stands in the diagnostics of the unit. -/
  gained : List Diagnostic
  scheduled : List Job

def Visit.failed (v : Visit) : Bool := v.gained.any Diagnostic.isError

variable {u : CompilationUnit}

namespace Compiler

variable {σ : Type} {c c' c'' : Compiler σ} {o : Options} {v : Visit} {visits others : List Visit} {h k : Handle}

/-- The diagnostics of a unit; there are none of a unit that is not there. -/
def entriesOf (c : Compiler σ) (h : Handle) : List Diagnostic :=
  ((c.database.get? h).map fun u => u.diagnostics.entries).getD []

def takeNext (c : Compiler σ) : Compiler σ := { c with database := { c.database with jobs := c.database.jobs.tail } }

def rest (c : Compiler σ) : Compiler σ := { c with database := { c.database with current := none } }

/-- The job that is next is done. -/
structure Does (c : Compiler σ) (v : Visit) (c' : Compiler σ) : Prop where
  next : c.database.jobs.head? = some v.job
  result : c' = (c.takeNext.process v.job.handle v.job.step).2
  gained : c'.entriesOf v.job.handle = c.entriesOf v.job.handle ++ v.gained
  scheduled : c'.database.jobs.Perm (c.database.jobs.tail ++ v.scheduled)

/-- Jobs are done one after the other. -/
inductive Trace : Compiler σ → List Visit → Compiler σ → Prop where
  | done (c : Compiler σ) : Trace c [] c
  | pause {c c' : Compiler σ} {visits : List Visit} (hrest : Trace c.rest visits c') : Trace c visits c'
  | visit {c c' c'' : Compiler σ} {v : Visit} {visits : List Visit} (hdoes : Does c v c') (hrest : Trace c' visits c'') :
      Trace c (v :: visits) c''

theorem Trace.append (h : Trace c visits c') (h' : Trace c' others c'') : Trace c (visits ++ others) c'' := by
  induction h with
  | done c => exact h'
  | pause _ ih => exact .pause (ih h')
  | visit hdoes _ ih => exact .visit hdoes (ih h')

/-! ### One visit -/

theorem Ruled.takeNext (hc : c.Ruled o) : c.takeNext.Ruled o where
  transforms := hc.transforms
  lints := hc.lints
  counted := hc.counted.of_eq rfl rfl
  ordered := List.Pairwise.tail hc.ordered

theorem Ruled.rest (hc : c.Ruled o) : c.rest.Ruled o where
  transforms := hc.transforms
  lints := hc.lints
  counted := hc.counted.of_eq rfl rfl
  ordered := hc.ordered

theorem Standard.takeNext (hc : c.Standard o) : c.takeNext.Standard o where
  transforms := hc.transforms
  lints := hc.lints
  numbered := hc.numbered.of_eq rfl rfl
  ordered := hc.ruled.takeNext.ordered
  plain := hc.plain

theorem Standard.rest (hc : c.Standard o) : c.rest.Standard o where
  transforms := hc.transforms
  lints := hc.lints
  numbered := hc.numbered.of_eq rfl rfl
  ordered := hc.ordered
  plain := hc.plain

theorem entriesOf_of_get? (hu : c.database.get? h = some u) : c.entriesOf h = u.diagnostics.entries := by
  rw [entriesOf, hu]
  rfl

theorem entries_closed (w : Work) : w.closed.diagnostics.entries = w.unit.diagnostics.entries ++ w.gained := by
  rw [Work.closed, Diagnostics.foldl_add]
  rfl

theorem effect_takeNext {step : Nat} {w : Work} : c.takeNext.Effect o u step w ↔ c.Effect o u step w := by
  have hparser : c.takeNext.parser = c.parser := rfl
  have hprinter : c.takeNext.printer = c.printer := rfl
  have hindex : c.takeNext.database.index = c.database.index := rfl
  exact ⟨Effect.congr hparser.symm hprinter.symm hindex.symm, Effect.congr hparser hprinter hindex⟩

/-- What a visit was: nothing at all if there was no unit, or else an effect of the job on the unit. -/
theorem Does.cases (hc : c.Ruled o) (hv : Does c v c') :
    c.database.get? v.job.handle = none ∧ v.gained = [] ∧ v.scheduled = [] ∧ c' = c.takeNext ∨
      ∃ u w, c.database.get? v.job.handle = some u ∧ c.Effect o u v.job.step w ∧ v.gained = w.gained ∧
        v.scheduled.Perm (w.scheduled c.database v.job.handle) ∧ c' = c.takeNext.finish v.job.handle w := by
  have hresult := hv.result
  have hgained := hv.gained
  have hsched := hv.scheduled
  cases hu : c.database.get? v.job.handle with
  | none =>
    rw [process_of_absent (c := c.takeNext) hu] at hresult
    subst hresult
    refine .inl ⟨rfl, ?_, ?_, rfl⟩
    · exact self_eq_append_right.1 hgained
    · have hnil : (c.database.jobs.tail ++ []).Perm (c.database.jobs.tail ++ v.scheduled) := by
        rw [append_nil]
        exact hsched
      exact ((perm_append_left_iff _).1 hnil).nil_eq.symm
  | some u =>
    have hu' : c.takeNext.database.get? v.job.handle = some u := hu
    obtain ⟨w, hw, hprocess⟩ := process_eq hc.takeNext hu' v.job.step
    rw [hprocess] at hresult
    subst hresult
    refine .inr ⟨u, w, rfl, ?_, ?_, ?_, rfl⟩
    · exact effect_takeNext.1 hw
    · rw [entriesOf_of_get? (get?_finish_self hc.takeNext.counted hu' w), entriesOf_of_get? hu, entries_closed,
        hw.unit_eq] at hgained
      exact (append_cancel_left hgained).symm
    · exact (perm_append_left_iff _).1 (hsched.symm.trans (jobs_finish_perm hc.takeNext.counted w))

theorem Does.ruled (hc : c.Ruled o) (hv : Does c v c') : c'.Ruled o := by
  rcases hv.cases hc with ⟨-, -, -, rfl⟩ | ⟨u, w, -, -, -, -, rfl⟩
  · exact hc.takeNext
  · exact hc.takeNext.finish v.job.handle w

section

variable (hc : c.Standard o) (hv : Does c v c')

include hc hv

theorem Does.standard : c'.Standard o := by
  rcases hv.cases hc.ruled with ⟨-, -, -, rfl⟩ | ⟨u, w, hu, hw, -, -, rfl⟩
  · exact hc.takeNext
  · exact hc.takeNext.finish hu (effect_takeNext.2 hw)

theorem Does.tools : c'.parser = c.parser ∧ c'.printer = c.printer := by
  rcases hv.cases hc.ruled with ⟨-, -, -, rfl⟩ | ⟨u, w, -, -, -, -, rfl⟩ <;> exact ⟨rfl, rfl⟩

theorem Does.entries (h : Handle) :
    c'.entriesOf h = c.entriesOf h ++ if v.job.handle = h then v.gained else [] := by
  by_cases hh : v.job.handle = h
  · rw [if_pos hh, ← hh]
    exact hv.gained
  · rw [if_neg hh, append_nil]
    rcases hv.cases hc.ruled with ⟨-, -, -, rfl⟩ | ⟨u, w, hu, -, -, -, rfl⟩
    · rfl
    · have hget := get?_finish hc.ruled.takeNext.counted hu w h
      rw [if_neg (Ne.symm hh)] at hget
      rw [entriesOf, hget]
      split
      · rfl
      · -- a unit with a new handle has just been taken in, and nothing was reported about it yet
        rename_i hnew
        rw [entriesOf, hc.numbered.fresh.get?_eq_none (Nat.le_of_not_lt hnew)]
        cases w.definitions[h.index - c.takeNext.database.nextHandle]? <;> rfl

theorem Does.diagnostics : c'.diagnostics.entries = c.diagnostics.entries ++ v.gained := by
  rcases hv.cases hc.ruled with ⟨-, hgained, -, rfl⟩ | ⟨u, w, -, -, hgained, -, rfl⟩
  · rw [hgained, append_nil]
    rfl
  · change (w.gained.foldl Diagnostics.add c.diagnostics).entries = _
    rw [hc.plain.foldl_add, hgained]

theorem Does.stamped : ∀ x ∈ v.gained, x.file = some v.job.handle := by
  rcases hv.cases hc.ruled with ⟨-, hgained, -, rfl⟩ | ⟨u, w, hu, hw, hgained, -, rfl⟩
  · rw [hgained]
    exact forall_mem_nil _
  · rw [hgained, Work.gained, hw.unit_eq, forall_mem_map]
    intro x hx
    rw [Diagnostics.file_stamp (hw.file_eq_none x hx)]
    exact hc.numbered.stamps _ u hu

end

/-- A job is added for a later step and the same unit, or for a new unit that waits to be transformed while another one
is. -/
theorem Does.scheduled_cases (hc : c.Ruled o) (hv : Does c v c') : ∀ j ∈ v.scheduled, j.step ≤ Stage.print ∧
    (j.handle = v.job.handle ∧ v.job.step < j.step ∨
      c.database.nextHandle ≤ j.handle.index ∧ v.job.step = transform ∧ j.step = transform) := by
  rcases hv.cases hc with ⟨-, -, hsched, -⟩ | ⟨u, w, hu, hw, -, hsched, -⟩
  · rw [hsched]
    exact forall_mem_nil _
  · intro j hj
    rcases mem_append.1 (hsched.mem_iff.1 hj) with hj | hj
    · obtain ⟨k, hk, rfl⟩ := mem_map.1 hj
      obtain ⟨index, hindex, rfl⟩ := mem_map.1 hk
      refine ⟨show Stage.transform ≤ Stage.print by decide, .inr ⟨(mem_range'_1.1 hindex).1, ?_, rfl⟩⟩
      by_contra hstep
      rw [hw.definitions_eq_nil hstep] at hindex
      cases hindex
    · obtain ⟨step, hstep, rfl⟩ := mem_map.1 hj
      obtain ⟨hlater, hlast⟩ := hw.next_gt step (Option.mem_toList.1 hstep)
      exact ⟨hlast, .inl ⟨rfl, hlater⟩⟩

/-! ### Accounts of a trace -/

theorem Trace.ruled (hc : c.Ruled o) (h : Trace c visits c') : c'.Ruled o := by
  induction h with
  | done => exact hc
  | pause _ ih => exact ih hc.rest
  | visit hdoes _ ih => exact ih (hdoes.ruled hc)

theorem Trace.standard (hc : c.Standard o) (h : Trace c visits c') : c'.Standard o := by
  induction h with
  | done => exact hc
  | pause _ ih => exact ih hc.rest
  | visit hdoes _ ih => exact ih (hdoes.standard hc)

theorem Trace.tools (hc : c.Standard o) (h : Trace c visits c') : c'.parser = c.parser ∧ c'.printer = c.printer := by
  induction h with
  | done => exact ⟨rfl, rfl⟩
  | pause _ ih => exact ih hc.rest
  | visit hdoes _ ih =>
    obtain ⟨hparser, hprinter⟩ := ih (hdoes.standard hc)
    exact ⟨hparser.trans (hdoes.tools hc).1, hprinter.trans (hdoes.tools hc).2⟩

/-- All jobs that waited or were added have been done or still wait. -/
theorem Trace.jobs_perm (h : Trace c visits c') :
    (c.database.jobs ++ visits.flatMap Visit.scheduled).Perm (visits.map Visit.job ++ c'.database.jobs) := by
  induction h with
  | done => exact .of_eq (append_nil _)
  | pause _ ih => exact ih
  | @visit c c' c'' v visits hdoes _ ih =>
    obtain ⟨waiting, hwaiting⟩ := head?_eq_some_iff.1 hdoes.next
    have hsched := hdoes.scheduled
    rw [hwaiting] at hsched ⊢
    rw [flatMap_cons, ← append_assoc]
    exact ((hsched.symm.append_right _).trans ih).cons v.job

theorem Trace.diagnostics (hc : c.Standard o) (h : Trace c visits c') :
    c'.diagnostics.entries = c.diagnostics.entries ++ visits.flatMap Visit.gained := by
  induction h with
  | done => exact (append_nil _).symm
  | pause _ ih => exact ih hc.rest
  | visit hdoes _ ih => rw [ih (hdoes.standard hc), hdoes.diagnostics hc, flatMap_cons, append_assoc]

theorem Trace.entries (hc : c.Standard o) (h : Trace c visits c') (k : Handle) :
    c'.entriesOf k = c.entriesOf k ++ (visits.filter fun v => v.job.handle = k).flatMap Visit.gained := by
  induction h with
  | done => exact (append_nil _).symm
  | pause _ ih => exact ih hc.rest
  | @visit c c' c'' v visits hdoes _ ih =>
    rw [ih (hdoes.standard hc), hdoes.entries hc, append_assoc]
    refine congrArg _ ?_
    by_cases hk : v.job.handle = k
    · rw [if_pos hk, filter_cons_of_pos (by simpa using hk), flatMap_cons]
    · rw [if_neg hk, filter_cons_of_neg (by simpa using hk), nil_append]

theorem Trace.stamped (hc : c.Standard o) (h : Trace c visits c') :
    ∀ v ∈ visits, ∀ x ∈ v.gained, x.file = some v.job.handle := by
  induction h with
  | done => exact forall_mem_nil _
  | pause _ ih => exact ih hc.rest
  | visit hdoes _ ih => exact forall_mem_cons.2 ⟨hdoes.stamped hc, ih (hdoes.standard hc)⟩

theorem Trace.step_scheduled_le (hc : c.Ruled o) (h : Trace c visits c') :
    ∀ v ∈ visits, ∀ j ∈ v.scheduled, j.step ≤ Stage.print := by
  induction h with
  | done => exact forall_mem_nil _
  | pause _ ih => exact ih hc.rest
  | visit hdoes _ ih =>
    exact forall_mem_cons.2 ⟨fun j hj => (hdoes.scheduled_cases hc j hj).1, ih (hdoes.ruled hc)⟩

/-! ### Units that cannot be parsed -/

def Unreadable (p : Parser) (u : CompilationUnit) : Prop := ∃ text e, u.source = some text ∧ p.parse text = .error e

theorem index_lt_nextHandle (hc : c.Standard o) (hu : c.database.get? h = some u) : h.index < c.database.nextHandle :=
  hc.numbered.fresh.lt_of_get? hu

section

variable (hc : c.Standard o) (hv : Does c v c')

include hc hv

theorem Does.get?_other (hne : v.job.handle ≠ h) (hold : h.index < c.database.nextHandle) :
    c'.database.get? h = c.database.get? h := by
  rcases hv.cases hc.ruled with ⟨-, -, -, rfl⟩ | ⟨u, w, hu, -, -, -, rfl⟩
  · rfl
  · rw [get?_finish hc.ruled.takeNext.counted hu, if_neg (symm hne)]
    exact if_pos hold

theorem Does.ne_of_mem_scheduled (hne : v.job.handle ≠ h) (hold : h.index < c.database.nextHandle) :
    ∀ j ∈ v.scheduled, j.handle ≠ h := by
  rintro j hj rfl
  rcases (hv.scheduled_cases hc.ruled j hj).2 with ⟨hhandle, -⟩ | ⟨hnew, -⟩
  · exact hne hhandle.symm
  · omega

theorem Does.unreadable (hu : c.database.get? h = some u) (hunreadable : Unreadable c.parser u)
    (hstep : v.job.handle = h → v.job.step = Stage.parse ∨ u.tree = none) : (∀ j ∈ v.scheduled, j.handle ≠ h) ∧
      ∃ u', c'.database.get? h = some u' ∧ u'.source = u.source ∧ u'.tree = u.tree := by
  have hold := index_lt_nextHandle hc hu
  by_cases hh : v.job.handle = h
  · rcases hv.cases hc.ruled with ⟨hnone, -, -, -⟩ | ⟨u', w, hu', hw, -, hsched, rfl⟩
    · rw [hh, hu] at hnone
      cases hnone
    · rw [hh, hu] at hu'
      cases hu'
      obtain ⟨text, e, hsource, hparse⟩ := hunreadable
      have hstep := hstep hh
      have hnothing : w.definitions = [] ∧ w.next = none ∧ w.unit = u := by
        generalize v.job.step = step at hw hstep
        cases hw with
        | read hsource' hparse' =>
          rw [hsource] at hsource'
          cases hsource'
          rw [hparse] at hparse'
          cases hparse'
        | given hsource' _ =>
          rw [hsource] at hsource'
          cases hsource'
        | transformed htree _ | linted htree _ | printed htree _ | unprinted htree _ =>
          rcases hstep with hstep | hstep
          · cases hstep
          · rw [hstep] at htree
            cases htree
        | unread _ _ | idle _ _ => exact ⟨rfl, rfl, rfl⟩
      obtain ⟨hdefs, hnext, hunit⟩ := hnothing
      rw [Work.scheduled, hdefs, hnext] at hsched
      rw [hsched.eq_nil]
      refine ⟨forall_mem_nil _, w.closed, ?_, ?_, ?_⟩
      · rw [← hh]
        exact get?_finish_self hc.ruled.takeNext.counted (hh.symm ▸ hu) w
      · rw [← hunit]
        rfl
      · rw [← hunit]
        rfl
  · refine ⟨hv.ne_of_mem_scheduled hc hh hold, u, ?_, rfl, rfl⟩
    rw [hv.get?_other hc hh hold, hu]

end

/-- A unit that cannot be parsed is not scheduled, and keeps its source and its tree, as long as the steps behind parsing
find no tree or are not reached. -/
theorem Trace.unreadable (hc : c.Standard o) (htrace : Trace c visits c') (hu : c.database.get? h = some u)
    (hunreadable : Unreadable c.parser u)
    (hsteps : ∀ v ∈ visits, v.job.handle = h → v.job.step = Stage.parse ∨ u.tree = none) :
    (∀ v ∈ visits, ∀ j ∈ v.scheduled, j.handle ≠ h) ∧
      ∃ u', c'.database.get? h = some u' ∧ u'.source = u.source ∧ u'.tree = u.tree := by
  induction htrace generalizing u with
  | done => exact ⟨forall_mem_nil _, u, hu, rfl, rfl⟩
  | pause _ ih => exact ih hc.rest hu hunreadable hsteps
  | @visit c c' c'' v visits hdoes _ ih =>
    rw [forall_mem_cons] at hsteps
    obtain ⟨hsched, u', hu', hsource, htree⟩ := hdoes.unreadable hc hu hunreadable hsteps.1
    have hunreadable' : Unreadable c'.parser u' := by
      rw [(hdoes.tools hc).1, Unreadable, hsource]
      exact hunreadable
    obtain ⟨hothers, u'', hu'', hsource', htree'⟩ :=
      ih (hdoes.standard hc) hu' hunreadable' (by rw [htree]; exact hsteps.2)
    exact ⟨forall_mem_cons.2 ⟨hsched, hothers⟩, u'', hu'', hsource'.trans hsource, htree'.trans htree⟩

theorem Does.origin {text : String} (hc : c.Standard o) (hv : Does c v c') (hu : c'.database.get? h = some u)
    (hsource : u.source = some text) : ∃ u', c.database.get? h = some u' ∧ u'.source = some text := by
  rcases hv.cases hc.ruled with ⟨-, -, -, rfl⟩ | ⟨u', w, hu', hw, -, -, rfl⟩
  · exact ⟨u, hu, hsource⟩
  · rw [get?_finish hc.ruled.takeNext.counted hu'] at hu
    split at hu
    · rename_i hh
      cases hu
      rw [hh]
      exact ⟨u', hu', (congrArg CompilationUnit.source hw.unit_eq).symm.trans hsource⟩
    · split at hu
      · exact ⟨u, hu, hsource⟩
      · obtain ⟨d, -, rfl⟩ := Option.map_eq_some_iff.1 hu
        cases hsource

theorem Does.unreadable_of_failed (hc : c.Standard o) (hv : Does c v c') (hstep : v.job.step = Stage.parse)
    (hfailed : v.failed = true) : ∃ u, c.database.get? v.job.handle = some u ∧ Unreadable c.parser u := by
  rw [Visit.failed] at hfailed
  rcases hv.cases hc.ruled with ⟨-, hgained, -, -⟩ | ⟨u, w, hu, hw, hgained, -, -⟩
  · rw [hgained] at hfailed
    cases hfailed
  · rw [hgained] at hfailed
    rw [hstep] at hw
    cases hw with
    | unread hsource hparse => exact ⟨u, hu, _, _, hsource, hparse⟩
    | read _ _ | given _ _ | idle _ _ => cases hfailed

/-- A unit in which parsing failed is one that was there from the beginning, with a source that cannot be parsed. -/
theorem Trace.unreadable_of_failed (hc : c.Standard o) (htrace : Trace c visits c')
    (hsteps : ∀ v ∈ visits, v.job.step = Stage.parse) :
    ∀ v ∈ visits, v.failed = true → ∃ u, c.database.get? v.job.handle = some u ∧ Unreadable c.parser u := by
  induction htrace with
  | done => exact forall_mem_nil _
  | pause _ ih => exact ih hc.rest hsteps
  | @visit c c' c'' v visits hdoes _ ih =>
    rw [forall_mem_cons] at hsteps
    refine forall_mem_cons.2 ⟨hdoes.unreadable_of_failed hc hsteps.1, fun later hlater hfailed => ?_⟩
    obtain ⟨u, hu, text, e, hsource, hparse⟩ := ih (hdoes.standard hc) hsteps.2 later hlater hfailed
    obtain ⟨u', hu', hsource'⟩ := hdoes.origin hc hu hsource
    exact ⟨u', hu', text, e, hsource', (hdoes.tools hc).1 ▸ hparse⟩

end Compiler

end Mcfunction
