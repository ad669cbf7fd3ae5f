import Mcfunction.Proofs.Trace

/-! Builds of compilers with standard rules. A step ends: each job takes one away from those that wait, and each
definition that a job takes out of a tree makes the tree smaller. So a build is a trace of visits. Main statement: steps
are done in order, a build ends with the first step in which a job reports an error, and what is reported stands once
with its unit and once with the build. -/

namespace Mcfunction

open List Option Database CompilationUnit Stage Job Node
open NestedFunction (Definition)

/-! ### How much there is to do -/

/-- How many definitions may be found in the trees of some units: a tree with one of them has another node. -/
def CompilationUnit.slacks (units : List CompilationUnit) : Nat := units.foldr (fun u n => u.size - 1 + n) 0

open CompilationUnit (slacks)

@[simp] theorem CompilationUnit.slacks_nil : slacks [] = 0 := rfl

@[simp] theorem CompilationUnit.slacks_cons (u : CompilationUnit) (units : List CompilationUnit) :
    slacks (u :: units) = u.size - 1 + slacks units := rfl

theorem CompilationUnit.slacks_append (units units' : List CompilationUnit) :
    slacks (units ++ units') = slacks units + slacks units' := by
  induction units with
  | nil => rw [nil_append, slacks_nil, Nat.zero_add]
  | cons u units ih => rw [cons_append, slacks_cons, slacks_cons, ih, Nat.add_assoc]

variable {h : Handle} {u : CompilationUnit} {db : Database} {limit step : Nat} {j : Job}

namespace Database

def slack (db : Database) : Nat := slacks (db.units.map Prod.snd)

theorem slack_le_size (db : Database) : db.slack ≤ db.size := by
  rw [slack, size]
  induction db.units with
  | nil => exact Nat.le_refl _
  | cons x units ih =>
    exact Nat.add_le_add (Nat.sub_le _ _) ih

theorem slack_modify (hdist : db.handles.Nodup) (hu : db.get? h = some u) (u' : CompilationUnit) :
    (db.modify h fun _ => u').slack + (u.size - 1) = db.slack + (u'.size - 1) := by
  rw [slack, slack, modify]
  rw [get?] at hu
  rw [handles] at hdist
  generalize db.units = units at hu hdist
  induction units with
  | nil => cases hu
  | cons x units ih =>
    obtain ⟨k, v⟩ := x
    obtain ⟨hnot, hdist⟩ := nodup_cons.1 hdist
    rw [lookup_cons] at hu
    simp only [map_cons, slacks_cons]
    by_cases hk : h = k
    · subst hk
      rw [beq_self_eq_true] at hu
      cases hu
      have hrest : units.map (fun x => if x.1 = h then (x.1, u') else (x.1, x.2)) = units := by
        refine (map_congr_left fun x hx => ?_).trans (map_id _)
        exact if_neg fun heq => hnot (mem_map.2 ⟨x, hx, heq⟩)
      rw [if_pos rfl, hrest]
      simp only
      omega
    · rw [beq_false_of_ne hk] at hu
      have := ih hu hdist
      rw [if_neg (Ne.symm hk)]
      simp only at this ⊢
      omega

theorem Fresh.slack_takeInAll (hfresh : db.Fresh) (units : List CompilationUnit) :
    (db.takeInAll units).slack = db.slack + slacks units := by
  induction units generalizing db with
  | nil => rfl
  | cons u units ih =>
    rw [takeInAll_cons, ih (hfresh.takeIn u), hfresh.takeIn_eq, slack, map_append,
      slacks_append, Nat.add_assoc]
    rfl

end Database

namespace Compiler

variable {σ : Type} {c c' : Compiler σ} {o : Options} {v : Visit} {visits : List Visit}

def work (c : Compiler σ) (step : Nat) : Nat :=
  c.database.jobs.countP (·.step = step) + if step = transform then c.database.slack else 0

theorem work_lt_jobLimit (c : Compiler σ) (step extra : Nat) : c.work step < c.jobLimit extra := by
  have hjobs : c.database.jobs.countP (·.step = step) ≤ c.database.pending := countP_le_length
  have hslack := c.database.slack_le_size
  rw [work, jobLimit]
  split <;> omega

variable {jobs waiting all : List Job} {outcome : Outcome}

theorem slack_finish (hc : c.database.Counted) (hu : c.database.get? h = some u)
    (w : Work) : (c.finish h w).database.slack + (u.size - 1) =
      c.database.slack + slacks (w.definitions.map Definition.unit) + (w.closed.size - 1) := by
  have hstart := hc.processing h
  have hget := hstart.fresh.get?_takeInAll_of_get? (w.definitions.map Definition.unit) hu
  have hmodify := slack_modify (hstart.takeInAll _).distinct hget w.closed
  rw [hstart.fresh.slack_takeInAll] at hmodify
  obtain ⟨jobs, heq⟩ := schedule_eq
    (((c.database.processing h).takeInAll (w.definitions.map Definition.unit)).modify h fun _ => w.closed) h w.next
  rw [finish, heq]
  exact hmodify

theorem length_add_slack (ds : List Definition) :
    ds.length + slacks (ds.map Definition.unit) = sizes (ds.map Definition.body) := by
  induction ds with
  | nil => rfl
  | cons d ds ih =>
    have hbody : d.unit.size = d.body.size := rfl
    have := d.body.size_pos
    rw [length_cons, map_cons, slacks_cons, map_cons, sizes_cons]
    omega

/-- The tree that a job leaves and the units that it takes in have less slack than the tree had, one less for each of
the units. -/
theorem Effect.slack_le {w : Work} (hw : c.Effect o u step w) (hstep : step = transform) :
    w.definitions.length + slacks (w.definitions.map Definition.unit) + (w.closed.size - 1) ≤ u.size - 1 := by
  cases hw with
  | @transformed tree tree' definitions _ _ htree hextracts =>
    have hsizes := hextracts.sizes
    have hpos := tree'.size_pos
    have hsize : u.size = tree.size := by rw [CompilationUnit.size, htree]; rfl
    rw [hsize, length_add_slack]
    change sizes (definitions.map Definition.body) + (tree'.size - 1) ≤ tree.size - 1
    omega
  | idle _ _ => exact Nat.le_of_eq (Nat.zero_add _)
  | _ => cases hstep

theorem Does.work_lt (hc : c.Ruled o) (hv : Does c v c') : c'.work v.job.step < c.work v.job.step := by
  obtain ⟨waiting, hwaiting⟩ := head?_eq_some_iff.1 hv.next
  have hjobs : c'.database.jobs.countP (·.step = v.job.step) =
      waiting.countP (·.step = v.job.step) + v.scheduled.countP (·.step = v.job.step) := by
    rw [hv.scheduled.countP_eq, countP_append, hwaiting]
    rfl
  rw [work, work, hjobs, hwaiting, countP_cons_of_pos (by simp)]
  by_cases hstep : v.job.step = transform
  · -- each new job belongs to a unit that was taken in
    rw [if_pos hstep, if_pos hstep]
    rcases hv.cases hc with ⟨-, -, hsched, rfl⟩ | ⟨u, w, hu, hw, -, hsched, rfl⟩
    · rw [hsched]
      change _ + 0 + c.database.slack < _
      omega
    · have hcount : v.scheduled.countP (·.step = v.job.step) ≤ w.definitions.length := by
        have hnext : (w.next.toList.map fun step => Job.mk step 0 v.job.handle).countP (·.step = v.job.step) = 0 := by
          rw [countP_eq_zero, List.forall_mem_map]
          intro later hlater
          have := (hw.next_gt later (mem_toList.1 hlater)).1
          simpa using Nat.ne_of_gt this
        rw [hsched.countP_eq, Work.scheduled, countP_append, hnext, Nat.add_zero]
        refine Nat.le_trans countP_le_length (Nat.le_of_eq ?_)
        rw [length_map, nextHandles, length_map, length_range']
      have hslack := slack_finish hc.takeNext.counted hu w
      have hless := hw.slack_le hstep
      change _ = c.database.slack + _ + _ at hslack
      omega
  · rw [if_neg hstep, if_neg hstep]
    have hnone : v.scheduled.countP (·.step = v.job.step) = 0 := by
      rw [countP_eq_zero]
      intro j hj
      rcases (hv.scheduled_cases hc j hj).2 with ⟨-, hlater⟩ | ⟨-, htransform, -⟩
      · simpa using Nat.ne_of_gt hlater
      · exact absurd htransform hstep
    omega

/-! ### Steps -/

theorem exists_does (hc : c.Ruled o) (hjobs : c.database.jobs = j :: waiting) :
    ∃ v, v.job = j ∧ Does c v (c.takeNext.process j.handle j.step).2 ∧
      v.failed = (c.takeNext.process j.handle j.step).1 := by
  have hhead : c.database.jobs.head? = some j := by rw [hjobs]; rfl
  cases hu : c.database.get? j.handle with
  | none =>
    have hprocess := process_of_absent (c := c.takeNext) hu j.step
    refine ⟨⟨j, [], []⟩, rfl, ⟨hhead, rfl, ?_, ?_⟩, ?_⟩
    · rw [hprocess, append_nil]
      rfl
    · rw [hprocess, append_nil]
      rfl
    · rw [hprocess]
      rfl
  | some u =>
    obtain ⟨w, hw, hprocess⟩ := process_eq hc.takeNext hu j.step
    have hclosed := get?_finish_self hc.takeNext.counted hu w
    refine ⟨⟨j, w.gained, w.scheduled c.database j.handle⟩, rfl, ⟨hhead, rfl, ?_, ?_⟩, ?_⟩
    · rw [hprocess, entriesOf_of_get? hclosed, entriesOf_of_get? hu, entries_closed, hw.unit_eq]
    · rw [hprocess]
      exact jobs_finish_perm hc.takeNext.counted w
    · rw [hprocess, Visit.failed, Work.gained, List.any_map]
      rfl

theorem takeNext_eq (hjobs : c.database.jobs = j :: waiting) :
    { c with database := { c.database with jobs := waiting } } = c.takeNext := by
  rw [takeNext, hjobs]
  rfl

theorem Does.le_step (hc : c.Ruled o) (hv : Does c v c') (hmin : ∀ j ∈ c.database.jobs, step ≤ j.step) :
    step ≤ v.job.step ∧ ∀ j ∈ c'.database.jobs, step ≤ j.step := by
  have hstep := hmin v.job (mem_of_head? hv.next)
  refine ⟨hstep, fun j hj => ?_⟩
  rcases mem_append.1 (hv.scheduled.mem_iff.1 hj) with hj | hj
  · exact hmin j (mem_of_mem_tail hj)
  · rcases (hv.scheduled_cases hc j hj).2 with ⟨-, hlater⟩ | ⟨-, htransform, hj⟩
    · exact Nat.le_trans hstep (Nat.le_of_lt hlater)
    · exact Nat.le_trans hstep (Nat.le_of_eq (htransform.trans hj.symm))

theorem Trace.le_step (hc : c.Ruled o) (htrace : Trace c visits c') (hmin : ∀ j ∈ c.database.jobs, step ≤ j.step) :
    ∀ v ∈ visits, step ≤ v.job.step := by
  induction htrace with
  | done => exact forall_mem_nil _
  | pause _ ih => exact ih hc.rest hmin
  | visit hdoes _ ih =>
    obtain ⟨hstep, hmin'⟩ := hdoes.le_step hc hmin
    exact forall_mem_cons.2 ⟨hstep, ih (hdoes.ruled hc) hmin'⟩

/-- A step is done: all its jobs are visited, and none of it waits any more. -/
theorem drain_trace (hc : c.Ruled o) (hmin : ∀ j ∈ c.database.jobs, step ≤ j.step)
    (hlimit : c.work step < limit) : ∃ visits, Trace c visits (c.drain step limit).2 ∧
      (c.drain step limit).1 = some (visits.any Visit.failed) ∧ (∀ v ∈ visits, v.job.step = step) ∧
      ∀ j ∈ (c.drain step limit).2.database.jobs, step < j.step := by
  induction limit generalizing c with
  | zero => exact absurd hlimit (Nat.not_lt_zero _)
  | succ limit ih =>
    cases hpop : c.database.popStep? step with
    | none =>
      have hdrain : c.drain step (limit + 1) = (some false, c) := by rw [drain, hpop]
      rw [hdrain]
      exact ⟨[], .done c, rfl, forall_mem_nil _, lt_of_popStep?_eq_none hc.ordered hmin hpop⟩
    | some found =>
      obtain ⟨j, waiting, hjobs, rfl, rfl⟩ := popStep?_eq_some hpop
      obtain ⟨v, rfl, hdoes, hfailed⟩ := exists_does hc hjobs
      have hless := hdoes.work_lt hc
      obtain ⟨visits, htrace, hresult, hsteps, hlater⟩ := ih (hdoes.ruled hc) (hdoes.le_step hc hmin).2 (by omega)
      have hdrain : c.drain v.job.step (limit + 1) =
          ((((c.takeNext.process v.job.handle v.job.step).2.drain v.job.step limit).1).map (v.failed || ·),
            ((c.takeNext.process v.job.handle v.job.step).2.drain v.job.step limit).2) := by
        rw [drain, hpop, hfailed]
        simp only [takeNext_eq hjobs]
      rw [hdrain]
      exact ⟨v :: visits, .visit hdoes htrace, by rw [hresult]; rfl, forall_mem_cons.2 ⟨rfl, hsteps⟩, hlater⟩

/-! ### Builds -/

/-- How many steps a build may still have: one for each job behind the last step, and one for each step from the next
to the last. -/
def stepsLeft (c : Compiler σ) : Nat :=
  c.database.jobs.countP (Stage.print < ·.step) + (Stage.print + 1 - c.database.nextStep?.getD (Stage.print + 1))

theorem stepsLeft_lt_stepLimit (c : Compiler σ) (extra : Nat) : c.stepsLeft < c.stepLimit extra := by
  have hjobs : c.database.jobs.countP (Stage.print < ·.step) ≤ c.database.pending := countP_le_length
  rw [stepsLeft, stepLimit, Stage.print] at *
  omega

theorem lt_nextStep? (hmin : ∀ j ∈ c.database.jobs, step < j.step) : ∀ next ∈ c.database.nextStep?, step < next := by
  intro next hnext
  obtain ⟨j, hj, rfl⟩ := map_eq_some_iff.1 hnext
  exact hmin j (mem_of_head? hj)

theorem Trace.stepsLeft_lt (hc : c.Ruled o) (htrace : Trace c visits c') (hnext : c.database.nextStep? = some step)
    (hsteps : ∀ v ∈ visits, v.job.step = step) (hlater : ∀ j ∈ c'.database.jobs, step < j.step) :
    c'.stepsLeft < c.stepsLeft := by
  have hperm := htrace.jobs_perm
  have hsched : (visits.flatMap Visit.scheduled).countP (Stage.print < ·.step) = 0 := by
    rw [countP_eq_zero]
    intro j hj
    obtain ⟨v, hv, hj⟩ := mem_flatMap.1 hj
    have := htrace.step_scheduled_le hc v hv j hj
    simpa using this
  have hcount := hperm.countP_eq (Stage.print < ·.step)
  rw [countP_append, countP_append] at hcount
  have hgap : Stage.print + 1 - c'.database.nextStep?.getD (Stage.print + 1) ≤ Stage.print - step := by
    cases hn : c'.database.nextStep? with
    | none =>
      rw [getD_none]
      omega
    | some next =>
      have := lt_nextStep? hlater next hn
      rw [getD_some]
      omega
  rw [stepsLeft, stepsLeft, hnext, getD_some]
  by_cases hlast : step ≤ Stage.print
  · omega
  · -- behind the last step, each step takes away its own jobs
    obtain ⟨j, hj, rfl⟩ := map_eq_some_iff.1 hnext
    have hvisited : 0 < (visits.map Visit.job).countP (Stage.print < ·.step) := by
      have hmem : j ∈ visits.map Visit.job ++ c'.database.jobs :=
        hperm.mem_iff.1 (mem_append_left _ (mem_of_head? hj))
      rcases mem_append.1 hmem with hmem | hmem
      · exact countP_pos_iff.2 ⟨j, hmem, by simpa using Nat.lt_of_not_le hlast⟩
      · exact absurd (hlater j hmem) (Nat.lt_irrefl _)
    omega

/-- How a build ends: with no jobs left and no errors, or with a step in which errors were reported. -/
inductive Ends (visits : List Visit) (jobs : List Job) : Outcome → Prop where
  | finished (hjobs : jobs = []) (hnone : ∀ v ∈ visits, v.failed = false) : Ends visits jobs .finished
  | failed {step : Nat} (hfailed : ∃ v ∈ visits, v.failed = true) (hlater : ∀ j ∈ jobs, step < j.step)
      (hsteps : ∀ v ∈ visits, v.job.step ≤ step) (hlast : ∀ v ∈ visits, v.failed = true → v.job.step = step) :
      Ends visits jobs .failed

theorem Ends.prepend {others : List Visit} (hends : Ends others jobs outcome)
    (hnone : ∀ v ∈ visits, v.failed = false) (hearlier : ∀ v ∈ visits, ∀ w ∈ others, v.job.step ≤ w.job.step) :
    Ends (visits ++ others) jobs outcome := by
  cases hends with
  | finished hjobs hnone' => exact .finished hjobs (forall_mem_append.2 ⟨hnone, hnone'⟩)
  | failed hfailed hlater hsteps hlast =>
    obtain ⟨w, hw, hwfailed⟩ := hfailed
    refine .failed ⟨w, mem_append_right _ hw, hwfailed⟩ hlater ?_ ?_
    · exact forall_mem_append.2 ⟨fun v hv => Nat.le_trans (hearlier v hv w hw) (hsteps w hw), hsteps⟩
    · refine forall_mem_append.2 ⟨fun v hv hvfailed => ?_, hlast⟩
      rw [hnone v hv] at hvfailed
      cases hvfailed

theorem steps_trace (hc : c.Ruled o) (extra : Nat) (hlimit : c.stepsLeft < limit) :
    ∃ visits, Trace c visits (c.steps extra limit).2 ∧ (visits.map fun v => v.job.step).Pairwise (· ≤ ·) ∧
      Ends visits (c.steps extra limit).2.database.jobs (c.steps extra limit).1 := by
  induction limit generalizing c with
  | zero => exact absurd hlimit (Nat.not_lt_zero _)
  | succ limit ih =>
    cases hnext : c.database.nextStep? with
    | none =>
      have hjobs : c.database.jobs = [] := by
        rw [nextStep?, map_eq_none_iff, head?_eq_none_iff] at hnext
        exact hnext
      rw [steps, hnext]
      exact ⟨[], .done c, Pairwise.nil, .finished hjobs (forall_mem_nil _)⟩
    | some step =>
      have hmin : ∀ j ∈ c.database.jobs, step ≤ j.step := by
        obtain ⟨j, hj, rfl⟩ := map_eq_some_iff.1 hnext
        obtain ⟨waiting, hwaiting⟩ := head?_eq_some_iff.1 hj
        have hordered := hc.ordered
        rw [hwaiting] at hordered ⊢
        exact forall_mem_cons.2 ⟨Nat.le_refl _, fun k hk => hordered.step_le hk⟩
      obtain ⟨visits, htrace, hresult, hsteps, hlater⟩ := drain_trace hc hmin (c.work_lt_jobLimit step extra)
      generalize hdrain : c.drain step (c.jobLimit extra) = drained at htrace hresult hlater
      obtain ⟨result, c'⟩ := drained
      simp only at htrace hresult hlater
      subst hresult
      have hall : (visits.map fun v => v.job.step).Pairwise (· ≤ ·) := by
        rw [pairwise_map]
        exact pairwise_of_forall_mem_list fun v hv w hw => Nat.le_of_eq ((hsteps v hv).trans (hsteps w hw).symm)
      cases hfailed : visits.any Visit.failed with
      | true =>
        have heq : c.steps extra (limit + 1) = (.failed, c'.rest) := by
          rw [steps, hnext]
          simp only [hdrain, hfailed]
          rfl
        rw [heq]
        refine ⟨visits ++ [], htrace.append (.pause (.done _)), by rwa [append_nil], ?_⟩
        rw [append_nil]
        exact .failed (any_eq_true.1 hfailed) hlater (fun v hv => Nat.le_of_eq (hsteps v hv))
          fun v hv _ => hsteps v hv
      | false =>
        have hnone : ∀ v ∈ visits, v.failed = false := fun v hv =>
          Bool.eq_false_iff.2 (any_eq_false.1 hfailed v hv)
        have heq : c.steps extra (limit + 1) = c'.rest.steps extra limit := by
          rw [steps, hnext]
          simp only [hdrain, hfailed]
          rfl
        have hless : c'.stepsLeft < c.stepsLeft := htrace.stepsLeft_lt hc hnext hsteps hlater
        have hc' := (htrace.ruled hc).rest
        obtain ⟨others, htrace', hordered, hends⟩ := ih (c := c'.rest) hc'
          (Nat.lt_of_lt_of_le hless (Nat.lt_succ_iff.1 hlimit))
        have hothers : ∀ w ∈ others, step + 1 ≤ w.job.step := htrace'.le_step hc' hlater
        have hearlier : ∀ v ∈ visits, ∀ w ∈ others, v.job.step ≤ w.job.step := fun v hv w hw =>
          Nat.le_of_lt ((hsteps v hv).symm ▸ hothers w hw)
        rw [heq]
        refine ⟨visits ++ others, htrace.append (.pause htrace'), ?_, hends.prepend hnone hearlier⟩
        rw [map_append, pairwise_append, List.forall_mem_map]
        exact ⟨hall, hordered, fun v hv => forall_mem_map.2 (hearlier v hv)⟩

/-- A build is a trace in the order of steps, and ends in one of two ways. -/
theorem run_trace (hc : c.Standard o) (extra : Nat) :
    ∃ visits, Trace c visits (c.run extra).2 ∧ (visits.map fun v => v.job.step).Pairwise (· ≤ ·) ∧
      Ends visits (c.run extra).2.database.jobs (c.run extra).1 :=
  steps_trace hc.ruled extra (c.stepsLeft_lt_stepLimit extra)

/-! ### Everything that can be done with a compiler -/

/-- A compiler with standard rules, after operations on its units and jobs, changes of units that leave their stamps, and
builds. -/
inductive Used (o : Options) : Compiler σ → Prop where
  | fresh {spec : Spec} {memory : σ} {c : Compiler σ} (hc : ofSpec spec o memory = .ok c) : Used o c
  | operate {c : Compiler σ} (op : Operation) (hc : Used o c) :
      Used o { c with database := c.database.perform op }
  | change {c : Compiler σ} (h : Handle) {f : CompilationUnit → CompilationUnit}
      (hf : ∀ u, (f u).diagnostics.file = u.diagnostics.file) (hc : Used o c) : Used o (c.modify h f)
  | run {c : Compiler σ} (extra : Nat) (hc : Used o c) : Used o (c.run extra).2

theorem Used.add (hc : Used o c) (f : SourceFile) : Used o (c.add f).2 :=
  .operate (.enqueue (c.database.add (.ofSource f)).1 Stage.parse 0) (.operate (.add (.ofSource f)) hc)

theorem standard_of_ofSpec {spec : Spec} {memory : σ} (hc : ofSpec spec o memory = .ok c) : c.Standard o := by
  rw [ofSpec] at hc
  split at hc
  · cases hc
  · cases hc
    exact ⟨rfl, rfl, numbered_empty, Pairwise.nil, rfl⟩

theorem ordered_perform (hdb : Ordered db.jobs) (op : Operation) : Ordered (db.perform op).jobs := by
  cases op with
  | add u =>
    change Ordered (db.insert _ u).jobs
    rwa [jobs_insert]
  | insert h u =>
    change Ordered (db.insert h u).jobs
    rwa [jobs_insert]
  | remove h =>
    change Ordered (db.remove h).2.jobs
    cases hold : db.get? h with
    | some old => rwa [remove_of_some hold]
    | none => rwa [remove_of_none hold]
  | enqueue h step priority => exact hdb.insert _
  | process h => exact hdb
  | popStep step =>
    rw [Database.perform]
    cases hpop : db.popStep? step with
    | none => exact hdb
    | some found =>
      obtain ⟨j, waiting, hjobs, -, rfl⟩ := popStep?_eq_some hpop
      rw [hjobs] at hdb
      exact (pairwise_cons.1 hdb).2

theorem Standard.operate (hc : c.Standard o) (op : Operation) :
    Standard o { c with database := c.database.perform op } :=
  ⟨hc.transforms, hc.lints, hc.numbered.perform op, ordered_perform hc.ordered op, hc.plain⟩

theorem Standard.add (hc : c.Standard o) (f : SourceFile) : (c.add f).2.Standard o :=
  (hc.operate (.add (.ofSource f))).operate (.enqueue (c.database.add (.ofSource f)).1 Stage.parse 0)

theorem Used.standard (hc : Used o c) : c.Standard o := by
  induction hc with
  | fresh hc => exact standard_of_ofSpec hc
  | operate op _ ih => exact ih.operate op
  | change h hf _ ih =>
    refine ⟨ih.transforms, ih.lints, ih.numbered.modify fun u hu => ?_, ih.ordered, ih.plain⟩
    rw [hf]
    exact ih.numbered.stamps h u hu
  | run extra _ ih =>
    obtain ⟨visits, htrace, -⟩ := run_trace ih extra
    exact htrace.standard ih

/-- The visits add no job for a unit, and it keeps its source and its tree. -/
def LeaveAlone (h : Handle) (c : Compiler σ) (visits : List Visit) (c' : Compiler σ) : Prop :=
  (∀ v ∈ visits, ∀ j ∈ v.scheduled, j.handle ≠ h) ∧
    ∃ u u', c.database.get? h = some u ∧ c'.database.get? h = some u' ∧ u'.source = u.source ∧ u'.tree = u.tree

/-- If parsing has failed, nothing but parsing was done, and the unit has a source that cannot be parsed. -/
theorem Ends.unreadable (hends : Ends visits jobs outcome) (hc : c.Standard o)
    (htrace : Trace c visits c') (hv : v ∈ visits) (hstep : v.job.step = Stage.parse) (hfailed : v.failed = true) :
    LeaveAlone v.job.handle c visits c' ∧ ∃ u, c'.database.get? v.job.handle = some u ∧ Unreadable c'.parser u := by
  have hsteps : ∀ w ∈ visits, w.job.step = Stage.parse := by
    cases hends with
    | finished _ hnone =>
      rw [hnone v hv] at hfailed
      cases hfailed
    | failed _ _ hsteps hlast =>
      intro w hw
      have := hsteps w hw
      rw [← hlast v hv hfailed, hstep] at this
      exact Nat.le_zero.1 this
  obtain ⟨u, hu, hunreadable⟩ := htrace.unreadable_of_failed hc hsteps v hv hfailed
  obtain ⟨hsched, u', hu', hsource, htree⟩ := htrace.unreadable hc hu hunreadable fun w hw _ => .inl (hsteps w hw)
  refine ⟨⟨hsched, u, u', hu, hu', hsource, htree⟩, u', hu', ?_⟩
  rw [(htrace.tools hc).1, Unreadable, hsource]
  exact hunreadable

end Compiler

end Mcfunction
