import Mcfunction.Proofs.Builds

/-! The two loops of a build as they are without a limit. The inner one does the jobs of a step as long as one of them is
next, also those that are added on the way. The outer one goes from step to step, until no job waits or one of a step
has reported an error. Main statement: both loops end in a compiler with standard rules, whatever units its database
holds and whatever jobs wait, and a build with a limit gives their result. -/

namespace Mcfunction

open NestedFunction

namespace Database

/-- A database with any contents: units and jobs come in, leave and wait through operations, and a unit may be changed in
any way. -/
inductive Filled : Database → Prop where
  | empty : Filled {}
  | operate {db : Database} (op : Operation) (hdb : Filled db) : Filled (db.perform op)
  | change {db : Database} (h : Handle) (f : CompilationUnit → CompilationUnit) (hdb : Filled db) :
      Filled (db.modify h f)

theorem Filled.counted {db : Database} (hdb : db.Filled) : db.Counted := by
  induction hdb with
  | empty => exact consistent_empty.counted
  | operate op _ ih => exact ih.perform op
  | change h f _ ih => exact ih.modify h f

theorem Filled.ordered {db : Database} (hdb : db.Filled) : Job.Ordered db.jobs := by
  induction hdb with
  | empty => exact List.Pairwise.nil
  | operate op _ ih => exact Compiler.ordered_perform ih op
  | change h f _ ih => exact ih

end Database

namespace Compiler

variable {σ : Type} {c c' c'' : Compiler σ} {o : Options} {step limit extra : Nat} {failed failed' : Bool}
  {outcome outcome' : Outcome}

/-- The jobs of a step are done as long as one of them is next; some of them report errors, or none. -/
inductive Drains (step : Nat) : Compiler σ → Bool → Compiler σ → Prop where
  | done {c : Compiler σ} (hpop : c.database.popStep? step = none) : Drains step c false c
  | job {c c' : Compiler σ} {h : Handle} {db : Database} {failed : Bool}
      (hpop : c.database.popStep? step = some (h, db))
      (hrest : Drains step ({ c with database := db }.process h step).2 failed c') :
      Drains step c (({ c with database := db }.process h step).1 || failed) c'

/-- Steps are done until no job waits, or up to one that has failed. -/
inductive Runs : Compiler σ → Outcome → Compiler σ → Prop where
  | finished {c : Compiler σ} (hnext : c.database.nextStep? = none) : Runs c .finished c
  | failed {c c' : Compiler σ} {step : Nat} (hnext : c.database.nextStep? = some step) (hdrains : Drains step c true c') :
      Runs c .failed c'.rest
  | step {c c' c'' : Compiler σ} {step : Nat} {outcome : Outcome} (hnext : c.database.nextStep? = some step)
      (hdrains : Drains step c false c') (hrest : Runs c'.rest outcome c'') : Runs c outcome c''

/-! ### The loops have one result -/

theorem Drains.unique (h : Drains step c failed c') (h' : Drains step c failed' c'') : failed = failed' ∧ c' = c'' := by
  induction h generalizing failed' with
  | done hpop =>
    cases h' with
    | done => exact ⟨rfl, rfl⟩
    | job hpop' =>
      rw [hpop] at hpop'
      cases hpop'
  | job hpop _ ih =>
    cases h' with
    | done hpop' =>
      rw [hpop] at hpop'
      cases hpop'
    | job hpop' hrest' =>
      rw [hpop] at hpop'
      cases hpop'
      obtain ⟨rfl, rfl⟩ := ih hrest'
      exact ⟨rfl, rfl⟩

theorem Runs.unique (h : Runs c outcome c') (h' : Runs c outcome' c'') : outcome = outcome' ∧ c' = c'' := by
  induction h with
  | finished hnext =>
    cases h' with
    | finished => exact ⟨rfl, rfl⟩
    | failed hnext' | step hnext' =>
      rw [hnext] at hnext'
      cases hnext'
  | failed hnext hdrains =>
    cases h' with
    | finished hnext' =>
      rw [hnext] at hnext'
      cases hnext'
    | failed hnext' hdrains' =>
      rw [hnext] at hnext'
      cases hnext'
      exact ⟨rfl, congrArg rest (hdrains.unique hdrains').2⟩
    | step hnext' hdrains' =>
      rw [hnext] at hnext'
      cases hnext'
      cases (hdrains.unique hdrains').1
  | step hnext hdrains _ ih =>
    cases h' with
    | finished hnext' =>
      rw [hnext] at hnext'
      cases hnext'
    | failed hnext' hdrains' =>
      rw [hnext] at hnext'
      cases hnext'
      cases (hdrains.unique hdrains').1
    | step hnext' hdrains' hrest' =>
      rw [hnext] at hnext'
      cases hnext'
      obtain ⟨-, rfl⟩ := hdrains.unique hdrains'
      exact ih hrest'

/-! ### A limit that is not reached does not matter -/

theorem drains_of_drain (h : c.drain step limit = (some failed, c')) : Drains step c failed c' := by
  induction limit generalizing c failed with
  | zero => cases h
  | succ limit ih =>
    rw [drain] at h
    split at h
    · rename_i hpop
      cases h
      exact .done hpop
    · rename_i hpop
      simp only [Prod.mk.injEq, Option.map_eq_some_iff] at h
      obtain ⟨⟨others, hothers, rfl⟩, rfl⟩ := h
      exact .job hpop (ih (Prod.ext hothers rfl))

theorem runs_of_steps (h : c.steps extra limit = (outcome, c')) (hends : outcome ≠ .unfinished) :
    Runs c outcome c' := by
  induction limit generalizing c with
  | zero =>
    cases h
    exact absurd rfl hends
  | succ limit ih =>
    rw [steps] at h
    split at h
    · rename_i hnext
      cases h
      exact .finished hnext
    · rename_i step hnext
      generalize hdrain : c.drain step (c.jobLimit extra) = drained at h
      obtain ⟨result, last⟩ := drained
      cases result with
      | none =>
        cases h
        exact absurd rfl hends
      | some failed =>
        cases failed with
        | true =>
          cases h
          exact .failed hnext (drains_of_drain hdrain)
        | false => exact .step hnext (drains_of_drain hdrain) (ih h)

theorem Ends.ne_unfinished {visits : List Visit} {jobs : List Job} (h : Ends visits jobs outcome) :
    outcome ≠ .unfinished := by
  cases h <;> exact Outcome.noConfusion

/-- A build with standard rules ends, from any units and any jobs that wait: its loops have a result, and that is what a
build with any limit gives. -/
theorem run_ends (htransforms : c.transforms = o.transforms σ) (hlints : c.lints = o.lints σ)
    (hdatabase : c.database.Filled) :
    ∃ outcome c', Runs c outcome c' ∧ ∀ extra, c.run extra = (outcome, c') := by
  have hc : c.Ruled o := ⟨htransforms, hlints, hdatabase.counted, hdatabase.ordered⟩
  have hruns : ∀ extra, Runs c (c.run extra).1 (c.run extra).2 := by
    intro extra
    obtain ⟨visits, -, -, hends⟩ := steps_trace hc extra (c.stepsLeft_lt_stepLimit extra)
    exact runs_of_steps rfl hends.ne_unfinished
  refine ⟨_, _, hruns 0, fun extra => ?_⟩
  obtain ⟨houtcome, hlast⟩ := (hruns extra).unique (hruns 0)
  exact Prod.ext houtcome hlast

/-- Two definitions, one in the block of the other: each job that transforms a unit adds another one, and the build ends
with three units. -/
theorem run_ends_of_nested_definitions :
    let location (path : String) : Node := ⟨.resourceLocation ⟨false, some "demo", path⟩, ⟨.origin, .origin⟩⟩
    let define (path : String) (block : List Node) : Node :=
      ⟨.command definition [location path, ⟨.root block, ⟨.origin, .origin⟩⟩], ⟨.origin, .origin⟩⟩
    let tree : Node := ⟨.root [define "outer" [define "inner" []]], ⟨.origin, .origin⟩⟩
    let c : Compiler Unit :=
      { parser := { tree := { role := .root }, options := {} }
        printer := { spec := { tree := { role := .root }, prototypes := [(call,
          ⟨call, [.literal "function", .argument ⟨["function", "name"], none⟩], [1]⟩)] }, indent := 4 }
        transforms := Options.transforms Unit {}
        lints := Options.lints Unit {}
        database := (Database.perform {} (.add { tree := some tree })).perform (.enqueue ⟨0⟩ Stage.transform 0)
        memory := () }
    c.database.Filled ∧
      ∃ c', Runs c .finished c' ∧ (∀ extra, c.run extra = (.finished, c')) ∧ c'.database.handles = [⟨0⟩, ⟨1⟩, ⟨2⟩] := by
  intro location define tree c
  have hdatabase : c.database.Filled :=
    .operate (.enqueue ⟨0⟩ Stage.transform 0) (.operate (.add { tree := some tree }) .empty)
  have hrun : (c.run 0).1 = .finished ∧ (c.run 0).2.database.handles = [⟨0⟩, ⟨1⟩, ⟨2⟩] := by decide +kernel
  obtain ⟨outcome, c', hruns, hrun'⟩ := run_ends (c := c) (o := {}) rfl rfl hdatabase
  rw [hrun' 0] at hrun
  obtain ⟨rfl, hhandles⟩ := hrun
  exact ⟨hdatabase, c', hruns, hrun', hhandles⟩

end Compiler

end Mcfunction
