import Mathlib.Data.List.Nodup
import Mathlib.Data.List.Perm.Basic
import Mcfunction.Proofs.Queue

/-! Jobs in the order in which they came. A ledger writes down every job that comes and the numbers of those that were
taken, and finds the next one by comparing all that wait. A database keeps no numbers, only a list in which jobs are
put behind those that are taken before them. Main statement: after any operations it answers as its ledger says. -/

namespace Mcfunction

open List Job

variable {jobs : List Job}

/-- Jobs that stand in order are split where another one is put between them. -/
theorem Job.insert_split (h : Ordered jobs) (j : Job) :
    ∃ front back, jobs = front ++ back ∧ insert j jobs = front ++ j :: back ∧
      (∀ k ∈ front, k.precedes j = true) ∧ ∀ k ∈ back, ¬k.precedes j = true := by
  induction jobs with
  | nil => exact ⟨[], [], rfl, rfl, forall_mem_nil _, forall_mem_nil _⟩
  | cons k jobs ih =>
    obtain ⟨hk, hjobs⟩ := pairwise_cons.1 h
    rw [insert]
    split
    · rename_i hkj
      obtain ⟨front, back, rfl, hinsert, hfront, hback⟩ := ih hjobs
      exact ⟨k :: front, back, rfl, by rw [hinsert]; rfl, forall_mem_cons.2 ⟨hkj, hfront⟩, hback⟩
    · rename_i hkj
      refine ⟨[], k :: jobs, rfl, rfl, forall_mem_nil _, forall_mem_cons.2 ⟨hkj, fun l hl hlj => ?_⟩⟩
      exact hkj (precedes_trans (hk l hl) hlj)

/-- A job, with the number of those that came before it. -/
structure Arrival where
  number : Nat
  job : Job
  deriving DecidableEq

namespace Arrival

variable {a b c : Arrival}

/-- Whether a job is taken before another one: by step, then by priority, and among equals in the order in which they
came. -/
def Before (a b : Arrival) : Prop :=
  a.job.step < b.job.step ∨ a.job.step = b.job.step ∧
    (a.job.priority < b.job.priority ∨ a.job.priority = b.job.priority ∧ a.number < b.number)

instance (a b : Arrival) : Decidable (a.Before b) := by
  unfold Before
  infer_instance

theorem Before.step_le (h : a.Before b) : a.job.step ≤ b.job.step := by
  unfold Before at h
  omega

theorem Before.asymm (h : a.Before b) : ¬b.Before a := by
  unfold Before at h ⊢
  omega

/-- A job that came later is taken later, if the earlier one may be taken first. -/
theorem before_of_precedes (h : a.job.precedes b.job = true) (hnumber : a.number < b.number) : a.Before b := by
  rw [precedes_iff] at h
  unfold Before
  omega

theorem before_of_not_precedes (h : ¬a.job.precedes b.job = true) : b.Before a := by
  rw [precedes_iff] at h
  unfold Before
  omega

theorem Before.precedes (h : a.Before b) : a.job.precedes b.job = true := by
  rw [precedes_iff]
  unfold Before at h
  omega

def ofJobs (jobs : List Job) : List Arrival := jobs.zipIdx.map fun (job, number) => ⟨number, job⟩

theorem mem_ofJobs : a ∈ ofJobs jobs ↔ jobs[a.number]? = some a.job := by
  rw [ofJobs, mem_map]
  constructor
  · rintro ⟨⟨job, number⟩, hmem, rfl⟩
    exact mem_zipIdx_iff_getElem?.1 hmem
  · intro h
    exact ⟨(a.job, a.number), mem_zipIdx_iff_getElem?.2 h, rfl⟩

theorem ofJobs_concat (jobs : List Job) (job : Job) : ofJobs (jobs ++ [job]) = ofJobs jobs ++ [⟨jobs.length, job⟩] := by
  simp [ofJobs, zipIdx_append]

theorem map_number_ofJobs (jobs : List Job) : (ofJobs jobs).map number = range jobs.length := by
  rw [ofJobs, map_map, range_eq_range']
  exact zipIdx_map_snd 0 jobs

end Arrival

/-- The jobs that came, and the numbers of those that were taken, both in order. -/
structure Ledger where
  jobs : List Job := []
  taken : List Nat := []

variable {ledger : Ledger} {db db' : Database} {queue : List Arrival} {step : Nat}

namespace Ledger

open Database (Operation)

variable {a b : Arrival}

def waiting (ledger : Ledger) : List Arrival := (Arrival.ofJobs ledger.jobs).filter (·.number ∉ ledger.taken)

def next? (ledger : Ledger) : Option Arrival :=
  ledger.waiting.find? fun a => ∀ b ∈ ledger.waiting, ¬b.Before a

def enter (ledger : Ledger) (job : Job) : Ledger := { ledger with jobs := ledger.jobs ++ [job] }

def strike (ledger : Ledger) (number : Nat) : Ledger := { ledger with taken := ledger.taken ++ [number] }

/-- The ledger after an operation: a job comes, or the next one is taken if it belongs to the step. -/
def perform (ledger : Ledger) : Operation → Ledger
  | .enqueue h step priority => ledger.enter ⟨step, priority, h⟩
  | .popStep step =>
    match ledger.next? with
    | some a => if a.job.step = step then ledger.strike a.number else ledger
    | none => ledger
  | _ => ledger

def performAll (ledger : Ledger) (ops : List Operation) : Ledger := ops.foldl perform ledger

theorem mem_waiting : a ∈ ledger.waiting ↔ ledger.jobs[a.number]? = some a.job ∧ a.number ∉ ledger.taken := by
  rw [waiting, mem_filter, Arrival.mem_ofJobs, decide_eq_true_iff]

theorem nodup_waiting (ledger : Ledger) : (ledger.waiting.map Arrival.number).Nodup := by
  refine Nodup.sublist (filter_sublist.map _) ?_
  rw [Arrival.map_number_ofJobs]
  exact nodup_range

theorem waiting_strike (ledger : Ledger) (number : Nat) :
    (ledger.strike number).waiting = ledger.waiting.filter (·.number ≠ number) := by
  rw [strike, waiting, waiting, filter_filter]
  refine filter_congr fun a _ => ?_
  simp [and_comm]

/-- Each number that was taken was given to a job, and none was taken twice. -/
structure Fair (ledger : Ledger) : Prop where
  distinct : ledger.taken.Nodup
  known : ∀ i ∈ ledger.taken, i < ledger.jobs.length

namespace Fair

theorem empty : Fair {} := ⟨nodup_nil, forall_mem_nil _⟩

theorem waiting_enter (h : ledger.Fair) (job : Job) :
    (ledger.enter job).waiting = ledger.waiting ++ [⟨ledger.jobs.length, job⟩] := by
  have hfresh : ledger.jobs.length ∉ ledger.taken := fun hmem => Nat.lt_irrefl _ (h.known _ hmem)
  rw [enter, waiting, Arrival.ofJobs_concat, filter_append, filter_cons_of_pos (by simpa using hfresh)]
  rfl

theorem enter (h : ledger.Fair) (job : Job) : (ledger.enter job).Fair where
  distinct := h.distinct
  known := by
    intro i hi
    rw [Ledger.enter, length_append]
    exact Nat.lt_add_right _ (h.known i hi)

theorem strike (h : ledger.Fair) (ha : a ∈ ledger.waiting) : (ledger.strike a.number).Fair where
  distinct := by
    refine nodup_append.2 ⟨h.distinct, nodup_singleton _, fun i hi j hj hij => ?_⟩
    rw [mem_singleton.1 hj] at hij
    exact (mem_waiting.1 ha).2 (hij ▸ hi)
  known := by
    refine forall_mem_append.2 ⟨h.known, forall_mem_singleton.2 ?_⟩
    exact (List.getElem?_eq_some_iff.1 (mem_waiting.1 ha).1).1

theorem length (h : ledger.Fair) : ledger.waiting.length + ledger.taken.length = ledger.jobs.length := by
  have hwaiting : ledger.waiting.map Arrival.number = (range ledger.jobs.length).filter (· ∉ ledger.taken) := by
    rw [← Arrival.map_number_ofJobs, filter_map]
    rfl
  have htaken : ledger.taken.Perm ((range ledger.jobs.length).filter (· ∈ ledger.taken)) := by
    refine (perm_ext_iff_of_nodup h.distinct (nodup_range.filter _)).2 fun i => ?_
    rw [mem_filter, mem_range, decide_eq_true_iff]
    exact ⟨fun hi => ⟨h.known i hi, hi⟩, And.right⟩
  have hsplit := length_eq_length_filter_add (l := range ledger.jobs.length) fun i => decide (i ∈ ledger.taken)
  rw [← length_map Arrival.number, hwaiting, htaken.length_eq]
  simp only [length_range, decide_not] at hsplit ⊢
  omega

end Fair

/-! ### The next job -/

theorem of_next? (h : ledger.next? = some a) : a ∈ ledger.waiting ∧ ∀ b ∈ ledger.waiting, ¬b.Before a :=
  ⟨mem_of_find?_eq_some h, by simpa using find?_some h⟩

/-- The jobs that wait, in the order in which they are taken. -/
structure Queued (ledger : Ledger) (queue : List Arrival) : Prop where
  perm : queue.Perm ledger.waiting
  ordered : queue.Pairwise Arrival.Before

namespace Queued

theorem next?_nil (h : ledger.Queued []) : ledger.next? = none := by
  rw [next?, (nil_perm.1 h.perm : ledger.waiting = [])]
  rfl

theorem next?_cons (h : ledger.Queued (a :: queue)) : ledger.next? = some a := by
  have hfirst : ∀ b ∈ queue, a.Before b := (pairwise_cons.1 h.ordered).1
  have ha : a ∈ ledger.waiting := h.perm.mem_iff.1 mem_cons_self
  have hleast : ∀ b ∈ ledger.waiting, ¬b.Before a := by
    intro b hb hba
    rcases mem_cons.1 (h.perm.mem_iff.2 hb) with rfl | hb
    · exact hba.asymm hba
    · exact (hfirst b hb).asymm hba
  cases hfind : ledger.next? with
  | none => exact absurd (decide_eq_true hleast) (find?_eq_none.1 hfind a ha)
  | some c =>
    obtain ⟨hmem, hc⟩ := of_next? hfind
    rcases mem_cons.1 (h.perm.mem_iff.2 hmem) with rfl | hmem
    · rfl
    · exact absurd (hfirst c hmem) (hc a ha)

theorem tail (h : ledger.Queued (a :: queue)) : (ledger.strike a.number).Queued queue where
  perm := by
    have hnodup : ((a :: queue).map Arrival.number).Nodup := (h.perm.map _).nodup_iff.2 ledger.nodup_waiting
    have hothers : ∀ b ∈ queue, b.number ≠ a.number := by
      intro b hb heq
      exact (nodup_cons.1 hnodup).1 (mem_map.2 ⟨b, hb, heq⟩)
    have hfilter : (a :: queue).filter (·.number ≠ a.number) = queue := by
      rw [filter_cons_of_neg (by simp), filter_eq_self]
      exact fun b hb => decide_eq_true (hothers b hb)
    have hperm := h.perm.filter (·.number ≠ a.number)
    rwa [hfilter, ← waiting_strike] at hperm
  ordered := (pairwise_cons.1 h.ordered).2

theorem insert (h : ledger.Queued queue) (hfair : ledger.Fair) (job : Job) :
    ∃ longer, (ledger.enter job).Queued longer ∧ longer.map Arrival.job = Job.insert job (queue.map Arrival.job) := by
  have hjobs : Ordered (queue.map Arrival.job) := pairwise_map.2 (h.ordered.imp Arrival.Before.precedes)
  obtain ⟨front, back, hsplit, hinsert, hfront, hback⟩ := insert_split hjobs job
  obtain ⟨early, late, rfl, rfl, rfl⟩ := map_eq_append_iff.1 hsplit
  obtain ⟨hearly, hlate, hacross⟩ := pairwise_append.1 h.ordered
  have hnumber : ∀ a ∈ early, a.number < ledger.jobs.length := by
    intro a ha
    have hwaits := h.perm.mem_iff.1 (mem_append_left late ha)
    exact (List.getElem?_eq_some_iff.1 (mem_waiting.1 hwaits).1).1
  refine ⟨early ++ ⟨ledger.jobs.length, job⟩ :: late, ⟨?_, ?_⟩, by rw [hinsert, map_append, map_cons]⟩
  · rw [hfair.waiting_enter]
    exact perm_middle.trans ((perm_append_singleton _ _).symm.trans (h.perm.append_right _))
  · refine pairwise_append.2 ⟨hearly, pairwise_cons.2 ⟨fun b hb => ?_, hlate⟩, fun a ha b hb => ?_⟩
    · exact Arrival.before_of_not_precedes (hback b.job (mem_map_of_mem hb))
    · rcases mem_cons.1 hb with rfl | hb
      · exact Arrival.before_of_precedes (hfront a.job (mem_map_of_mem ha)) (hnumber a ha)
      · exact hacross a ha b hb

end Queued

end Ledger

namespace Database

/-! ### A database and its ledger -/

/-- The jobs of a database are those that wait by a ledger, in the order in which they are taken. -/
structure Follows (db : Database) (ledger : Ledger) : Prop where
  fair : ledger.Fair
  queue : ∃ queue, ledger.Queued queue ∧ db.jobs = queue.map Arrival.job

theorem Follows.of_jobs (h : db.Follows ledger) (hjobs : db'.jobs = db.jobs) : db'.Follows ledger :=
  ⟨h.fair, by rw [hjobs]; exact h.queue⟩

theorem jobs_remove (db : Database) (h : Handle) : (db.remove h).2.jobs = db.jobs := by
  cases hold : db.get? h with
  | some old => rw [remove_of_some hold]
  | none => rw [remove_of_none hold]

/-- A job is popped if it is the next one by the ledger and belongs to the step, and then the ledger strikes it out. -/
theorem Follows.pop_cases (h : db.Follows ledger) (step : Nat) :
    (db.nextStep? ≠ some step ∧ db.popStep? step = none ∧ ledger.perform (.popStep step) = ledger) ∨
      ∃ a queue, ledger.Queued (a :: queue) ∧ db.nextStep? = some step ∧ a.job.step = step ∧
        db.popStep? step = some (a.job.handle, { db with jobs := queue.map Arrival.job }) ∧
        ledger.perform (.popStep step) = ledger.strike a.number := by
  obtain ⟨queue, hqueue, hjobs⟩ := h.queue
  rw [Ledger.perform, nextStep?, popStep?, hjobs]
  cases queue with
  | nil =>
    rw [hqueue.next?_nil]
    exact .inl ⟨(Option.some_ne_none step).symm, rfl, rfl⟩
  | cons a queue =>
    rw [hqueue.next?_cons]
    by_cases hstep : a.job.step = step
    · exact .inr ⟨a, queue, hqueue, congrArg some hstep, hstep, if_pos hstep, if_pos hstep⟩
    · exact .inl ⟨fun heq => hstep (Option.some.inj heq), if_neg hstep, if_neg hstep⟩

theorem Follows.perform (h : db.Follows ledger) (op : Operation) : (db.perform op).Follows (ledger.perform op) := by
  cases op with
  | add u => exact h.of_jobs (jobs_insert db _ u)
  | insert k u => exact h.of_jobs (jobs_insert db k u)
  | remove k => exact h.of_jobs (jobs_remove db k)
  | process k => exact h.of_jobs rfl
  | enqueue k step priority =>
    obtain ⟨queue, hqueue, hjobs⟩ := h.queue
    obtain ⟨longer, hlonger, hmap⟩ := hqueue.insert h.fair ⟨step, priority, k⟩
    exact ⟨h.fair.enter _, longer, hlonger, by rw [hmap, ← hjobs]; rfl⟩
  | popStep step =>
    rw [Database.perform]
    rcases h.pop_cases step with ⟨-, hpop, hledger⟩ | ⟨a, queue, hqueue, -, -, hpop, hledger⟩
    · rw [hpop, hledger]
      exact h
    · rw [hpop, hledger]
      exact ⟨h.fair.strike (hqueue.perm.mem_iff.1 mem_cons_self), queue, hqueue.tail, rfl⟩

theorem Follows.performAll (h : db.Follows ledger) (ops : List Operation) :
    (db.performAll ops).Follows (ledger.performAll ops) := by
  induction ops generalizing db ledger with
  | nil => exact h
  | cons op ops ih => exact ih (h.perform op)

/-! ### What came and what was taken -/

end Database

namespace Ledger

def handles (ledger : Ledger) : List (Option Handle) := ledger.taken.map fun i => ledger.jobs[i]?.map handle

end Ledger

namespace Database

theorem Follows.jobs_perm (h : db.Follows ledger) : db.jobs.Perm (ledger.waiting.map Arrival.job) := by
  obtain ⟨queue, hqueue, hjobs⟩ := h.queue
  rw [hjobs]
  exact hqueue.perm.map _

end Database

end Mcfunction
