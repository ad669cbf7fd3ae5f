import Mathlib.Data.List.Nodup
import Mcfunction.Proofs.Builds

/-! Builds of files, from the first job to the last. At any time each unit waits for one job at most, its tree is what
the jobs before have made of it, and the names that stand for units are those of the files and of the definitions taken
out so far. Main statement: a build of files finishes just if they can be read, their definitions have names that are
all different and stand for no file, and what they come to can be printed. -/

namespace Mcfunction

open List Option Stage Database CompilationUnit Options
open NestedFunction (Definition Accepts)

/-! ### What a build needs of its files -/

/-- What files are read and printed with, and the options for that. -/
structure Setting where
  parser : Parser
  printer : Printer
  options : Options

variable {d e : Definition} {origin u : CompilationUnit} {i step : Nat} {stage : Option Nat} {db : Database}
  {o : Options} {s : Setting} {k h : Handle} {w : Work} {j : Job} {waiting : List Job}

namespace Setting

variable {files files' : List SourceFile} {f g : SourceFile}

def tree? (s : Setting) (f : SourceFile) : Option Node := (s.parser.parse f.text).toOption

theorem tree?_eq_some {tree : Node} : s.tree? f = some tree ↔ s.parser.parse f.text = .ok tree := by
  rw [tree?]
  cases s.parser.parse f.text <;> simp [Except.toOption]

def definitions (s : Setting) (f : SourceFile) : List Definition := ((s.tree? f).map s.options.definitions).getD []

theorem mem_definitions : d ∈ s.definitions f ↔ ∃ tree, s.tree? f = some tree ∧ d ∈ s.options.definitions tree := by
  rw [definitions]
  cases s.tree? f <;> simp

def text? (s : Setting) (tree : Node) : Option String := (s.printer.render tree).toOption

/-- Files that can be read, with definitions that have names, all different and not those of files. -/
structure Sound (s : Setting) (files : List SourceFile) : Prop where
  read : ∀ f ∈ files, (s.tree? f).isSome
  named : ∀ d ∈ files.flatMap s.definitions, d.WellNamed
  distinct : ((files.flatMap s.definitions).map Definition.title).Nodup
  apart : ∀ d ∈ files.flatMap s.definitions, ∀ f ∈ files, d.title ∉ (ofSource f).names

/-- Nothing is wrong with files: they are sound, and what they come to can be printed. -/
structure Compiles (s : Setting) (files : List SourceFile) : Prop extends s.Sound files where
  printed : ∀ f ∈ files, ∀ tree ∈ s.tree? f, (s.text? (s.options.settle tree)).isSome
  extracted : ∀ d ∈ files.flatMap s.definitions, (s.text? d.body).isSome

theorem Compiles.of_subperm (h : s.Compiles files) (hmem : ∀ f ∈ files', f ∈ files)
    (hdefs : (files'.flatMap s.definitions).Subperm (files.flatMap s.definitions)) : s.Compiles files' where
  read := fun f hf => h.read f (hmem f hf)
  named := fun d hd => h.named d (hdefs.subset hd)
  distinct := by
    obtain ⟨ds, hperm, hsublist⟩ := hdefs
    exact ((hperm.map _).nodup_iff).1 ((hsublist.map Definition.title).nodup h.distinct)
  apart := fun d hd f hf => h.apart d (hdefs.subset hd) f (hmem f hf)
  printed := fun f hf => h.printed f (hmem f hf)
  extracted := fun d hd => h.extracted d (hdefs.subset hd)

theorem Compiles.perm (h : s.Compiles files) (hperm : files.Perm files') : s.Compiles files' :=
  h.of_subperm (fun _ hf => hperm.mem_iff.2 hf) (hperm.flatMap_right _).symm.subperm

theorem Compiles.single (h : s.Compiles files) (hf : f ∈ files) : s.Compiles [f] := by
  refine h.of_subperm (fun g hg => mem_singleton.1 hg ▸ hf) ?_
  rw [flatMap_singleton]
  obtain ⟨before, after, rfl⟩ := append_of_mem hf
  rw [flatMap_append]
  exact ((sublist_append_left _ _).trans (sublist_append_right _ _)).subperm

theorem Compiles.ne_title (h : s.Compiles files) {k : Nat} (hf : files[i]? = some f)
    (hg : files[k]? = some g) (hne : i ≠ k) (hd : d ∈ s.definitions f) (he : e ∈ s.definitions g) :
    d.title ≠ e.title := by
  have hdist := h.distinct
  rw [map_flatMap, nodup_flatMap] at hdist
  have hpairs := pairwise_iff_getElem.1 hdist.2
  obtain ⟨hi, rfl⟩ := List.getElem?_eq_some_iff.1 hf
  obtain ⟨hk, rfl⟩ := List.getElem?_eq_some_iff.1 hg
  intro heq
  rcases Nat.lt_or_gt_of_ne hne with hlt | hlt
  · exact hpairs i k hi hk hlt (mem_map_of_mem hd) (heq ▸ mem_map_of_mem he)
  · exact hpairs k i hk hi hlt (mem_map_of_mem he) (heq ▸ mem_map_of_mem hd)

/-! ### Units on their way -/

def treeOf? (s : Setting) (origin : CompilationUnit) : Option Node :=
  match origin.source with
  | some text => (s.parser.parse text).toOption
  | none => origin.tree

/-- How far a unit is that came in as `origin`: for which step it waits, or for none, and what it has by then. -/
inductive Stands (s : Setting) (origin u : CompilationUnit) : Option Nat → Prop where
  | unread {text} (hsource : origin.source = some text) : Stands s origin u (some parse)
  | read {tree} (horigin : s.treeOf? origin = some tree) (htree : u.tree = some tree) :
      Stands s origin u (some transform)
  | settled {tree step} (horigin : s.treeOf? origin = some tree) (htree : u.tree = some (s.options.settle tree))
      (hstep : step = lint ∨ step = print) : Stands s origin u (some step)
  | printed {tree text} (horigin : s.treeOf? origin = some tree) (htree : u.tree = some (s.options.settle tree))
      (hprint : s.printer.render (s.options.settle tree) = .ok text) (houtput : u.output = some text) :
      Stands s origin u none

def Passed (stage : Option Nat) : Prop := stage ≠ some parse ∧ stage ≠ some transform

/-- A unit that came in as `origin`, and how far it is. -/
structure Descends (s : Setting) (origin u : CompilationUnit) (stage : Option Nat) : Prop where
  source : u.source = origin.source
  filename : u.filename = origin.filename
  resourceName : u.resourceName = origin.resourceName
  stands : s.Stands origin u stage

/-- The definitions that have been taken out of files, when those in some places have been transformed, one after the
other. -/
def extracted (s : Setting) (files : List SourceFile) (done : List Nat) : List Definition :=
  done.flatMap fun i => (files[i]?.map s.definitions).getD []

/-- The units as they came in: those of the files, and then those of the definitions. -/
def origins (s : Setting) (files : List SourceFile) (done : List Nat) : List CompilationUnit :=
  files.map ofSource ++ (s.extracted files done).map Definition.unit

section Origins

variable {done : List Nat} {tree : Node}

theorem mem_extracted : d ∈ s.extracted files done ↔ ∃ i ∈ done, ∃ f, files[i]? = some f ∧ d ∈ s.definitions f := by
  rw [extracted, mem_flatMap]
  refine exists_congr fun i => and_congr_right fun _ => ?_
  cases files[i]? <;> simp

theorem mem_of_mem_extracted (h : d ∈ s.extracted files done) : d ∈ files.flatMap s.definitions := by
  obtain ⟨i, -, f, hf, hd⟩ := mem_extracted.1 h
  exact mem_flatMap.2 ⟨f, mem_of_getElem? hf, hd⟩

theorem settled_of_mem_extracted (h : d ∈ s.extracted files done) : s.options.Settled d.body := by
  obtain ⟨i, -, f, -, hd⟩ := mem_extracted.1 h
  obtain ⟨tree, -, hd⟩ := mem_definitions.1 hd
  exact settled_body hd

theorem origin_cases (h : (s.origins files done)[i]? = some origin) :
    (∃ f, files[i]? = some f ∧ origin = .ofSource f) ∨
      files.length ≤ i ∧ ∃ d, (s.extracted files done)[i - files.length]? = some d ∧ origin = d.unit := by
  rw [origins, getElem?_append] at h
  split at h
  · rw [getElem?_map, map_eq_some_iff] at h
    obtain ⟨f, hf, rfl⟩ := h
    exact .inl ⟨f, hf, rfl⟩
  · rename_i hi
    rw [length_map] at hi h
    rw [getElem?_map, map_eq_some_iff] at h
    obtain ⟨d, hd, rfl⟩ := h
    exact .inr ⟨Nat.le_of_not_lt hi, d, hd, rfl⟩

theorem definitions_of_origin (h : (s.origins files done)[i]? = some origin) (htree : s.treeOf? origin = some tree) :
    s.options.definitions tree = (files[i]?.map s.definitions).getD [] := by
  rcases origin_cases h with ⟨f, hf, rfl⟩ | ⟨hi, d, hd, rfl⟩
  · have htree : s.tree? f = some tree := htree
    rw [hf, map_some, definitions, htree]
    rfl
  · obtain rfl : d.body = tree := some.inj htree
    rw [getElem?_eq_none hi, definitions_of_settled (settled_of_mem_extracted (mem_of_getElem? hd))]
    rfl

theorem Compiles.isSome_text? (hcompiles : s.Compiles files) (h : (s.origins files done)[i]? = some origin)
    (htree : s.treeOf? origin = some tree) : (s.text? (s.options.settle tree)).isSome := by
  rcases origin_cases h with ⟨f, hf, rfl⟩ | ⟨hi, d, hd, rfl⟩
  · exact hcompiles.printed f (mem_of_getElem? hf) tree htree
  · obtain rfl : d.body = tree := some.inj htree
    rw [settle_of_settled (settled_of_mem_extracted (mem_of_getElem? hd))]
    exact hcompiles.extracted d (mem_of_mem_extracted (mem_of_getElem? hd))

theorem extracted_range (s : Setting) (files : List SourceFile) :
    s.extracted files (range files.length) = files.flatMap s.definitions := by
  rw [extracted]
  induction files with
  | nil => rfl
  | cons f files ih =>
    rw [length_cons, range_succ_eq_map, flatMap_cons, flatMap_map, flatMap_cons, ← ih]
    rfl

end Origins

end Setting

namespace Compiler

variable {σ : Type} {c c' : Compiler σ} {files : List SourceFile} {done done' : List Nat} {v : Visit}

def Awaits (c : Compiler σ) (h : Handle) (stage : Option Nat) : Prop :=
  ∀ step, (∃ j ∈ c.database.jobs, j.handle = h ∧ j.step = step) ↔ stage = some step

/-- No unit has two jobs, and there are no jobs for units that have not come in yet. -/
structure OneJobEach (c : Compiler σ) : Prop where
  single : (c.database.jobs.map Job.handle).Nodup
  known : ∀ j ∈ c.database.jobs, j.handle.index < c.database.nextHandle

/-- A compiler has the tools and the rules of a setting. -/
structure Fits (s : Setting) (c : Compiler σ) : Prop where
  standard : c.Standard s.options
  parser : c.parser = s.parser
  printer : c.printer = s.printer

def UnitUnderway (s : Setting) (files : List SourceFile) (done : List Nat) (c : Compiler σ) (i : Nat)
    (origin : CompilationUnit) : Prop :=
  ∃ u stage, c.database.get? ⟨i⟩ = some u ∧ c.Awaits ⟨i⟩ stage ∧ s.Descends origin u stage ∧
    (i < files.length → (i ∈ done ↔ Setting.Passed stage))

/-- A build of files is under way. Those in some places have been transformed. -/
structure Underway (s : Setting) (files : List SourceFile) (done : List Nat) (c : Compiler σ) : Prop where
  fits : Fits s c
  nodup : done.Nodup
  bound : ∀ i ∈ done, i < files.length
  handles : c.database.handles = (range (s.origins files done).length).map Handle.mk
  next : c.database.nextHandle = (s.origins files done).length
  jobs : c.OneJobEach
  units : ∀ i origin, (s.origins files done)[i]? = some origin → UnitUnderway s files done c i origin
  lookup : ∀ name, c.database.lookup name = none ↔
    (∀ f ∈ files, name ∉ (ofSource f).names) ∧ ∀ d ∈ s.extracted files done, d.title ≠ name
  named : ∀ d ∈ s.extracted files done, d.WellNamed
  distinct : ((s.extracted files done).map Definition.title).Nodup
  apart : ∀ d ∈ s.extracted files done, ∀ f ∈ files, d.title ∉ (ofSource f).names

/-! ### One job -/

theorem mem_scheduled : j ∈ w.scheduled db h ↔
    (∃ i < w.definitions.length, j = ⟨transform, 0, ⟨db.nextHandle + i⟩⟩) ∨ ∃ step ∈ w.next, j = ⟨step, 0, h⟩ := by
  rw [Work.scheduled, mem_append, List.mem_map, List.mem_map]
  refine or_congr ?_ ?_
  · constructor
    · rintro ⟨k, hk, rfl⟩
      obtain ⟨index, hindex, rfl⟩ := mem_map.1 hk
      obtain ⟨i, hi, rfl⟩ := mem_range'.1 hindex
      exact ⟨i, hi, by rw [Nat.one_mul]⟩
    · rintro ⟨i, hi, rfl⟩
      exact ⟨_, mem_map.2 ⟨_, mem_range'_1.2 ⟨Nat.le_add_right _ i, Nat.add_lt_add_left hi _⟩, rfl⟩, rfl⟩
  · constructor
    · rintro ⟨step, hstep, rfl⟩
      exact ⟨step, mem_toList.1 hstep, rfl⟩
    · rintro ⟨step, hstep, rfl⟩
      exact ⟨step, mem_toList.2 hstep, rfl⟩

section Finish

theorem jobs_takeNext_finish_perm (hc : c.database.Counted) (hjobs : c.database.jobs = j :: waiting) :
    (c.takeNext.finish j.handle w).database.jobs.Perm (waiting ++ w.scheduled c.database j.handle) := by
  refine (jobs_finish_perm (c := c.takeNext) (hc.of_eq rfl rfl) w).trans (.of_eq ?_)
  rw [takeNext, hjobs]
  rfl

theorem nextHandle_takeNext_finish (hc : c.database.Counted) (w : Work) :
    (c.takeNext.finish j.handle w).database.nextHandle = c.database.nextHandle + w.definitions.length :=
  nextHandle_finish (c := c.takeNext) (hc.of_eq rfl rfl) w

theorem OneJobEach.ne_of_mem (hone : c.OneJobEach) (hjobs : c.database.jobs = j :: waiting) :
    ∀ k ∈ waiting, k.handle ≠ j.handle := by
  have hsingle := hone.single
  rw [hjobs, map_cons, nodup_cons] at hsingle
  exact fun k hk heq => hsingle.1 (mem_map.2 ⟨k, hk, heq⟩)

theorem OneJobEach.finish (hone : c.OneJobEach) (hc : c.database.Counted) (hjobs : c.database.jobs = j :: waiting)
    (w : Work) : (c.takeNext.finish j.handle w).OneJobEach := by
  have hperm := jobs_takeNext_finish_perm (w := w) hc hjobs
  have hne := hone.ne_of_mem hjobs
  have hknown := hone.known
  have hsingle := hone.single
  rw [hjobs] at hknown hsingle
  have hself := hknown j mem_cons_self
  have hsched : ∀ k ∈ w.scheduled c.database j.handle, k.handle = j.handle ∨
      c.database.nextHandle ≤ k.handle.index ∧ k.handle.index < c.database.nextHandle + w.definitions.length := by
    intro k hk
    rcases mem_scheduled.1 hk with ⟨i, hi, rfl⟩ | ⟨step, -, rfl⟩
    · exact .inr ⟨Nat.le_add_right _ _, Nat.add_lt_add_left hi _⟩
    · exact .inl rfl
  constructor
  · rw [(hperm.map _).nodup_iff, map_append, nodup_append]
    refine ⟨(nodup_cons.1 hsingle).2, ?_, ?_⟩
    · have hnew : ((c.database.nextHandles w.definitions.length).map (Job.mk transform 0)).map Job.handle =
          c.database.nextHandles w.definitions.length := by
        rw [List.map_map]
        exact map_id _
      rw [Work.scheduled, map_append, hnew, nodup_append]
      refine ⟨?_, ?_, ?_⟩
      · exact Nodup.map (fun _ _ heq => congrArg Handle.index heq) (nodup_range' 1)
      · cases w.next <;> simp
      · intro a ha b hb hab
        obtain ⟨index, hindex, rfl⟩ := mem_map.1 ha
        obtain ⟨k, hk, rfl⟩ := mem_map.1 hb
        obtain ⟨step, -, rfl⟩ := mem_map.1 hk
        have := (mem_range'_1.1 hindex).1
        rw [← hab] at hself
        simp only at hself
        omega
    · intro a ha b hb hab
      obtain ⟨k, hk, rfl⟩ := mem_map.1 ha
      obtain ⟨l, hl, rfl⟩ := mem_map.1 hb
      rcases hsched l hl with heq | ⟨hnew, -⟩
      · exact hne k hk (hab.trans heq)
      · have := hknown k (mem_cons_of_mem _ hk)
        rw [hab] at this
        omega
  · intro k hk
    rw [nextHandle_takeNext_finish hc]
    rcases mem_append.1 (hperm.mem_iff.1 hk) with hk | hk
    · exact Nat.lt_add_right _ (hknown k (mem_cons_of_mem _ hk))
    · rcases hsched k hk with heq | ⟨-, hnew⟩
      · rw [heq]
        exact Nat.lt_add_right _ hself
      · exact hnew

theorem OneJobEach.awaits_self (hone : c.OneJobEach) (hc : c.database.Counted)
    (hjobs : c.database.jobs = j :: waiting) : (c.takeNext.finish j.handle w).Awaits j.handle w.next := by
  have hperm := jobs_takeNext_finish_perm (w := w) hc hjobs
  have hself := hone.known j (hjobs ▸ mem_cons_self)
  intro step
  constructor
  · rintro ⟨k, hk, hhandle, rfl⟩
    rcases mem_append.1 (hperm.mem_iff.1 hk) with hk | hk
    · exact absurd hhandle (hone.ne_of_mem hjobs k hk)
    · rcases mem_scheduled.1 hk with ⟨i, -, rfl⟩ | ⟨step, hstep, rfl⟩
      · rw [← hhandle] at hself
        simp only at hself
        omega
      · exact hstep
  · intro hstep
    exact ⟨⟨step, 0, j.handle⟩, hperm.mem_iff.2 (mem_append_right _ (mem_scheduled.2 (.inr ⟨step, hstep, rfl⟩))),
      rfl, rfl⟩

theorem OneJobEach.awaits_other (hc : c.database.Counted) (hjobs : c.database.jobs = j :: waiting) (hne : k ≠ j.handle)
    (hold : k.index < c.database.nextHandle) (hawaits : c.Awaits k stage) :
    (c.takeNext.finish j.handle w).Awaits k stage := by
  have hperm := jobs_takeNext_finish_perm (w := w) hc hjobs
  intro step
  rw [← hawaits step, hjobs]
  constructor
  · rintro ⟨l, hl, rfl, rfl⟩
    rcases mem_append.1 (hperm.mem_iff.1 hl) with hl | hl
    · exact ⟨l, mem_cons_of_mem _ hl, rfl, rfl⟩
    · rcases mem_scheduled.1 hl with ⟨i, -, rfl⟩ | ⟨step, -, rfl⟩
      · simp only at hold
        omega
      · exact absurd rfl hne
  · rintro ⟨l, hl, rfl, rfl⟩
    rcases mem_cons.1 hl with rfl | hl
    · exact absurd rfl hne
    · exact ⟨l, hperm.mem_iff.2 (mem_append_left _ hl), rfl, rfl⟩

theorem OneJobEach.awaits_new (hone : c.OneJobEach) (hc : c.database.Counted) (hjobs : c.database.jobs = j :: waiting)
    (hi : i < w.definitions.length) :
    (c.takeNext.finish j.handle w).Awaits ⟨c.database.nextHandle + i⟩ (some transform) := by
  have hperm := jobs_takeNext_finish_perm (w := w) hc hjobs
  have hknown := hone.known
  rw [hjobs] at hknown
  intro step
  constructor
  · rintro ⟨l, hl, hhandle, rfl⟩
    rcases mem_append.1 (hperm.mem_iff.1 hl) with hl | hl
    · have := hknown l (mem_cons_of_mem _ hl)
      rw [hhandle] at this
      simp only at this
      omega
    · rcases mem_scheduled.1 hl with ⟨i, -, rfl⟩ | ⟨step, -, rfl⟩
      · rfl
      · have := hknown j mem_cons_self
        rw [hhandle] at this
        simp only at this
        omega
  · intro hstep
    refine ⟨⟨transform, 0, ⟨c.database.nextHandle + i⟩⟩, hperm.mem_iff.2 (mem_append_right _ ?_), rfl,
      some.inj hstep⟩
    exact mem_scheduled.2 (.inl ⟨i, hi, rfl⟩)

theorem UnitUnderway.finish (h : UnitUnderway s files done c i origin) (hc : c.database.Counted)
    (hjobs : c.database.jobs = j :: waiting) (hu : c.database.get? j.handle = some u) (hold : i < c.database.nextHandle)
    (hi : i ≠ j.handle.index) (hdone : i ∈ done' ↔ i ∈ done) :
    UnitUnderway s files done' (c.takeNext.finish j.handle w) i origin := by
  obtain ⟨u', stage, hu', hawaits, hdesc, hpassed⟩ := h
  have hne : (⟨i⟩ : Handle) ≠ j.handle := fun heq => hi (congrArg Handle.index heq)
  have hget := get?_finish (c := c.takeNext) (hc.of_eq rfl rfl) hu w ⟨i⟩
  rw [if_neg hne, if_pos (show i < c.takeNext.database.nextHandle from hold)] at hget
  refine ⟨u', stage, hget.trans hu', OneJobEach.awaits_other hc hjobs hne hold hawaits, hdesc, ?_⟩
  rwa [hdone]

theorem OneJobEach.unitUnderway (hone : c.OneJobEach) (hc : c.database.Counted)
    (hjobs : c.database.jobs = j :: waiting) (hu : c.database.get? j.handle = some u)
    (hfiles : files.length ≤ c.database.nextHandle) (hd : w.definitions[i]? = some d) :
    UnitUnderway s files done' (c.takeNext.finish j.handle w) (c.database.nextHandle + i) d.unit := by
  have hnew : ¬c.database.nextHandle + i < c.database.nextHandle := by omega
  have hbelow := hc.fresh.lt_of_get? hu
  have hne : (⟨c.database.nextHandle + i⟩ : Handle) ≠ j.handle := by
    intro heq
    rw [← heq] at hbelow
    exact hnew hbelow
  refine ⟨stamped ⟨c.database.nextHandle + i⟩ d.unit, some transform, ?_,
    hone.awaits_new hc hjobs (List.getElem?_eq_some_iff.1 hd).1, ⟨rfl, rfl, rfl, .read rfl rfl⟩, fun hfile => ?_⟩
  · rw [get?_finish (c := c.takeNext) (hc.of_eq rfl rfl) hu, if_neg hne,
      if_neg (show ¬_ < c.takeNext.database.nextHandle from hnew)]
    change Option.map _ w.definitions[c.database.nextHandle + i - c.database.nextHandle]? = _
    rw [Nat.add_sub_cancel_left, hd]
    rfl
  · omega

theorem Underway.finish (hunder : Underway s files done c) (hjobs : c.database.jobs = j :: waiting)
    (hu : c.database.get? j.handle = some u) (horigin : (s.origins files done)[j.handle.index]? = some origin)
    (hw : c.Effect s.options u j.step w) (hdesc : s.Descends origin w.closed w.next)
    (hextracted : s.extracted files done' = s.extracted files done ++ w.definitions) (hnodup : done'.Nodup)
    (hbound : ∀ i ∈ done', i < files.length) (hothers : ∀ i, i ≠ j.handle.index → (i ∈ done' ↔ i ∈ done))
    (hself : j.handle.index < files.length → (j.handle.index ∈ done' ↔ Setting.Passed w.next))
    (haccepts : Accepts c.database w.definitions) : Underway s files done' (c.takeNext.finish j.handle w) := by
  have hc := hunder.fits.standard
  have hcounted := hc.numbered.counted
  have hone := hunder.jobs
  have horigins : s.origins files done' = s.origins files done ++ w.definitions.map Definition.unit := by
    rw [Setting.origins, hextracted, map_append, ← append_assoc]
    rfl
  have hlen : (s.origins files done').length = (s.origins files done).length + w.definitions.length := by
    rw [horigins, length_append, length_map]
  refine
    { fits := ⟨hc.takeNext.finish hu (effect_takeNext.2 hw), hunder.fits.parser, hunder.fits.printer⟩
      nodup := hnodup
      bound := hbound
      handles := ?_
      next := by rw [nextHandle_takeNext_finish hcounted, hunder.next, hlen]
      jobs := hone.finish hcounted hjobs w
      units := ?_
      lookup := ?_
      named := ?_
      distinct := ?_
      apart := ?_ }
  · rw [handles_finish hc.ruled.takeNext.counted, hlen, range_add, map_append, ← hunder.handles]
    refine congrArg _ ?_
    rw [nextHandles, range'_eq_map_range, List.map_map, List.map_map, ← hunder.next]
    rfl
  · intro i origin' horigin'
    rw [horigins, getElem?_append, ← hunder.next] at horigin'
    split at horigin'
    · rename_i hold
      by_cases hi : i = j.handle.index
      · subst hi
        rw [horigin] at horigin'
        cases horigin'
        exact ⟨w.closed, w.next, get?_finish_self hc.ruled.takeNext.counted hu w, hone.awaits_self hcounted hjobs, hdesc,
          hself⟩
      · exact (hunder.units i origin' horigin').finish hcounted hjobs hu hold hi (hothers i hi)
    · rename_i hnew
      obtain ⟨m, rfl⟩ := Nat.exists_eq_add_of_le (Nat.le_of_not_lt hnew)
      rw [Nat.add_sub_cancel_left, getElem?_map, map_eq_some_iff] at horigin'
      obtain ⟨d, hd, rfl⟩ := horigin'
      refine hone.unitUnderway hcounted hjobs hu ?_ hd
      rw [hunder.next, Setting.origins, length_append, length_map]
      exact Nat.le_add_right _ _
  · intro name
    rw [lookup_finish_eq_none hc.ruled.takeNext.counted, hextracted, forall_mem_append]
    change c.database.lookup name = none ∧ _ ↔ _
    rw [hunder.lookup, and_assoc]
  · rw [hextracted]
    exact forall_mem_append.2 ⟨hunder.named, haccepts.named⟩
  · rw [hextracted, map_append, nodup_append]
    refine ⟨hunder.distinct, haccepts.distinct, ?_⟩
    rintro _ htitle _ htitle'
    obtain ⟨d, hd, rfl⟩ := mem_map.1 htitle
    obtain ⟨e, he, rfl⟩ := mem_map.1 htitle'
    exact ((hunder.lookup e.title).1 (haccepts.unknown e he)).2 d hd
  · rw [hextracted]
    refine forall_mem_append.2 ⟨hunder.apart, fun d hd => ?_⟩
    exact ((hunder.lookup d.title).1 (haccepts.unknown d hd)).1

theorem extracts_without_errors {tree tree' : Node} {definitions left : List Definition}
    {reports : List Diagnostic} (hextracts : o.Extracts db tree definitions left reports tree') :
    reports.any Diagnostic.isError = false ↔ reports = [] := by
  rw [List.any_eq_false]
  constructor
  · refine fun hnone => eq_nil_iff_forall_not_mem.2 fun x hx => ?_
    obtain ⟨d, -, hrefuses⟩ := hextracts.refused x hx
    exact hnone x hx hrefuses.isError
  · rintro rfl
    exact forall_mem_nil _

/-- What a job may come to for a unit that came in as `origin`. -/
inductive Turn (s : Setting) (db : Database) (origin : CompilationUnit) (step : Nat) (w : Work) : Prop where
  | unread (hfailed : w.failed = true) (horigin : s.treeOf? origin = none) : Turn s db origin step w
  | unprinted {tree : Node} (hfailed : w.failed = true) (horigin : s.treeOf? origin = some tree)
      (hprint : s.text? (s.options.settle tree) = none) : Turn s db origin step w
  | transformed {tree : Node} (hstep : step = transform) (horigin : s.treeOf? origin = some tree)
      (hfailed : w.failed = false ↔ Accepts db (s.options.definitions tree))
      (hnext : w.failed = false → w.definitions = s.options.definitions tree ∧ s.Stands origin w.closed w.next ∧
        Setting.Passed w.next) : Turn s db origin step w
  | onward (hfailed : w.failed = false) (hdefs : w.definitions = []) (hstands : s.Stands origin w.closed w.next)
      (hpassed : Setting.Passed (some step) ↔ Setting.Passed w.next) : Turn s db origin step w

theorem turn_of_effect (hfits : Fits s c) (hdesc : s.Descends origin u (some step))
    (hw : c.Effect s.options u step w) : Turn s c.database origin step w := by
  obtain ⟨hsource, -, -, hstands⟩ := hdesc
  generalize hstage : some step = stage at hstands
  cases hstands with
  | unread horigin =>
    cases hstage
    rw [horigin] at hsource
    generalize hstep : Stage.parse = step at hw
    cases hw with
    | read hsource' hparse =>
      rw [hsource] at hsource'
      cases hsource'
      rw [hfits.parser] at hparse
      refine .onward rfl rfl (.read ?_ rfl) ⟨fun h => absurd rfl h.1, fun h => absurd rfl h.2⟩
      rw [Setting.treeOf?, horigin]
      simp only [hparse]
      rfl
    | unread hsource' hparse =>
      rw [hsource] at hsource'
      cases hsource'
      rw [hfits.parser] at hparse
      refine .unread ?_ ?_
      · rw [Work.failed, any_cons, SyntaxError.isError_diagnostic]
        rfl
      · rw [Setting.treeOf?, horigin]
        simp only [hparse]
        rfl
    | given hsource' _ => exact absurd (hsource.symm.trans hsource') (some_ne_none _)
    | idle _ hunread => exact absurd (hsource.symm.trans (hunread hstep.symm)) (some_ne_none _)
    | _ => cases hstep
  | read horigin htree =>
    cases hstage
    generalize hstep : Stage.transform = step at hw
    cases hw with
    | transformed htree' hextracts =>
      obtain rfl := some.inj (htree.symm.trans htree')
      have hnone := extracts_without_errors hextracts
      refine .transformed rfl horigin (hnone.trans hextracts.accepted) fun hfailed => ?_
      obtain ⟨hsettled, hdefs⟩ := hextracts.exact (hnone.1 hfailed)
      exact ⟨hdefs, .settled horigin (congrArg some hsettled) (.inl rfl), nofun, nofun⟩
    | idle hidle _ => exact absurd (htree.symm.trans (hidle (hstep ▸ by decide))) (some_ne_none _)
    | _ => cases hstep
  | @settled tree stage horigin htree hlast =>
    cases hstage
    have hpassed : Setting.Passed (some step) := by rcases hlast with rfl | rfl <;> exact ⟨nofun, nofun⟩
    cases hw with
    | linted _ hremarks =>
      refine .onward ?_ rfl (.settled horigin htree (.inr rfl)) ⟨fun _ => ⟨nofun, nofun⟩, fun _ => hpassed⟩
      exact any_eq_false.2 fun x hx => by rw [(hremarks x hx).isError]; exact Bool.false_ne_true
    | printed htree' hprint =>
      obtain rfl := some.inj (htree.symm.trans htree')
      rw [hfits.printer] at hprint
      exact .onward rfl rfl (.printed horigin htree hprint rfl) ⟨fun _ => ⟨nofun, nofun⟩, fun _ => hpassed⟩
    | unprinted htree' hprint =>
      obtain rfl := some.inj (htree.symm.trans htree')
      rw [hfits.printer] at hprint
      refine .unprinted ?_ horigin ?_
      · rw [Work.failed, any_cons, PrintFault.isError_diagnostic]
        rfl
      · rw [Setting.text?, hprint]
        rfl
    | idle hidle _ =>
      have hle : step ≤ Stage.print := by rcases hlast with rfl | rfl <;> decide
      exact absurd (htree.symm.trans (hidle hle)) (some_ne_none _)
    | read | unread | given | transformed => rcases hlast with hlast | hlast <;> cases hlast
  | printed => cases hstage

theorem Underway.accepts (hunder : Underway s files done c) (hcompiles : s.Compiles files) (hi : i ∉ done) :
    Accepts c.database ((files[i]?.map s.definitions).getD []) := by
  cases hf : files[i]? with
  | none => exact NestedFunction.accepts_nil _
  | some f =>
    have hmem := mem_of_getElem? hf
    have hsingle := hcompiles.single hmem
    refine ⟨?_, ?_, fun d hd => (hunder.lookup d.title).2 ⟨?_, fun e he => ?_⟩⟩
    · have hnamed := hsingle.named
      rwa [flatMap_singleton] at hnamed
    · have hdist := hsingle.distinct
      rwa [flatMap_singleton] at hdist
    · exact hcompiles.apart d (mem_flatMap.2 ⟨f, hmem, hd⟩)
    · obtain ⟨k, hk, g, hg, he⟩ := Setting.mem_extracted.1 he
      exact hcompiles.ne_title hg hf (fun heq => hi (heq ▸ hk)) he hd

theorem Underway.transform (hunder : Underway s files done c) (hjobs : c.database.jobs = j :: waiting)
    (hu : c.database.get? j.handle = some u) (horigin : (s.origins files done)[j.handle.index]? = some origin)
    (hw : c.Effect s.options u j.step w) (hdesc : s.Descends origin w.closed w.next)
    (hfirst : j.handle.index ∉ done) (hpassed : Setting.Passed w.next)
    (hdefs : w.definitions = (files[j.handle.index]?.map s.definitions).getD [])
    (haccepts : Accepts c.database w.definitions) : ∃ done', Underway s files done' (c.takeNext.finish j.handle w) := by
  by_cases hfile : j.handle.index < files.length
  · refine ⟨done ++ [j.handle.index], hunder.finish hjobs hu horigin hw hdesc ?_ ?_ ?_ ?_ ?_ haccepts⟩
    · rw [Setting.extracted, flatMap_append, flatMap_singleton, ← hdefs]
      rfl
    · rw [← concat_eq_append]
      exact hunder.nodup.concat hfirst
    · exact forall_mem_append.2 ⟨hunder.bound, forall_mem_singleton.2 hfile⟩
    · intro i hi
      rw [mem_append, mem_singleton, or_iff_left hi]
    · exact fun _ => iff_of_true (mem_append_right _ mem_cons_self) hpassed
  · have hnone : w.definitions = [] := by
      rw [hdefs, getElem?_eq_none (Nat.le_of_not_lt hfile)]
      rfl
    refine ⟨done, hunder.finish hjobs hu horigin hw hdesc ?_ hunder.nodup hunder.bound
      (fun _ _ => Iff.rfl) (fun hfile' => absurd hfile' hfile) haccepts⟩
    rw [hnone, append_nil]

/-- One job: it does not fail if nothing is wrong with the files, and if it does not fail, the build goes on. -/
theorem Underway.does (hunder : Underway s files done c) (hv : Does c v c') :
    (s.Compiles files → v.failed = false) ∧ (v.failed = false → ∃ done', Underway s files done' c') := by
  have hc := hunder.fits.standard
  obtain ⟨waiting, hjobs⟩ := head?_eq_some_iff.1 hv.next
  have hmem : v.job ∈ c.database.jobs := hjobs ▸ mem_cons_self
  have hindex : v.job.handle.index < (s.origins files done).length := by
    rw [← hunder.next]
    exact hunder.jobs.known v.job hmem
  obtain ⟨origin, horigin⟩ : ∃ origin, (s.origins files done)[v.job.handle.index]? = some origin :=
    ⟨_, getElem?_eq_getElem hindex⟩
  obtain ⟨u, stage, hu, hawaits, hdesc, hpassed⟩ := hunder.units _ origin horigin
  obtain rfl : stage = some v.job.step := (hawaits v.job.step).1 ⟨v.job, hmem, rfl, rfl⟩
  rcases hv.cases hc.ruled with ⟨hnone, -, -, -⟩ | ⟨u', w, hu', hw, hgained, -, rfl⟩
  · exact absurd (hu.symm.trans hnone) (some_ne_none u)
  · obtain rfl : u = u' := some.inj (hu.symm.trans hu')
    have hfailed : v.failed = w.failed := by
      rw [Visit.failed, hgained, Work.gained, List.any_map]
      rfl
    rw [hfailed]
    have hdesc' : s.Stands origin w.closed w.next → s.Descends origin w.closed w.next := fun hstands =>
      ⟨(congrArg source hw.unit_eq).trans hdesc.source,
        (congrArg filename hw.unit_eq).trans hdesc.filename,
        (congrArg resourceName hw.unit_eq).trans hdesc.resourceName, hstands⟩
    cases turn_of_effect hunder.fits hdesc hw with
    | unread hfailed hunread =>
      refine ⟨fun hcompiles => ?_, fun hnot => ?_⟩
      · rcases Setting.origin_cases horigin with ⟨f, hf, rfl⟩ | ⟨-, d, -, rfl⟩
        · have hread := hcompiles.read f (mem_of_getElem? hf)
          rw [show s.tree? f = none from hunread] at hread
          cases hread
        · cases hunread
      · rw [hfailed] at hnot
        cases hnot
    | unprinted hfailed htree hprint =>
      refine ⟨fun hcompiles => ?_, fun hnot => ?_⟩
      · have hsome := hcompiles.isSome_text? horigin htree
        rw [hprint] at hsome
        cases hsome
      · rw [hfailed] at hnot
        cases hnot
    | onward hfailed hdefs hstands hsame =>
      refine ⟨fun _ => hfailed, fun _ => ⟨done, ?_⟩⟩
      refine hunder.finish hjobs hu horigin hw (hdesc' hstands) ?_ hunder.nodup hunder.bound
        (fun _ _ => Iff.rfl) (fun hfile => (hpassed hfile).trans hsame) ?_
      · rw [hdefs, append_nil]
      · rw [hdefs]
        exact NestedFunction.accepts_nil _
    | transformed hstep htree hfailed hnext =>
      have hfirst : v.job.handle.index ∉ done := by
        intro hdone
        rw [hstep] at hpassed
        exact ((hpassed (hunder.bound _ hdone)).1 hdone).2 rfl
      rw [Setting.definitions_of_origin horigin htree] at hfailed hnext
      refine ⟨fun hcompiles => hfailed.2 (hunder.accepts hcompiles hfirst), fun hnot => ?_⟩
      obtain ⟨hdefs, hstands, hnext⟩ := hnext hnot
      have haccepts := hfailed.1 hnot
      rw [← hdefs] at haccepts
      exact hunder.transform hjobs hu horigin hw (hdesc' hstands) hfirst hnext hdefs haccepts

end Finish

/-! ### Whole builds -/

theorem Underway.rest (hunder : Underway s files done c) : Underway s files done c.rest :=
  { fits := ⟨hunder.fits.standard.rest, hunder.fits.parser, hunder.fits.printer⟩
    nodup := hunder.nodup
    bound := hunder.bound
    handles := hunder.handles
    next := hunder.next
    jobs := ⟨hunder.jobs.single, hunder.jobs.known⟩
    units := hunder.units
    lookup := hunder.lookup
    named := hunder.named
    distinct := hunder.distinct
    apart := hunder.apart }

/-- No job fails if nothing is wrong with the files; and as long as no job fails, the build is under way. -/
theorem Underway.trace {visits : List Visit} (hunder : Underway s files done c) (htrace : Trace c visits c') :
    (s.Compiles files → ∀ v ∈ visits, v.failed = false) ∧
      ((∀ v ∈ visits, v.failed = false) → ∃ done', Underway s files done' c') := by
  induction htrace generalizing done with
  | done => exact ⟨fun _ => forall_mem_nil _, fun _ => ⟨done, hunder⟩⟩
  | pause _ ih => exact ih hunder.rest
  | visit hdoes _ ih =>
    obtain ⟨hfine, hgoes⟩ := hunder.does hdoes
    constructor
    · intro hcompiles
      obtain ⟨done', hunder'⟩ := hgoes (hfine hcompiles)
      exact forall_mem_cons.2 ⟨hfine hcompiles, (ih hunder').1 hcompiles⟩
    · intro hnone
      rw [forall_mem_cons] at hnone
      obtain ⟨done', hunder'⟩ := hgoes hnone.1
      exact (ih hunder').2 hnone.2

def addAll (c : Compiler σ) : List SourceFile → List Handle × Compiler σ
  | [] => ([], c)
  | f :: files => ((c.add f).1 :: ((c.add f).2.addAll files).1, ((c.add f).2.addAll files).2)

theorem origins_nil (s : Setting) (files : List SourceFile) : s.origins files [] = files.map ofSource :=
  append_nil _

theorem underway_empty (hfits : Fits s c) (hempty : c.database = {}) : Underway s [] [] c :=
  { fits := hfits
    nodup := nodup_nil
    bound := forall_mem_nil _
    handles := by rw [hempty]; rfl
    next := by rw [hempty]; rfl
    jobs := by
      constructor
      · rw [hempty]
        exact nodup_nil
      · rw [hempty]
        exact forall_mem_nil _
    units := fun i origin horigin => by cases horigin
    lookup := fun name => iff_of_true (by rw [hempty]; rfl) ⟨forall_mem_nil _, forall_mem_nil _⟩
    named := forall_mem_nil _
    distinct := nodup_nil
    apart := forall_mem_nil _ }

section Add

variable (f : SourceFile)

theorem get?_add (c : Compiler σ) (f : SourceFile) (k : Handle) : (c.add f).2.database.get? k =
    if k = (c.add f).1 then some (stamped (c.add f).1 (.ofSource f)) else c.database.get? k :=
  get?_insert

theorem jobs_add_perm (c : Compiler σ) (f : SourceFile) :
    (c.add f).2.database.jobs.Perm (⟨Stage.parse, 0, (c.add f).1⟩ :: c.database.jobs) := by
  refine (Job.insert_perm _ _).trans (.of_eq ?_)
  rw [jobs_insert]
  rfl

theorem nextHandle_add (c : Compiler σ) (f : SourceFile) :
    (c.add f).2.database.nextHandle = c.database.nextHandle + 1 := by
  change (c.database.insert _ _).nextHandle = _
  rw [nextHandle_insert]
  exact Nat.max_eq_right (Nat.le_succ _)

theorem handles_add (hc : c.database.Counted) : (c.add f).2.database.handles = c.database.handles ++ [(c.add f).1] := by
  have hnot : (c.add f).1 ∉ c.database.handles := not_mem_handles (hc.fresh.get?_eq_none (Nat.le_refl _))
  change (c.database.insert (c.add f).1 _).handles = _
  rw [handles_insert, if_neg hnot]

theorem lookup_add_eq_none (hc : c.database.Counted) (name : String) : (c.add f).2.database.lookup name = none ↔
    name ∉ (ofSource f).names ∧ c.database.lookup name = none := by
  change (c.database.insert ⟨c.database.nextHandle⟩ _).lookup name = none ↔ _
  rw [Database.insert_of_none (hc.fresh.get?_eq_none (Nat.le_refl _)), Database.lookup, Database.lookup_enter]
  by_cases hname : name ∈ (ofSource f).names
  · simp [hname]
  · simp [hname, Database.lookup]

theorem OneJobEach.ne_add (hone : c.OneJobEach) : ∀ j ∈ c.database.jobs, j.handle ≠ (c.add f).1 := by
  intro j hj heq
  have := hone.known j hj
  rw [heq] at this
  exact Nat.lt_irrefl _ this

theorem OneJobEach.add (hone : c.OneJobEach) : (c.add f).2.OneJobEach := by
  have hperm := jobs_add_perm c f
  constructor
  · rw [(hperm.map _).nodup_iff, map_cons, nodup_cons]
    refine ⟨fun hmem => ?_, hone.single⟩
    obtain ⟨j, hj, heq⟩ := mem_map.1 hmem
    exact hone.ne_add f j hj heq
  · intro j hj
    rw [nextHandle_add]
    rcases mem_cons.1 (hperm.mem_iff.1 hj) with rfl | hj
    · exact Nat.lt_succ_self _
    · exact Nat.lt_succ_of_lt (hone.known j hj)

theorem Awaits.add (hne : k ≠ (c.add f).1) (h : c.Awaits k stage) : (c.add f).2.Awaits k stage := by
  have hperm := jobs_add_perm c f
  intro step
  rw [← h step]
  constructor
  · rintro ⟨j, hj, hhandle, hstep⟩
    rcases mem_cons.1 (hperm.mem_iff.1 hj) with rfl | hj
    · exact absurd hhandle (symm hne)
    · exact ⟨j, hj, hhandle, hstep⟩
  · rintro ⟨j, hj, hhandle, hstep⟩
    exact ⟨j, hperm.mem_iff.2 (mem_cons_of_mem _ hj), hhandle, hstep⟩

theorem OneJobEach.awaits_add (hone : c.OneJobEach) : (c.add f).2.Awaits (c.add f).1 (some Stage.parse) := by
  have hperm := jobs_add_perm c f
  intro step
  constructor
  · rintro ⟨j, hj, hhandle, rfl⟩
    rcases mem_cons.1 (hperm.mem_iff.1 hj) with rfl | hj
    · rfl
    · exact absurd hhandle (hone.ne_add f j hj)
  · intro hstep
    exact ⟨_, hperm.mem_iff.2 mem_cons_self, rfl, some.inj hstep⟩

theorem Underway.add (hunder : Underway s files [] c) :
    Underway s (files ++ [f]) [] (c.add f).2 ∧ (c.add f).1 = ⟨files.length⟩ := by
  have hc := hunder.fits.standard
  have hnext : c.database.nextHandle = files.length := by rw [hunder.next, origins_nil, length_map]
  have hhandle : (c.add f).1 = ⟨files.length⟩ := congrArg Handle.mk hnext
  have hlen : (s.origins (files ++ [f]) []).length = files.length + 1 := by
    rw [origins_nil, length_map, length_append, length_singleton]
  refine ⟨?_, hhandle⟩
  refine
    { fits := ⟨hc.add f, hunder.fits.parser, hunder.fits.printer⟩
      nodup := nodup_nil
      bound := forall_mem_nil _
      handles := ?_
      next := by rw [nextHandle_add, hnext, hlen]
      jobs := hunder.jobs.add f
      units := ?_
      lookup := ?_
      named := forall_mem_nil _
      distinct := nodup_nil
      apart := forall_mem_nil _ }
  · have hhandles := hunder.handles
    rw [origins_nil, length_map] at hhandles
    rw [handles_add f hc.numbered.counted, hhandles, hhandle, hlen, range_succ, map_append]
    rfl
  · intro i origin horigin
    rw [origins_nil, map_append, getElem?_append, length_map] at horigin
    split at horigin
    · rename_i hold
      have hne : (⟨i⟩ : Handle) ≠ (c.add f).1 := by
        rw [hhandle]
        exact fun heq => Nat.ne_of_lt hold (congrArg Handle.index heq)
      obtain ⟨u, stage, hu, hawaits, hdesc, hpassed⟩ := hunder.units i origin (by rwa [origins_nil])
      exact ⟨u, stage, by rw [get?_add, if_neg hne, hu], hawaits.add f hne, hdesc, fun _ => hpassed hold⟩
    · rename_i hold
      obtain ⟨m, rfl⟩ := Nat.exists_eq_add_of_le (Nat.le_of_not_lt hold)
      rw [Nat.add_sub_cancel_left] at horigin
      cases m with
      | succ m => cases horigin
      | zero =>
        cases horigin
        rw [Nat.add_zero, UnitUnderway, ← hhandle]
        exact ⟨stamped (c.add f).1 (.ofSource f), some Stage.parse, by rw [get?_add, if_pos rfl],
          hunder.jobs.awaits_add f, ⟨rfl, rfl, rfl, .unread rfl⟩,
          fun _ => iff_of_false not_mem_nil fun h => h.1 rfl⟩
  · intro name
    rw [lookup_add_eq_none f hc.numbered.counted, hunder.lookup, forall_mem_append, forall_mem_singleton,
      and_left_comm, and_assoc]
    exact Iff.rfl

end Add

theorem Underway.addAll (hunder : Underway s files [] c) (more : List SourceFile) :
    Underway s (files ++ more) [] (c.addAll more).2 ∧
      (c.addAll more).1 = (range' files.length more.length).map Handle.mk := by
  induction more generalizing files c with
  | nil => exact ⟨by rwa [append_nil], rfl⟩
  | cons f more ih =>
    obtain ⟨hadd, hhandle⟩ := hunder.add f
    obtain ⟨hall, hhandles⟩ := ih hadd
    rw [append_assoc] at hall
    refine ⟨hall, ?_⟩
    rw [addAll, hhandle, hhandles, length_append]
    rfl

/-- A unit that has been printed. -/
structure Printed (s : Setting) (origin u : CompilationUnit) (tree : Node) (text : String) : Prop where
  filename : u.filename = origin.filename
  resourceName : u.resourceName = origin.resourceName
  read : s.treeOf? origin = some tree
  settled : u.tree = some (s.options.settle tree)
  prints : s.printer.render (s.options.settle tree) = .ok text
  output : u.output = some text

variable {spec : Spec} {memory : σ}

theorem Underway.printed (hunder : Underway s files done c) (hjobs : c.database.jobs = [])
    (horigin : (s.origins files done)[i]? = some origin) :
    ∃ u tree text, c.database.get? ⟨i⟩ = some u ∧ Printed s origin u tree text := by
  obtain ⟨u, stage, hu, hawaits, hdesc, -⟩ := hunder.units i origin horigin
  have hstage : stage = none := by
    cases stage with
    | none => rfl
    | some step =>
      obtain ⟨j, hj, -⟩ := (hawaits step).2 rfl
      rw [hjobs] at hj
      cases hj
  have hstands := hdesc.stands
  rw [hstage] at hstands
  cases hstands with
  | printed htree hsettled hprint houtput =>
    exact ⟨u, _, _, hu, hdesc.filename, hdesc.resourceName, htree, hsettled, hprint, houtput⟩

theorem origins_file {f : SourceFile} (hf : files[i]? = some f) (done : List Nat) :
    (s.origins files done)[i]? = some (.ofSource f) := by
  have hi := (List.getElem?_eq_some_iff.1 hf).1
  rw [Setting.origins, getElem?_append_left (by rwa [length_map]), getElem?_map, hf]
  rfl

theorem Underway.extracted_perm (hunder : Underway s files done c) (hjobs : c.database.jobs = []) :
    (s.extracted files done).Perm (files.flatMap s.definitions) := by
  have hdone : done.Perm (range files.length) := by
    refine (perm_ext_iff_of_nodup hunder.nodup nodup_range).2 fun i => ?_
    rw [mem_range]
    refine ⟨hunder.bound i, fun hi => ?_⟩
    obtain ⟨u, stage, -, hawaits, -, hpassed⟩ := hunder.units i _ (origins_file (getElem?_eq_getElem hi) done)
    refine (hpassed hi).2 ?_
    cases stage with
    | none => exact ⟨nofun, nofun⟩
    | some step =>
      obtain ⟨j, hj, -⟩ := (hawaits step).2 rfl
      rw [hjobs] at hj
      cases hj
  rw [← Setting.extracted_range]
  exact hdone.flatMap_right _

theorem origins_extracted (hd : (s.extracted files done)[i]? = some d) :
    (s.origins files done)[files.length + i]? = some d.unit := by
  rw [Setting.origins, getElem?_append_right (by rw [length_map]; exact Nat.le_add_right _ _), length_map,
    Nat.add_sub_cancel_left, getElem?_map, hd]
  rfl

theorem Underway.compiles (hunder : Underway s files done c) (hjobs : c.database.jobs = []) : s.Compiles files := by
  have hperm := hunder.extracted_perm hjobs
  refine ⟨⟨?_, ?_, ?_, ?_⟩, ?_, ?_⟩
  · intro f hf
    obtain ⟨i, hf⟩ := getElem?_of_mem hf
    obtain ⟨u, tree, text, -, hprinted⟩ := hunder.printed hjobs (origins_file hf done)
    rw [show s.tree? f = some tree from hprinted.read]
    rfl
  · exact fun d hd => hunder.named d (hperm.mem_iff.2 hd)
  · exact ((hperm.map _).nodup_iff).1 hunder.distinct
  · exact fun d hd => hunder.apart d (hperm.mem_iff.2 hd)
  · intro f hf tree htree
    obtain ⟨i, hf⟩ := getElem?_of_mem hf
    obtain ⟨u, tree', text, -, hprinted⟩ := hunder.printed hjobs (origins_file hf done)
    obtain rfl := some.inj (htree.symm.trans hprinted.read)
    rw [Setting.text?, hprinted.prints]
    rfl
  · intro d hd
    have hd := hperm.mem_iff.2 hd
    obtain ⟨i, hi⟩ := getElem?_of_mem hd
    obtain ⟨u, tree, text, -, hprinted⟩ := hunder.printed hjobs (origins_extracted hi)
    obtain rfl : d.body = tree := some.inj hprinted.read
    have htext := hprinted.prints
    rw [settle_of_settled (Setting.settled_of_mem_extracted hd)] at htext
    rw [Setting.text?, htext]
    rfl

def setting (c : Compiler σ) (o : Options) : Setting := ⟨c.parser, c.printer, o⟩

theorem database_of_ofSpec (hc : ofSpec spec o memory = .ok c) : c.database = {} := by
  rw [ofSpec] at hc
  split at hc <;> cases hc
  rfl

theorem underway_of_ofSpec (hc : ofSpec spec o memory = .ok c)
    (files : List SourceFile) : Underway (c.setting o) files [] (c.addAll files).2 ∧
      (c.addAll files).1 = (range files.length).map Handle.mk := by
  have hfits : Fits (c.setting o) c := ⟨standard_of_ofSpec hc, rfl, rfl⟩
  have hall := (underway_empty hfits (database_of_ofSpec hc)).addAll files
  rw [range_eq_range']
  exact hall

/-- A build of files finishes just if nothing is wrong with them; and then it is under way with no jobs left. -/
theorem run_finished_iff (hc : ofSpec spec o memory = .ok c) (files : List SourceFile) (extra : Nat) :
    (((c.addAll files).2.run extra).1 = .finished ↔ (c.setting o).Compiles files) ∧
      (((c.addAll files).2.run extra).1 = .finished → ((c.addAll files).2.run extra).2.database.jobs = [] ∧
          ∃ done, Underway (c.setting o) files done ((c.addAll files).2.run extra).2) := by
  have hunder := (underway_of_ofSpec hc files).1
  obtain ⟨visits, htrace, -, hends⟩ := run_trace hunder.fits.standard extra
  obtain ⟨hfine, hgoes⟩ := hunder.trace htrace
  generalize (c.addAll files).2.run extra = result at htrace hends hfine hgoes ⊢
  obtain ⟨outcome, c'⟩ := result
  cases hends with
  | finished hjobs hnone =>
    obtain ⟨done, hunder'⟩ := hgoes hnone
    exact ⟨iff_of_true rfl (hunder'.compiles hjobs), fun _ => ⟨hjobs, done, hunder'⟩⟩
  | failed hfailed _ _ _ =>
    refine ⟨iff_of_false nofun fun hcompiles => ?_, nofun⟩
    obtain ⟨v, hv, hvfailed⟩ := hfailed
    rw [hfine hcompiles v hv] at hvfailed
    cases hvfailed

end Compiler

end Mcfunction
