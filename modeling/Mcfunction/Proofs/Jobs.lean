import Mcfunction.Build.Compiler
import Mcfunction.Proofs.Transforms

/-! What a job does. Whatever the step, a job leaves its unit changed in one of a few ways, takes in the units of the
definitions that it finds, reports something, and lets the unit wait for the next step or not at all; nothing else
in the compiler changes. Main statement: a job of a compiler with standard rules has one of these effects. -/

namespace Mcfunction

open List Database Stage Diagnostic Job
open NestedFunction (Definition)

/-! ### Adding diagnostics -/

namespace Diagnostics

variable {ds : Diagnostics}

theorem foldl_add (ds : Diagnostics) (reports : List Diagnostic) :
    reports.foldl add ds = { ds with entries := ds.entries ++ reports.map ds.stamp } := by
  induction reports generalizing ds with
  | nil => rw [foldl_nil, map_nil, append_nil]
  | cons x reports ih =>
    rw [foldl_cons, ih]
    simp only [add, append_assoc]
    rfl

theorem file_stamp {x : Diagnostic} (h : x.file = none) : (ds.stamp x).file = ds.file := by
  change (x.file <|> ds.file) = ds.file
  rw [h]
  rfl

def Plain (ds : Diagnostics) : Prop := ds = { entries := ds.entries }

theorem Plain.stamp (h : ds.Plain) (x : Diagnostic) : ds.stamp x = x := by
  rw [h]
  simp [Diagnostics.stamp]

theorem Plain.foldl_add (h : ds.Plain) (reports : List Diagnostic) :
    reports.foldl add ds = { entries := ds.entries ++ reports } := by
  rw [Diagnostics.foldl_add, (map_congr_left fun x _ => h.stamp x).trans (map_id reports)]
  rw [h]

end Diagnostics

theorem SyntaxError.isError_diagnostic (e : SyntaxError) : e.diagnostic.isError = true := by
  simp [diagnostic, isError]

theorem SyntaxError.file_diagnostic (e : SyntaxError) : e.diagnostic.file = none := by
  simp [diagnostic]

theorem PrintFault.isError_diagnostic (fault : PrintFault) : fault.diagnostic.isError = true := by
  cases fault <;> simp [diagnostic, PrintProblem.diagnostic, isError]

theorem PrintFault.file_diagnostic (fault : PrintFault) : fault.diagnostic.file = none := by
  cases fault <;> simp [diagnostic, PrintProblem.diagnostic]

variable {u : CompilationUnit}

namespace Database

variable {db : Database} {h k : Handle} {next : Option Nat}

def processing (db : Database) (h : Handle) : Database := { db with current := some h }

theorem Counted.processing (hdb : db.Counted) (h : Handle) : (db.processing h).Counted := hdb.of_eq rfl rfl

theorem Numbered.processing (hdb : db.Numbered) (h : Handle) : (db.processing h).Numbered := hdb.of_eq rfl rfl

def schedule (db : Database) (h : Handle) : Option Nat → Database
  | some step => db.enqueue h step 0
  | none => db

theorem schedule_eq (db : Database) (h : Handle) (next : Option Nat) :
    ∃ jobs, db.schedule h next = { db with jobs } := by
  cases next with
  | none => exact ⟨db.jobs, rfl⟩
  | some step => exact ⟨_, rfl⟩

@[simp] theorem get?_schedule : (db.schedule h next).get? k = db.get? k := by
  cases next <;> rfl

@[simp] theorem handles_schedule : (db.schedule h next).handles = db.handles := by
  cases next <;> rfl

@[simp] theorem nextHandle_schedule : (db.schedule h next).nextHandle = db.nextHandle := by
  cases next <;> rfl

@[simp] theorem lookup_schedule {name : String} : (db.schedule h next).lookup name = db.lookup name := by
  cases next <;> rfl

theorem jobs_schedule_perm : (db.schedule h next).jobs.Perm (db.jobs ++ next.toList.map fun step => ⟨step, 0, h⟩) := by
  cases next with
  | none => exact .of_eq (append_nil _).symm
  | some step => exact (insert_perm _ _).trans (perm_append_singleton _ _).symm

theorem ordered_schedule (hdb : Ordered db.jobs) : Ordered (db.schedule h next).jobs := by
  cases next with
  | none => exact hdb
  | some step => exact hdb.insert _

theorem Counted.schedule (hdb : db.Counted) (h : Handle) (next : Option Nat) : (db.schedule h next).Counted :=
  hdb.of_eq handles_schedule nextHandle_schedule

theorem Numbered.schedule (hdb : db.Numbered) (h : Handle) (next : Option Nat) : (db.schedule h next).Numbered := by
  obtain ⟨jobs, heq⟩ := db.schedule_eq h next
  rw [heq]
  exact hdb.of_eq rfl rfl

end Database

namespace Compiler

variable {σ : Type} {c : Compiler σ} {o : Options} {h k : Handle} {step : Nat}

/-! ### Effects -/

structure Work where
  unit : CompilationUnit
  definitions : List Definition := []
  reports : List Diagnostic := []
  next : Option Nat := none

namespace Work

def closed (w : Work) : CompilationUnit :=
  { w.unit with diagnostics := w.reports.foldl Diagnostics.add w.unit.diagnostics }

def gained (w : Work) : List Diagnostic := w.reports.map w.unit.diagnostics.stamp

def failed (w : Work) : Bool := w.reports.any isError

end Work

/-- The effects that jobs of a step may have on a unit. -/
inductive Effect (c : Compiler σ) (o : Options) (u : CompilationUnit) : Nat → Work → Prop where
  | read {text tree} (hsource : u.source = some text) (hparse : c.parser.parse text = .ok tree) :
      Effect c o u Stage.parse { unit := { u with tree := some tree }, next := some Stage.transform }
  | unread {text e} (hsource : u.source = some text) (hparse : c.parser.parse text = .error e) :
      Effect c o u Stage.parse { unit := u, reports := [e.diagnostic] }
  | given {tree} (hsource : u.source = none) (htree : u.tree = some tree) :
      Effect c o u Stage.parse { unit := u, next := some Stage.transform }
  | transformed {tree tree' definitions left reports} (htree : u.tree = some tree)
      (hextracts : o.Extracts c.database tree definitions left reports tree') :
      Effect c o u transform
        { unit := { u with tree := some tree' }, definitions, reports, next := some lint }
  | linted {tree reports} (htree : u.tree = some tree) (hremarks : ∀ x ∈ reports, Options.IsRemark tree x) :
      Effect c o u Stage.lint { unit := u, reports, next := some Stage.print }
  | printed {tree text} (htree : u.tree = some tree) (hprint : c.printer.render tree = .ok text) :
      Effect c o u Stage.print { unit := { u with output := some text } }
  | unprinted {tree fault} (htree : u.tree = some tree) (hprint : c.printer.render tree = .error fault) :
      Effect c o u Stage.print { unit := u, reports := [fault.diagnostic] }
  | idle {step : Nat} (hidle : step ≤ Stage.print → u.tree = none) (hunread : step = Stage.parse → u.source = none) :
      Effect c o u step { unit := u }

def finish (c : Compiler σ) (h : Handle) (w : Work) : Compiler σ :=
  { c with
    database := (((c.database.processing h).takeInAll (w.definitions.map Definition.unit)).modify h
      fun _ => w.closed).schedule h w.next
    diagnostics := w.gained.foldl Diagnostics.add c.diagnostics }

/-- A compiler with standard rules, and with units and jobs as builds leave them. -/
structure Standard (o : Options) (c : Compiler σ) : Prop where
  transforms : c.transforms = o.transforms σ
  lints : c.lints = o.lints σ
  numbered : c.database.Numbered
  ordered : Ordered c.database.jobs
  plain : c.diagnostics.Plain

/-- A compiler with standard rules, whose units have handles of their own and whose jobs are in order. -/
structure Ruled (o : Options) (c : Compiler σ) : Prop where
  transforms : c.transforms = o.transforms σ
  lints : c.lints = o.lints σ
  counted : c.database.Counted
  ordered : Ordered c.database.jobs

theorem Standard.ruled (hc : c.Standard o) : c.Ruled o := ⟨hc.transforms, hc.lints, hc.numbered.counted, hc.ordered⟩

theorem close_eq {f : CompilationUnit → CompilationUnit} {w : Work} (hc : c.database.Counted)
    (hu : c.database.get? h = some u)
    (hf : ∀ ds, { f u with diagnostics := ds } = { w.unit with diagnostics := ds }) :
    close h w.gained
      { compiler := { c with
          database := ((c.database.processing h).takeInAll (w.definitions.map Definition.unit)).modify h f }
        diagnostics := w.reports.foldl Diagnostics.add w.unit.diagnostics
        next := w.next } = c.finish h w := by
  have hstart := hc.processing h
  have hget := hstart.fresh.get?_takeInAll_of_get? (w.definitions.map Definition.unit) hu
  have hmodify := modify_eq (hstart.takeInAll _).distinct hget fun u =>
    { f u with diagnostics := w.reports.foldl Diagnostics.add w.unit.diagnostics }
  rw [close, finish]
  simp only [modify, modify_modify, hmodify, hf]
  cases w.next <;> rfl

theorem process_of_perform (w : Work) (f : CompilationUnit → CompilationUnit)
    (hc : c.database.Counted) (hu : c.database.get? h = some u)
    (hperform : (c.start h).perform h u step =
      { compiler := { c with
          database := ((c.database.processing h).takeInAll (w.definitions.map Definition.unit)).modify h f }
        diagnostics := w.reports.foldl Diagnostics.add w.unit.diagnostics
        next := w.next })
    (hdiags : w.unit.diagnostics = u.diagnostics)
    (hf : ∀ ds, { f u with diagnostics := ds } = { w.unit with diagnostics := ds }) :
    c.process h step = (w.failed, c.finish h w) := by
  have hnew : (w.reports.foldl Diagnostics.add w.unit.diagnostics).entries.drop u.diagnostics.entries.length =
      w.gained := by
    rw [Diagnostics.foldl_add, hdiags, drop_left, Work.gained, hdiags]
  have hfailed : w.gained.any isError = w.failed := by
    rw [Work.gained, any_map]
    rfl
  rw [process, hu]
  simp only [hperform, hnew, hfailed]
  rw [close_eq hc hu hf]

theorem start_eq (c : Compiler σ) (h : Handle) : c.start h =
    { c with database := (c.database.processing h).modify h fun u => { u with diagnostics := {} } } := rfl

theorem reduce_eq_of_transforms (hc : c.Ruled o) {tree : Node} (hu : c.database.get? h = some u)
    (htree : u.tree = some tree) :
    ∃ definitions left reports tree' f, o.Extracts c.database tree definitions left reports tree' ∧
      (∀ ds, { f u with diagnostics := ds } = { { u with tree := some tree' } with diagnostics := ds }) ∧
      (c.start h).reduce c.transforms h u transform =
        { compiler := { c with
            database := ((c.database.processing h).takeInAll (definitions.map Definition.unit)).modify h f }
          diagnostics := reports.foldl Diagnostics.add u.diagnostics
          next := some lint } := by
  have hbelow := hc.counted.fresh.lt_of_get? hu
  have hfresh := (hc.counted.processing h).fresh
  rw [start_eq, hc.transforms]
  simp only [reduce, htree]
  generalize hp : (Pass.mk _ _ _ _ : Pass σ) = p
  have hdb : p.database = (c.database.processing h).modify h fun u => { u with diagnostics := {} } := by rw [← hp]
  obtain ⟨definitions, left, reports, htree', hpass⟩ := o.reduce_transforms tree
    (by rw [hdb]; exact hfresh.modify _)
  have hhonest := (o.transforms σ).reduce_honest tree p
  have hextracts : o.Extracts c.database tree definitions left reports ((o.transforms σ).reduce tree p).1.node :=
    htree'.congr fun name => by rw [hdb]; rfl
  rw [hdb, hfresh.takeInAll_modify hbelow] at hpass
  generalize (o.transforms σ).reduce tree p = result at hpass hhonest hextracts ⊢
  obtain ⟨reduced, pass⟩ := result
  subst hpass hp
  cases hsame : reduced.same with
  | true =>
    refine ⟨definitions, left, reports, _, fun u => { u with diagnostics := {} }, hextracts, fun ds => ?_, rfl⟩
    rw [hhonest hsame, ← htree]
  | false =>
    refine ⟨definitions, left, reports, _, fun u => { u with tree := some reduced.node, diagnostics := {} }, hextracts,
      fun ds => rfl, ?_⟩
    simp only [modify, modify_modify]
    rfl

theorem reduce_eq_of_lints (hc : c.Ruled o) {tree : Node} (htree : u.tree = some tree) :
    ∃ reports : List Diagnostic, (∀ x ∈ reports, Options.IsRemark tree x) ∧
      (c.start h).reduce c.lints h u lint =
        { compiler := c.start h
          diagnostics := reports.foldl Diagnostics.add u.diagnostics
          next := some Stage.print } := by
  rw [hc.lints]
  simp only [reduce, htree]
  generalize hp : (Pass.mk _ _ _ _ : Pass σ) = p
  obtain ⟨hsame, reports, hremarks, hpass⟩ := o.reduce_lints tree p
  subst hp
  refine ⟨reports, hremarks, ?_⟩
  rw [hsame, hpass]
  rfl

theorem process_of_start {w : Work} (hc : c.database.Counted) (hu : c.database.get? h = some u) (hunit : w.unit = u)
    (hdefs : w.definitions = []) (hperform : (c.start h).perform h u step =
      ⟨c.start h, w.reports.foldl Diagnostics.add u.diagnostics, w.next⟩) :
    c.process h step = (w.failed, c.finish h w) := by
  subst hunit
  refine process_of_perform w (fun u => { u with diagnostics := {} }) hc hu (hperform.trans ?_) rfl fun _ => rfl
  rw [hdefs]
  rfl

theorem process_of_modify {w : Work} (g : CompilationUnit → CompilationUnit) (hc : c.database.Counted)
    (hu : c.database.get? h = some u) (hdefs : w.definitions = [])
    (hperform : (c.start h).perform h u step =
      ⟨(c.start h).modify h g, w.reports.foldl Diagnostics.add w.unit.diagnostics, w.next⟩)
    (hdiags : w.unit.diagnostics = u.diagnostics)
    (hg : ∀ ds, { g { u with diagnostics := {} } with diagnostics := ds } = { w.unit with diagnostics := ds }) :
    c.process h step = (w.failed, c.finish h w) := by
  refine process_of_perform w (fun u => g { u with diagnostics := {} }) hc hu (hperform.trans ?_) hdiags hg
  simp only [start_eq, modify, modify_modify, hdefs]
  rfl

theorem effect_of_parse (hc : c.Ruled o) (hu : c.database.get? h = some u) :
    ∃ w, c.Effect o u Stage.parse w ∧ c.process h Stage.parse = (w.failed, c.finish h w) := by
  have hperform : (c.start h).perform h u Stage.parse = (c.start h).parse h u := rfl
  cases hsource : u.source with
  | some text =>
    cases hparse : c.parser.parse text with
    | ok tree =>
      refine ⟨_, .read hsource hparse, process_of_modify (fun u => { u with tree := some tree }) hc.counted hu rfl
        ?_ rfl fun _ => rfl⟩
      rw [hperform, parse, hsource]
      simp only [show (c.start h).parser = c.parser from rfl, hparse]
      rfl
    | error e =>
      refine ⟨_, .unread hsource hparse, process_of_start hc.counted hu rfl rfl ?_⟩
      rw [hperform, parse, hsource]
      simp only [show (c.start h).parser = c.parser from rfl, hparse]
      rfl
  | none =>
    cases htree : u.tree with
    | some tree =>
      refine ⟨_, .given hsource htree, process_of_start hc.counted hu rfl rfl ?_⟩
      rw [hperform, parse, hsource]
      simp only [htree]
      rfl
    | none =>
      refine ⟨_, .idle (fun _ => htree) (fun _ => hsource), process_of_start hc.counted hu rfl rfl ?_⟩
      rw [hperform, parse, hsource]
      simp only [htree]
      rfl

theorem effect_of_transform (hc : c.Ruled o) (hu : c.database.get? h = some u) :
    ∃ w, c.Effect o u Stage.transform w ∧ c.process h Stage.transform = (w.failed, c.finish h w) := by
  have hperform : (c.start h).perform h u transform = (c.start h).reduce c.transforms h u transform := rfl
  cases htree : u.tree with
  | some tree =>
    obtain ⟨definitions, left, reports, tree', f, hextracts, hf, hreduce⟩ := reduce_eq_of_transforms hc hu htree
    exact ⟨_, .transformed htree hextracts, process_of_perform _ f hc.counted hu (hperform.trans hreduce) rfl hf⟩
  | none =>
    refine ⟨_, .idle (fun _ => htree) nofun, process_of_start hc.counted hu rfl rfl ?_⟩
    rw [hperform, reduce, htree]
    rfl

theorem effect_of_lint (hc : c.Ruled o) (hu : c.database.get? h = some u) :
    ∃ w, c.Effect o u Stage.lint w ∧ c.process h Stage.lint = (w.failed, c.finish h w) := by
  have hperform : (c.start h).perform h u lint = (c.start h).reduce c.lints h u lint := rfl
  cases htree : u.tree with
  | some tree =>
    obtain ⟨reports, hremarks, hreduce⟩ := reduce_eq_of_lints hc htree
    exact ⟨_, .linted htree hremarks, process_of_start hc.counted hu rfl rfl (hperform.trans hreduce)⟩
  | none =>
    refine ⟨_, .idle (fun _ => htree) nofun, process_of_start hc.counted hu rfl rfl ?_⟩
    rw [hperform, reduce, htree]
    rfl

theorem effect_of_print (hc : c.Ruled o) (hu : c.database.get? h = some u) :
    ∃ w, c.Effect o u Stage.print w ∧ c.process h Stage.print = (w.failed, c.finish h w) := by
  have hperform : (c.start h).perform h u Stage.print = (c.start h).print h u := rfl
  cases htree : u.tree with
  | some tree =>
    cases hprint : c.printer.render tree with
    | ok text =>
      refine ⟨_, .printed htree hprint, process_of_modify (fun u => { u with output := some text }) hc.counted hu
        rfl ?_ rfl fun _ => rfl⟩
      rw [hperform, print, htree]
      simp only [show (c.start h).printer = c.printer from rfl, hprint]
      rfl
    | error fault =>
      refine ⟨_, .unprinted htree hprint, process_of_start hc.counted hu rfl rfl ?_⟩
      rw [hperform, print, htree]
      simp only [show (c.start h).printer = c.printer from rfl, hprint]
      rfl
  | none =>
    refine ⟨_, .idle (fun _ => htree) nofun, process_of_start hc.counted hu rfl rfl ?_⟩
    rw [hperform, print, htree]
    rfl

/-- A job of a compiler with standard rules has one of the effects of its step, and does nothing else. -/
theorem process_eq (hc : c.Ruled o) (hu : c.database.get? h = some u) (step : Nat) :
    ∃ w, c.Effect o u step w ∧ c.process h step = (w.failed, c.finish h w) := by
  match step with
  | 0 => exact effect_of_parse hc hu
  | 1 => exact effect_of_transform hc hu
  | 2 => exact effect_of_lint hc hu
  | 3 => exact effect_of_print hc hu
  | step + 4 =>
    refine ⟨_, .idle (fun hle => ?_) nofun, process_of_start hc.counted hu rfl rfl rfl⟩
    exact absurd hle (by rw [Stage.print]; omega)

theorem process_of_absent (hnone : c.database.get? h = none) (step : Nat) : c.process h step = (false, c) := by
  rw [process, hnone]

/-! ### What effects have in common -/

variable {w : Work}

theorem Effect.unit_eq (hw : c.Effect o u step w) :
    w.unit = { u with tree := w.unit.tree, output := w.unit.output } := by
  cases hw <;> rfl

theorem Effect.file_eq_none (hw : c.Effect o u step w) : ∀ x ∈ w.reports, x.file = none := by
  cases hw with
  | unread _ _ => exact forall_mem_singleton.2 (SyntaxError.file_diagnostic _)
  | transformed _ hextracts =>
    intro x hx
    obtain ⟨d, -, hrefuses⟩ := hextracts.refused x hx
    exact hrefuses.file
  | linted _ hremarks => exact fun x hx => (hremarks x hx).file
  | unprinted _ _ => exact forall_mem_singleton.2 (PrintFault.file_diagnostic _)
  | _ => exact forall_mem_nil _

theorem Effect.next_gt (hw : c.Effect o u step w) : ∀ later ∈ w.next, step < later ∧ later ≤ Stage.print := by
  intro later hlater
  cases hw <;> cases hlater <;> decide

theorem Effect.definitions_eq_nil (hw : c.Effect o u step w) (hstep : step ≠ Stage.transform) : w.definitions = [] := by
  cases hw with
  | transformed _ _ => exact absurd rfl hstep
  | _ => rfl

theorem Effect.congr {c' : Compiler σ} (hparser : c'.parser = c.parser) (hprinter : c'.printer = c.printer)
    (hindex : c'.database.index = c.database.index) (hw : c.Effect o u step w) : c'.Effect o u step w := by
  cases hw with
  | read hsource hparse => exact .read hsource (by rwa [hparser])
  | unread hsource hparse => exact .unread hsource (by rwa [hparser])
  | given hsource htree => exact .given hsource htree
  | transformed htree hextracts =>
    exact .transformed htree (hextracts.congr fun name => by rw [Database.lookup, hindex, Database.lookup])
  | linted htree hremarks => exact .linted htree hremarks
  | printed htree hprint => exact .printed htree (by rwa [hprinter])
  | unprinted htree hprint => exact .unprinted htree (by rwa [hprinter])
  | idle hidle hunread => exact .idle hidle hunread

/-! ### The compiler after a job -/

def Work.scheduled (w : Work) (db : Database) (h : Handle) : List Job :=
  (db.nextHandles w.definitions.length).map (Job.mk transform 0) ++ w.next.toList.map fun step => ⟨step, 0, h⟩

section Finish

variable (hc : c.database.Counted) (hu : c.database.get? h = some u)

include hc

theorem jobs_finish_perm (w : Work) : (c.finish h w).database.jobs.Perm (c.database.jobs ++ w.scheduled c.database h) := by
  refine jobs_schedule_perm.trans ?_
  rw [Work.scheduled, ← append_assoc]
  refine List.Perm.append_right _ (((hc.processing h).fresh.jobs_takeInAll_perm _).trans (.of_eq ?_))
  rw [length_map]
  rfl

theorem nextHandle_finish (w : Work) :
    (c.finish h w).database.nextHandle = c.database.nextHandle + w.definitions.length := by
  rw [finish]
  simp only [Database.nextHandle_schedule, Database.modify]
  rw [(hc.processing h).fresh.nextHandle_takeInAll, length_map]
  rfl

theorem handles_finish (w : Work) :
    (c.finish h w).database.handles = c.database.handles ++ c.database.nextHandles w.definitions.length := by
  rw [finish]
  simp only [handles_schedule, handles_modify]
  rw [(hc.processing h).fresh.handles_takeInAll, length_map]
  rfl

theorem lookup_finish_eq_none (w : Work) (name : String) : (c.finish h w).database.lookup name = none ↔
    c.database.lookup name = none ∧ ∀ d ∈ w.definitions, d.title ≠ name := by
  have h := NestedFunction.lookup_takeInAll_eq_none (hc.processing h).fresh (w.definitions.map Definition.unit) name
  rw [finish]
  simp only [lookup_schedule]
  refine h.trans (and_congr_right fun _ => ?_)
  rw [forall_mem_map]
  simp only [Definition.names_unit, mem_singleton, ne_comm]

include hu

/-- The unit of the job is closed, the others stay as they are, and behind them are those of the definitions. -/
theorem get?_finish (w : Work) (k : Handle) : (c.finish h w).database.get? k =
    if k = h then some w.closed
    else if k.index < c.database.nextHandle then c.database.get? k
    else w.definitions[k.index - c.database.nextHandle]?.map fun d => stamped k d.unit := by
  have hget := (hc.processing h).fresh.get?_takeInAll (w.definitions.map Definition.unit) k
  rw [finish]
  simp only [get?_schedule]
  rw [get?_modify, hget]
  split
  · rename_i hk
    subst hk
    have hbelow : k.index < (c.database.processing k).nextHandle := hc.fresh.lt_of_get? hu
    rw [if_pos hbelow]
    change Option.map _ (c.database.get? k) = _
    rw [hu]
    rfl
  · rw [getElem?_map, Option.map_map]
    rfl

theorem get?_finish_self (w : Work) : (c.finish h w).database.get? h = some w.closed := by
  rw [get?_finish hc hu, if_pos rfl]

end Finish

theorem Ruled.finish (hc : c.Ruled o) (h : Handle) (w : Work) : (c.finish h w).Ruled o where
  transforms := hc.transforms
  lints := hc.lints
  counted := (((hc.counted.processing h).takeInAll _).modify h _).schedule h w.next
  ordered := by
    have hordered : Ordered (c.database.processing h).jobs := hc.ordered
    exact ordered_schedule (ordered_takeInAll hordered _)

theorem Standard.finish (hc : c.Standard o) (hu : c.database.get? h = some u) (hw : c.Effect o u step w) :
    (c.finish h w).Standard o where
  transforms := hc.transforms
  lints := hc.lints
  numbered := by
    have hstart := hc.numbered.processing h
    refine Numbered.schedule (Numbered.modify (hstart.takeInAll _) fun _ _ => ?_) h w.next
    rw [Work.closed, Diagnostics.foldl_add, hw.unit_eq]
    exact hc.numbered.stamps h u hu
  ordered := (hc.ruled.finish h w).ordered
  plain := by
    change (w.gained.foldl Diagnostics.add c.diagnostics).Plain
    rw [hc.plain.foldl_add]
    rfl

end Compiler

end Mcfunction
