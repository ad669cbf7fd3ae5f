import Mcfunction.Proofs.Independence
import Mcfunction.Proofs.OutputPaths

/-! Whether the files of compiled functions get in each other's way. The path to the file of a function is made of its
name, and nothing is lost on the way if the namespace and the path of the name are plain. No function that was taken out
of another one has the name of a further unit. Main statement: two units of a build that finishes go to the same place
if and only if both of them are source files, and of the same name. -/

namespace Mcfunction

open List Component Text Database

namespace Text

variable {sep : Char} {cs part : List Char}

theorem intercalate_split (sep : Char) (cs : List Char) : [sep].intercalate (split sep cs) = cs := by
  induction cs with
  | nil => rfl
  | cons c cs ih =>
    obtain ⟨part, parts, hparts⟩ := exists_cons_of_ne_nil (split_ne_nil sep cs)
    rw [split, hparts]
    rw [hparts] at ih
    split
    · rename_i hc
      rw [intercalate_cons_cons, ih, hc]
      rfl
    · cases parts <;> simpa [intercalate] using ih

theorem split_injective (sep : Char) : Function.Injective (split sep) :=
  Function.LeftInverse.injective (g := [sep].intercalate) (intercalate_split sep)

theorem not_mem_of_mem_split (hpart : part ∈ split sep cs) : sep ∉ part := by
  induction cs generalizing part with
  | nil =>
    rw [mem_singleton.1 hpart]
    exact not_mem_nil
  | cons c cs ih =>
    obtain ⟨first, parts, hparts⟩ := exists_cons_of_ne_nil (split_ne_nil sep cs)
    rw [split] at hpart
    rw [hparts] at hpart ih
    split at hpart <;> rcases mem_cons.1 hpart with rfl | hpart
    · exact not_mem_nil
    · exact ih hpart
    · rename_i hc
      exact not_mem_cons_of_ne_of_not_mem (symm hc) (ih mem_cons_self)
    · exact ih (mem_cons_of_mem _ hpart)

end Text

/-! ### Plain paths -/

namespace FilePath

variable {path dir name ending : String} {names : List String}

/-- All that stands between the slashes of a path are names of files or folders. -/
def IsPlain (path : String) : Prop := ∀ part ∈ split '/' path.toList, String.ofList part ∉ ["", ".", ".."]

instance (path : String) : Decidable (IsPlain path) :=
  inferInstanceAs (Decidable (∀ part ∈ split '/' path.toList, String.ofList part ∉ ["", ".", ".."]))

def between (path : String) : List String := (split '/' path.toList).map String.ofList

theorem between_injective : Function.Injective between := fun _ _ h =>
  String.toList_inj.1 (split_injective _ (map_injective_iff.2 (fun _ _ => String.ofList_inj.1) h))

theorem between_of_not_mem (h : '/' ∉ path.toList) : between path = [path] := by
  rw [between, split_of_not_mem h, map_singleton, String.ofList_toList]

theorem isPlain_iff : IsPlain path ↔ ∀ part ∈ between path, part ∉ ["", ".", ".."] := by
  rw [between, forall_mem_map, IsPlain]

theorem IsPlain.steps_eq (h : IsPlain path) : steps path = (between path).map .normal := by
  refine trans ?_ map_eq_flatMap.symm
  refine flatMap_congr fun part hpart => ?_
  obtain ⟨cs, hcs, rfl⟩ := mem_map.1 hpart
  have hname := h cs hcs
  simp only [mem_cons, not_or] at hname
  rw [ofName, if_neg (not_or.2 ⟨hname.1, hname.2.1⟩), if_neg hname.2.2.1]

theorem IsPlain.isAbsolute (h : IsPlain path) : isAbsolute path = false := by
  rw [FilePath.isAbsolute, decide_eq_false_iff_not]
  intro hhead
  obtain ⟨cs, hcs⟩ := head?_eq_some_iff.1 hhead
  refine h [] ?_ mem_cons_self
  rw [hcs]
  exact mem_cons_self

theorem foldl_enter_normal (names : List String) (place : List Component) :
    (names.map .normal).foldl enter place = (names.map normal).reverse ++ place := by
  induction names generalizing place with
  | nil => rfl
  | cons name names ih => simp [enter, ih]

theorem resolve_of_names (habsolute : isAbsolute path = isAbsolute dir)
    (hsteps : steps path = steps dir ++ names.map .normal) : resolve path = resolve dir ++ names.map .normal := by
  rw [resolve_eq, resolve_eq, habsolute, hsteps, foldl_append, foldl_enter_normal, reverse_append, reverse_reverse]

theorem between_intercalate (h : ∀ part ∈ names, '/' ∉ part.toList) (hname : '/' ∉ (name ++ ending).toList) :
    between ("/".intercalate (names ++ [name]) ++ ending) = names ++ [name ++ ending] := by
  induction names with
  | nil => rw [nil_append, String.intercalate_singleton, between_of_not_mem hname, nil_append]
  | cons first names ih =>
    rw [forall_mem_cons] at h
    have htext : ("/".intercalate (first :: names ++ [name]) ++ ending).toList =
        first.toList ++ '/' :: ("/".intercalate (names ++ [name]) ++ ending).toList := by
      rw [cons_append, String.intercalate_cons_of_ne_nil (append_ne_nil_of_right_ne_nil _ (cons_ne_nil _ _))]
      simp
    rw [between, htext, split_append_sep, split_of_not_mem h.1, map_append, map_singleton,
      String.ofList_toList]
    exact congrArg (first :: ·) (ih h.2)

theorem isPlain_of_fileName? (h : fileName? path = some name) : IsPlain name ∧ '/' ∉ name.toList := by
  obtain ⟨component, hlast, hname⟩ := Option.bind_eq_some_iff.1 h
  obtain rfl : component = .normal name := by
    cases component <;> simp_all [name?]
  have hmem : .normal name ∈ steps path := by
    have hcomponent := mem_of_getLast? hlast
    refine (mem_append.1 hcomponent).resolve_left fun hstart => ?_
    split at hstart
    · simp at hstart
    · split at hstart <;> simp at hstart
  obtain ⟨part, hpart, hnormal⟩ := mem_flatMap.1 hmem
  obtain ⟨cs, hcs, rfl⟩ := mem_map.1 hpart
  have hslash := not_mem_of_mem_split hcs
  rw [ofName] at hnormal
  split at hnormal
  · cases hnormal
  split at hnormal
  · simp at hnormal
  obtain rfl : name = String.ofList cs := by simpa using hnormal
  rw [String.toList_ofList]
  refine ⟨fun part hpart => ?_, hslash⟩
  rw [String.toList_ofList, split_of_not_mem hslash, mem_singleton] at hpart
  simp_all

end FilePath

/-! ### Names and places -/

namespace Cli

open FilePath

variable {f g : SourceFile} {names names' rest segments : List String} {ns name path : String}

def bareName (f : SourceFile) : String := (f.filename.bind fileName?).getD ("output." ++ functionExtension)

/-- A unit has no resource name, or one with a folder as its namespace and a plain path. A path that starts with a slash
is not plain: it would lead to the same file in all namespaces. -/
def PlainlyNamed (f : SourceFile) : Prop :=
  ∀ name ∈ f.resourceName, ∃ ns path : String, name = ns ++ ":" ++ path ∧ ':' ∉ ns.toList ∧ '/' ∉ ns.toList ∧
    IsPlain ns ∧ IsPlain (path ++ "." ++ functionExtension)

/-- The names on the way to the file of a unit from the folder of all output. -/
inductive Address (f : SourceFile) : List String → Prop where
  | bare (hname : f.resourceName = none) : Address f [bareName f]
  | named {ns path : String} (hname : f.resourceName = some (ns ++ ":" ++ path)) (hcolon : ':' ∉ ns.toList) :
      Address f ("data" :: ns :: "function" :: between (path ++ "." ++ functionExtension))

theorem splitOnce?_colon (h : ':' ∉ ns.toList) (path : String) :
    splitOnce? ':' (ns ++ ":" ++ path).toList = some (ns.toList, path.toList) := by
  have htext : (ns ++ ":" ++ path).toList = ns.toList ++ ':' :: path.toList := by simp
  rw [htext, splitOnce?_append h]

theorem name_injective {ns' path' : String} (h : ':' ∉ ns.toList) (h' : ':' ∉ ns'.toList)
    (heq : ns ++ ":" ++ path = ns' ++ ":" ++ path') : ns = ns' ∧ path = path' := by
  have hsplit := splitOnce?_colon h path
  rw [heq, splitOnce?_colon h', Option.some.injEq, Prod.mk.injEq, String.toList_inj, String.toList_inj] at hsplit
  exact ⟨hsplit.1.symm, hsplit.2.symm⟩

theorem exists_address (hf : PlainlyNamed f) : ∃ names, Address f names ∧
    ∀ outDir, resolve (outputPath outDir f) = resolve outDir ++ names.map .normal := by
  cases hname : f.resourceName with
  | none =>
    refine ⟨_, .bare hname, fun outDir => ?_⟩
    have hplain : IsPlain (bareName f) ∧ '/' ∉ (bareName f).toList := by
      rw [bareName]
      cases hfile : f.filename.bind fileName? with
      | none => decide
      | some name =>
        obtain ⟨path, -, hpath⟩ := Option.bind_eq_some_iff.1 hfile
        exact isPlain_of_fileName? hpath
    have hpath : outputPath outDir f = join outDir (bareName f) := by
      rw [outputPath, hname]
      rfl
    rw [hpath]
    refine resolve_of_names (isAbsolute_join _ hplain.1.isAbsolute) ?_
    rw [steps_join _ hplain.1.isAbsolute, hplain.1.steps_eq, between_of_not_mem hplain.2]
  | some name =>
    obtain ⟨ns, path, rfl, hcolon, hslash, hns, hpath⟩ := hf name hname
    refine ⟨_, .named hname hcolon, fun outDir => ?_⟩
    obtain ⟨habsolute, hsteps⟩ := steps_of_split hname (splitOnce?_colon hcolon path) hns.isAbsolute hpath.isAbsolute outDir
    refine resolve_of_names habsolute ?_
    rw [hsteps, hns.steps_eq, hpath.steps_eq, between_of_not_mem hslash]
    rfl

theorem Address.eq_iff (hf : Address f names) (hg : Address g names') :
    names = names' ↔ f.resourceName = g.resourceName ∧ (f.resourceName = none → bareName f = bareName g) := by
  cases hf with
  | bare hname =>
    cases hg with
    | bare hname' | named hname' => simp [hname, hname']
  | @named ns path hname hcolon =>
    cases hg with
    | bare hname' => simp [hname, hname']
    | @named ns' path' hname' hcolon' =>
      rw [hname, hname']
      refine ⟨fun heq => ⟨?_, nofun⟩, fun heq => ?_⟩
      · simp only [cons.injEq, true_and] at heq
        obtain ⟨rfl, heq⟩ := heq
        have hpath := between_injective heq
        rw [String.append_assoc, String.append_assoc, String.append_left_inj] at hpath
        rw [hpath]
      · obtain ⟨rfl, rfl⟩ := name_injective hcolon hcolon' (Option.some.inj heq.1)
        rfl

/-- Units that are plainly named go to the same place if and only if they have the same name. -/
theorem resolve_outputPath_eq_iff (hf : PlainlyNamed f) (hg : PlainlyNamed g) (outDir : String) :
    resolve (outputPath outDir f) = resolve (outputPath outDir g) ↔
      f.resourceName = g.resourceName ∧ (f.resourceName = none → bareName f = bareName g) := by
  obtain ⟨names, haddress, hresolve⟩ := exists_address hf
  obtain ⟨names', haddress', hresolve'⟩ := exists_address hg
  rw [hresolve, hresolve', append_cancel_left_eq, ← haddress.eq_iff haddress']
  exact (map_injective_iff.2 fun _ _ => normal.inj).eq_iff

/-! ### Names that are found again -/

theorem afterData?_eq_none_iff : afterData? names = none ↔ "data" ∉ names := by
  induction names with
  | nil => simp [afterData?]
  | cons name names ih =>
    rw [mem_cons, not_or, ← ih, afterData?]
    cases afterData? names <;> simp [eq_comm]

theorem afterData?_append (h : afterData? names = some rest) (before : List String) :
    afterData? (before ++ names) = some rest := by
  induction before with
  | nil => exact h
  | cons name before ih => rw [cons_append, afterData?, ih]

theorem exists_afterData? (h : afterData? names = some rest) : ∃ before, names = before ++ "data" :: rest := by
  induction names with
  | nil => cases h
  | cons name names ih =>
    rw [afterData?] at h
    split at h
    · rename_i hfound
      cases h
      obtain ⟨before, rfl⟩ := ih hfound
      exact ⟨name :: before, rfl⟩
    · split at h
      · rename_i hname
        cases h
        exact ⟨[], by rw [hname, nil_append]⟩
      · cases h

theorem splitExtension_append (h : name ≠ "") :
    splitExtension (name ++ "." ++ functionExtension) = (name, some functionExtension) := by
  have htext : (name ++ "." ++ functionExtension).toList.reverse =
      functionExtension.toList.reverse ++ '.' :: name.toList.reverse := by simp
  have hafter : (name ++ "." ++ functionExtension).toList.reverse.takeWhile (· ≠ '.') =
      functionExtension.toList.reverse := by
    rw [htext, takeWhile_append_of_pos (all_eq_true.1 (by decide)), takeWhile_cons_of_neg (by decide), append_nil]
  have hbefore : name.toList.reverse ≠ [] := by simpa using h
  have hlen : functionExtension.toList.reverse.length ≠ (name ++ "." ++ functionExtension).toList.length := by
    rw [String.toList_append, String.toList_append, length_append, length_append, length_reverse,
      show ".".toList.length = 1 from rfl]
    omega
  rw [splitExtension, hafter, htext, drop_left, drop_succ_cons, drop_zero, if_neg (not_or.2 ⟨hlen, hbefore⟩),
    reverse_reverse, reverse_reverse, String.ofList_toList, String.ofList_toList]

theorem parts_of_steps {way : List Component}
    (hsteps : steps path = way ++ [.normal (name ++ "." ++ functionExtension)]) (hname : name ∉ ["", ".", ".."]) :
    parts path = way.filterMap name? ++ [name] := by
  obtain ⟨start, hstart, hnone⟩ : ∃ start, components path = start ++ steps path ∧ start.filterMap name? = [] := by
    refine ⟨_, rfl, ?_⟩
    split
    · rfl
    · split <;> rfl
  simp only [mem_cons, not_or] at hname
  rw [parts, hstart, hsteps, ← append_assoc, getLast?_concat, dropLast_concat]
  dsimp only
  rw [splitExtension_append hname.1, ofName, if_neg (not_or.2 ⟨hname.1, hname.2.1⟩), if_neg hname.2.2.1,
    filterMap_append, filterMap_append, hnone]
  rfl

/-- The namespace of a name, or a part of its path, that may be the name of a folder. -/
structure IsPart (part : String) : Prop where
  name : part ∉ ["", ".", ".."]
  slash : '/' ∉ part.toList
  colon : ':' ∉ part.toList

theorem between_parts {parts : List String} (hne : parts ≠ []) (h : ∀ part ∈ parts, IsPart part) :
    between ("/".intercalate parts) = parts := by
  obtain ⟨names, name, rfl⟩ := (eq_nil_or_concat parts).resolve_left hne
  rw [concat_eq_append, forall_mem_append, forall_mem_singleton] at h
  have hfound : between (_ ++ "") = names ++ [name ++ ""] :=
    between_intercalate (fun part hpart => (h.1 part hpart).slash) (by rw [String.append_empty]; exact h.2.slash)
  rwa [String.append_empty, String.append_empty, ← concat_eq_append] at hfound

theorem exists_parts (hne : segments ≠ []) (hparts : ∀ part ∈ ns :: segments, IsPart part)
    (hf : f.resourceName = some (ns ++ ":" ++ "/".intercalate segments)) (outDir : String) :
    ∃ before, parts (outputPath outDir f) = before ++ "data" :: ns :: "function" :: segments := by
  obtain ⟨names, name, rfl⟩ := (eq_nil_or_concat segments).resolve_left hne
  rw [concat_eq_append] at hparts hf ⊢
  rw [forall_mem_cons, forall_mem_append, forall_mem_singleton] at hparts
  obtain ⟨hns, hnames, hname⟩ := hparts
  have hbetween : between ("/".intercalate (names ++ [name]) ++ "." ++ functionExtension) =
      names ++ [name ++ "." ++ functionExtension] := by
    rw [String.append_assoc, String.append_assoc]
    refine between_intercalate (fun part hpart => (hnames part hpart).slash) ?_
    rw [String.toList_append, mem_append, not_or]
    exact ⟨hname.slash, by decide⟩
  have hfile : IsPlain ("/".intercalate (names ++ [name]) ++ "." ++ functionExtension) := by
    refine isPlain_iff.2 ?_
    rw [hbetween, forall_mem_append, forall_mem_singleton]
    refine ⟨fun part hpart => (hnames part hpart).name, fun hmem => ?_⟩
    have hlen : 2 < (name ++ "." ++ functionExtension).toList.length := by
      rw [String.toList_append, length_append, show functionExtension.toList.length = 10 from rfl]
      omega
    simp only [mem_cons, not_mem_nil, or_false] at hmem
    rcases hmem with h | h | h <;> rw [h] at hlen <;> exact absurd hlen (by decide)
  have hplain : IsPlain ns := isPlain_iff.2 (by rw [between_of_not_mem hns.slash]; simpa using hns.name)
  obtain ⟨-, hsteps⟩ := steps_of_split hf (splitOnce?_colon hns.colon _) hplain.isAbsolute hfile.isAbsolute outDir
  refine ⟨(steps outDir).filterMap name?, ?_⟩
  rw [hplain.steps_eq, hfile.steps_eq, hbetween, between_of_not_mem hns.slash, map_append] at hsteps
  simp only [← append_assoc] at hsteps
  rw [parts_of_steps hsteps hname.name]
  simp [Function.comp_def, name?, show steps "data" = [.normal "data"] from rfl,
    show steps "function" = [.normal "function"] from rfl]

/-- The name of a function is found again from the path to its file if and only if no part of it is called `data`:
what follows the last `data` on a path counts. -/
theorem resourceName?_outputPath_iff {ns : String} {segments : List String} (hne : segments ≠ [])
    (hparts : ∀ part ∈ ns :: segments, IsPart part)
    (hf : f.resourceName = some (ns ++ ":" ++ "/".intercalate segments)) (outDir : String) :
    resourceName? (outputPath outDir f) = some (ns ++ ":" ++ "/".intercalate segments) ↔ "data" ∉ ns :: segments := by
  obtain ⟨before, hbefore⟩ := exists_parts hne hparts hf outDir
  rw [resourceName?, hbefore]
  have hdata : "data" ∈ ns :: "function" :: segments ↔ "data" ∈ ns :: segments := by simp
  cases hrest : afterData? (ns :: "function" :: segments) with
  | none =>
    have hfound : afterData? ("data" :: ns :: "function" :: segments) = some (ns :: "function" :: segments) := by
      rw [afterData?, hrest, if_pos rfl]
    rw [afterData?_append hfound before, ← hdata, ← afterData?_eq_none_iff, hrest]
    obtain ⟨first, segments, rfl⟩ := exists_cons_of_ne_nil hne
    simp
  | some rest =>
    have hfound : afterData? ("data" :: ns :: "function" :: segments) = some rest := by rw [afterData?, hrest]
    rw [afterData?_append hfound before, ← hdata, ← afterData?_eq_none_iff, hrest]
    refine iff_of_false (fun h => ?_) (Option.some_ne_none _)
    split at h
    · rename_i ns' folder first segments' heq
      cases heq
      split at h
      · obtain ⟨front, hfront⟩ := exists_afterData? hrest
        have hall : ∀ part ∈ front ++ "data" :: ns' :: folder :: first :: segments', IsPart part := by
          rw [← hfront]
          rw [forall_mem_cons] at hparts ⊢
          exact ⟨hparts.1, forall_mem_cons.2 ⟨⟨by decide, by decide, by decide⟩, hparts.2⟩⟩
        rw [forall_mem_cons] at hparts
        simp only [forall_mem_append, forall_mem_cons] at hall
        obtain ⟨-, -, hns, -, hfirst⟩ := hall
        have hpath := (name_injective hns.colon hparts.1.colon (Option.some.inj h)).2
        have hlength := congrArg length (congrArg between hpath)
        rw [between_parts (cons_ne_nil _ _) (forall_mem_cons.2 hfirst), between_parts hne hparts.2] at hlength
        have hwhole := congrArg length hfront
        simp only [length_append, length_cons] at hlength hwhole
        omega
      · cases h
    · cases h

/-- A function in the namespace `data` has a file whose path tells no name. -/
theorem resourceName?_outputPath_data : resourceName? (outputPath "out" ⟨"say hi", none, some "data:x"⟩) = none := by
  decide

/-- The name of a function is found again below a folder that is called `data`, whatever dots are in it. -/
theorem resourceName?_outputPath_iff_dots :
    resourceName? (outputPath "/srv/data" ⟨"say hi", none, some ("a.b" ++ ":" ++ "/".intercalate [".x", "y.z."])⟩) =
      some ("a.b" ++ ":" ++ "/".intercalate [".x", "y.z."]) := by
  refine (resourceName?_outputPath_iff (cons_ne_nil _ _) ?_ rfl "/srv/data").2 (by decide)
  simp only [forall_mem_cons]
  exact ⟨⟨by decide, by decide, by decide⟩, ⟨by decide, by decide, by decide⟩, ⟨by decide, by decide, by decide⟩,
    forall_mem_nil _⟩

example : outputPath "out" ⟨"say hi", none, some "a:/x"⟩ = outputPath "out" ⟨"say ho", none, some "b:/x"⟩ := by decide

end Cli

/-! ### Builds -/

namespace Compiler

open Cli FilePath

variable {σ : Type} {spec : Spec} {o : Options} {memory : σ} {c fresh : Compiler σ} {files : List SourceFile}
  {done : List Nat} {s : Setting} {h k : Handle} {f g : SourceFile} {extra : Nat}

theorem mem_outputs : (h, f) ∈ c.report.outputs ↔ c.output? h = some f := by
  rw [report, mem_filterMap]
  constructor
  · rintro ⟨h', -, hf⟩
    obtain ⟨f', hf', heq⟩ := Option.map_eq_some_iff.1 hf
    cases heq
    exact hf'
  · intro hf
    obtain ⟨u, hu, -⟩ := Option.map_eq_some_iff.1 hf
    exact ⟨h, mem_handles.2 (contains_of_get? hu), by rw [hf]; rfl⟩

theorem Underway.output_cases (hunder : Underway s files done c) (hf : c.output? h = some f) :
    (h.index < files.length ∧ ∃ file ∈ files, f.resourceName = file.resourceName) ∨
      files.length ≤ h.index ∧ ∃ d, (s.extracted files done)[h.index - files.length]? = some d ∧
        f.resourceName = some d.title := by
  obtain ⟨u, hu, rfl⟩ := Option.map_eq_some_iff.1 hf
  have hmem : h ∈ c.database.handles := mem_handles.2 (contains_of_get? hu)
  rw [hunder.handles] at hmem
  obtain ⟨i, hi, rfl⟩ := mem_map.1 hmem
  obtain ⟨origin, horigin⟩ : ∃ origin, (s.origins files done)[i]? = some origin :=
    ⟨_, getElem?_eq_getElem (mem_range.1 hi)⟩
  obtain ⟨u', stage, hu', -, hdesc, -⟩ := hunder.units i origin horigin
  obtain rfl := Option.some.inj (hu.symm.trans hu')
  rcases Setting.origin_cases horigin with ⟨file, hfile, rfl⟩ | ⟨hle, d, hd, rfl⟩
  · exact .inl ⟨(List.getElem?_eq_some_iff.1 hfile).1, file, mem_of_getElem? hfile, hdesc.resourceName⟩
  · exact .inr ⟨hle, d, hd, hdesc.resourceName⟩

theorem Underway.resourceName_ne (hunder : Underway s files done c) (hf : c.output? h = some f)
    (hg : c.output? k = some g) (hne : h ≠ k) (hout : files.length ≤ h.index) : f.resourceName ≠ g.resourceName := by
  obtain ⟨d, hd, hname⟩ := ((hunder.output_cases hf).resolve_left fun hin => not_lt.2 hout hin.1).2
  rw [hname]
  intro heq
  rcases hunder.output_cases hg with ⟨-, file, hfile, hname'⟩ | ⟨hout', e, he, hname'⟩
  · refine hunder.apart d (mem_of_getElem? hd) file hfile (CompilationUnit.mem_names.2 (.inr ?_))
    exact hname'.symm.trans heq.symm
  · have hlt : h.index - files.length < ((s.extracted files done).map NestedFunction.Definition.title).length := by
      rw [length_map]
      exact (List.getElem?_eq_some_iff.1 hd).1
    have htitle := Option.some.inj (heq.trans hname')
    have hindex := (getElem?_inj hlt hunder.distinct (j := k.index - files.length)).1 (by
      rw [getElem?_map, getElem?_map, hd, he]
      exact congrArg some htitle)
    exact hne (congrArg Handle.mk (show h.index = k.index by omega))

/-- When units of a build that finishes go to the same place. Take two units of its report, whatever the grammar, the
options and the files are, that have plain names or none. In whatever folder their files are written, they go to the
same place if and only if both are units of source files, with one resource name, or with none and one name of the file.
So no function that was taken out of another one overwrites anything. -/
theorem outputs_collide_iff (hfresh : ofSpec spec o memory = .ok fresh)
    (hrun : (fresh.addAll files).2.run extra = (.finished, c)) (hf : (h, f) ∈ c.report.outputs)
    (hg : (k, g) ∈ c.report.outputs) (hne : h ≠ k) (hplain : PlainlyNamed f) (hplain' : PlainlyNamed g)
    (outDir : String) :
    resolve (outputPath outDir f) = resolve (outputPath outDir g) ↔
      h.index < files.length ∧ k.index < files.length ∧ f.resourceName = g.resourceName ∧
        (f.resourceName = none → bareName f = bareName g) := by
  obtain ⟨-, done, hunderway⟩ := (run_finished_iff hfresh files extra).2 (congrArg Prod.fst hrun)
  rw [hrun] at hunderway
  rw [mem_outputs] at hf hg
  rw [resolve_outputPath_eq_iff hplain hplain']
  refine ⟨fun hsame => ⟨?_, ?_, hsame⟩, fun hsame => hsame.2.2⟩
  · exact Nat.lt_of_not_le fun hout => hunderway.resourceName_ne hf hg hne hout hsame.1
  · exact Nat.lt_of_not_le fun hout => hunderway.resourceName_ne hg hf hne.symm hout hsame.1.symm

/-- Two files in folders that both are for functions, and one of another namespace. -/
def functionFiles : List SourceFile :=
  [⟨"say hi", some "data/demo/function/a.mcfunction", some "demo:a"⟩,
    ⟨"say ho", some "data/demo/functions/a.mcfunction", some "demo:a"⟩,
    ⟨"kill", some "data/other/function/a.mcfunction", some "other:a"⟩]

theorem exists_functionFiles_run : ∃ (spec : Spec) (fresh c : Compiler Unit), ofSpec spec {} () = .ok fresh ∧
    (fresh.addAll functionFiles).2.run 0 = (.finished, c) ∧
    ∀ i file, functionFiles[i]? = some file → ∃ text, (⟨i⟩, { file with text }) ∈ c.report.outputs := by
  obtain ⟨spec, fresh, hspec, hfresh, htree⟩ := exists_bundled {} (by decide) ()
  let parser : Parser := { tree := CommandTree.bundled.carryOut CommandTree.bundledPlan, options := {} }
  have hparser : fresh.parser = parser := by rw [(tools_of_ofSpec hfresh).1, htree]
  have hsound : (Setting.mk parser ⟨⟨.bundled, []⟩, 4⟩ {}).Sound functionFiles := by decide +kernel
  have hrun := (run_finished_iff_sound hspec hfresh functionFiles 0).2 (hsound.congr hparser rfl)
  refine ⟨spec, fresh, _, hfresh, by rw [← hrun], fun i file hfile => ?_⟩
  obtain ⟨tree, text, -, -, houtput⟩ := output?_of_finished hfresh hrun hfile
  exact ⟨text, mem_outputs.2 houtput⟩

theorem outputs_collide_iff_functions :
    ∃ (spec : Spec) (fresh c : Compiler Unit) (f g other : SourceFile), ofSpec spec {} () = .ok fresh ∧
      (fresh.addAll functionFiles).2.run 0 = (.finished, c) ∧ (⟨0⟩, f) ∈ c.report.outputs ∧
      (⟨1⟩, g) ∈ c.report.outputs ∧ (⟨2⟩, other) ∈ c.report.outputs ∧ PlainlyNamed f ∧ PlainlyNamed g ∧ PlainlyNamed other ∧
      resolve (outputPath "out" f) = resolve (outputPath "out" g) ∧
      resolve (outputPath "out" f) ≠ resolve (outputPath "out" other) := by
  obtain ⟨spec, fresh, c, hfresh, hrun, houtputs⟩ := exists_functionFiles_run
  obtain ⟨text, hf⟩ := houtputs 0 _ rfl
  obtain ⟨text', hg⟩ := houtputs 1 _ rfl
  obtain ⟨text'', hother⟩ := houtputs 2 _ rfl
  have hplain : ∀ text filename, PlainlyNamed ⟨text, filename, some "demo:a"⟩ := by
    rintro text filename _ ⟨⟩
    exact ⟨"demo", "a", rfl, by decide, by decide, by decide, by decide⟩
  have hplain' : ∀ text filename, PlainlyNamed ⟨text, filename, some "other:a"⟩ := by
    rintro text filename _ ⟨⟩
    exact ⟨"other", "a", rfl, by decide, by decide, by decide, by decide⟩
  refine ⟨spec, fresh, c, _, _, _, hfresh, hrun, hf, hg, hother, hplain _ _, hplain _ _, hplain' _ _, ?_, ?_⟩
  · refine (outputs_collide_iff hfresh hrun hf hg (by decide) (hplain _ _) (hplain _ _) _).2 ?_
    exact ⟨by decide, by decide, rfl, nofun⟩
  · intro hsame
    have hnames := (outputs_collide_iff hfresh hrun hf hother (by decide) (hplain _ _) (hplain' _ _) _).1 hsame
    exact absurd hnames.2.2.1 (show some "demo:a" ≠ some "other:a" by decide)

/-- Files of different paths can go to one path, even if the build finishes. -/
theorem functions_overwrite_each_other : ¬∀ (spec : Spec) (fresh c : Compiler Unit) (files : List SourceFile),
    ofSpec spec {} () = .ok fresh → (files.map SourceFile.filename).Nodup →
      (∀ f ∈ files, f.filename.isSome ∧ f.resourceName = f.filename.bind resourceName?) →
      (fresh.addAll files).2.run 0 = (.finished, c) →
      ∀ h k f g, (h, f) ∈ c.report.outputs → (k, g) ∈ c.report.outputs → h ≠ k →
        outputPath "out" f ≠ outputPath "out" g := by
  intro hclaim
  obtain ⟨spec, fresh, c, hfresh, hrun, houtputs⟩ := exists_functionFiles_run
  obtain ⟨text, hf⟩ := houtputs 0 _ rfl
  obtain ⟨text', hg⟩ := houtputs 1 _ rfl
  exact hclaim spec fresh c functionFiles hfresh (by decide) (by decide) hrun _ _ _ _ hf hg (by decide) rfl

end Compiler

end Mcfunction
