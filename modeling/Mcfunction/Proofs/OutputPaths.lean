import Mcfunction.Cli.Run
import Mcfunction.Proofs.Names

/-! Where the files of compiled functions go. A path is resolved by its text alone: `.` stays in a folder, and `..` goes
back to the one around it. A name that readers accept may have `..` between its slashes and a slash at the start of
its path. Main statement: the file of a function lies in whatever folder it is written to if and only if its path does
not start with a slash and its way down from the folder never goes above it. -/

namespace Mcfunction

open List Text Token Component ResourceLocation

/-! ### Parts between separators -/

variable {ch sep : Char}

namespace Text

variable {cs part a : List Char}

theorem exists_split_append (cs ending : List Char) (h : sep ∉ ending) :
    ∃ parts last, split sep (cs ++ ending) = parts ++ [last ++ ending] := by
  induction cs with
  | nil => exact ⟨[], [], split_of_not_mem h⟩
  | cons c cs ih =>
    obtain ⟨parts, last, hparts⟩ := ih
    rw [cons_append, split, hparts]
    split
    · exact ⟨[] :: parts, last, rfl⟩
    · cases parts with
      | nil => exact ⟨[], c :: last, rfl⟩
      | cons part parts => exact ⟨(c :: part) :: parts, last, rfl⟩

theorem mem_of_mem_split (hpart : part ∈ split sep cs) (hch : ch ∈ part) : ch ∈ cs := by
  induction cs generalizing part with
  | nil =>
    rw [split, mem_singleton] at hpart
    rwa [hpart] at hch
  | cons c cs ih =>
    rw [split] at hpart
    split at hpart
    · rcases mem_cons.1 hpart with rfl | hpart
      · cases hch
      · exact mem_cons_of_mem _ (ih hpart hch)
    · obtain ⟨first, parts, hparts⟩ := exists_cons_of_ne_nil (split_ne_nil sep cs)
      rw [hparts] at hpart ih
      rcases mem_cons.1 hpart with rfl | hpart
      · rcases mem_cons.1 hch with rfl | hch
        · exact mem_cons_self
        · exact mem_cons_of_mem _ (ih mem_cons_self hch)
      · exact mem_cons_of_mem _ (ih (mem_cons_of_mem _ hpart) hch)

theorem splitOnce?_append (h : sep ∉ a) (b : List Char) : splitOnce? sep (a ++ sep :: b) = some (a, b) := by
  induction a with
  | nil => rw [nil_append, splitOnce?, if_pos rfl]
  | cons c cs ih =>
    rw [mem_cons, not_or] at h
    rw [cons_append, splitOnce?, if_neg (Ne.symm h.1), ih h.2]
    rfl

end Text

/-! ### Resolving a path -/

namespace FilePath

/-- The place that one more component leads to. Places are given from the innermost folder outwards. -/
def enter : List Component → Component → List Component
  | _, .root => [.root]
  | place, .current => place
  | .normal _ :: place, .parent => place
  | .root :: place, .parent => .root :: place
  | place, .parent => .parent :: place
  | place, .normal name => .normal name :: place

/-- The components of a path after `.` and `..` were followed by its text alone. -/
def resolve (path : String) : List Component := ((components path).foldl enter []).reverse

def Inside (dir path : String) : Prop :=
  ∃ names : List String, names ≠ [] ∧ resolve path = resolve dir ++ names.map .normal

/-- Whether a way that starts `depth` folders below a place never goes above the place. -/
def staysBelow : Nat → List Component → Bool
  | _, [] => true
  | _, .root :: _ => false
  | depth, .current :: way => staysBelow depth way
  | 0, .parent :: _ => false
  | depth + 1, .parent :: way => staysBelow depth way
  | depth, .normal _ :: way => staysBelow (depth + 1) way

def steps (path : String) : List Component :=
  ((Text.split '/' path.toList).map String.ofList).flatMap ofName

variable {path rest name a : String} {way place : List Component} {depth : Nat}

theorem steps_slash (a b : String) : steps (a ++ "/" ++ b) = steps a ++ steps b := by
  have htext : (a ++ "/" ++ b).toList = a.toList ++ '/' :: b.toList := by simp
  rw [steps, htext, split_append_sep, map_append, flatMap_append]
  rfl

theorem isAbsolute_append (h : a ≠ "") (b : String) : isAbsolute (a ++ b) = isAbsolute a := by
  have hne : a.toList ≠ [] := fun hnil => h (String.toList_eq_nil_iff.1 hnil)
  rw [isAbsolute, isAbsolute, String.toList_append, head?_append_of_ne_nil _ hne]

theorem steps_join (path : String) (h : isAbsolute rest = false) :
    steps (join path rest) = steps path ++ steps rest := by
  rw [join]
  split
  · rename_i hcase
    rcases hcase with habsolute | rfl
    · rw [h] at habsolute
      cases habsolute
    · rfl
  · split
    · rename_i hlast
      obtain ⟨front, hfront⟩ : ∃ front, path.toList = front ++ ['/'] := getLast?_eq_some_iff.1 hlast
      have hpath : path = String.ofList front ++ "/" := by
        rw [← String.ofList_toList (s := path), hfront, String.ofList_append]
      have hempty : steps (String.ofList front ++ "/" ++ "") = steps (String.ofList front) := by
        rw [steps_slash, show steps "" = [] from rfl, append_nil]
      rw [hpath, steps_slash, ← hempty, String.append_empty]
    · rw [steps_slash]

theorem isAbsolute_join (path : String) (h : isAbsolute rest = false) : isAbsolute (join path rest) = isAbsolute path := by
  rw [join]
  split
  · rename_i hcase
    rcases hcase with habsolute | rfl
    · rw [h] at habsolute
      cases habsolute
    · exact h
  · rename_i hcase
    have hne : path ≠ "" := fun hempty => hcase (.inr hempty)
    split
    · exact isAbsolute_append hne _
    · rw [String.append_assoc]
      exact isAbsolute_append hne _

theorem resolve_eq (path : String) :
    resolve path = ((steps path).foldl enter (if isAbsolute path then [.root] else [])).reverse := by
  rw [resolve, components]
  split
  · rfl
  · split <;> rfl

theorem resolve_of_relative (h : isAbsolute path = false) : resolve path = ((steps path).foldl enter []).reverse := by
  rw [resolve_eq, h, if_neg (by decide)]

theorem staysBelow_components (h : isAbsolute path = false) (depth : Nat) :
    staysBelow depth (components path) = staysBelow depth (steps path) := by
  rw [components, h, if_neg (by decide)]
  split <;> rfl

theorem not_mem_steps (hname : ch ∈ name.toList) (hpath : ch ∉ path.toList) : normal name ∉ steps path := by
  intro hmem
  rw [steps, mem_flatMap] at hmem
  obtain ⟨found, hfound, hcomponent⟩ := hmem
  obtain ⟨part, hpart, rfl⟩ := mem_map.1 hfound
  have heq : name = String.ofList part := by
    rw [ofName] at hcomponent
    split at hcomponent
    · cases hcomponent
    · split at hcomponent
      · simp at hcomponent
      · simpa using hcomponent
  rw [heq, String.toList_ofList] at hname
  exact hpath (mem_of_mem_split hpart hname)

/-! ### Ways that stay below a folder, and ways that do not -/

theorem foldl_enter_of_staysBelow (place : List Component) (names : List String) (hnames : names.length = depth)
    (h : staysBelow depth way = true) :
    ∃ names' : List String, way.foldl enter (names.map .normal ++ place) = names'.map .normal ++ place := by
  induction way generalizing depth names with
  | nil => exact ⟨names, rfl⟩
  | cons component way ih =>
    cases component with
    | root => cases h
    | current => exact ih names hnames h
    | parent =>
      cases names with
      | nil =>
        subst hnames
        cases h
      | cons name names =>
        subst hnames
        exact ih names rfl h
    | normal name => exact ih (name :: names) (by rw [length_cons, hnames]) h

theorem not_mem_foldl_enter {component : Component} (hway : component ∉ way) (hplace : component ∉ place) :
    component ∉ way.foldl enter place := by
  induction way generalizing place with
  | nil => exact hplace
  | cons first way ih =>
    rw [mem_cons, not_or] at hway
    refine ih hway.2 ?_
    fun_cases enter place first <;> simp_all

/-- A way that goes above a folder does not lead back into it, unless it names the folder. -/
theorem not_mem_foldl_enter_of_leaves (names : List String) (hnames : names.length = depth)
    (hname : name ∉ names) (hway : normal name ∉ way) (hroot : root ∉ way) (h : staysBelow depth way = false) :
    normal name ∉ way.foldl enter (names.map .normal ++ [.normal name]) := by
  induction way generalizing depth names with
  | nil => cases h
  | cons component way ih =>
    rw [mem_cons, not_or] at hway hroot
    rw [foldl_cons]
    cases component with
    | root => exact absurd rfl hroot.1
    | current => exact ih names hnames hname hway.2 hroot.2 h
    | parent =>
      cases names with
      | nil => exact not_mem_foldl_enter hway.2 not_mem_nil
      | cons first names =>
        subst hnames
        exact ih names rfl (fun hmem => hname (mem_cons_of_mem _ hmem)) hway.2 hroot.2 h
    | normal first =>
      refine ih (first :: names) (by rw [length_cons, hnames]) ?_ hway.2 hroot.2 h
      rw [mem_cons, not_or]
      exact ⟨fun heq => hway.1 (congrArg _ heq), hname⟩

theorem root_mem_foldl_enter (h : root ∈ place) : root ∈ way.foldl enter place := by
  induction way generalizing place with
  | nil => exact h
  | cons component way ih =>
    refine ih ?_
    fun_cases enter place component <;> simp_all

theorem root_not_mem_steps (path : String) : root ∉ steps path := by
  intro hmem
  obtain ⟨name, -, hname⟩ := mem_flatMap.1 hmem
  rw [ofName] at hname
  split at hname
  · cases hname
  · split at hname <;> simp at hname

theorem exists_steps_extension (path : String) :
    ∃ way name, steps (path ++ "." ++ functionExtension) = way ++ [.normal name] := by
  obtain ⟨parts, last, hparts⟩ := exists_split_append path.toList ("." ++ functionExtension).toList
    (show '/' ∉ ("." ++ functionExtension).toList by decide)
  have hlen : 2 < (String.ofList (last ++ ("." ++ functionExtension).toList)).toList.length := by
    rw [String.toList_ofList, length_append]
    have : ("." ++ functionExtension).toList.length = 11 := by decide
    omega
  have hname : ∀ name : String, 2 < name.toList.length → ofName name = [.normal name] := by
    intro name hlong
    rw [ofName, if_neg, if_neg]
    · rintro rfl
      exact absurd hlong (by decide)
    · rintro (rfl | rfl) <;> exact absurd hlong (by decide)
  refine ⟨(parts.map String.ofList).flatMap ofName, String.ofList (last ++ ("." ++ functionExtension).toList), ?_⟩
  rw [steps, String.append_assoc, String.toList_append, hparts, map_append, flatMap_append, map_singleton,
    flatMap_singleton, hname _ hlen]

theorem staysBelow_append_normal (depth : Nat) (way : List Component) (name : String) :
    staysBelow depth (way ++ [.normal name]) = staysBelow depth way := by
  fun_induction staysBelow depth way <;> simp_all [staysBelow]

variable {dir name : String}

theorem inside_of_staysBelow (hdir : isAbsolute dir = false) (hpath : isAbsolute path = false)
    (hsteps : steps path = steps dir ++ (way ++ [.normal name])) (h : staysBelow 0 way = true) : Inside dir path := by
  obtain ⟨names, hnames⟩ := foldl_enter_of_staysBelow ((steps dir).foldl enter []) [] rfl h
  rw [map_nil, nil_append] at hnames
  refine ⟨names.reverse ++ [name], append_ne_nil_of_right_ne_nil _ (cons_ne_nil _ _), ?_⟩
  rw [resolve_of_relative hpath, resolve_of_relative hdir, hsteps, foldl_append, foldl_append, hnames]
  simp [enter]

theorem not_inside_of_leaves (hdir : isAbsolute dir = false) (hname : steps dir = [.normal name])
    (hpath : isAbsolute path = false) (hsteps : steps path = steps dir ++ way) (hway : normal name ∉ way)
    (hroot : root ∉ way) (h : staysBelow 0 way = false) : ¬Inside dir path := by
  rintro ⟨names, -, hresolve⟩
  have hout : normal name ∉ resolve path := by
    rw [resolve_of_relative hpath, hsteps, hname, mem_reverse]
    exact not_mem_foldl_enter_of_leaves [] rfl not_mem_nil hway hroot h
  rw [hresolve, resolve_of_relative hdir, hname] at hout
  exact hout (mem_append_left _ mem_cons_self)

theorem not_inside_of_absolute (hdir : isAbsolute dir = false) (hpath : isAbsolute path = true) : ¬Inside dir path := by
  rintro ⟨names, -, hresolve⟩
  have hroot : root ∈ resolve path := by
    rw [resolve, components, hpath, if_pos rfl, singleton_append, foldl_cons, mem_reverse]
    exact root_mem_foldl_enter mem_cons_self
  rw [hresolve, resolve_of_relative hdir, mem_append, mem_reverse] at hroot
  rcases hroot with hroot | hroot
  · exact not_mem_foldl_enter (root_not_mem_steps dir) not_mem_nil hroot
  · simp at hroot

end FilePath

/-! ### The files of functions -/

/-- Where the file of a function goes in the folder of all output, unless its path starts with a slash. -/
def ResourceLocation.file (l : ResourceLocation) : String :=
  "data/" ++ l.inNamespace?.getD "minecraft" ++ "/function/" ++ (l.path ++ "." ++ FilePath.functionExtension)

namespace Cli

open FilePath

variable {l : ResourceLocation} {f : SourceFile}

theorem isNamespaceChar_of_isRead (hl : l.IsRead)
    (hch : ch ∈ (l.inNamespace?.getD "minecraft").toList) : isNamespaceChar ch = true := by
  cases hns : l.inNamespace? with
  | none =>
    rw [hns] at hch
    exact all_eq_true.1 (show "minecraft".toList.all isNamespaceChar = true by decide) ch hch
  | some ns =>
    rw [hns] at hch
    exact hl.namespace_all ns hns ch hch

theorem isAbsolute_namespace (hl : l.IsRead) : isAbsolute (l.inNamespace?.getD "minecraft") = false := by
  rw [isAbsolute, decide_eq_false_iff_not]
  intro hhead
  have hslash := isNamespaceChar_of_isRead hl (mem_of_mem_head? hhead)
  exact absurd hslash (by decide)

theorem splitOnce?_fullName (hl : l.IsRead) :
    splitOnce? ':' l.fullName.toList = some ((l.inNamespace?.getD "minecraft").toList, l.path.toList) := by
  have hcolon : ':' ∉ (l.inNamespace?.getD "minecraft").toList := fun hmem =>
    absurd (isNamespaceChar_of_isRead hl hmem) (by decide)
  have hname : l.fullName.toList = (l.inNamespace?.getD "minecraft").toList ++ ':' :: l.path.toList := by
    simp [fullName]
  rw [hname, splitOnce?_append hcolon]

theorem outputPath_of_split {name ns path : String} (hf : f.resourceName = some name)
    (hsplit : splitOnce? ':' name.toList = some (ns.toList, path.toList)) (outDir : String) : outputPath outDir f =
      join (join (join (join outDir "data") ns) "function") (path ++ "." ++ functionExtension) := by
  rw [outputPath, hf, Option.bind_some, hsplit]
  dsimp only
  rw [String.ofList_toList, String.ofList_toList]

theorem outputPath_eq (hl : l.IsRead) (hf : f.resourceName = some l.fullName) (outDir : String) :
    outputPath outDir f = join (join (join (join outDir "data") (l.inNamespace?.getD "minecraft")) "function")
        (l.path ++ "." ++ functionExtension) :=
  outputPath_of_split hf (splitOnce?_fullName hl) outDir

theorem steps_of_split {name ns path : String} (hf : f.resourceName = some name)
    (hsplit : Text.splitOnce? ':' name.toList = some (ns.toList, path.toList)) (hns : isAbsolute ns = false)
    (hpath : isAbsolute (path ++ "." ++ functionExtension) = false) (outDir : String) :
    isAbsolute (outputPath outDir f) = isAbsolute outDir ∧ steps (outputPath outDir f) = steps outDir ++
      (steps "data" ++ (steps ns ++ (steps "function" ++ steps (path ++ "." ++ functionExtension)))) := by
  have hfunction : isAbsolute "function" = false := by decide
  have hdata : isAbsolute "data" = false := by decide
  rw [outputPath_of_split hf hsplit]
  refine ⟨?_, ?_⟩
  · rw [isAbsolute_join _ hpath, isAbsolute_join _ hfunction, isAbsolute_join _ hns, isAbsolute_join _ hdata]
  · rw [steps_join _ hpath, steps_join _ hfunction, steps_join _ hns, steps_join _ hdata]
    simp only [append_assoc]

theorem isAbsolute_path_append (hl : l.IsRead) (ending : String) : isAbsolute (l.path ++ ending) = isAbsolute l.path :=
  isAbsolute_append (fun hempty => hl.path_ne (by rw [hempty]; rfl)) ending

theorem steps_outputPath (hl : l.IsRead) (hf : f.resourceName = some l.fullName) (hpath : isAbsolute l.path = false)
    (outDir : String) : isAbsolute (outputPath outDir f) = isAbsolute outDir ∧
      steps (outputPath outDir f) = steps outDir ++ steps l.file := by
  have hfile : isAbsolute (l.path ++ "." ++ functionExtension) = false := by
    rwa [String.append_assoc, isAbsolute_path_append hl]
  have hsteps : steps l.file = steps "data" ++ (steps (l.inNamespace?.getD "minecraft") ++ (steps "function" ++
      steps (l.path ++ "." ++ functionExtension))) := by
    rw [← steps_slash, ← steps_slash, ← steps_slash, file]
    simp only [String.append_assoc]
    rfl
  rw [hsteps]
  exact steps_of_split hf (splitOnce?_fullName hl) (isAbsolute_namespace hl) hfile outDir

theorem isAbsolute_file (l : ResourceLocation) : isAbsolute l.file = false := by
  rw [file, String.append_assoc, String.append_assoc, isAbsolute_append (by decide)]
  decide

theorem isPathChar_file (hl : l.IsRead) : ∀ ch ∈ l.file.toList, isPathChar ch = true := by
  have hdata : ∀ ch ∈ "data/".toList, isPathChar ch = true := all_eq_true.1 (by decide)
  have hfunction : ∀ ch ∈ "/function/".toList, isPathChar ch = true := all_eq_true.1 (by decide)
  have hending : ∀ ch ∈ ("." ++ functionExtension).toList, isPathChar ch = true := all_eq_true.1 (by decide)
  intro ch hch
  rw [file] at hch
  simp only [String.toList_append, mem_append] at hch hending
  rcases hch with ((hch | hch) | hch) | (hch | hch) | hch
  · exact hdata ch hch
  · exact isPathChar_of_isNamespaceChar (isNamespaceChar_of_isRead hl hch)
  · exact hfunction ch hch
  · exact hl.path_all ch hch
  · exact hending ch (.inl hch)
  · exact hending ch (.inr hch)

theorem resourceLocation_gives (allowTag : Bool) (c : Cursor) : Reader.Gives (Parse.resourceLocation allowTag) c
    fun n => ∀ l, n.form = .resourceLocation l → l.IsRead := by
  refine (Parse.spanned_gives (Parse.anyLocation_gives c)).bind ?_
  rintro ⟨l, span⟩ d - hl
  refine .ite (fun _ => .fail) fun _ => .pure ?_
  rintro _ ⟨⟩
  exact hl

/-- The file of a function whose name was read lies in whatever folder it is written to if and only if the path of the
name does not start with a slash and the way to the file never goes above the folder. -/
theorem outputPath_inside_iff {allowTag : Bool} {c : Cursor} {x : Step c Node} {l : ResourceLocation}
    (hread : Parse.resourceLocation allowTag c = .ok x) (hl : x.value.form = .resourceLocation l) {f : SourceFile}
    (hf : f.resourceName = some l.fullName) :
    (∀ outDir, isAbsolute outDir = false → Component.parent ∉ components outDir → Inside outDir (outputPath outDir f)) ↔
      isAbsolute l.path = false ∧ staysBelow 0 (components l.file) = true := by
  have hl : l.IsRead := resourceLocation_gives allowTag c x hread l hl
  rw [staysBelow_components (isAbsolute_file l)]
  refine ⟨fun h => ?_, ?_⟩
  · -- no name that is read has a capital letter, so a way out of the folder `O` does not lead back into it
    have hinside := h "O" (by decide) (by decide)
    have hpath : isAbsolute l.path = false := by
      rw [Bool.eq_false_iff]
      intro habsolute
      refine not_inside_of_absolute (by decide) ?_ hinside
      have hfile : isAbsolute (l.path ++ "." ++ functionExtension) = true := by
        rwa [String.append_assoc, isAbsolute_path_append hl]
      rwa [outputPath_eq hl hf, join, if_pos (Or.inl hfile)]
    refine ⟨hpath, ?_⟩
    rw [← Bool.not_eq_false]
    intro hleaves
    obtain ⟨hrelative, hsteps⟩ := steps_outputPath hl hf hpath "O"
    have hname : steps "O" = [.normal "O"] := by decide
    refine not_inside_of_leaves (by decide) hname hrelative hsteps ?_ (root_not_mem_steps _) hleaves hinside
    have hcapital : 'O' ∈ "O".toList := by decide
    exact not_mem_steps hcapital fun hmem => absurd (isPathChar_file hl 'O' hmem) (by decide)
  · rintro ⟨hpath, hstays⟩ outDir hdir -
    obtain ⟨hrelative, hsteps⟩ := steps_outputPath hl hf hpath outDir
    obtain ⟨way, name, hway⟩ := exists_steps_extension
      ("data/" ++ l.inNamespace?.getD "minecraft" ++ "/function/" ++ l.path)
    have hfile : steps l.file = way ++ [.normal name] := by
      rw [← hway, ResourceLocation.file]
      simp only [String.append_assoc]
    rw [hfile, staysBelow_append_normal] at hstays
    exact inside_of_staysBelow hdir (hrelative.trans hdir) (hfile ▸ hsteps) hstays

theorem outputPath_inside_iff_around :
    ∃ x, Parse.resourceLocation false (.start "demo:near/../far") = .ok x ∧
      ∃ l : ResourceLocation, x.value.form = .resourceLocation l ∧ l.isTag = false ∧
        ∀ outDir, isAbsolute outDir = false → Component.parent ∉ components outDir →
          Inside outDir (outputPath outDir ⟨"say hi", none, some l.fullName⟩) := by
  obtain ⟨x, hread, hform⟩ : ∃ x, Parse.resourceLocation false (.start "demo:near/../far") = .ok x ∧
      x.value.form = .resourceLocation ⟨false, some "demo", "near/../far"⟩ :=
    ⟨_, rfl, congrArg Form.resourceLocation (by decide)⟩
  exact ⟨x, hread, _, hform, rfl, (outputPath_inside_iff hread hform rfl).2 (by decide)⟩

/-- A name that was read can lead out of the folder of all output. -/
theorem not_inside_of_climbing_name :
    ∃ x, Parse.resourceLocation false (.start "demo:../../../../escaped") = .ok x ∧
      ∃ l : ResourceLocation, x.value.form = .resourceLocation l ∧ l.isTag = false ∧
        isAbsolute "out" = false ∧ Component.parent ∉ components "out" ∧
          resolve (outputPath "out" ⟨"say hi", none, some l.fullName⟩) = [.normal "escaped.mcfunction"] ∧
          ¬Inside "out" (outputPath "out" ⟨"say hi", none, some l.fullName⟩) := by
  have hresolve : resolve (outputPath "out" ⟨"say hi", none,
      some (ResourceLocation.fullName ⟨false, some "demo", "../../../../escaped"⟩)⟩) =
        [.normal "escaped.mcfunction"] := by decide
  refine ⟨_, rfl, ⟨false, some "demo", "../../../../escaped"⟩, congrArg Form.resourceLocation (by decide), rfl, by decide,
    by decide, hresolve, ?_⟩
  rintro ⟨names, -, hinside⟩
  rw [hresolve, show resolve "out" = [.normal "out"] by decide] at hinside
  simp at hinside

end Cli

end Mcfunction
