import Mcfunction.Proofs.Printable
import Mcfunction.Proofs.Progress

/-! Files that are compiled together. What a build makes of a file depends on the file alone; other files only matter
in that they may define functions under the same names. Main statement: a build of files finishes in any order of the
files or in none, and if it finishes, each of them compiles alone, to the same text. -/

namespace Mcfunction

open List CommandTree Setting Spec
open NestedFunction (Definition)

theorem NestedFunction.Definition.wellNamed_iff {d : Definition} : d.WellNamed ↔
    (match d.name.form with | .resourceLocation l => !l.isTag | _ => false) = true := by
  constructor
  · rintro ⟨l, hform, htag⟩
    rw [hform]
    simp [htag]
  · intro h
    split at h
    · rename_i l hform
      exact ⟨l, hform, by simpa using h⟩
    · cases h

instance (d : Definition) : Decidable d.WellNamed := decidable_of_iff' _ Definition.wellNamed_iff

instance (s : Setting) (files : List SourceFile) : Decidable (s.Sound files) :=
  decidable_of_iff ((∀ f ∈ files, (s.tree? f).isSome) ∧ (∀ d ∈ files.flatMap s.definitions, d.WellNamed) ∧
    ((files.flatMap s.definitions).map Definition.title).Nodup ∧
    ∀ d ∈ files.flatMap s.definitions, ∀ f ∈ files, d.title ∉ (CompilationUnit.ofSource f).names)
    ⟨fun h => ⟨h.1, h.2.1, h.2.2.1, h.2.2.2⟩, fun h => ⟨h.read, h.named, h.distinct, h.apart⟩⟩

variable {files : List SourceFile}

theorem Setting.Sound.congr {s s' : Setting} (h : s.Sound files)
    (hparser : s'.parser = s.parser) (hoptions : s'.options = s.options) : s'.Sound files := by
  obtain ⟨parser, printer, options⟩ := s'
  subst hparser hoptions
  exact ⟨h.read, h.named, h.distinct, h.apart⟩

namespace Compiler

variable {σ : Type} {spec : Spec} {o : Options} {memory : σ} {fresh c : Compiler σ} {f out : SourceFile} {extra i : Nat}

theorem output?_of_finished (hfresh : ofSpec spec o memory = .ok fresh)
    (hrun : ((fresh.addAll files).2.run extra).1 = .finished) (hf : files[i]? = some f) :
    ∃ tree text, fresh.parser.parse f.text = .ok tree ∧ fresh.printer.render (o.settle tree) = .ok text ∧
      ((fresh.addAll files).2.run extra).2.output? ⟨i⟩ = some { f with text } := by
  obtain ⟨hjobs, done, hunder⟩ := (run_finished_iff hfresh files extra).2 hrun
  obtain ⟨u, tree, text, hu, hprinted⟩ := hunder.printed hjobs (origins_file hf done)
  refine ⟨tree, text, tree?_eq_some.1 hprinted.read, hprinted.prints, ?_⟩
  rw [output?, hu, Option.map_some, CompilationUnit.file, CompilationUnit.text, hprinted.output, hprinted.filename,
    hprinted.resourceName]
  rfl

theorem compile_of_run (hrun : ((c.add f).2.run extra).1 = .finished)
    (houtput : ((c.add f).2.run extra).2.output? (c.add f).1 = some out) : (c.compile f extra).1 = .ok out := by
  simp only [compile]
  split
  · rename_i hresult
    rw [hresult] at houtput
    rw [houtput]
  · rename_i hfailed hresult
    rw [hresult] at hrun
    exact absurd hrun hfailed

theorem compile_of_finished (hfresh : ofSpec spec o memory = .ok fresh)
    (hrun : ((fresh.addAll [f]).2.run extra).1 = .finished) :
    ∃ tree text, fresh.parser.parse f.text = .ok tree ∧ fresh.printer.render (o.settle tree) = .ok text ∧
      (fresh.compile f extra).1 = .ok { f with text } := by
  have hhandle : (fresh.add f).1 = ⟨0⟩ := (cons.inj (underway_of_ofSpec hfresh [f]).2).1
  obtain ⟨tree, text, hparse, hprint, houtput⟩ := output?_of_finished hfresh hrun (i := 0) rfl
  rw [← hhandle] at houtput
  exact ⟨tree, text, hparse, hprint, compile_of_run hrun houtput⟩

/-! ### The bundled commands -/

theorem tools_of_ofSpec (hfresh : ofSpec spec o memory = .ok fresh) : fresh.parser =
      { tree := spec.tree, options := { multiline := o.multiline, keepComments := o.keepComments } } ∧
    fresh.printer = { spec, indent := o.indent } := by
  rw [ofSpec] at hfresh
  split at hfresh <;> cases hfresh
  exact ⟨rfl, rfl⟩

theorem exists_bundled (o : Options) (hrules : o.unknownRule? = none) (memory : σ) :
    ∃ spec fresh, withTrees [] true = .ok spec ∧ ofSpec spec o memory = .ok fresh ∧
      spec.tree = bundled.carryOut bundledPlan := by
  obtain ⟨prototypes, hprotos⟩ := bundled_regular.keyed.exists_prototypes bundled_resolve
  cases hfresh : ofSpec ⟨_, prototypes⟩ o memory with
  | error e =>
    rw [ofSpec, hrules] at hfresh
    cases hfresh
  | ok fresh => exact ⟨_, fresh, ofTree_eq bundled_resolve hprotos, hfresh, rfl⟩

theorem compiles_of_sound (hspec : withTrees [] true = .ok spec) (hfresh : ofSpec spec o memory = .ok fresh)
    (h : (fresh.setting o).Sound files) : (fresh.setting o).Compiles files := by
  obtain ⟨hparser, hprinter⟩ := tools_of_ofSpec hfresh
  have hprints : ∀ f tree, (fresh.setting o).tree? f = some tree → ((fresh.setting o).text? (o.settle tree)).isSome ∧
        ∀ d ∈ o.definitions tree, ((fresh.setting o).text? d.body).isSome := by
    intro f tree htree
    have hparse : fresh.parser.parse f.text = .ok tree := tree?_eq_some.1 htree
    rw [hparser] at hparse
    have hrender := Printer.exists_render_settle hspec hparse o o.indent
    rw [← hprinter] at hrender
    obtain ⟨⟨text, htext⟩, hbodies⟩ := hrender
    refine ⟨?_, fun d hd => ?_⟩
    · change (fresh.printer.render (o.settle tree)).toOption.isSome
      rw [htext]
      rfl
    · obtain ⟨text, htext⟩ := hbodies d hd
      change (fresh.printer.render d.body).toOption.isSome
      rw [htext]
      rfl
  refine ⟨h, fun f _ tree htree => (hprints f tree htree).1, fun d hd => ?_⟩
  obtain ⟨f, -, hd⟩ := mem_flatMap.1 hd
  obtain ⟨tree, htree, hd⟩ := mem_definitions.1 hd
  exact (hprints f tree htree).2 d hd

/-- With the bundled commands, a build of files finishes just if they are sound. -/
theorem run_finished_iff_sound (hspec : withTrees [] true = .ok spec) (hfresh : ofSpec spec o memory = .ok fresh)
    (files : List SourceFile) (extra : Nat) :
    ((fresh.addAll files).2.run extra).1 = .finished ↔ (fresh.setting o).Sound files := by
  rw [(run_finished_iff hfresh files extra).1]
  exact ⟨fun h => h.toSound, compiles_of_sound hspec hfresh⟩

/-! ### Files together and alone -/

/-- Files are compiled independently of each other and of their order, with any grammar and any standard rules. A build
of files finishes just if it finishes on the files in any other order. If it does, then each file compiles alone, and
to what the build has made of it, which is printed from the tree of that file. -/
theorem compile_alone_of_run (hfresh : ofSpec spec o memory = .ok fresh) (files : List SourceFile) (extra : Nat) :
    (∀ files' extra', files.Perm files' →
      (((fresh.addAll files).2.run extra).1 = .finished ↔ ((fresh.addAll files').2.run extra').1 = .finished)) ∧
    (((fresh.addAll files).2.run extra).1 = .finished →
      ∀ h f, (h, f) ∈ (fresh.addAll files).1.zip files → ∀ extra', ∃ tree out,
        fresh.parser.parse f.text = .ok tree ∧ fresh.printer.render (o.settle tree) = .ok out.text ∧
        (fresh.compile f extra').1 = .ok out ∧ ((fresh.addAll files).2.run extra).2.output? h = some out) := by
  constructor
  · intro files' extra' hperm
    rw [(run_finished_iff hfresh files extra).1, (run_finished_iff hfresh files' extra').1]
    exact ⟨fun h => h.perm hperm, fun h => h.perm hperm.symm⟩
  · intro hrun h f hmem extra'
    rw [(underway_of_ofSpec hfresh files).2] at hmem
    obtain ⟨i, hi⟩ := getElem?_of_mem hmem
    obtain ⟨hhandle, hf⟩ := getElem?_zip_eq_some.1 hi
    obtain rfl : h = ⟨i⟩ := by
      rw [getElem?_map, getElem?_range (List.getElem?_eq_some_iff.1 hf).1] at hhandle
      exact (Option.some.inj hhandle).symm
    have halone : ((fresh.addAll [f]).2.run extra').1 = .finished :=
      (run_finished_iff hfresh [f] extra').1.2
        (((run_finished_iff hfresh files extra).1.1 hrun).single (mem_of_getElem? hf))
    obtain ⟨tree, text, hparse, hprint, houtput⟩ := output?_of_finished hfresh hrun hf
    obtain ⟨tree', text', hparse', hprint', hcompile⟩ := compile_of_finished hfresh halone
    obtain rfl : tree = tree' := Except.ok.inj (hparse.symm.trans hparse')
    obtain rfl : text = text' := Except.ok.inj (hprint.symm.trans hprint')
    exact ⟨tree, _, hparse, hprint, hcompile, houtput⟩

/-- Two files that define functions, one of them in a command that is only run, and the files in the other order. -/
theorem compile_alone_of_run_nested :
    let o : Options := { multiline := true, rules := some ["execute_run", "nested_function"] }
    let files : List SourceFile := [⟨"function a:b:\n function a:c:\n  kill\n", some "x", none⟩,
      ⟨"execute run function a:d:\n say hi\n", none, some "a:y"⟩]
    ∃ (spec : Spec) (fresh : Compiler Unit), withTrees [] true = .ok spec ∧ ofSpec spec o () = .ok fresh ∧
      ((fresh.addAll files).2.run 0).1 = .finished ∧ ((fresh.addAll files.reverse).2.run 0).1 = .finished ∧
      ∀ h f, (h, f) ∈ (fresh.addAll files).1.zip files → ∃ out, (fresh.compile f 0).1 = .ok out ∧
        ((fresh.addAll files).2.run 0).2.output? h = some out := by
  intro o files
  obtain ⟨spec, fresh, hspec, hfresh, htree⟩ := exists_bundled o (by decide) ()
  let parser : Parser :=
    { tree := CommandTree.bundled.carryOut CommandTree.bundledPlan, options := { multiline := true } }
  have hparser : fresh.parser = parser := by rw [(tools_of_ofSpec hfresh).1, htree]
  have hsound : (Setting.mk parser ⟨⟨.bundled, []⟩, 4⟩ o).Sound files := by decide +kernel
  have hrun := (run_finished_iff_sound hspec hfresh files 0).2 (hsound.congr hparser rfl)
  obtain ⟨hperm, halone⟩ := compile_alone_of_run hfresh files 0
  refine ⟨spec, fresh, hspec, hfresh, hrun, (hperm _ 0 (reverse_perm files).symm).1 hrun, fun h f hmem => ?_⟩
  obtain ⟨tree, out, -, -, hcompile, houtput⟩ := halone hrun h f hmem 0
  exact ⟨out, hcompile, houtput⟩

end Compiler

end Mcfunction
