import Mcfunction.Proofs.Independence

/-! Functions that are defined inside of others, and the units that a build makes of them. A tree is stripped if calls
stand in the place of its definitions. Main statement: a build of one file leaves the stripped tree to its unit, and
makes one further unit for each definition in the tree, at any depth, with the stripped tree of its block. -/

namespace Mcfunction

open List NestedFunction Definition Node Setting Spec
open NestedFunction (Definition)

/-! ### Stripped trees -/

namespace NestedFunction

def strip : Node → Node := rewrite toCall

end NestedFunction

namespace Options

open NestedFunction (strip defined?)

variable {o : Options} {s : Spec} {n : Node}

theorem settle_eq_strip (hnested : o.enables .nestedFunction = true) (hrun : o.enables .executeRun = false) :
    o.settle = strip := by
  have hat : o.settleAt = toCall := by
    funext n
    simp [settleAt, hnested, hrun]
  rw [settle, hat]
  rfl

theorem form_settle_resourceLocation {l : ResourceLocation} :
    (o.settle n).form = .resourceLocation l ↔ n.form = .resourceLocation l := by
  have hleaf : ∀ l span, o.settle ⟨.resourceLocation l, span⟩ = ⟨.resourceLocation l, span⟩ := by
    intro l span
    have hbelow : o.settledBelow ⟨.resourceLocation l, span⟩ = ⟨.resourceLocation l, span⟩ :=
      withChildren_children _
    have hkind : (Node.mk (.resourceLocation l) span).kind ≠ .root := Kind.noConfusion
    rw [settle_eq, hbelow, settleAt_of_kind_ne hkind]
    split <;> rfl
  by_cases hkind : n.kind = .resourceLocation
  · obtain ⟨form, span⟩ := n
    cases form with
    | resourceLocation l => rw [hleaf]
    | _ => cases hkind
  · have hne : ∀ m : Node, m.kind = n.kind → m.form ≠ .resourceLocation l := by
      intro m hm hform
      rw [kind, hform] at hm
      exact hkind hm.symm
    exact iff_of_false (hne _ (o.kind_settle n)) (hne n rfl)

theorem title_settle (d : Definition) : (Definition.mk (o.settle d.name) (o.settle d.body)).title = d.title := by
  by_cases h : ∃ l, d.name.form = .resourceLocation l
  · obtain ⟨l, hform⟩ := h
    simp only [title, hform, form_settle_resourceLocation.2 hform]
  · have hnone : ∀ d : Definition, (¬∃ l, d.name.form = .resourceLocation l) → d.title = "" := by
      intro d h
      rw [title]
      split
      · rename_i l hform
        exact absurd ⟨l, hform⟩ h
      · rfl
    rw [hnone d h, hnone]
    simpa only [form_settle_resourceLocation] using h

theorem definitionAt?_settledBelow (hnested : o.enables .nestedFunction = true) (n : Node) :
    o.definitionAt? (o.settledBelow n) = (defined? n).map fun d => ⟨o.settle d.name, o.settle d.body⟩ := by
  rw [definitionAt?, if_pos hnested]
  by_cases hkind : n.kind = .command
  · obtain ⟨form, span⟩ := n
    cases form with
    | command identifier arguments =>
      rw [defined?, form_settledBelow_command rfl, defined?]
      rcases arguments with _ | ⟨name, _ | ⟨body, _ | ⟨other, arguments⟩⟩⟩
      · rfl
      · rfl
      · by_cases hid : identifier = definition <;> simp [hid]
      · rfl
    | _ => cases hkind
  · rw [defined?_of_kind_ne hkind, defined?_of_kind_ne (by rwa [kind_settledBelow])]
    rfl

/-- The rules take out one function for each definition in a tree, with its name and its settled block. -/
theorem definitions_perm (hnested : o.enables .nestedFunction = true) (n : Node) :
    ((o.definitions n).map fun d => (d.title, d.body)).Perm
      ((n.walk.filterMap defined?).map fun d => (d.title, o.settle d.body)) := by
  have hdefs : o.definitions n =
      (n.postorder.filterMap defined?).map fun d => ⟨o.settle d.name, o.settle d.body⟩ := by
    rw [map_filterMap]
    exact filterMap_congr fun m _ => definitionAt?_settledBelow hnested m
  rw [hdefs, map_map]
  refine .trans (.of_eq (map_congr_left fun d _ => ?_)) ((n.walk_perm.symm.filterMap defined?).map _)
  exact congrArg (·, o.settle d.body) (title_settle d)

end Options

/-! ### Definitions in trees that were read -/

namespace Spec

variable {s : Spec} {n m child : Node}

/-- A command has an argument for each slot, but for those in the entries that it leaves out. -/
def Places (s : Spec) (n : Node) : Prop := ∃ shared ≤ 1, s.Counts (countFrom shared) n

theorem places_of_kind_ne (h : n.kind ≠ .command) : s.Places n :=
  ⟨0, Nat.zero_le 1, fun _ _ hform => absurd (kind_of_command hform) h⟩

theorem places_of_child (hs : s.Suits) (hat : s.AgreesAt n) (hchild : child ∈ n.children) : s.Places child := by
  rcases n.isPart_or with hpart | ⟨lines, hform⟩ | ⟨identifier, arguments, hform⟩
  · refine places_of_kind_ne fun hkind => ?_
    have hchildpart := hat.part hpart child hchild
    rw [hkind] at hchildpart
    cases hchildpart
  · rw [children, hform] at hchild
    have hcounts := hat.root hform child hchild
    rw [← countFrom_zero] at hcounts
    exact ⟨0, Nat.zero_le 1, hcounts⟩
  · rw [children, hform] at hchild
    rw [AgreesAt, hform] at hat
    obtain ⟨whole, -, hlen, hfills⟩ := hat
    obtain ⟨slot, hslot⟩ : ∃ slot, (slot, child) ∈ whole.assigned arguments := by
      have hall : (whole.assigned arguments).map Prod.snd = arguments := by
        rw [Prototype.assigned, map_snd_zip]
        rw [length_drop]
        omega
      obtain ⟨⟨slot, child'⟩, hmem, rfl⟩ := mem_map.1 (hall.symm ▸ hchild)
      exact ⟨slot, hmem⟩
    have hfill := hfills _ hslot
    rw [Fills] at hfill
    split at hfill
    · exact ⟨_, hs.shared slot, hfill.2⟩
    · exact places_of_kind_ne hfill

theorem arguments_of_definition (hs : s.Suits) (h : s.Agrees n) (hkind : n.kind ≠ .command) (hm : m ∈ n.walk)
    {arguments : List Node} (hform : m.form = .command definition arguments) :
    ∃ name body, arguments = [name, body] := by
  have hstep : ∀ k, s.Agrees k ∧ s.Places k → ∀ c ∈ k.children, s.Agrees c ∧ s.Places c := by
    rintro k ⟨hk, -⟩ c hc
    obtain ⟨hat, hchildren⟩ := agrees_iff.1 hk
    exact ⟨hchildren c hc, places_of_child hs hat hc⟩
  obtain ⟨-, shared, hle, hcounts⟩ := Within.induct hstep ⟨h, places_of_kind_ne hkind⟩ (mem_walk.1 hm)
  obtain ⟨word, name, body, -, -, -, hdef⟩ := hs.functions
  obtain ⟨whole, hwhole, hlen⟩ := hcounts _ _ hform
  cases hdef.symm.trans hwhole
  refine length_eq_two.1 (hlen.trans ?_)
  rcases Nat.le_one_iff_eq_zero_or_eq_one.1 hle with rfl | rfl <;> rfl

end Spec

/-! ### Builds of one file -/

namespace Compiler

open NestedFunction (strip defined?)

variable {σ : Type} {s : Setting} {files : List SourceFile} {done : List Nat} {c : Compiler σ}

def nameAndTree? (c : Compiler σ) (h : Handle) : Option (Option String × Option Node) :=
  (c.database.get? h).map fun u => (u.resourceName, u.tree)

/-- When no jobs are left, the units behind those of the files are those of the definitions. -/
theorem Underway.extracted_units (hunder : Underway s files done c) (hjobs : c.database.jobs = []) :
    ∃ others, c.database.handles = (List.range files.length).map Handle.mk ++ others ∧
      others.map c.nameAndTree? = (s.extracted files done).map fun d => some (some d.title, some d.body) := by
  have hlen : (s.origins files done).length = files.length + (s.extracted files done).length := by
    rw [origins, length_append, length_map, length_map]
  refine ⟨(range (s.extracted files done).length).map fun i => ⟨files.length + i⟩, ?_, ?_⟩
  · rw [hunder.handles, hlen, range_add, map_append, map_map]
    rfl
  · refine ext_getElem (by simp) fun i _ hi' => ?_
    have hlt : i < (s.extracted files done).length := by rwa [length_map] at hi'
    have hd : (s.extracted files done)[i]? = some ((s.extracted files done)[i]) := getElem?_eq_getElem _
    obtain ⟨u, tree, text, hu, hprinted⟩ := hunder.printed hjobs (origins_extracted hd)
    obtain rfl : (s.extracted files done)[i].body = tree := Option.some.inj hprinted.read
    have hsettled := hprinted.settled
    rw [Options.settle_of_settled (settled_of_mem_extracted (mem_of_getElem? hd))] at hsettled
    simp only [getElem_map, getElem_range, nameAndTree?, hu, Option.map_some, hprinted.resourceName, hsettled]
    rfl

/-- Nested functions are taken out, and nothing is lost or doubled. Take a file that the bundled grammar reads and a
build of it, with the rule for nested functions and without the one that puts other commands in the place of those that
only run them. If the build finishes, the unit of the file has the stripped tree. Each definition in the tree has the
name of a function and a block, and no two have the same name. There is one further unit for each of them, at whatever
depth it stands, with its full name and the stripped tree of its block, and there are no others. -/
theorem run_extracts_definitions {spec : Spec} {o : Options} {memory : σ} {fresh result : Compiler σ} {f : SourceFile}
    {tree : Node} {extra : Nat} (hspec : withTrees [] true = .ok spec) (hfresh : ofSpec spec o memory = .ok fresh)
    (hnested : o.enables .nestedFunction = true) (hexecute : o.enables .executeRun = false)
    (hparse : fresh.parser.parse f.text = .ok tree) (hrun : (fresh.add f).2.run extra = (.finished, result)) :
    (∃ u, result.database.get? (fresh.add f).1 = some u ∧ u.tree = some (strip tree)) ∧
    (∀ m ∈ tree.walk, ∀ arguments, m.form = .command NestedFunction.definition arguments →
      ∃ name body l, arguments = [name, body] ∧ name.form = .resourceLocation l ∧ l.isTag = false) ∧
    ((tree.walk.filterMap defined?).map title).Nodup ∧
    ∃ others, result.database.handles = (fresh.add f).1 :: others ∧
      (others.map result.nameAndTree?).Perm
        ((tree.walk.filterMap defined?).map fun d => some (some d.title, some (strip d.body))) := by
  have hfinished : ((fresh.addAll [f]).2.run extra).1 = .finished := congrArg Prod.fst hrun
  have hhandle : (fresh.add f).1 = ⟨0⟩ := (List.cons.inj (underway_of_ofSpec hfresh [f]).2).1
  obtain ⟨hjobs, done, hunderway⟩ := (run_finished_iff hfresh [f] extra).2 hfinished
  change ((fresh.add f).2.run extra).2.database.jobs = [] at hjobs
  change Underway _ [f] done ((fresh.add f).2.run extra).2 at hunderway
  rw [hrun] at hjobs hunderway
  have hsettle := Options.settle_eq_strip hnested hexecute
  have htree : (fresh.setting o).tree? f = some tree := tree?_eq_some.2 hparse
  have hextracted : ((fresh.setting o).extracted [f] done).Perm (o.definitions tree) := by
    refine (hunderway.extracted_perm hjobs).trans (.of_eq ?_)
    rw [flatMap_singleton, definitions, htree]
    rfl
  have hpairs := (hextracted.map fun d => (d.title, d.body)).trans (Options.definitions_perm hnested tree)
  rw [hsettle] at hpairs
  refine ⟨?_, ?_, ?_, ?_⟩
  · obtain ⟨u, tree', text, hu, hprinted⟩ := hunderway.printed hjobs (origins_file (i := 0) rfl done)
    obtain rfl : tree = tree' := Option.some.inj (htree.symm.trans hprinted.read)
    exact ⟨u, hhandle ▸ hu, hsettle ▸ hprinted.settled⟩
  · intro m hm arguments hform
    rw [(tools_of_ofSpec hfresh).1] at hparse
    obtain ⟨hagrees, hkind⟩ := Parser.agrees_of_bundled hspec hparse
    obtain ⟨name, body, rfl⟩ := arguments_of_definition (suits_bundled hspec) hagrees hkind hm hform
    have hmem : ⟨o.settle name, o.settle body⟩ ∈ o.definitions tree := by
      refine mem_filterMap.2 ⟨m, tree.walk_perm.mem_iff.1 hm, ?_⟩
      rw [Options.definitionAt?_settledBelow hnested, NestedFunction.defined?_eq_some (d := ⟨name, body⟩).2 hform]
      rfl
    obtain ⟨l, hname, htag⟩ := hunderway.named _ (hextracted.mem_iff.2 hmem)
    exact ⟨name, body, l, rfl, Options.form_settle_resourceLocation.1 hname, htag⟩
  · have htitles := hpairs.map Prod.fst
    rw [map_map, map_map] at htitles
    exact htitles.nodup_iff.1 hunderway.distinct
  · obtain ⟨others, hhandles, hunits⟩ := hunderway.extracted_units hjobs
    refine ⟨others, hhandle ▸ hhandles, ?_⟩
    rw [hunits]
    have hsome := hpairs.map fun pair => some (some pair.1, some pair.2)
    rwa [map_map, map_map] at hsome

/-- A definition in the block of another one, below a command that runs it, and one behind them. -/
theorem run_extracts_definitions_nested :
    let o : Options := { multiline := true, rules := some ["nested_function"] }
    let f : SourceFile :=
      { text := "function a:b:\n execute as @a run function c:\n  kill\n say hi\nfunction a:d:\n kill\n" }
    ∃ (spec : Spec) (fresh result : Compiler Unit) (tree : Node), withTrees [] true = .ok spec ∧
      ofSpec spec o () = .ok fresh ∧ fresh.parser.parse f.text = .ok tree ∧
      (fresh.add f).2.run 0 = (.finished, result) ∧
      ((tree.walk.filterMap defined?).map title).Perm ["a:b", "minecraft:c", "a:d"] ∧
      (∃ u, result.database.get? (fresh.add f).1 = some u ∧ u.tree = some (strip tree)) ∧
      ∃ others, result.database.handles = (fresh.add f).1 :: others ∧ (others.map result.nameAndTree?).Perm
        ((tree.walk.filterMap defined?).map fun d => some (some d.title, some (strip d.body))) := by
  intro o f
  obtain ⟨spec, fresh, hspec, hfresh, htree⟩ := exists_bundled o (by decide) ()
  let parser : Parser :=
    { tree := CommandTree.bundled.carryOut CommandTree.bundledPlan, options := { multiline := true } }
  have hparser : fresh.parser = parser := by rw [(tools_of_ofSpec hfresh).1, htree]
  have hsound : (Setting.mk parser ⟨⟨.bundled, []⟩, 4⟩ o).Sound [f] := by decide +kernel
  have htitles : (parser.parse f.text).toOption.any (fun tree => decide
      (((tree.walk.filterMap defined?).map title).Perm ["a:b", "minecraft:c", "a:d"])) = true := by
    decide +kernel
  have hfinished : ((fresh.add f).2.run 0).1 = .finished :=
    (run_finished_iff_sound hspec hfresh [f] 0).2 (hsound.congr hparser rfl)
  have hrun : (fresh.add f).2.run 0 = (.finished, ((fresh.add f).2.run 0).2) := by rw [← hfinished]
  cases hparse : parser.parse f.text with
  | error e =>
      rw [hparse] at htitles
      cases htitles
  | ok tree =>
      rw [hparse] at htitles
      rw [← hparser] at hparse
      obtain ⟨hfile, -, -, hothers⟩ := run_extracts_definitions hspec hfresh (by decide) (by decide) hparse hrun
      exact ⟨spec, fresh, _, tree, hspec, hfresh, hparse, hrun, of_decide_eq_true htitles, hfile, hothers⟩

end Compiler

end Mcfunction
