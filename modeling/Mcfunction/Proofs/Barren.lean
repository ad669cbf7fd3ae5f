import Mcfunction.Proofs.Slots

/-! Nodes that no command leads through. A dead end is told by what the node itself has, so an alias of a node without
children is none. Main statement: in a resolved tree every node on the walk begins the words of some prototype, unless
all ways behind it end at such nodes, or their prototypes have lost their identifiers to others, which takes a name with
a colon. -/

namespace Mcfunction

open List Entries Spec Bool

def Spec.Covers (s : Spec) (scope : Path) : Prop :=
  ∃ identifier p, s.prototype? identifier = some p ∧ scope <+: p.signature.map Entry.name

namespace CommandTree

/-- No command ends at the node or behind it: it is a root inside the tree that nothing follows, an alias of a node
without children, or only such nodes may follow it. -/
inductive Barren (root : CommandTree) : CommandTree → Prop where
  | innerRoot {node} (hx : node.executable = false) (hrole : node.role = .root) (hred : node.redirect? = none)
      (hchildren : node.children = []) : Barren root node
  | emptyAlias {node target t} (hx : node.executable = false) (hred : node.redirect? = some target)
      (ht : root.at? target = some t) (hsub : t.subcommand = false) (hchildren : t.children = []) : Barren root node
  | through {node} (hx : node.executable = false) (hne : root.following node ≠ [])
      (hbelow : ∀ name child, (name, child) ∈ root.following node → Barren root child) : Barren root node

variable {root t t' node child target node' : CommandTree} {legacy : Bool} {taken taken' : List Path} {way way' : Way}
  {name : String} {scope path : Path} {p : Prototype} {ps : List Prototype}

theorem keyed_iff : t.Keyed ↔ ∀ path ∈ t.paths, ∀ node ∈ t.at? path, (keys node.children).Nodup :=
  ⟨fun h path _ node hnode => h path node hnode, fun h path node hnode => h path (mem_paths_of_at? hnode) node hnode⟩

instance (t : CommandTree) : Decidable t.Keyed := decidable_of_iff _ keyed_iff.symm

/-! ### Barren nodes -/

theorem Barren.following (h : root.Barren node) (hchild : (name, child) ∈ root.following node) : root.Barren child := by
  cases h with
  | innerRoot hx hrole hred hchildren =>
    rw [following_of_none hred, hchildren] at hchild
    cases hchild
  | emptyAlias hx hred ht hsub hchildren =>
    rw [following_of_alias hred ht hsub, hchildren] at hchild
    cases hchild
  | through hx hne hbelow => exact hbelow name child hchild

theorem Barren.executable (h : root.Barren node) : node.executable = false := by
  cases h <;> assumption

theorem Barren.not_redirectsTo (h : root.Barren node) : ¬root.RedirectsTo node path target := by
  intro hto
  cases h with
  | innerRoot hx hrole hred hchildren => cases hred.symm.trans hto.1
  | emptyAlias hx hred ht hsub hchildren =>
    cases hred.symm.trans hto.1
    cases ht.symm.trans hto.2.1
    cases hsub.symm.trans hto.2.2
  | through hx hne hbelow => exact hne hto.following

theorem Barren.not_emits (h : root.Barren node) : ¬root.Emits way node p := by
  rintro (⟨hx, -⟩ | ⟨⟨path, target, hto⟩, -⟩)
  · cases h.executable.symm.trans hx
  · exact h.not_redirectsTo hto

theorem Visits.barren (hkeyed : root.Keyed) (h : Visits root taken way node) (hbarren : root.Barren node)
    (h' : Visits root taken' way' node') : way.scope <+: way'.scope → root.Barren node' := by
  -- the step before is behind the node as well, or else the node itself is reached
  have hlast : ∀ {taken front name child}, Visits root taken (Way.step front name child) child →
      way.scope <+: (front.step name child).scope → way.scope <+: front.scope ∨ root.Barren child := by
    intro taken front name child hvisits hle
    rw [Way.step_scope, prefix_concat_iff] at hle
    rcases hle with heq | hle
    · obtain ⟨-, rfl⟩ := h.unique hkeyed hvisits (heq.trans (Way.step_scope _ _ _).symm)
      exact .inr hbarren
    · exact .inl hle
  refine h'.along (R := fun way' node' => way.scope <+: way'.scope → root.Barren node') ?_ ?_
  · intro name child hchild hbehind
    refine (hlast (.top hchild) hbehind).resolve_left fun hle => ?_
    exact h.scope_ne_nil (prefix_nil.1 hle)
  · intro taken taken' front node' name child _ hvisits hchild ih hbehind
    exact (hlast hvisits hbehind).elim (fun hle => (ih hle).following hchild) id

theorem exists_reached_of_keys (h : name ∈ keys root.children) : ∃ child, root.Reached [name] child := by
  obtain ⟨⟨key, child⟩, hchild, rfl⟩ := mem_map.1 h
  exact ⟨child, [], _, .top hchild, Way.step_scope _ _ _⟩

/-! ### Prototypes at a node and behind it -/

/-- The walk makes the prototype at a node that it comes to along these words, or behind one. -/
def Gathers (root : CommandTree) (scope : Path) (p : Prototype) : Prop :=
  ∃ taken way node, Visits root taken way node ∧ scope <+: way.scope ∧ root.Emits way node p

section

variable (hkeyed : t.Keyed) (hresolve : t.resolve legacy = .ok t')

include hkeyed hresolve

theorem Visits.barren_of_end (h : Visits t' taken way node) (hend : t'.following node = [])
    (hno : ∀ p, ¬t'.Emits way node p) : t'.Barren node := by
  have hx : node.executable = false := eq_false_iff.2 fun hx => hno _ (.inl ⟨hx, rfl⟩)
  cases hred : node.redirect? with
  | none =>
    rw [following_of_none hred] at hend
    refine .innerRoot hx ?_ hred hend
    by_contra hrole
    obtain ⟨p, hplan, hres, hdead⟩ := hkeyed.resolve_ok hresolve
    rcases (h.planned hkeyed hres hdead hplan).not_deadEnd hdead hrole hred with hx' | hne
    · cases hx.symm.trans hx'
    · exact hne hend
  | some target =>
    obtain ⟨m, hm, -⟩ := hkeyed.passable hresolve h target hred
    have hsub : m.subcommand = false :=
      eq_false_iff.2 fun hsub => hno _ (.inr ⟨⟨target, m, hred, hm, hsub⟩, rfl⟩)
    rw [following_of_alias hred hm hsub] at hend
    exact .emptyAlias hx hred hm hsub hend

/-- A node on the walk is barren, or there is a prototype at it or behind it. -/
theorem Visits.barren_or_gathers (h : Visits t' taken way node) : t'.Barren node ∨ ∃ p, t'.Gathers way.scope p := by
  generalize hstay : (⟨taken, node⟩ : Stay) = stay
  -- the walk does not go down for ever
  induction stay using t'.descends_wellFounded.induction generalizing taken way node with
  | _ stay ih =>
    subst hstay
    by_cases hhere : ∃ p, t'.Emits way node p
    · obtain ⟨p, hp⟩ := hhere
      exact .inr ⟨p, taken, way, node, h, prefix_refl _, hp⟩
    · have hno : ∀ p, ¬t'.Emits way node p := not_exists.1 hhere
      by_cases hend : t'.following node = []
      · exact .inl (h.barren_of_end hkeyed hresolve hend hno)
      · by_cases hbelow : ∀ name child, (name, child) ∈ t'.following node → t'.Barren child
        · exact .inl (.through (eq_false_iff.2 fun hx => hno _ (.inl ⟨hx, rfl⟩)) hend hbelow)
        · push Not at hbelow
          obtain ⟨name, child, hchild, hnot⟩ := hbelow
          obtain ⟨taken', hnext, hdesc⟩ := h.next (hkeyed.passable hresolve h) hchild
          obtain ⟨p, taken₁, way₁, node₁, h₁, hle, hp⟩ := (ih _ hdesc hnext rfl).resolve_left hnot
          rw [Way.step_scope] at hle
          exact .inr ⟨p, taken₁, way₁, node₁, h₁, (prefix_append _ _).trans hle, hp⟩

end

/-! ### Identifiers -/

theorem Visits.sound (h : Visits root taken way node) : way.Sound :=
  h.along (R := fun way _ => way.Sound) (fun _ => Way.Sound.start.step _ _) fun _ _ _ hway => hway.step _ _

/-- The identifier joins the names of the entries, which are the words on the way, with one more for a whole command. -/
theorem Emits.names (hway : way.Sound) (h : root.Emits way node p) :
    p.identifier = ":".intercalate (p.signature.map Entry.name) ∧
      (p.signature.map Entry.name = way.scope ∨ (∃ path target, root.RedirectsTo node path target) ∧
        p.signature.map Entry.name = way.scope ++ [Slot.subcommandName]) := by
  rcases h with ⟨-, rfl⟩ | ⟨hto, rfl⟩
  · refine ⟨?_, .inl hway.names⟩
    rw [Way.prototype, hway.names]
  · refine ⟨?_, .inr ⟨hto, hway.subcommand.names⟩⟩
    rw [Way.prototype, hway.subcommand.names]

theorem Emits.prefix_names (hway : way.Sound) (h : root.Emits way node p) (hle : scope <+: way.scope) :
    scope <+: p.signature.map Entry.name := by
  rcases (h.names hway).2 with hnames | ⟨-, hnames⟩
  · rwa [hnames]
  · rw [hnames]
    exact hle.trans (prefix_append _ _)

def Colonless (t : CommandTree) : Prop :=
  ∀ path node, t.at? path = some node → ∀ name ∈ keys node.children, ':' ∉ name.toList

theorem Colonless.resolve (hkeyed : t.Keyed) (hresolve : t.resolve legacy = .ok t') (h : t.Colonless) :
    t'.Colonless := by
  obtain ⟨p, -, hres, -⟩ := hkeyed.resolve_ok hresolve
  intro path m hm
  obtain ⟨n, hn, hkept⟩ := (hres path).2 m hm
  rw [hkept.keys]
  exact h path n hn

theorem Visits.colonless (hkeyed : root.Keyed) (hroot : root.Colonless) (h : Visits root taken way node) :
    ∀ word ∈ way.scope, ':' ∉ word.toList := by
  have hlast : ∀ {place owner front name child}, root.at? place = some owner → (name, child) ∈ owner.children →
      (∀ word ∈ front, ':' ∉ word.toList) → ∀ word ∈ front ++ [name], ':' ∉ word.toList := by
    intro place owner front name child howner hchild hfront
    rw [forall_mem_append, forall_mem_singleton]
    exact ⟨hfront, hroot place owner howner name (mem_map.2 ⟨_, hchild, rfl⟩)⟩
  refine h.along (R := fun way _ => ∀ word ∈ way.scope, ':' ∉ word.toList) (fun hchild => ?_) ?_
  · rw [Way.step_scope]
    exact hlast (show root.at? [] = some root from rfl) hchild (forall_mem_nil _)
  · intro taken taken' front node name child h _ hchild ih
    obtain ⟨place, hplace⟩ := h.at? hkeyed
    obtain ⟨_, owner, howner, heq, -⟩ := following_eq hplace (ne_nil_of_mem hchild)
    rw [Way.step_scope]
    exact hlast howner (heq ▸ hchild) ih

theorem Visits.colonless_names (hkeyed : root.Keyed) (hroot : root.Colonless) (h : Visits root taken way node)
    (hemits : root.Emits way node p) :
    p.signature.map Entry.name ≠ [] ∧ ∀ word ∈ p.signature.map Entry.name, ':' ∉ word.toList := by
  rcases (hemits.names h.sound).2 with hnames | ⟨-, hnames⟩
  · rw [hnames]
    exact ⟨h.scope_ne_nil, h.colonless hkeyed hroot⟩
  · rw [hnames]
    rw [forall_mem_append]
    exact ⟨by simp, h.colonless hkeyed hroot, by decide⟩

/-! ### Prototypes that are kept -/

theorem Visits.prototypesFrom (hps : prototypesBelow root [] {} root.children = .ok ps)
    (h : Visits root taken way node) :
    ∃ taken' qs, CommandTree.prototypesFrom root taken' way node = .ok qs ∧ qs ⊆ ps := by
  refine h.along (R := fun way node => ∃ taken' qs, CommandTree.prototypesFrom root taken' way node = .ok qs ∧ qs ⊆ ps)
    (fun hchild => ⟨_, prototypesBelow_cons hps hchild⟩) ?_
  rintro _ _ way node name child - - hchild ⟨taken', qs, hqs, hsub⟩
  obtain ⟨taken₁, below, hbelow, hmem⟩ := prototypesFrom_covers hqs
  obtain ⟨rs, hrs, hrs'⟩ := prototypesBelow_cons hbelow hchild
  exact ⟨taken₁, rs, hrs, fun p hp => hsub (hmem p (.inr (hrs' hp)))⟩

theorem exists_lookup_foldl_insert (made : Entries Prototype) (h : p ∈ ps ∨ ∃ q, made.lookup p.identifier = some q) :
    ∃ q, (ps.foldl (fun made p => insert p.identifier p made) made).lookup p.identifier = some q := by
  induction ps generalizing made with
  | nil => exact h.resolve_left not_mem_nil
  | cons r ps ih =>
    refine ih _ ?_
    rw [lookup_insert]
    by_cases hr : p.identifier = r.identifier
    · exact .inr ⟨r, if_pos hr⟩
    · rw [if_neg hr]
      refine h.imp_left fun hp => (mem_cons.1 hp).resolve_left ?_
      rintro rfl
      exact hr rfl

theorem Gathers.exists_lookup {prototypes : Entries Prototype} (h : root.prototypes = .ok prototypes)
    (hp : root.Gathers scope p) : ∃ q, prototypes.lookup p.identifier = some q := by
  rw [CommandTree.prototypes] at h
  split at h
  · cases h
  · rename_i hps
    cases h
    obtain ⟨taken, way, node, hvisits, -, hemits⟩ := hp
    obtain ⟨taken', qs, hqs, hsub⟩ := hvisits.prototypesFrom hps
    obtain ⟨_, _, _, hmem⟩ := prototypesFrom_covers hqs
    exact exists_lookup_foldl_insert [] (.inl (hsub (hmem p (.inl hemits))))

end CommandTree

/-- There are prototypes at a node along the words or behind it, but all of them have given way to others. -/
def Spec.Shadows (s : Spec) (scope : Path) : Prop :=
  (∃ p, s.tree.Gathers scope p) ∧ ∀ p, s.tree.Gathers scope p →
    ∃ q, s.prototype? p.identifier = some q ∧ q.signature.map Entry.name ≠ p.signature.map Entry.name

namespace CommandTree

section

variable {spec : Spec} (hkeyed : t.Keyed) (hspec : ofTree t legacy = .ok spec) {identifier : String}

include hspec

theorem Gathers.covers_or_shadows (h : spec.tree.Gathers scope p) : spec.Covers scope ∨ spec.Shadows scope := by
  obtain ⟨-, hprotos⟩ := ofTree_ok hspec
  by_cases hcovers : spec.Covers scope
  · exact .inl hcovers
  · refine .inr ⟨⟨p, h⟩, fun r hr => ?_⟩
    obtain ⟨q, hq⟩ := hr.exists_lookup hprotos
    refine ⟨q, hq, fun hsame => hcovers ⟨_, q, hq, ?_⟩⟩
    obtain ⟨taken, way, node, hvisits, hle, hemits⟩ := hr
    exact hsame ▸ hemits.prefix_names hvisits.sound hle

include hkeyed

theorem Keyed.kept (h : spec.prototype? identifier = some p) :
    p.identifier = identifier ∧ ∃ taken way node, Visits spec.tree taken way node ∧ spec.tree.Emits way node p := by
  obtain ⟨hresolve, hprotos⟩ := ofTree_ok hspec
  obtain ⟨hkey, hvisit⟩ := hkeyed.exists_visit_of_mem hresolve hprotos (mem_of_lookup h)
  exact ⟨hkey.symm, hvisit⟩

/-- A prototype whose words begin with those to a node was made at the node or behind it. -/
theorem Visits.gathers (h : Visits spec.tree taken way node)
    (hp : spec.prototype? identifier = some p) (hle : way.scope <+: p.signature.map Entry.name) :
    spec.tree.Gathers way.scope p := by
  obtain ⟨-, taken', way', node', h', hemits⟩ := hkeyed.kept hspec hp
  refine ⟨taken', way', node', h', ?_, hemits⟩
  rcases (hemits.names h'.sound).2 with hnames | ⟨⟨path, target, hto⟩, hnames⟩
  · exact hnames ▸ hle
  · have hkeyed' := hkeyed.resolved (ofTree_ok hspec).1
    rw [hnames, prefix_concat_iff] at hle
    exact hle.resolve_left fun heq => h'.synthetic hkeyed' hto node ⟨taken, way, h, heq⟩

/-- Without colons in names an identifier tells its words, so that no prototype takes the place of another. -/
theorem Colonless.not_shadows (h : t.Colonless) : ¬spec.Shadows scope := by
  rintro ⟨⟨p, hp⟩, hall⟩
  obtain ⟨q, hq, hdiffer⟩ := hall p hp
  obtain ⟨taken, way, node, hvisits, -, hemits⟩ := hp
  obtain ⟨hkey, taken', way', node', hvisits', hemits'⟩ := hkeyed.kept hspec hq
  obtain ⟨hresolve, -⟩ := ofTree_ok hspec
  have hkeyed' := hkeyed.resolved hresolve
  have hroot := h.resolve hkeyed hresolve
  obtain ⟨hne, hwords⟩ := hvisits.colonless_names hkeyed' hroot hemits
  obtain ⟨hne', hwords'⟩ := hvisits'.colonless_names hkeyed' hroot hemits'
  refine hdiffer (intercalate_colon_injective hne' hne hwords' hwords ?_)
  rw [← (hemits'.names hvisits'.sound).1, ← (hemits.names hvisits.sound).1]
  exact hkey

end

/-- Which nodes commands lead through. The words to a node on the walk begin those of a prototype unless the node is
barren, or all prototypes at it and behind it have given way to others with their identifiers. The latter takes a name
with a colon. -/
theorem covers_iff {spec : Spec} (hkeyed : t.Keyed) (hspec : ofTree t legacy = .ok spec)
    (h : Visits spec.tree taken way node) :
    (spec.Covers way.scope ↔ ¬spec.tree.Barren node ∧ ¬spec.Shadows way.scope) ∧
      (spec.Shadows way.scope → ¬t.Colonless) := by
  obtain ⟨hresolve, -⟩ := ofTree_ok hspec
  refine ⟨⟨?_, ?_⟩, fun hshadows hcolon => hcolon.not_shadows hkeyed hspec hshadows⟩
  · rintro ⟨identifier, p, hp, hle⟩
    have hgathers := h.gathers hkeyed hspec hp hle
    refine ⟨fun hbarren => ?_, fun hshadows => ?_⟩
    · obtain ⟨taken', way', node', h', hbehind, hemits⟩ := hgathers
      exact (h.barren (hkeyed.resolved hresolve) hbarren h' hbehind).not_emits hemits
    · obtain ⟨q, hq, hdiffer⟩ := hshadows.2 p hgathers
      rw [(hkeyed.kept hspec hp).1, hp] at hq
      cases hq
      exact hdiffer rfl
  · rintro ⟨hnot, hshadows⟩
    obtain ⟨p, hp⟩ := (h.barren_or_gathers hkeyed hresolve).resolve_left hnot
    exact (hp.covers_or_shadows hspec).resolve_right hshadows

/-- A group that holds an alias of a node without children only, beside nodes that commands lead through. -/
theorem covers_iff_group :
    let t : CommandTree := { role := .root, children := [
      ("group", { role := .literal, children := [("old", { role := .literal, redirect? := some ["stop"] })] }),
      ("stop", { role := .literal, executable? := some true }),
      ("run", { role := .literal })] }
    t.Keyed ∧ ∃ spec, ofTree t true = .ok spec ∧ ∃ taken way node, Visits spec.tree taken way node ∧
      way.scope = ["group"] ∧ (spec.Covers way.scope ↔ ¬spec.tree.Barren node ∧ ¬spec.Shadows way.scope) ∧
      (spec.Shadows way.scope → ¬t.Colonless) := by
  intro t
  have hkeyed : t.Keyed := by decide +kernel
  obtain ⟨spec, hspec, hkeys⟩ : ∃ spec, ofTree t true = .ok spec ∧
      decide ("group" ∈ keys spec.tree.children) = true := exists_ok_of_any (by cbv)
  obtain ⟨node, hreached⟩ := exists_reached_of_keys (of_decide_eq_true hkeys)
  obtain ⟨taken, way, h, hscope⟩ := hreached
  exact ⟨hkeyed, spec, hspec, taken, way, node, h, hscope, covers_iff hkeyed hspec h⟩

/-- The walk comes to an alias of a node without children, to a root inside the tree, and to a node whose prototype has
given way to one with another split of the same identifier. No command leads through any of them. -/
theorem reached_not_covered :
    let leaf : CommandTree := { role := .literal, executable? := some true }
    let t : CommandTree := { role := .root, children := [
      ("a", { role := .literal, redirect? := some ["b"] }), ("b", leaf), ("x", { role := .root }),
      ("c:d", leaf), ("c", { role := .literal, children := [("d", leaf)] })] }
    t.Keyed ∧ ∃ spec, ofTree t true = .ok spec ∧
      ∀ name ∈ ["a", "x", "c:d"], (∃ node, spec.tree.Reached [name] node) ∧ ¬spec.Covers [name] := by
  intro leaf t
  obtain ⟨spec, hspec, hcheck⟩ : ∃ spec, ofTree t true = .ok spec ∧ decide (∀ name ∈ ["a", "x", "c:d"],
      name ∈ keys spec.tree.children ∧ ∀ e ∈ spec.prototypes, ¬[name] <+: e.2.signature.map Entry.name) = true :=
    exists_ok_of_any (by cbv)
  refine ⟨by decide +kernel, spec, hspec, fun name hname => ?_⟩
  obtain ⟨hkey, hnone⟩ := of_decide_eq_true hcheck name hname
  refine ⟨exists_reached_of_keys hkey, ?_⟩
  rintro ⟨identifier, p, hp, hle⟩
  exact hnone _ (mem_of_lookup hp) hle

end CommandTree

end Mcfunction
