import Mcfunction.Proofs.Agreement
import Mcfunction.Proofs.Descent
import Mcfunction.Proofs.Resolved

/-! Slots and the nodes that they stand for. The walk for prototypes goes through one alias at a time, and a lookup
follows whole chains of redirects. Main statement: in a resolved tree the words of a slot lead to the node that it
stands for, and those before a slot that was added for a whole command lead to the node that redirects. -/

namespace Mcfunction.CommandTree

open List Entries Way Spec Slot

variable {root t t' node child m child' node' : CommandTree} {legacy : Bool} {taken taken' : List Path} {way way' : Way}
  {name : String} {place target scope : Path}

/-! ### Going on -/

theorem Visits.scope_ne_nil (h : Visits root taken way node) : way.scope ≠ [] := by
  cases h <;> simp

/-- What holds of the children of the root, and passes on to what follows a node, holds along the walk. -/
theorem Visits.along {R : Way → CommandTree → Prop}
    (htop : ∀ {name child}, (name, child) ∈ root.children → R (step {} name child) child)
    (hstep : ∀ {taken taken' way node name child}, Visits root taken way node →
      Visits root taken' (way.step name child) child → (name, child) ∈ root.following node → R way node →
      R (way.step name child) child) (h : Visits root taken way node) : R way node := by
  induction h with
  | top hchild => exact htop hchild
  | child h hred hchild ih =>
    exact hstep h (h.child hred hchild) (by rwa [following_of_none hred]) ih
  | through h hred ht hsub htaken hchild ih =>
    exact hstep h (h.through hred ht hsub htaken hchild) (by rwa [following_of_alias hred ht hsub]) ih

theorem Visits.at? (hkeyed : root.Keyed) (h : Visits root taken way node) : ∃ place, root.at? place = some node := by
  refine h.along (R := fun _ node => ∃ place, root.at? place = some node) (fun hchild => ?_) ?_
  · exact ⟨_, hkeyed.at?_child (show root.at? [] = some root from rfl) hchild⟩
  · rintro _ _ _ _ _ _ - - hchild ⟨place, hplace⟩
    obtain ⟨_, owner, howner, heq, -⟩ := following_eq hplace (ne_nil_of_mem hchild)
    exact ⟨_, hkeyed.at?_child howner (heq ▸ hchild)⟩

theorem Visits.next (h : Visits root taken way node) (hpass : root.Passable taken node)
    (hchild : (name, child) ∈ root.following node) :
    ∃ taken', Visits root taken' (way.step name child) child ∧ root.Descends ⟨taken, node⟩ ⟨taken', child⟩ := by
  cases hred : node.redirect? with
  | none =>
    rw [following_of_none hred] at hchild
    exact ⟨taken, h.child hred hchild, .child hred hchild⟩
  | some target =>
    obtain ⟨t, ht, hopen⟩ := hpass target hred
    by_cases hsub : t.subcommand = true
    · rw [RedirectsTo.following ⟨hred, ht, hsub⟩] at hchild
      cases hchild
    · have htaken : target ∉ taken := hopen.resolve_left hsub
      have hfalse : t.subcommand = false := Bool.eq_false_iff.2 hsub
      rw [following_of_alias hred ht hfalse] at hchild
      exact ⟨_, h.through hred ht hfalse htaken hchild, .through hred ht htaken hchild⟩

/-- The walk sets out with the children of the root, or goes on with what follows a node. -/
def Onward (root : CommandTree) (way : Way) (children : List (String × CommandTree)) : Prop :=
  way = {} ∧ children = root.children ∨
    ∃ taken node, Visits root taken way node ∧ children = root.following node

theorem Visits.onward (h : Visits root taken way child) :
    ∃ front name children, root.Onward front children ∧ (name, child) ∈ children ∧ way = front.step name child := by
  refine h.along (R := fun way child => ∃ front name children, root.Onward front children ∧ (name, child) ∈ children ∧
    way = front.step name child) (fun hchild => ⟨_, _, _, .inl ⟨rfl, rfl⟩, hchild, rfl⟩) ?_
  exact fun h _ hchild _ => ⟨_, _, _, .inr ⟨_, _, h, rfl⟩, hchild, rfl⟩

theorem Onward.eq (hkeyed : root.Keyed) {children : List (String × CommandTree)}
    (h : root.Onward way children) (hchild : (name, child) ∈ children) (hchild' : (name, child') ∈ children) :
    child = child' := by
  have hdist : Entries.Distinct children := by
    rcases h with ⟨-, rfl⟩ | ⟨taken, node, h, rfl⟩
    · exact hkeyed [] root rfl
    · obtain ⟨place, hplace⟩ := h.at? hkeyed
      obtain ⟨place, owner, howner, heq, -⟩ := following_eq hplace (ne_nil_of_mem hchild)
      exact heq ▸ hkeyed place owner howner
  have hlookup := lookup_of_mem hdist hchild
  rw [lookup_of_mem hdist hchild'] at hlookup
  exact (Option.some.inj hlookup).symm

theorem Visits.unique (hkeyed : root.Keyed) (h : Visits root taken way node)
    (h' : Visits root taken' way' node') (hscope : way.scope = way'.scope) : way = way' ∧ node = node' := by
  generalize hwords : way'.scope = words at hscope
  induction words using reverseRecOn generalizing taken taken' way way' node node' with
  | nil => exact absurd hwords h'.scope_ne_nil
  | append_singleton words word ih =>
    obtain ⟨front, name, children, honward, hchild, rfl⟩ := h.onward
    obtain ⟨front', name', children', honward', hchild', rfl⟩ := h'.onward
    rw [step_scope] at hwords hscope
    obtain ⟨hfront, hname⟩ := append_inj' hscope rfl
    obtain ⟨hfront', hname'⟩ := append_inj' hwords rfl
    have hsame : front = front' ∧ children = children' := by
      rcases honward with ⟨rfl, rfl⟩ | ⟨taken₁, node₁, h₁, rfl⟩ <;>
        rcases honward' with ⟨rfl, rfl⟩ | ⟨taken₂, node₂, h₂, rfl⟩
      · exact ⟨rfl, rfl⟩
      · exact absurd (hfront'.trans hfront.symm) h₂.scope_ne_nil
      · exact absurd (hfront.trans hfront'.symm) h₁.scope_ne_nil
      · obtain ⟨rfl, rfl⟩ := ih h₁ h₂ hfront' hfront
        exact ⟨rfl, rfl⟩
    obtain ⟨rfl, rfl⟩ := hsame
    cases (singleton_inj.1 hname).trans (singleton_inj.1 hname').symm
    cases honward.eq hkeyed hchild hchild'
    exact ⟨rfl, rfl⟩

/-! ### Lookup -/

section

variable (hkeyed : t.Keyed) (hresolve : t.resolve legacy = .ok t')

include hkeyed hresolve

theorem Keyed.resolved : t'.Keyed := by
  obtain ⟨p, -, hres, -⟩ := hkeyed.resolve_ok hresolve
  exact hkeyed.of_resolves hres

theorem Keyed.resolved_root (hroot : t.redirect? = none) : t'.redirect? = none := by
  obtain ⟨p, -, hres, hdead⟩ := hkeyed.resolve_ok hresolve
  obtain ⟨n, hn, hkept⟩ := (hres []).2 t' rfl
  cases hn
  rw [hkept.redirect, if_neg fun hmem => (hdead [] hmem).1 rfl]
  exact hroot

/-- Where something follows an alias on the walk, its target does not redirect. -/
theorem Keyed.target_redirect? (h : Visits t' taken way node) (hred : node.redirect? = some target)
    (hm : t'.at? target = some m) (hsub : m.subcommand = false) (hne : m.children ≠ []) : m.redirect? = none := by
  obtain ⟨p, hplan, hres, hdead⟩ := hkeyed.resolve_ok hresolve
  obtain ⟨place, n, q, hn, -, hkept, hq, hwithin⟩ := h.planned hkeyed hres hdead hplan
  have hr := resolvedRedirect_eq hdead hn hkept hq hwithin hred
  obtain ⟨n', hn', hkept'⟩ := (hres target).2 m hm
  obtain ⟨-, _, hn, hcases⟩ := plan_redirect_ok hr hq
  cases hn.symm.trans hn'
  rcases hcases with hmark | ⟨-, hend, -⟩
  · have hmarked := hkept'.subcommand
    rw [decide_eq_true (hwithin.subcommands hmark), hsub, Bool.or_true] at hmarked
    cases hmarked
  · -- a dead end that was let redirect has no children
    have hopen : target ∉ p.deadEnds := fun hmem =>
      hne (children_eq_nil_of_keys hkept'.keys (isDeadEnd_children ((hdead target hmem).2 n' hn')))
    rw [hkept'.redirect, if_neg hopen, hend]

theorem Visits.get? (hroot : t.redirect? = none) (h : Visits t' taken way node) : t'.get? way.scope = some node := by
  have hkeyed' := hkeyed.resolved hresolve
  induction h with
  | top hchild =>
    rw [step_scope, get?_snoc rfl,
      followers?_of_none _ (hkeyed.resolved_root hresolve hroot)]
    exact lookup_of_mem (hkeyed' [] t' rfl) hchild
  | child h hred hchild ih =>
    obtain ⟨place, hplace⟩ := h.at? hkeyed'
    rw [step_scope, get?_snoc ih, followers?_of_none _ hred]
    exact lookup_of_mem (hkeyed' place _ hplace) hchild
  | through h hred ht hsub _ hchild ih =>
    have hend := hkeyed.target_redirect? hresolve h hred ht hsub (ne_nil_of_mem hchild)
    rw [step_scope, get?_snoc ih, followers?_of_alias hred ht hend]
    exact lookup_of_mem (hkeyed' _ _ ht) hchild

end

/-! ### Slots -/

def Reached (root : CommandTree) (scope : Path) (node : CommandTree) : Prop :=
  ∃ taken way, Visits root taken way node ∧ way.scope = scope

def Synthetic (root : CommandTree) (slot : Slot) : Prop := ∀ node, ¬root.Reached slot.scope node

theorem Visits.reached (h : Visits root taken way node) : root.Reached way.scope node := ⟨taken, way, h, rfl⟩

theorem Reached.get? (hkeyed : t.Keyed) (hresolve : t.resolve legacy = .ok t') (hroot : t.redirect? = none)
    (h : t'.Reached scope node) : t'.get? scope = some node := by
  obtain ⟨taken, way, h, rfl⟩ := h
  exact h.get? hkeyed hresolve hroot

theorem Way.slots_subcommand_prototype (way : Way) : way.subcommand.prototype.slots =
    way.prototype.slots ++ [⟨way.scope ++ [subcommandName], none⟩] :=
  slotsFrom_append (Nat.zero_le _) _

/-- The slot stands for an argument that the walk comes to, or for a root inside the tree. -/
def Stands (root : CommandTree) (slot : Slot) : Prop :=
  ∃ node, root.Reached slot.scope node ∧ node.role ≠ .literal ∧ node.reader? = slot.reader?

variable {slot : Slot}

theorem Visits.mem_slots_step (h : Visits root taken (way.step name child) child)
    (hslot : slot ∈ (way.step name child).prototype.slots) : slot ∈ way.prototype.slots ∨ root.Stands slot := by
  by_cases hrole : child.role = .literal
  · have hslots : (way.step name child).prototype.slots = way.prototype.slots :=
      slotsFrom_literal (Nat.zero_le _) hrole
    exact .inl (hslots ▸ hslot)
  · have hslots : (way.step name child).prototype.slots =
        way.prototype.slots ++ [⟨way.scope ++ [name], child.reader?⟩] :=
      slotsFrom_argument (Nat.zero_le _) hrole
    rw [hslots] at hslot
    rcases mem_append.1 hslot with hslot | hslot
    · exact .inl hslot
    · cases mem_singleton.1 hslot
      exact .inr ⟨child, ⟨taken, _, h, step_scope _ _ _⟩, hrole, rfl⟩

theorem Visits.stands (h : Visits root taken way node) : ∀ slot ∈ way.prototype.slots, root.Stands slot := by
  refine h.along (R := fun way _ => ∀ slot ∈ way.prototype.slots, root.Stands slot) ?_ ?_
  · intro name child hchild slot hslot
    exact (mem_slots_step (.top hchild) hslot).resolve_left fun hslot => by cases hslot
  · intro taken taken' way node name child _ h _ ih slot hslot
    exact (mem_slots_step h hslot).elim (ih slot) id

theorem Keyed.exists_visit_of_mem (hkeyed : t.Keyed) (hresolve : t.resolve legacy = .ok t')
    {prototypes : Entries Prototype} (h : t'.prototypes = .ok prototypes) {e : String × Prototype}
    (he : e ∈ prototypes) :
    e.1 = e.2.identifier ∧ ∃ taken way node, Visits t' taken way node ∧ t'.Emits way node e.2 := by
  have hnext : ∀ {way node name child}, (∃ taken, Visits t' taken way node) → (name, child) ∈ t'.following node →
      ∃ taken, Visits t' taken (way.step name child) child := by
    rintro way node name child ⟨taken, hvisits⟩ hchild
    obtain ⟨taken', hvisits', -⟩ := hvisits.next (hkeyed.passable hresolve hvisits) hchild
    exact ⟨taken', hvisits'⟩
  obtain ⟨hkey, way, node, ⟨taken, hvisits⟩, hemits⟩ :=
    emitted_of_mem_prototypes (R := fun way node => ∃ taken, Visits t' taken way node)
      (fun hchild => ⟨_, .top hchild⟩) hnext h he
  exact ⟨hkey, taken, way, node, hvisits, hemits⟩

theorem Visits.synthetic (hkeyed : root.Keyed) (h : Visits root taken way node)
    (hto : root.RedirectsTo node target t) : root.Synthetic ⟨way.scope ++ [subcommandName], none⟩ := by
  rintro child ⟨taken', way', h', hscope⟩
  obtain ⟨front, name, children, honward, hchild, rfl⟩ := h'.onward
  rw [step_scope] at hscope
  have hfront : front.scope = way.scope := (append_inj' hscope rfl).1
  rcases honward with ⟨rfl, -⟩ | ⟨taken₁, node₁, h₁, rfl⟩
  · exact h.scope_ne_nil hfront.symm
  · obtain ⟨-, rfl⟩ := h₁.unique hkeyed h hfront
    rw [hto.following] at hchild
    cases hchild

/-- Lookup agrees with the walk for prototypes. In every prototype of a grammar whose root does not redirect, a slot that
stands for no node is the last one and takes a whole command: the words before it are looked up to a node on the walk
that redirects to a marked target, and the command in it shares the entries on the path of the target. The words of
every other slot are looked up to a node on the walk, no literal, with the reader of the slot. -/
theorem slots_found {spec : Spec} (hkeyed : t.Keyed) (hroot : t.redirect? = none)
    (hspec : ofTree t legacy = .ok spec) {key : String} {p : Prototype} (hp : (key, p) ∈ spec.prototypes)
    (hslot : slot ∈ p.slots) :
    (spec.tree.Synthetic slot → slot.isSubcommand = true ∧ p.slots.getLast? = some slot ∧
      ∃ node target t', spec.tree.Reached slot.owner node ∧ spec.tree.get? slot.owner = some node ∧
        spec.tree.RedirectsTo node target t' ∧ spec.sharedEntries slot = target.length) ∧
      (¬spec.tree.Synthetic slot → ∃ node, spec.tree.Reached slot.scope node ∧
        spec.tree.get? slot.scope = some node ∧ node.role ≠ .literal ∧ node.reader? = slot.reader?) := by
  obtain ⟨hresolve, hprototypes⟩ := ofTree_ok hspec
  have hstands : spec.tree.Stands slot → ¬spec.tree.Synthetic slot ∧ ∃ node, spec.tree.Reached slot.scope node ∧
      spec.tree.get? slot.scope = some node ∧ node.role ≠ .literal ∧ node.reader? = slot.reader? := by
    rintro ⟨node, hreached, hrole, hreader⟩
    exact ⟨fun hsynthetic => hsynthetic node hreached, node, hreached, hreached.get? hkeyed hresolve hroot, hrole, hreader⟩
  obtain ⟨-, taken, way, node, h, ⟨-, rfl⟩ | ⟨⟨target, t', hto⟩, rfl⟩⟩ :=
    hkeyed.exists_visit_of_mem hresolve hprototypes hp
  · obtain ⟨hreal, hfound⟩ := hstands (h.stands slot hslot)
    exact ⟨fun hsynthetic => absurd hsynthetic hreal, fun _ => hfound⟩
  · rw [slots_subcommand_prototype] at hslot ⊢
    rcases mem_append.1 hslot with hslot | hslot
    · obtain ⟨hreal, hfound⟩ := hstands (h.stands slot hslot)
      exact ⟨fun hsynthetic => absurd hsynthetic hreal, fun _ => hfound⟩
    · cases mem_singleton.1 hslot
      have howner : (⟨way.scope ++ [subcommandName], none⟩ : Slot).owner = way.scope := dropLast_concat
      have hget := h.get? hkeyed hresolve hroot
      refine ⟨fun _ => ⟨isSubcommand_added _, getLast?_concat, node, target, t', ?_, ?_, hto,
        sharedEntries_added hget hto.1⟩, fun hreal => absurd (h.synthetic (hkeyed.resolved hresolve) hto) hreal⟩
      · rw [howner]
        exact h.reached
      · rw [howner, hget]

/-- The slots of a command behind an alias that ends with a whole command. -/
theorem slots_found_of_alias :
    let targets : CommandTree := { role := .argument, reader? := some "minecraft:entity" }
    let t : CommandTree := { role := .root, children := [
      ("execute", { role := .literal, children := [
        ("as", { role := .literal, children := [("targets", { targets with redirect? := some ["execute"] })] }),
        ("over", { role := .literal, redirect? := some ["execute", "as"] }),
        ("run", { role := .literal })] })] }
    let scope := ["execute", "over", "targets"]
    let p : Prototype := ⟨"execute:over:targets:subcommand",
      [.literal "execute", .literal "over", .argument ⟨scope, some "minecraft:entity"⟩,
        .argument ⟨scope ++ [subcommandName], none⟩], [2, 3]⟩
    t.Keyed ∧ t.redirect? = none ∧ ∃ spec, ofTree t true = .ok spec ∧ (p.identifier, p) ∈ spec.prototypes ∧
      ∀ slot ∈ p.slots,
        (spec.tree.Synthetic slot → slot.isSubcommand = true ∧ p.slots.getLast? = some slot ∧
          ∃ node target t', spec.tree.Reached slot.owner node ∧ spec.tree.get? slot.owner = some node ∧
            spec.tree.RedirectsTo node target t' ∧ spec.sharedEntries slot = target.length) ∧
          (¬spec.tree.Synthetic slot → ∃ node, spec.tree.Reached slot.scope node ∧
            spec.tree.get? slot.scope = some node ∧ node.role ≠ .literal ∧ node.reader? = slot.reader?) := by
  intro targets t scope p
  have hkeyed : t.Keyed := (show t.Regular by decide +kernel).keyed
  obtain ⟨spec, hspec, hp⟩ : ∃ spec, ofTree t true = .ok spec ∧
      decide ((p.identifier, p) ∈ spec.prototypes) = true := exists_ok_of_any (by cbv)
  have hp := of_decide_eq_true hp
  exact ⟨hkeyed, rfl, spec, hspec, hp, fun slot hslot => slots_found hkeyed rfl hspec hp hslot⟩

end Mcfunction.CommandTree
