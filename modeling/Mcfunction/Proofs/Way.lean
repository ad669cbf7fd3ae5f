import Mathlib.Data.List.Induction
import Mcfunction.Grammar.Spec
import Mcfunction.Proofs.Regular

/-! Ways through a command tree. A way leads from the root to a node over the children that may follow each
other in one command, through aliases. Main statement: in a regular tree the words of a way determine it, each
way on which a command may end has its prototype under its own name, and no other way has that name. -/

namespace Mcfunction

open List Entries Option String Slot

theorem intercalate_colon_injective {as bs : List String} (ha : as ≠ []) (hb : bs ≠ [])
    (has : ∀ a ∈ as, ':' ∉ a.toList) (hbs : ∀ b ∈ bs, ':' ∉ b.toList)
    (h : ":".intercalate as = ":".intercalate bs) : as = bs := by
  have split : ∀ {names : List String}, names ≠ [] → (∀ a ∈ names, ':' ∉ a.toList) →
      splitOn ':' (":".intercalate names).toList = names.map String.toList := by
    intro names hne hnames
    rw [toList_intercalate]
    refine splitOn_intercalate ':' ?_ (by simpa using hne)
    intro l hl
    obtain ⟨a, ha, rfl⟩ := mem_map.1 hl
    exact hnames a ha
  have hmap : as.map String.toList = bs.map String.toList := by rw [← split ha has, h, split hb hbs]
  exact (List.map_inj_right fun _ _ h => toList_inj.1 h).1 hmap

theorem exists_ok_of {ε α : Type} {r : Except ε α} (h : r.toOption.isSome = true) : ∃ a, r = .ok a := by
  cases r with
  | error e => cases h
  | ok a => exact ⟨a, rfl⟩

theorem exists_ok_of_any {ε α : Type} {r : Except ε α} {p : α → Bool} (h : r.toOption.any p = true) :
    ∃ a, r = .ok a ∧ p a = true := by
  cases r with
  | error e => cases h
  | ok a => exact ⟨a, rfl, h⟩

namespace CommandTree

variable {target : CommandTree} {taken : List Path} {ps : List Prototype} {p : Prototype}

/-! ### Ways -/

/-- The children that may follow a node in one command: its own, or those of the node it is an alias of. -/
def following (root node : CommandTree) : List (String × CommandTree) :=
  match node.redirect? with
  | none => node.children
  | some path =>
    match root.at? path with
    | none => []
    | some target => if target.subcommand then [] else target.children

/-- The way leads to a node of the tree `root`. -/
inductive Leads (root : CommandTree) : Way → CommandTree → Prop where
  | start : Leads root {} root
  | step {way node name child} (h : Leads root way node) (hchild : (name, child) ∈ root.following node) :
      Leads root (way.step name child) child

/-- A whole command follows the node, from the children of `target` on. -/
def RedirectsTo (root node : CommandTree) (path : Path) (target : CommandTree) : Prop :=
  node.redirect? = some path ∧ root.at? path = some target ∧ target.subcommand = true

variable {root node child node' t : CommandTree} {way way' : Way} {name : String} {path scope : Path}
  {prototypes made : Entries Prototype}

theorem RedirectsTo.following (h : root.RedirectsTo node path target) : root.following node = [] := by
  rw [CommandTree.following, h.1]
  simp only [h.2.1, h.2.2, if_true]

theorem following_of_none (h : node.redirect? = none) : root.following node = node.children := by
  rw [following, h]

theorem following_of_alias (h : node.redirect? = some path) (htarget : root.at? path = some target)
    (hsub : target.subcommand = false) : root.following node = target.children := by
  rw [following, h]
  simp [htarget, hsub]

theorem Regular.redirect?_eq_none (hroot : root.Regular) (hnode : root.at? path = some node)
    (hne : node.children ≠ []) : node.redirect? = none := by
  cases hred : node.redirect? with
  | none => rfl
  | some target => exact absurd (hroot.redirects path node hnode (by simp [hred])) hne

theorem Regular.children_subset_following (hroot : root.Regular) (hnode : root.at? path = some node) :
    node.children ⊆ root.following node := by
  intro e he
  rwa [following_of_none (hroot.redirect?_eq_none hnode (ne_nil_of_mem he))]

theorem following_eq (hnode : root.at? path = some node) (hne : root.following node ≠ []) :
    ∃ place owner, root.at? place = some owner ∧ root.following node = owner.children ∧
      (node.redirect? = none ∧ owner = node ∨ node.redirect? = some place) := by
  cases hred : node.redirect? with
  | none =>
    rw [following_of_none hred] at hne ⊢
    exact ⟨path, node, hnode, rfl, .inl ⟨rfl, rfl⟩⟩
  | some target =>
    rw [following, hred] at hne ⊢
    cases htarget : root.at? target with
    | none => simp [htarget] at hne
    | some t =>
      simp only [htarget] at hne ⊢
      split at hne
      · exact absurd rfl hne
      · rename_i hsub
        exact ⟨target, t, htarget, if_neg hsub, .inr rfl⟩

theorem Leads.at? (hroot : root.Regular) (h : Leads root way node) : ∃ path, root.at? path = some node := by
  induction h with
  | start => exact ⟨[], rfl⟩
  | step _ hchild ih =>
    obtain ⟨path, hpath⟩ := ih
    obtain ⟨place, owner, howner, heq, -⟩ := following_eq hpath (ne_nil_of_mem hchild)
    rw [heq] at hchild
    exact ⟨_, hroot.keyed.at?_child howner hchild⟩

theorem Leads.following_distinct (hroot : root.Regular) (h : Leads root way node) :
    Distinct (root.following node) := by
  by_cases hne : root.following node = []
  · rw [hne]
    exact nodup_nil
  · obtain ⟨path, hpath⟩ := h.at? hroot
    obtain ⟨place, owner, howner, heq, -⟩ := following_eq hpath hne
    rw [heq]
    exact hroot.keyed place owner howner

@[simp] theorem Way.step_scope (way : Way) (name : String) (child : CommandTree) :
    (way.step name child).scope = way.scope ++ [name] := by
  rw [step]
  split <;> rfl

theorem Leads.unique (hroot : root.Regular) (h : Leads root way node)
    (h' : Leads root way' node') (hscope : way.scope = way'.scope) : way = way' ∧ node = node' := by
  induction h generalizing way' node' with
  | start =>
    cases h' with
    | start => exact ⟨rfl, rfl⟩
    | step _ _ => simp at hscope
  | @step way node name child h hchild ih =>
    cases h' with
    | start => simp at hscope
    | @step way' node' name' child' h' hchild' =>
      rw [Way.step_scope, Way.step_scope] at hscope
      obtain ⟨hscope, hname⟩ := append_inj' hscope rfl
      obtain ⟨rfl, rfl⟩ := ih h' hscope
      obtain rfl : name = name' := by simpa using hname
      have hdist := h.following_distinct hroot
      have hlookup := lookup_of_mem hdist hchild
      rw [lookup_of_mem hdist hchild'] at hlookup
      cases hlookup
      exact ⟨rfl, rfl⟩

theorem Leads.names (hroot : root.Regular) (h : Leads root way node) : ∀ name ∈ way.scope, ':' ∉ name.toList := by
  induction h with
  | start => exact forall_mem_nil _
  | step h hchild ih =>
    obtain ⟨path, hpath⟩ := h.at? hroot
    obtain ⟨place, owner, howner, heq, -⟩ := following_eq hpath (ne_nil_of_mem hchild)
    rw [heq] at hchild
    rw [Way.step_scope, forall_mem_append, forall_mem_singleton]
    exact ⟨ih, hroot.names place owner howner _ (mem_map.2 ⟨_, hchild, rfl⟩)⟩

theorem Regular.leads_at? (hroot : root.Regular) (h : root.at? path = some t) :
    ∃ way, Leads root way t ∧ way.scope = path := by
  induction path using reverseRecOn generalizing t with
  | nil =>
    cases h
    exact ⟨{}, .start, rfl⟩
  | append_singleton path name ih =>
    rw [at?_append] at h
    cases hnode : root.at? path with
    | none =>
      rw [hnode] at h
      cases h
    | some node =>
      obtain ⟨way, hway, hscope⟩ := ih hnode
      rw [← at?_append, at?_snoc hnode] at h
      have hchild := mem_of_lookup h
      have hred := hroot.redirect?_eq_none hnode (ne_nil_of_mem hchild)
      refine ⟨way.step name t, hway.step ?_, by rw [Way.step_scope, hscope]⟩
      rwa [following_of_none hred]

/-! ### Lookup along words -/

theorem followers?_of_none (hops : Nat) (h : node.redirect? = none) :
    followers? root hops node = some node.children := by
  unfold followers?
  rw [h]

theorem followers?_of_alias (hred : node.redirect? = some path) (ht : root.at? path = some target)
    (hend : target.redirect? = none) : followers? root maxHops node = some target.children := by
  unfold followers?
  rw [hred]
  change (root.at? path).bind (followers? root 31) = _
  rw [ht]
  exact followers?_of_none 31 hend

theorem followers?_eq (hroot : root.Regular) (hnode : root.at? path = some node) (hne : root.following node ≠ []) :
    followers? root maxHops node = some (root.following node) := by
  obtain ⟨place, owner, howner, heq, hcases⟩ := following_eq hnode hne
  have hred := hroot.redirect?_eq_none howner (heq ▸ hne)
  rw [heq]
  rcases hcases with ⟨-, rfl⟩ | hsome
  · exact followers?_of_none _ hred
  · exact followers?_of_alias hsome howner hred

theorem get?_snoc (h : root.get? scope = some node) :
    root.get? (scope ++ [name]) = (followers? root maxHops node).bind (·.lookup name) := by
  rw [get?] at h
  rw [get?, foldlM_append, h]
  simp [foldlM_cons]

theorem Leads.get? (hroot : root.Regular) (h : Leads root way node) : root.get? way.scope = some node := by
  induction h with
  | start => rfl
  | step h hchild ih =>
    obtain ⟨path, hpath⟩ := h.at? hroot
    rw [Way.step_scope, get?_snoc ih, followers?_eq hroot hpath (ne_nil_of_mem hchild)]
    exact lookup_of_mem (h.following_distinct hroot) hchild

/-! ### Entries and offsets -/

/-- Each entry from the `n`th on is an argument if and only if its place is listed. -/
def Aligned (signature : List Entry) (offsets : List Nat) : Prop :=
  ∀ n, (offsets.filter (n ≤ ·)).length = ((signature.drop n).filterMap Entry.slot?).length

theorem Way.length_signature_step (way : Way) (name : String) (child : CommandTree) :
    (way.step name child).signature.length = way.signature.length + 1 := by
  rw [step]
  split <;> simp

/-! ### Prototypes -/

/-- A command may end at the node, or with a whole command behind it, and has this prototype then. -/
def Emits (root : CommandTree) (way : Way) (node : CommandTree) (p : Prototype) : Prop :=
  node.executable = true ∧ p = way.prototype ∨
    (∃ path target, root.RedirectsTo node path target) ∧ p = way.subcommand.prototype

theorem prototypesBelow_cons {children : List (String × CommandTree)}
    (h : prototypesBelow root taken way children = .ok ps) (hchild : (name, child) ∈ children) :
    ∃ qs, prototypesFrom root taken (way.step name child) child = .ok qs ∧ qs ⊆ ps := by
  rw [prototypesBelow_eq_gather] at h
  exact gather_part subset_append_left (fun b _ h => subset_append_of_subset_right b h) h hchild

/-- The prototype of the way to a node, if a command may end there. -/
def ownPrototypes (way : Way) (node : CommandTree) : List Prototype :=
  if node.executable then [way.prototype] else []

theorem mem_ownPrototypes : p ∈ ownPrototypes way node ↔ node.executable = true ∧ p = way.prototype := by
  rw [ownPrototypes]
  by_cases hx : node.executable = true <;> simp [hx]

theorem prototypesFrom_none (h : node.redirect? = none) : prototypesFrom root taken way node =
      (prototypesBelow root taken way node.children).map (ownPrototypes way node ++ ·) := by
  rw [prototypesFrom, h]
  cases prototypesBelow root taken way node.children <;> rfl

theorem prototypesFrom_some {target : Path} (h : node.redirect? = some target) :
    prototypesFrom root taken way node =
      (root.at? target).elim (.error (.missingRedirect way.scope target)) fun t =>
        if t.subcommand then .ok (ownPrototypes way node ++ [way.subcommand.prototype])
        else if target ∈ taken then .error (.redirectCycle target)
        else (prototypesBelow root (target :: taken) way t.children).map (ownPrototypes way node ++ ·) := by
  rw [prototypesFrom, h]
  dsimp only
  split
  · rename_i ht
    rw [ht, elim_none]
  · rename_i t ht
    rw [ht, elim_some]
    split
    · rfl
    · split
      · rfl
      · cases prototypesBelow root (target :: taken) way t.children <;> rfl

/-- The walk for prototypes finds the prototype of the way to a node, and then that of a whole command behind it, or what
it finds below the children that may follow. -/
theorem prototypesFrom_ok (h : prototypesFrom root taken way node = .ok ps) :
    ∃ rest, ps = ownPrototypes way node ++ rest ∧
      ((∃ path target, root.RedirectsTo node path target) ∧ rest = [way.subcommand.prototype] ∨
        (¬∃ path target, root.RedirectsTo node path target) ∧
          ∃ taken', prototypesBelow root taken' way (root.following node) = .ok rest ∧
            ∀ name child, (name, child) ∈ root.following node → root.Descends ⟨taken, node⟩ ⟨taken', child⟩) := by
  cases hred : node.redirect? with
  | none =>
    rw [prototypesFrom_none hred] at h
    obtain ⟨rest, hrest, rfl⟩ := map_ok h
    rw [following_of_none hred]
    refine ⟨rest, rfl, .inr ⟨?_, taken, hrest, fun name child hchild => .child hred hchild⟩⟩
    rintro ⟨path, target, hto⟩
    cases hred.symm.trans hto.1
  | some target =>
    rw [prototypesFrom_some hred] at h
    cases ht : root.at? target with
    | none =>
      rw [ht] at h
      cases h
    | some t =>
      rw [ht, elim_some] at h
      split at h
      · rename_i hsub
        cases h
        exact ⟨_, rfl, .inl ⟨⟨target, t, hred, ht, hsub⟩, rfl⟩⟩
      · rename_i hsub
        split at h
        · cases h
        · rename_i htaken
          obtain ⟨rest, hrest, rfl⟩ := map_ok h
          rw [following_of_alias hred ht (Bool.not_eq_true _ ▸ hsub)]
          refine ⟨rest, rfl, .inr ⟨?_, _, hrest, fun name child hchild => .through hred ht htaken hchild⟩⟩
          rintro ⟨path, target', hto, htarget, hsub'⟩
          cases hred.symm.trans hto
          cases ht.symm.trans htarget
          exact hsub hsub'

theorem prototypesFrom_covers (h : prototypesFrom root taken way node = .ok ps) :
    ∃ taken' qs, prototypesBelow root taken' way (root.following node) = .ok qs ∧
      ∀ p, root.Emits way node p ∨ p ∈ qs → p ∈ ps := by
  obtain ⟨rest, rfl, ⟨⟨path, target, hto⟩, rfl⟩ | ⟨hnone, taken', hrest, -⟩⟩ := prototypesFrom_ok h
  · refine ⟨[], [], by rw [hto.following, prototypesBelow], ?_⟩
    rintro p ((hown | ⟨-, rfl⟩) | hp)
    · exact mem_append_left _ (mem_ownPrototypes.2 hown)
    · exact mem_append_right _ mem_cons_self
    · cases hp
  · refine ⟨taken', rest, hrest, ?_⟩
    rintro p ((hown | ⟨hto, -⟩) | hp)
    · exact mem_append_left _ (mem_ownPrototypes.2 hown)
    · exact absurd hto hnone
    · exact mem_append_right _ hp

theorem Leads.prototypesBelow (hroot : root.redirect? = none) (hps : prototypesBelow root [] {} root.children = .ok ps)
    (h : Leads root way node) :
    ∃ taken qs, CommandTree.prototypesBelow root taken way (root.following node) = .ok qs ∧ qs ⊆ ps := by
  induction h with
  | start => exact ⟨[], ps, by rwa [following_of_none hroot], Subset.refl ps⟩
  | step _ hchild ih =>
    obtain ⟨taken, qs, hqs, hsub⟩ := ih
    obtain ⟨rs, hrs, hrq⟩ := prototypesBelow_cons hqs hchild
    obtain ⟨taken', qs', hqs', hmem⟩ := prototypesFrom_covers hrs
    exact ⟨taken', qs', hqs', fun p hp => hsub (hrq (hmem p (.inr hp)))⟩

def Named (root : CommandTree) (p : Prototype) : Prop :=
  ∃ way node, Leads root way node ∧ way.scope ≠ [] ∧ root.Emits way node p

theorem mem_of_named (hroot : root.redirect? = none) (hps : prototypesBelow root [] {} root.children = .ok ps)
    (h : root.Named p) : p ∈ ps := by
  obtain ⟨way, node, hway, hne, hemits⟩ := h
  cases hway with
  | start => exact absurd rfl hne
  | step hway hchild =>
    obtain ⟨taken, qs, hqs, hsub⟩ := hway.prototypesBelow hroot hps
    obtain ⟨rs, hrs, hrq⟩ := prototypesBelow_cons hqs hchild
    obtain ⟨_, _, _, hmem⟩ := prototypesFrom_covers hrs
    exact hsub (hrq (hmem p (.inl hemits)))

/-- The walk for prototypes gathers what is emitted on the ways that it takes. What holds of the ways on which it
sets out, and passes on to the children that may follow, holds of all of them. -/
theorem emitted_of_mem {R : Way → CommandTree → Prop}
    (hstep : ∀ {way node name child}, R way node → (name, child) ∈ root.following node →
      R (way.step name child) child) (taken : List Path) (way : Way) (children : List (String × CommandTree))
    (hchildren : ∀ name child, (name, child) ∈ children → R (way.step name child) child) (ps : List Prototype)
    (hps : prototypesBelow root taken way children = .ok ps) :
    ∀ p ∈ ps, ∃ way node, R way node ∧ root.Emits way node p := by
  have gathered : ∀ {taken way children ps}, prototypesBelow root taken way children = .ok ps →
      (∀ name child, (name, child) ∈ children → ∀ qs, prototypesFrom root taken (way.step name child) child = .ok qs →
        ∀ p ∈ qs, ∃ way node, R way node ∧ root.Emits way node p) →
      ∀ p ∈ ps, ∃ way node, R way node ∧ root.Emits way node p := by
    intro taken way children ps hps hparts
    rw [prototypesBelow_eq_gather] at hps
    exact gather_all (P := fun ps => ∀ p ∈ ps, ∃ way node, R way node ∧ root.Emits way node p) (forall_mem_nil _)
      (fun ha hb => forall_mem_append.2 ⟨ha, hb⟩) hps fun e he => hparts e.1 e.2 he
  have from_node : ∀ (stay : Stay) (way : Way), R way stay.node → ∀ ps,
      prototypesFrom root stay.taken way stay.node = .ok ps → ∀ p ∈ ps, ∃ way node, R way node ∧ root.Emits way node p := by
    intro stay
    induction stay using root.descends_wellFounded.induction with
    | _ stay ih =>
      intro way hway ps hps
      have own : ∀ p ∈ ownPrototypes way stay.node, ∃ way node, R way node ∧ root.Emits way node p :=
        fun p hp => ⟨way, stay.node, hway, .inl (mem_ownPrototypes.1 hp)⟩
      obtain ⟨rest, rfl, ⟨hto, rfl⟩ | ⟨-, taken', hrest, hdesc⟩⟩ := prototypesFrom_ok hps
      · refine forall_mem_append.2 ⟨own, fun p hp => ⟨way, stay.node, hway, .inr ⟨hto, ?_⟩⟩⟩
        exact mem_singleton.1 hp
      · refine forall_mem_append.2 ⟨own, gathered hrest fun name child hchild => ?_⟩
        exact ih ⟨taken', child⟩ (hdesc name child hchild) _ (hstep hway hchild)
  exact gathered hps fun name child hchild => from_node ⟨taken, child⟩ _ (hchildren name child hchild)

theorem Emits.identifier (h : root.Emits way node p) : ∃ scope, p.identifier = ":".intercalate scope ∧
      (scope = way.scope ∧ p = way.prototype ∨
        scope = way.scope ++ [subcommandName] ∧ root.following node = [] ∧ p = way.subcommand.prototype) := by
  rcases h with ⟨-, rfl⟩ | ⟨⟨path, target, hto⟩, rfl⟩
  · exact ⟨way.scope, rfl, .inl ⟨rfl, rfl⟩⟩
  · exact ⟨_, rfl, .inr ⟨rfl, hto.following, rfl⟩⟩

theorem Leads.scope_ne_subcommand (hroot : root.Regular)
    (h : Leads root way node) (h' : Leads root way' node') (hend : root.following node' = []) :
    way.scope ≠ way'.scope ++ [subcommandName] := by
  intro hscope
  cases h with
  | start => simp at hscope
  | step h hchild =>
    rw [Way.step_scope] at hscope
    obtain ⟨-, rfl⟩ := h.unique hroot h' (append_inj' hscope rfl).1
    rw [hend] at hchild
    cases hchild

theorem Named.unique (hroot : root.Regular) {q : Prototype} (hp : root.Named p) (hq : root.Named q)
    (h : p.identifier = q.identifier) : p = q := by
  obtain ⟨way, node, hway, hne, hemits⟩ := hp
  obtain ⟨way', node', hway', hne', hemits'⟩ := hq
  obtain ⟨scope, hscope, hcases⟩ := hemits.identifier
  obtain ⟨scope', hscope', hcases'⟩ := hemits'.identifier
  have no_colon : ∀ {way node scope}, Leads root way node → way.scope ≠ [] →
      scope = way.scope ∨ scope = way.scope ++ [subcommandName] →
      scope ≠ [] ∧ ∀ name ∈ scope, ':' ∉ name.toList := by
    rintro way node scope hway hne (rfl | rfl)
    · exact ⟨hne, hway.names hroot⟩
    · refine ⟨by simp, forall_mem_append.2 ⟨hway.names hroot, ?_⟩⟩
      decide
  have hs := no_colon hway hne (hcases.imp (·.1) (·.1))
  have hs' := no_colon hway' hne' (hcases'.imp (·.1) (·.1))
  have heq : scope = scope' := by
    refine intercalate_colon_injective hs.1 hs'.1 hs.2 hs'.2 ?_
    rw [← hscope, h, hscope']
  rcases hcases with ⟨rfl, rfl⟩ | ⟨rfl, hend, rfl⟩ <;> rcases hcases' with ⟨rfl, rfl⟩ | ⟨rfl, hend', rfl⟩
  · rw [(hway.unique hroot hway' heq).1]
  · exact absurd heq (hway.scope_ne_subcommand hroot hway' hend')
  · exact absurd heq.symm (hway'.scope_ne_subcommand hroot hway hend)
  · rw [(hway.unique hroot hway' (append_inj' heq rfl).1).1]

theorem lookup_foldl_insert (hunique : ∀ q ∈ ps, q.identifier = p.identifier → q = p)
    (h : p ∈ ps ∨ made.lookup p.identifier = some p) :
    (ps.foldl (fun made p => insert p.identifier p made) made).lookup p.identifier = some p := by
  induction ps generalizing made with
  | nil =>
    rcases h with h | h
    · cases h
    · exact h
  | cons q ps ih =>
    refine ih (fun r hr => hunique r (mem_cons_of_mem q hr)) ?_
    rw [lookup_insert]
    by_cases hq : p.identifier = q.identifier
    · rw [if_pos hq, hunique q mem_cons_self hq.symm]
      exact .inr rfl
    · rw [if_neg hq]
      refine h.imp_left fun h => ?_
      rcases mem_cons.1 h with rfl | h
      · exact absurd rfl hq
      · exact h

theorem mem_of_mem_foldl_insert {e : String × Prototype}
    (h : e ∈ ps.foldl (fun made p => insert p.identifier p made) made) :
    e.2 ∈ ps ∧ e.1 = e.2.identifier ∨ e ∈ made := by
  induction ps generalizing made with
  | nil => exact .inr h
  | cons q ps ih =>
    rcases ih h with ⟨hmem, hkey⟩ | hmem
    · exact .inl ⟨mem_cons_of_mem q hmem, hkey⟩
    · rcases mem_insert hmem with rfl | hmem
      · exact .inl ⟨mem_cons_self, rfl⟩
      · exact .inr hmem

/-- The prototypes of a tree are those that some way emits, by their identifiers. -/
theorem prototypes_ok (hroot : root.Regular)
    (h : root.prototypes = .ok prototypes) : ∃ ps : List Prototype, (∀ p, p ∈ ps ↔ root.Named p) ∧
      prototypes = ps.foldl (fun made p => insert p.identifier p made) [] := by
  rw [CommandTree.prototypes] at h
  split at h <;> cases h
  rename_i ps hps
  refine ⟨ps, fun p => ⟨?_, mem_of_named hroot.root hps⟩, rfl⟩
  intro hp
  obtain ⟨way, node, ⟨hway, hne⟩, hemits⟩ := emitted_of_mem
    (R := fun way node => Leads root way node ∧ way.scope ≠ [])
    (fun hway hchild => ⟨hway.1.step hchild, by simp⟩) [] {} root.children
    (fun name child hchild => ⟨.step .start (by rwa [following_of_none hroot.root]), by simp⟩) ps hps p hp
  exact ⟨way, node, hway, hne, hemits⟩

theorem Named.lookup (hroot : root.Regular)
    (hprotos : root.prototypes = .ok prototypes) (hp : root.Named p) : prototypes.lookup p.identifier = some p := by
  obtain ⟨ps, hps, rfl⟩ := prototypes_ok hroot hprotos
  exact lookup_foldl_insert (fun q hq h => ((hps q).1 hq).unique hroot hp h) (.inl ((hps p).2 hp))

end CommandTree

end Mcfunction
