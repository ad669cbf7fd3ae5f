import Mcfunction.Proofs.Walks

/-! Regular command trees. Children have different names, names hold no colons, a node that redirects has no
children of its own, and only arguments name readers. Main statement: resolving the redirects of a regular
tree gives a regular tree, since the nodes that it lets redirect are dead ends below the root. -/

namespace Mcfunction

open List Entries Option Entries

namespace CommandTree

variable {a b t' t : CommandTree} {place : Path} {legacy : Bool}

def Keyed (t : CommandTree) : Prop :=
  ∀ path node, t.at? path = some node → Distinct node.children

/-- A tree in which reading and naming commands agree. -/
structure Regular (t : CommandTree) : Prop where
  keyed : t.Keyed
  root : t.redirect? = none
  names : ∀ path node, t.at? path = some node → ∀ name ∈ keys node.children, ':' ∉ name.toList
  redirects : ∀ path node, t.at? path = some node → node.redirect? ≠ none → node.children = []
  readers : ∀ path node, t.at? path = some node → node.reader? ≠ none → node.role = .argument

def RegularAt (node : CommandTree) : Prop :=
  (keys node.children).Nodup ∧ (∀ name ∈ keys node.children, ':' ∉ name.toList) ∧
    (node.redirect? = none ∨ node.children.isEmpty) ∧ (node.reader? = none ∨ node.role = .argument)

instance (node : CommandTree) : Decidable node.RegularAt := by
  unfold RegularAt
  infer_instance

theorem regular_iff : t.Regular ↔ t.redirect? = none ∧ ∀ path ∈ t.paths, ∀ node ∈ t.at? path, node.RegularAt := by
  constructor
  · intro h
    refine ⟨h.root, fun path _ node hnode => ⟨h.keyed path node hnode, h.names path node hnode, ?_, ?_⟩⟩
    · by_cases hred : node.redirect? = none
      · exact .inl hred
      · exact .inr (isEmpty_iff.2 (h.redirects path node hnode hred))
    · by_cases hreader : node.reader? = none
      · exact .inl hreader
      · exact .inr (h.readers path node hnode hreader)
  · rintro ⟨hroot, h⟩
    have hat : ∀ path node, t.at? path = some node → node.RegularAt :=
      fun path node hnode => h path (mem_paths_of_at? hnode) node hnode
    exact {
      keyed := fun path node hnode => (hat path node hnode).1
      root := hroot
      names := fun path node hnode => (hat path node hnode).2.1
      redirects := fun path node hnode hne =>
        isEmpty_iff.1 ((hat path node hnode).2.2.1.resolve_left hne)
      readers := fun path node hnode hne => (hat path node hnode).2.2.2.resolve_left hne }

instance (t : CommandTree) : Decidable t.Regular := decidable_of_iff _ regular_iff.symm

/-! ### Nodes at paths -/

variable {t root node child : CommandTree} {path : Path} {name : String}

theorem at?_append (t : CommandTree) (path rest : Path) : t.at? (path ++ rest) = (t.at? path).bind (·.at? rest) := by
  induction path generalizing t with
  | nil => rfl
  | cons name path ih =>
    rw [cons_append, at?, at?]
    cases t.children.lookup name with
    | none => rfl
    | some child => exact ih child

theorem at?_snoc (h : t.at? path = some node) : t.at? (path ++ [name]) = node.children.lookup name := by
  rw [at?_append, h, bind_some, at?]
  cases node.children.lookup name <;> rfl

theorem Keyed.at?_child (ht : t.Keyed) (h : t.at? path = some node) (hmem : (name, child) ∈ node.children) :
    t.at? (path ++ [name]) = some child := by
  rw [at?_snoc h]
  exact lookup_of_mem (ht path node h) hmem

/-! ### Updates -/

variable {f : CommandTree → CommandTree}

theorem at?_congr (h : a.children = b.children) (hpath : path ≠ []) : a.at? path = b.at? path := by
  cases path with
  | nil => exact absurd rfl hpath
  | cons name rest => rw [at?, at?, h]

theorem at?_update (hf : ∀ n, (f n).children = n.children) (path place : Path) (t : CommandTree) :
    (t.update f path).at? place =
      (t.at? place).map fun n => if place.isPrefixOf path then n.update f (path.drop place.length) else n := by
  induction place generalizing path t with
  | nil => rfl
  | cons name place ih =>
    cases path with
    | nil =>
      rw [update, at?_congr (hf t) (cons_ne_nil _ _)]
      simp [isPrefixOf]
    | cons name' path =>
      rw [update, at?, at?]
      dsimp only
      rw [lookup_modify]
      by_cases hname : name = name'
      · subst hname
        rw [if_pos rfl]
        cases t.children.lookup name with
        | none => rfl
        | some child =>
          simp only [map_some, isPrefixOf, BEq.rfl, Bool.true_and, length_cons, drop_succ_cons]
          exact ih path child
      · rw [if_neg hname]
        cases t.children.lookup name with
        | none => rfl
        | some child => simp [isPrefixOf, hname]

/-- What carrying out a plan makes of the node at a place. -/
structure Kept (p : Plan) (place : Path) (n m : CommandTree) : Prop where
  role : m.role = n.role
  reader : m.reader? = n.reader?
  executable : m.executable? = n.executable?
  keys : keys m.children = keys n.children
  redirect : m.redirect? = if place ∈ p.deadEnds then some [] else n.redirect?
  subcommand : m.subcommand = (n.subcommand || decide (place ∈ p.subcommands))

theorem children_eq_nil_of_keys {n m : CommandTree} (h : keys m.children = keys n.children)
    (hn : n.children = []) : m.children = [] := by
  rw [hn] at h
  exact map_eq_nil_iff.1 h

variable {p q : Plan} {taken : List Path} {c : CommandTree} {scope : Path}

theorem Plan.mem_deadEnds_append : path ∈ (p ++ q).deadEnds ↔ path ∈ p.deadEnds ∨ path ∈ q.deadEnds :=
  mem_append

theorem Plan.mem_subcommands_append : path ∈ (p ++ q).subcommands ↔ path ∈ p.subcommands ∨ path ∈ q.subcommands :=
  mem_append

theorem Kept.refl (place : Path) (n : CommandTree) : Kept {} place n n :=
  ⟨rfl, rfl, rfl, rfl, rfl, by simp⟩

theorem Kept.trans (hab : Kept p place a b) (hbc : Kept q place b c) : Kept (p ++ q) place a c where
  role := hbc.role.trans hab.role
  reader := hbc.reader.trans hab.reader
  executable := hbc.executable.trans hab.executable
  keys := hbc.keys.trans hab.keys
  redirect := by
    rw [hbc.redirect, hab.redirect]
    by_cases hp : place ∈ p.deadEnds <;> simp [Plan.mem_deadEnds_append, hp]
  subcommand := by
    rw [hbc.subcommand, hab.subcommand]
    simp [Plan.mem_subcommands_append, Bool.or_assoc]

def Resolves (p : Plan) (t t' : CommandTree) : Prop :=
  ∀ place, (∀ n, t.at? place = some n → ∃ m, t'.at? place = some m ∧ Kept p place n m) ∧
    ∀ m, t'.at? place = some m → ∃ n, t.at? place = some n ∧ Kept p place n m

theorem Resolves.refl (t : CommandTree) : Resolves {} t t :=
  fun place => ⟨fun n h => ⟨n, h, .refl place n⟩, fun m h => ⟨m, h, .refl place m⟩⟩

theorem Resolves.trans (hab : Resolves p a b) (hbc : Resolves q b c) : Resolves (p ++ q) a c := by
  intro place
  constructor
  · intro n hn
    obtain ⟨m, hm, hnm⟩ := (hab place).1 n hn
    obtain ⟨k, hk, hmk⟩ := (hbc place).1 m hm
    exact ⟨k, hk, hnm.trans hmk⟩
  · intro k hk
    obtain ⟨m, hm, hmk⟩ := (hbc place).2 k hk
    obtain ⟨n, hn, hnm⟩ := (hab place).2 m hm
    exact ⟨n, hn, hnm.trans hmk⟩

theorem kept_update (hf : ∀ n, Kept p path n (f n))
    (hp : ∀ q, q ∈ p.deadEnds ∨ q ∈ p.subcommands → q = path) (place : Path) (n : CommandTree) :
    Kept p place n (if place.isPrefixOf path then n.update f (path.drop place.length) else n) := by
  by_cases hplace : place = path
  · subst hplace
    rw [if_pos (List.isPrefixOf_iff_prefix.2 (prefix_refl place)), drop_length]
    exact hf n
  · have hdead : place ∉ p.deadEnds := fun h => hplace (hp place (.inl h))
    have hsub : place ∉ p.subcommands := fun h => hplace (hp place (.inr h))
    split
    · rename_i hle
      obtain ⟨rest, rfl⟩ := isPrefixOf_iff_prefix.1 hle
      rw [drop_left]
      cases rest with
      | nil => exact absurd (append_nil place).symm hplace
      | cons name rest => exact ⟨rfl, rfl, rfl, keys_modify _ _, by rw [if_neg hdead]; rfl, by simp [hsub]; rfl⟩
    · exact ⟨rfl, rfl, rfl, rfl, by rw [if_neg hdead], by simp [hsub]⟩

theorem resolves_update (hf : ∀ n, Kept p path n (f n)) (hchildren : ∀ n, (f n).children = n.children)
    (hp : ∀ q, q ∈ p.deadEnds ∨ q ∈ p.subcommands → q = path) : Resolves p t (t.update f path) := by
  intro place
  rw [at?_update hchildren]
  constructor
  · intro n hn
    rw [hn]
    exact ⟨_, rfl, kept_update hf hp place n⟩
  · intro m hm
    obtain ⟨n, hn, rfl⟩ := map_eq_some_iff.1 hm
    exact ⟨n, hn, kept_update hf hp place n⟩

theorem resolves_deadEnds (deadEnds : List Path) : Resolves { deadEnds } t
    (deadEnds.foldl (fun t path => t.update (fun n => { n with redirect? := some [] }) path) t) := by
  induction deadEnds generalizing t with
  | nil => exact .refl t
  | cons path paths ih =>
    have hstep : Resolves { deadEnds := [path] } t (t.update (fun n => { n with redirect? := some [] }) path) :=
      resolves_update (fun n => ⟨rfl, rfl, rfl, rfl, by simp, by simp⟩) (fun _ => rfl) (by simp)
    exact hstep.trans ih

theorem resolves_subcommands (subcommands : List Path) : Resolves { subcommands } t
    (subcommands.foldl (fun t path => t.update (fun n => { n with subcommand := true }) path) t) := by
  induction subcommands generalizing t with
  | nil => exact .refl t
  | cons path paths ih =>
    have hstep : Resolves { subcommands := [path] } t (t.update (fun n => { n with subcommand := true }) path) :=
      resolves_update (fun n => ⟨rfl, rfl, rfl, rfl, by simp, by simp⟩) (fun _ => rfl) (by simp)
    exact hstep.trans ih

theorem resolves_carryOut (t : CommandTree) (p : Plan) : Resolves p t (t.carryOut p) := by
  have h := (resolves_deadEnds (t := t) p.deadEnds).trans (resolves_subcommands p.subcommands)
  have happend : ({ deadEnds := p.deadEnds } : Plan) ++ ({ subcommands := p.subcommands } : Plan) = p := by
    change Plan.mk (p.deadEnds ++ []) ([] ++ p.subcommands) = p
    rw [append_nil, nil_append]
  rw [happend] at h
  exact h

theorem Keyed.of_resolves (ht : t.Keyed) (h : Resolves p t t') : t'.Keyed := by
  intro path m hm
  obtain ⟨n, hn, hkept⟩ := (h path).2 m hm
  rw [Distinct, hkept.keys]
  exact ht path n hn

def DeadEnds (root : CommandTree) (p : Plan) : Prop :=
  ∀ path ∈ p.deadEnds, path ≠ [] ∧ ∀ n, root.at? path = some n → n.isDeadEnd = true

theorem isDeadEnd_children (h : node.isDeadEnd = true) : node.children = [] := by
  simp only [isDeadEnd, Bool.and_eq_true] at h
  exact isEmpty_iff.1 h.1.1.2

theorem Regular.of_resolves (ht : t.Regular) (h : Resolves p t t') (hdead : t.DeadEnds p) : t'.Regular where
  keyed := ht.keyed.of_resolves h
  root := by
    obtain ⟨n, hn, hkept⟩ := (h []).2 t' rfl
    cases hn
    rw [hkept.redirect, if_neg fun hmem => (hdead [] hmem).1 rfl]
    exact ht.root
  names := by
    intro path m hm
    obtain ⟨n, hn, hkept⟩ := (h path).2 m hm
    rw [hkept.keys]
    exact ht.names path n hn
  redirects := by
    intro path m hm hred
    obtain ⟨n, hn, hkept⟩ := (h path).2 m hm
    refine children_eq_nil_of_keys hkept.keys ?_
    rw [hkept.redirect] at hred
    by_cases hmem : path ∈ p.deadEnds
    · exact isDeadEnd_children ((hdead path hmem).2 n hn)
    · rw [if_neg hmem] at hred
      exact ht.redirects path n hn hred
  readers := by
    intro path m hm
    obtain ⟨n, hn, hkept⟩ := (h path).2 m hm
    rw [hkept.reader, hkept.role]
    exact ht.readers path n hn

/-! ### Dead ends -/

theorem DeadEnds.append (hp : root.DeadEnds p) (hq : root.DeadEnds q) : root.DeadEnds (p ++ q) := by
  intro path hpath
  rcases Plan.mem_deadEnds_append.1 hpath with h | h
  · exact hp path h
  · exact hq path h

theorem deadEnds_here (h : root.at? path = some node) (hpath : path ≠ []) :
    root.DeadEnds { deadEnds := if node.isDeadEnd then [path] else [] } := by
  intro q hq
  by_cases hdead : node.isDeadEnd = true
  · rw [if_pos hdead, mem_singleton] at hq
    subst hq
    refine ⟨hpath, ?_⟩
    intro n hn
    rw [h] at hn
    cases hn
    exact hdead
  · rw [if_neg hdead] at hq
    cases hq

/-- What the walk for redirects does with a node that it comes past. -/
theorem plan_ok (h : plan root legacy taken scope place node = .ok p) :
    (resolvedRedirect legacy scope node = .ok none ∧ planAll root legacy taken scope place node.children = .ok p) ∨
      ∃ target t, resolvedRedirect legacy scope node = .ok (some target) ∧ root.at? target = some t ∧
        ∃ rest : Plan, p = ({ deadEnds := if node.isDeadEnd then [place] else [] } : Plan) ++ rest ∧
          (rest = { subcommands := [target] } ∨ node.redirect? = some target ∧ target ∉ taken ∧ t.redirect? = none ∧
            planAll root legacy (target :: taken) scope target t.children = .ok rest) := by
  replace h : root.planStep legacy (root.planned legacy) ⟨⟨taken, node⟩, scope, place⟩ = .ok p :=
    (planStep_eq fun _ _ => rfl).trans h
  obtain ⟨target?, hr, h⟩ := bind_eq_ok h
  cases target? with
  | none => exact .inl ⟨hr, (planAll_eq_gather ..).trans h⟩
  | some target =>
    dsimp only [Option.elim] at h
    cases ht : root.at? target with
    | none =>
      rw [ht] at h
      cases h
    | some t =>
      simp only [ht] at h
      refine .inr ⟨target, t, hr, ht, ?_⟩
      split at h
      · cases h
        exact ⟨_, rfl, .inl rfl⟩
      · rename_i hle
        split at h
        · cases h
        · rename_i htaken
          split at h
          · cases h
          · rename_i hend
            obtain ⟨below, hbelow, rfl⟩ := map_ok h
            exact ⟨below, rfl, .inr ⟨redirect?_of_not_isPrefixOf hr hle, mt contains_iff_mem.2 htaken,
              by simpa using hend, (planAll_eq_gather ..).trans hbelow⟩⟩

theorem plan_deadEnds (hkeyed : root.Keyed) (hplace : place ≠ [])
    (hnode : root.at? place = some node) (hp : plan root legacy taken scope place node = .ok p) : root.DeadEnds p := by
  have none_found : ∀ {subcommands}, root.DeadEnds { subcommands } := fun path hpath => by cases hpath
  generalize hstay : (⟨taken, node⟩ : Stay) = stay
  induction stay using root.descends_wellFounded.induction generalizing taken scope place node p with
  | _ stay ih =>
    subst hstay
    have below : ∀ {taken' place' owner found}, root.at? place' = some owner →
        (∀ name child, (name, child) ∈ owner.children → root.Descends ⟨taken, node⟩ ⟨taken', child⟩) →
        planAll root legacy taken' scope place' owner.children = .ok found → root.DeadEnds found := by
      intro taken' place' owner found howner hdesc hfound
      rw [planAll_eq_gather] at hfound
      refine gather_all none_found DeadEnds.append hfound fun e he part hpart => ?_
      exact ih _ (hdesc e.1 e.2 he) (by simp) (hkeyed.at?_child howner he) hpart rfl
    rcases plan_ok hp with ⟨hr, hp⟩ | ⟨target, t, -, ht, rest, rfl, rfl | ⟨hred, htaken, -, hrest⟩⟩
    · have hred := redirect?_of_resolvedRedirect hr (some_ne_none _).symm
      exact below hnode (fun _ _ hchild => .child hred hchild) hp
    · exact (deadEnds_here hnode hplace).append none_found
    · exact (deadEnds_here hnode hplace).append (below ht (fun _ _ hchild => .through hred ht htaken hchild) hrest)

theorem Keyed.resolve_ok (ht : t.Keyed) (h : t.resolve legacy = .ok t') :
    ∃ p, planAll t legacy [] [] [] t.children = .ok p ∧ Resolves p t t' ∧ t.DeadEnds p := by
  rw [CommandTree.resolve] at h
  split at h <;> cases h
  rename_i p hp
  refine ⟨p, hp, resolves_carryOut t p, ?_⟩
  rw [planAll_eq_gather] at hp
  refine gather_all (fun path hpath => by cases hpath) DeadEnds.append hp fun e he part hpart => ?_
  exact plan_deadEnds ht (cons_ne_nil _ _) (ht.at?_child (show t.at? [] = some t from rfl) he) hpart

theorem Regular.resolve (ht : t.Regular) (h : t.resolve legacy = .ok t') : t'.Regular := by
  obtain ⟨p, -, hres, hdead⟩ := ht.keyed.resolve_ok h
  exact ht.of_resolves hres hdead

end CommandTree

end Mcfunction
