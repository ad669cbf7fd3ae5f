import Mcfunction.Proofs.Way

/-! How deep the walks over a command tree go. One step of a walk has the answers to its own calls as a parameter, so
that it is known which calls there are. Main statement: both walks end on every tree, whatever its redirects are, with a
result or with what is wrong with the tree, and calls are nested no deeper than about the square of the number of
nodes. -/

namespace Mcfunction

open List Option

/-- A recursive function with its calls nested up to a depth. Deeper calls are answered otherwise. -/
def nested {κ β : Type} (step : (κ → β) → κ → β) (answer : κ → β) : Nat → κ → β
  | 0 => answer
  | depth + 1 => step (nested step answer depth)

variable {depth : Nat}

theorem nested_eq {κ β : Type} {step : (κ → β) → κ → β} {f : κ → β} {calls : κ → κ → Prop} {rank : κ → Nat}
    (hrank : ∀ k k', calls k k' → rank k' < rank k)
    (hstep : ∀ g k, (∀ k', calls k k' → g k' = f k') → step g k = f k) (answer : κ → β) {k : κ}
    (h : rank k < depth) : nested step answer depth k = f k := by
  induction depth generalizing k with
  | zero => exact absurd h (Nat.not_lt_zero _)
  | succ depth ih =>
    refine hstep _ k fun k' hcalls => ih ?_
    exact Nat.lt_of_lt_of_le (hrank k k' hcalls) (Nat.le_of_lt_succ h)

namespace CommandTree

variable {root t node child : CommandTree} {name : String} {legacy : Bool} {e : GrammarError} {k : PrototypeCall}

/-- The calls of a walk over a tree are nested less deep than this. -/
def depthLimit (t : CommandTree) : Nat := t.size * (t.size + 1)

theorem rank_lt_depthLimit (h : (name, child) ∈ t.children) : t.rank ⟨[], child⟩ < t.depthLimit := by
  have hfree : t.countFree [] = t.size := by simp [countFree, size]
  rw [rank, hfree]
  exact Nat.add_lt_add_left (size_child_lt h) _

/-! ### The walk for prototypes -/

/-- A call of the walk for prototypes. -/
structure PrototypeCall extends Stay where
  way : Way

def prototyped (root : CommandTree) (k : PrototypeCall) : Except GrammarError (List Prototype) :=
  prototypesFrom root k.taken k.way k.node

/-- A call of the walk for prototypes, with the answers to the calls that it makes. -/
def prototypesStep (root : CommandTree) (answer : PrototypeCall → Except GrammarError (List Prototype))
    (k : PrototypeCall) : Except GrammarError (List Prototype) :=
  k.node.redirect?.elim
    ((gather [] (fun e => answer ⟨⟨k.taken, e.2⟩, k.way.step e.1 e.2⟩) k.node.children).map
      (ownPrototypes k.way k.node ++ ·)) fun target =>
      (root.at? target).elim (.error (.missingRedirect k.way.scope target)) fun t =>
        if t.subcommand then .ok (ownPrototypes k.way k.node ++ [k.way.subcommand.prototype])
        else if k.taken.contains target then .error (.redirectCycle target)
        else
          (gather [] (fun e => answer ⟨⟨target :: k.taken, e.2⟩, k.way.step e.1 e.2⟩) t.children).map
            (ownPrototypes k.way k.node ++ ·)

theorem prototypesStep_eq {answer : PrototypeCall → Except GrammarError (List Prototype)}
    (h : ∀ k' : PrototypeCall, root.Descends k.toStay k'.toStay → answer k' = root.prototyped k') :
    root.prototypesStep answer k = root.prototyped k := by
  rw [prototypesStep, prototyped]
  cases hred : k.node.redirect? with
  | none =>
    rw [prototypesFrom_none hred, prototypesBelow_eq_gather]
    rw [gather_congr fun e he => h ⟨⟨k.taken, e.2⟩, k.way.step e.1 e.2⟩ (.child hred he)]
    rfl
  | some target =>
    rw [elim_some, prototypesFrom_some hred]
    cases ht : root.at? target with
    | none => rfl
    | some t =>
      rw [elim_some, elim_some, prototypesBelow_eq_gather]
      by_cases htaken : target ∈ k.taken
      · rw [if_pos (contains_iff_mem.2 htaken), if_pos htaken]
      · rw [if_neg (mt contains_iff_mem.1 htaken), if_neg htaken,
          gather_congr fun e he => h _ (.through hred ht htaken he)]
        rfl

/-! ### Walks with a limited depth -/

def resolveNested (t : CommandTree) (legacy : Bool) (answer : PlanCall → Except GrammarError Plan) (depth : Nat) :
    Except GrammarError CommandTree :=
  (gather {} (fun e => nested (t.planStep legacy) answer depth ⟨⟨[], e.2⟩, [e.1], [e.1]⟩) t.children).map t.carryOut

def prototypesNested (t : CommandTree) (answer : PrototypeCall → Except GrammarError (List Prototype)) (depth : Nat) :
    Except GrammarError (Entries Prototype) :=
  (gather [] (fun e => nested t.prototypesStep answer depth ⟨⟨[], e.2⟩, Way.step {} e.1 e.2⟩) t.children).map fun ps =>
    ps.foldl (fun made p => Entries.insert p.identifier p made) []

theorem resolve_eq_map (t : CommandTree) (legacy : Bool) : t.resolve legacy =
    (gather {} (fun e => t.planned legacy ⟨⟨[], e.2⟩, [e.1], [e.1]⟩) t.children).map t.carryOut := by
  rw [resolve, planAll_eq_gather]
  change _ = (gather {} (fun e => plan t legacy [] ([] ++ [e.1]) ([] ++ [e.1]) e.2) t.children).map t.carryOut
  cases gather ({} : Plan) _ t.children <;> rfl

theorem prototypes_eq_map (t : CommandTree) : t.prototypes =
    (gather [] (fun e => t.prototyped ⟨⟨[], e.2⟩, Way.step {} e.1 e.2⟩) t.children).map fun ps =>
      ps.foldl (fun made p => Entries.insert p.identifier p made) [] := by
  rw [prototypes, prototypesBelow_eq_gather]
  change _ = (gather [] (fun e => prototypesFrom t [] (Way.step {} e.1 e.2) e.2) t.children).map _
  cases gather [] _ t.children <;> rfl

theorem resolveNested_eq (answer : PlanCall → Except GrammarError Plan) (h : t.depthLimit ≤ depth) :
    t.resolveNested legacy answer depth = t.resolve legacy := by
  rw [resolve_eq_map]
  refine congrArg _ (gather_congr fun e he => ?_)
  exact nested_eq (fun _ _ hdesc => hdesc.rank_lt) (fun _ _ => planStep_eq) answer
    (Nat.lt_of_lt_of_le (rank_lt_depthLimit he) h)

theorem prototypesNested_eq (answer : PrototypeCall → Except GrammarError (List Prototype))
    (h : t.depthLimit ≤ depth) : t.prototypesNested answer depth = t.prototypes := by
  rw [prototypes_eq_map]
  refine congrArg _ (gather_congr fun e he => ?_)
  exact nested_eq (fun _ _ hdesc => hdesc.rank_lt) (fun _ _ => prototypesStep_eq) answer
    (Nat.lt_of_lt_of_le (rank_lt_depthLimit he) h)

/-! ### What the walks refuse -/

/-- What a walk can find wrong with a tree: a redirect that leads nowhere, an alias that may not be opened, or a dead end
where these are not allowed. -/
inductive Refuses (t : CommandTree) (legacy : Bool) : GrammarError → Prop where
  | missing {scope target : Path} (h : t.at? target = none) : Refuses t legacy (.missingRedirect scope target)
  | cycle {target : Path} {n : CommandTree} (h : t.at? target = some n) : Refuses t legacy (.redirectCycle target)
  | deadEnd {scope : Path} (h : legacy = false) : Refuses t legacy (.deadEnd scope)

theorem refuses_of_planned {k : PlanCall} (h : root.planned legacy k = .error e) : root.Refuses legacy e := by
  -- what is found wrong at a call is wrong there or at a call that it makes
  induction k using (InvImage.wf PlanCall.toStay root.descends_wellFounded).induction with
  | _ k ih =>
    rw [← planStep_eq fun _ _ => rfl, planStep] at h
    cases hr : resolvedRedirect legacy k.scope k.node with
    | error x =>
      rw [hr] at h
      cases h
      rw [resolvedRedirect] at hr
      split at hr
      · split at hr
        · cases hr
        · rename_i hlegacy
          cases hr
          exact .deadEnd (Bool.not_eq_true _ ▸ hlegacy)
      · cases hr
    | ok target? =>
      rw [hr] at h
      cases target? with
      | none =>
        obtain ⟨c, hc, herror⟩ := gather_error h
        refine ih _ ?_ herror
        exact Descends.child (redirect?_of_resolvedRedirect hr (some_ne_none _).symm) hc
      | some target =>
        dsimp only [Except.bind, Option.elim] at h
        cases ht : root.at? target with
        | none =>
          rw [ht] at h
          cases h
          exact .missing ht
        | some t =>
          simp only [ht] at h
          split at h
          · cases h
          · rename_i hle
            split at h
            · cases h
              exact .cycle ht
            · rename_i htaken
              split at h
              · cases h
                exact .cycle ht
              · obtain ⟨c, hc, herror⟩ := gather_error (map_error h)
                refine ih _ ?_ herror
                exact Descends.through (redirect?_of_not_isPrefixOf hr hle) ht (mt contains_iff_mem.2 htaken) hc

theorem refuses_of_prototyped (h : root.prototyped k = .error e) : root.Refuses true e := by
  induction k using (InvImage.wf PrototypeCall.toStay root.descends_wellFounded).induction with
  | _ k ih =>
    rw [← prototypesStep_eq fun _ _ => rfl, prototypesStep] at h
    cases hred : k.node.redirect? with
    | none =>
      rw [hred] at h
      obtain ⟨c, hc, herror⟩ := gather_error (map_error h)
      refine ih _ ?_ herror
      exact Descends.child hred hc
    | some target =>
      rw [hred] at h
      dsimp only [Option.elim] at h
      cases ht : root.at? target with
      | none =>
        rw [ht] at h
        cases h
        exact .missing ht
      | some t =>
        simp only [ht] at h
        split at h
        · cases h
        · split at h
          · cases h
            exact .cycle ht
          · rename_i htaken
            obtain ⟨c, hc, herror⟩ := gather_error (map_error h)
            refine ih _ ?_ herror
            exact Descends.through hred ht (mt contains_iff_mem.2 htaken) hc

/-- The walks over a command tree end, whatever its redirects are. The answer to a call is known from those to the calls
that it makes, these are further down, and no walk goes down for ever. With calls nested up to about the square of the
number of nodes, both walks give their results, whatever deeper calls would be answered: a tree that is resolved or the
prototypes, or else an error that says what is wrong with the tree. -/
theorem walks_end (t : CommandTree) :
    (∀ legacy answer (k : PlanCall),
      (∀ k' : PlanCall, t.Descends k.toStay k'.toStay → answer k' = t.planned legacy k') →
        t.planStep legacy answer k = t.planned legacy k) ∧
      (∀ answer (k : PrototypeCall),
        (∀ k' : PrototypeCall, t.Descends k.toStay k'.toStay → answer k' = t.prototyped k') →
          t.prototypesStep answer k = t.prototyped k) ∧
      (WellFounded fun s' s => t.Descends s s') ∧
      ∀ depth, t.size * (t.size + 1) ≤ depth →
        (∀ legacy answer, t.resolveNested legacy answer depth = t.resolve legacy ∧
          ((∃ t', t.resolve legacy = .ok t') ∨ ∃ e, t.resolve legacy = .error e ∧ t.Refuses legacy e)) ∧
        ∀ answer, t.prototypesNested answer depth = t.prototypes ∧
          ((∃ ps, t.prototypes = .ok ps) ∨ ∃ e, t.prototypes = .error e ∧ t.Refuses true e) := by
  refine ⟨fun _ _ _ => planStep_eq, fun _ _ => prototypesStep_eq, t.descends_wellFounded, fun depth hdepth =>
    ⟨fun legacy answer => ⟨resolveNested_eq answer hdepth, ?_⟩, fun answer => ⟨prototypesNested_eq answer hdepth, ?_⟩⟩⟩
  · cases hresolve : t.resolve legacy with
    | ok t' => exact .inl ⟨t', rfl⟩
    | error e =>
        obtain ⟨c, -, herror⟩ := gather_error (map_error (t.resolve_eq_map legacy ▸ hresolve))
        exact .inr ⟨e, rfl, refuses_of_planned herror⟩
  · cases hprototypes : t.prototypes with
    | ok ps => exact .inl ⟨ps, rfl⟩
    | error e =>
        obtain ⟨c, -, herror⟩ := gather_error (map_error (t.prototypes_eq_map ▸ hprototypes))
        exact .inr ⟨e, rfl, refuses_of_prototyped herror⟩

end CommandTree

end Mcfunction
