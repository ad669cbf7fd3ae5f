import Mcfunction.Proofs.Queue
import Mcfunction.Proofs.Reduction
import Mcfunction.Rules.Standard

/-! What the standard rules make of a tree. One rule takes the blocks of definitions out of it, and each becomes the
tree of a new unit; another one puts the commands that are only run by others in their place. Main statement: if nothing
is wrong with the definitions of a tree, it becomes the settled tree, and its definitions become units in the order in
which they end; otherwise errors are reported. -/

namespace Mcfunction

open List Option Node NestedFunction Dispatcher Diagnostic Rule Reduced

theorem Kind.root_mem_ancestors {k : Kind} : .root ∈ k.ancestors ↔ k = .root := by
  cases k <;> simp [ancestors, parent]

theorem Kind.command_mem_ancestors {k : Kind} : .command ∈ k.ancestors ↔ k = .command := by
  cases k <;> simp [ancestors, parent]

/-! ### Commands that only run others -/

variable {n : Node} {σ : Type}

namespace ExecuteRun

theorem unwrap_of_target?_eq_none (h : target? n = none) : unwrap n = n := by
  rw [unwrap]
  split
  · rename_i hm
    rw [h] at hm
    cases hm
  · rfl

theorem target?_unwrap (n : Node) : target? (unwrap n) = none := by
  fun_induction unwrap n with
  | case1 n m h ih => exact ih
  | case2 n h => exact h

theorem within_unwrap (n : Node) : n.Within (unwrap n) := by
  fun_induction unwrap n with
  | case1 n m h ih => exact .child (target?_mem h) ih
  | case2 n h => exact .self n

theorem size_unwrap_le (n : Node) : (unwrap n).size ≤ n.size := by
  fun_induction unwrap n with
  | case1 n m h ih => exact Nat.le_trans ih (Nat.le_of_lt (size_target? h))
  | case2 n h => exact Nat.le_refl _

/-- A function in which each command gives way to the one that it runs in the end. -/
def inline (n : Node) : Node :=
  match n.form with
  | .root commands => ⟨.root (commands.map unwrap), n.span⟩
  | _ => n

theorem inline_of_kind_ne (h : n.kind ≠ .root) : inline n = n := by
  obtain ⟨form, span⟩ := n
  cases form <;> first | rfl | exact absurd rfl h

theorem kind_inline (n : Node) : (inline n).kind = n.kind := by
  obtain ⟨form, span⟩ := n
  cases form <;> rfl

theorem size_inline_le (n : Node) : (inline n).size ≤ n.size := by
  obtain ⟨form, span⟩ := n
  cases form with
  | root commands =>
    rw [size_eq, size_eq]
    refine Nat.add_le_add_left ?_ 1
    induction commands with
    | nil => exact Nat.le_refl _
    | cons c commands ih => exact Nat.add_le_add (size_unwrap_le c) ih
  | _ => exact Nat.le_refl _

def rule (σ : Type) : Rule (Handler (Pass σ)) := ⟨StandardRule.executeRun.name, [.root], [], transform⟩

theorem applies_rule : (rule σ).applies n = true ↔ n.kind = .root := by
  rw [applies_iff (rule σ) rfl, Kind.root_mem_ancestors]
  exact and_iff_left rfl

def redundantAt (n : Node) : List Node :=
  match n.form with
  | .root commands => commands.filter fun c => (target? c).isSome
  | _ => []

theorem redundantAt_of_kind_ne (h : n.kind ≠ .root) : redundantAt n = [] := by
  obtain ⟨form, span⟩ := n
  cases form <;> first | rfl | exact absurd rfl h

theorem redundantAt_root {commands : List Node} (h : n.form = .root commands) :
    redundantAt n = [] ↔ ∀ c ∈ commands, target? c = none := by
  simp only [redundantAt, h, filter_eq_nil_iff, not_isSome_iff_eq_none]

theorem inline_of_redundantAt_eq_nil (h : redundantAt n = []) : inline n = n := by
  obtain ⟨form, span⟩ := n
  cases form with
  | root commands =>
    rw [redundantAt_root rfl] at h
    have hcmds : commands.map unwrap = commands :=
      (map_congr_left fun c hc => unwrap_of_target?_eq_none (h c hc)).trans (map_id _)
    simp only [inline, hcmds]
  | _ => rfl

theorem transform_eq (n : Node) (p : Pass σ) : ∃ kept,
    transform n p = (.ok (if redundantAt n = [] then .keep else .replace (inline n) kept), p) := by
  obtain ⟨form, span⟩ := n
  cases form with
  | root commands =>
    refine ⟨commands.map fun c => (target? c).isNone, ?_⟩
    have hany : (commands.any fun c => (target? c).isSome) = true ↔ redundantAt ⟨.root commands, span⟩ ≠ [] := by
      rw [Ne, redundantAt_root rfl, List.any_eq_true]
      simp only [isSome_iff_ne_none, not_forall, exists_prop]
    simp only [transform, hany, ite_not]
    split <;> rfl
  | _ => exact ⟨[], rfl⟩

theorem reduce_rule (r : Reduced) (p : Pass σ) : ∃ r', (rule σ).reduce r p = (r', p) ∧
    r'.node = inline r.node ∧ (r'.same = true ↔ r.same = true ∧ redundantAt r.node = []) := by
  by_cases hkind : r.node.kind = .root
  · obtain ⟨kept, htransform⟩ := transform_eq r.node p
    by_cases hnil : redundantAt r.node = []
    · rw [if_pos hnil] at htransform
      refine ⟨r, reduce_of_keep (applies_rule.2 hkind) htransform, (inline_of_redundantAt_eq_nil hnil).symm, ?_⟩
      rw [and_iff_left hnil]
    · rw [if_neg hnil] at htransform
      exact ⟨_, reduce_of_replace (applies_rule.2 hkind) htransform, rfl, nofun, fun h => absurd h.2 hnil⟩
  · refine ⟨r, if_neg fun happlies => hkind (applies_rule.1 happlies), (inline_of_kind_ne hkind).symm, ?_⟩
    rw [and_iff_left (redundantAt_of_kind_ne hkind)]

end ExecuteRun

/-! ### Definitions of functions -/

variable {r : Reduced} {db' db : Database} {reports reports' : List Diagnostic} {p p'' p' : Pass σ} {d : Definition}
  {o : Options}

namespace NestedFunction

/-- A definition of a function inside of another one. -/
structure Definition where
  name : Node
  body : Node

def defined? (n : Node) : Option Definition :=
  match n.form with
  | .command identifier [name, body] => if identifier = definition then some ⟨name, body⟩ else none
  | _ => none

def toCall (n : Node) : Node :=
  match defined? n with
  | some d => ⟨.command call [d.name], n.span⟩
  | none => n

variable {ds ls es ms : List Definition}

theorem defined?_eq_some : defined? n = some d ↔ n.form = .command definition [d.name, d.body] := by
  obtain ⟨form, span⟩ := n
  rw [defined?]
  constructor
  · intro h
    split at h
    · rename_i hform
      split at h
      · rename_i hid
        cases h
        rw [← hid]
        exact hform
      · cases h
    · cases h
  · intro h
    subst h
    exact if_pos rfl

theorem defined?_of_kind_ne (h : n.kind ≠ .command) : defined? n = none := by
  obtain ⟨form, span⟩ := n
  cases form <;> first | rfl | exact absurd rfl h

theorem toCall_of_none (h : defined? n = none) : toCall n = n := by
  rw [toCall, h]

theorem toCall_of_some (h : defined? n = some d) : toCall n = ⟨.command call [d.name], n.span⟩ := by
  rw [toCall, h]

namespace Definition

def title (d : Definition) : String :=
  match d.name.form with
  | .resourceLocation l => l.fullName
  | _ => ""

def unit (d : Definition) : CompilationUnit := .ofTree d.body d.title

def WellNamed (d : Definition) : Prop := ∃ l, d.name.form = .resourceLocation l ∧ l.isTag = false

theorem names_unit (d : Definition) : d.unit.names = [d.title] := rfl

end Definition

/-- Nothing is wrong with definitions that are taken in one after the other: they have names, none of them twice, and
none that stands for a unit already. -/
structure Accepts (db : Database) (ds : List Definition) : Prop where
  named : ∀ d ∈ ds, d.WellNamed
  distinct : (ds.map Definition.title).Nodup
  unknown : ∀ d ∈ ds, db.lookup d.title = none

theorem Accepts.congr (hlookup : ∀ name, db'.lookup name = db.lookup name) (h : Accepts db ds) : Accepts db' ds :=
  ⟨h.named, h.distinct, fun d hd => (hlookup d.title).trans (h.unknown d hd)⟩

theorem lookup_takeInAll_eq_none (hfresh : db.Fresh) (units : List CompilationUnit) (name : String) :
    (db.takeInAll units).lookup name = none ↔ db.lookup name = none ∧ ∀ u ∈ units, name ∉ u.names := by
  induction units generalizing db with
  | nil => exact ⟨fun h => ⟨h, forall_mem_nil _⟩, And.left⟩
  | cons u units ih =>
    have hlookup : (db.takeIn u).lookup name = none ↔ name ∉ u.names ∧ db.lookup name = none := by
      rw [hfresh.takeIn_eq, Database.lookup, Database.lookup_enter]
      by_cases hname : name ∈ u.names
      · simp [hname]
      · simp [hname, Database.lookup]
    rw [Database.takeInAll_cons, ih (hfresh.takeIn u), hlookup, forall_mem_cons, and_comm (a := name ∉ u.names),
      and_assoc]

theorem accepts_append (hfresh : db.Fresh) :
    Accepts db (ds ++ es) ↔ Accepts db ds ∧ Accepts (db.takeInAll (ds.map Definition.unit)) es := by
  have hunknown : ∀ e : Definition, (db.takeInAll (ds.map Definition.unit)).lookup e.title = none ↔
      db.lookup e.title = none ∧ ∀ d ∈ ds, d.title ≠ e.title := by
    intro e
    rw [lookup_takeInAll_eq_none hfresh, List.forall_mem_map]
    simp only [Definition.names_unit, mem_singleton, ne_comm]
  constructor
  · rintro ⟨hnamed, hdist, hnew⟩
    rw [map_append, nodup_append] at hdist
    rw [forall_mem_append] at hnamed hnew
    refine ⟨⟨hnamed.1, hdist.1, hnew.1⟩, hnamed.2, hdist.2.1, fun e he => (hunknown e).2 ⟨hnew.2 e he, ?_⟩⟩
    exact fun d hd => hdist.2.2 _ (mem_map_of_mem hd) _ (mem_map_of_mem he)
  · rintro ⟨⟨hnamed, hdist, hnew⟩, hnamed', hdist', hnew'⟩
    refine ⟨forall_mem_append.2 ⟨hnamed, hnamed'⟩, ?_,
      forall_mem_append.2 ⟨hnew, fun e he => ((hunknown e).1 (hnew' e he)).1⟩⟩
    rw [map_append, nodup_append]
    refine ⟨hdist, hdist', ?_⟩
    rintro _ htitle _ htitle'
    obtain ⟨d, hd, rfl⟩ := mem_map.1 htitle
    obtain ⟨e, he, rfl⟩ := mem_map.1 htitle'
    exact ((hunknown e).1 (hnew' e he)).2 d hd

theorem accepts_nil (db : Database) : Accepts db [] := ⟨forall_mem_nil _, nodup_nil, forall_mem_nil _⟩

theorem accepts_singleton : Accepts db [d] ↔ d.WellNamed ∧ db.lookup d.title = none :=
  ⟨fun h => ⟨h.named d mem_cons_self, h.unknown d mem_cons_self⟩,
    fun h => ⟨forall_mem_singleton.2 h.1, pairwise_singleton _ _, forall_mem_singleton.2 h.2⟩⟩

theorem functionName_of_accepts (h : Accepts db [d]) : functionName db d.name = .ok d.title := by
  obtain ⟨⟨l, hform, htag⟩, hunknown⟩ := accepts_singleton.1 h
  rw [Definition.title, hform] at hunknown ⊢
  rw [functionName, hform]
  simp only [htag, hunknown]
  rfl

/-- The name of a definition: where it stands, and the location that it is. -/
structure Mark where
  span : Span
  location? : Option ResourceLocation
  deriving DecidableEq

namespace Mark

def ofNode (n : Node) : Mark where
  span := n.span
  location? := match n.form with
    | .resourceLocation l => some l
    | _ => none

def title (m : Mark) : String := (m.location?.map ResourceLocation.fullName).getD ""

def problem (m : Mark) : Problem :=
  match m.location? with
  | some l => if l.isTag then .tag else .defined l.fullName
  | none => .notName

end Mark

def Definition.mark (d : Definition) : Mark := .ofNode d.name

theorem Definition.title_mark (d : Definition) : d.mark.title = d.title := by
  obtain ⟨⟨form, span⟩, body⟩ := d
  cases form <;> rfl

theorem functionName_of_not_accepts (h : ¬Accepts db [d]) : functionName db d.name = .error d.mark.problem := by
  have hknown : ∀ l, d.name.form = .resourceLocation l → l.isTag = false → (db.lookup l.fullName).isSome = true := by
    intro l hform htag
    by_contra hunknown
    refine h (accepts_singleton.2 ⟨⟨l, hform, htag⟩, ?_⟩)
    rw [Definition.title, hform]
    simpa using hunknown
  obtain ⟨⟨form, span⟩, body⟩ := d
  cases form with
  | resourceLocation l =>
    cases htag : l.isTag with
    | true => simp [functionName, Definition.mark, Mark.ofNode, Mark.problem, htag]
    | false => simp [functionName, Definition.mark, Mark.ofNode, Mark.problem, htag, hknown l rfl htag]
  | _ => rfl

/-- What becomes of definitions that are met one after the other: those that are taken in are accepted, and a name of a
function is refused only if it stands for a unit, or for one that is taken in. -/
structure Judged (db : Database) (ds ls : List Definition) : Prop where
  taken : Accepts db ds
  refused : ∀ d ∈ ls, d.WellNamed → db.lookup d.title = none → d.title ∈ ds.map Definition.title

theorem Judged.congr (hlookup : ∀ name, db'.lookup name = db.lookup name) (h : Judged db ds ls) : Judged db' ds ls :=
  ⟨h.taken.congr hlookup, fun d hd hnamed hnone => h.refused d hd hnamed ((hlookup d.title).symm.trans hnone)⟩

theorem lookup_takeInAll_title (hfresh : db.Fresh) (ds : List Definition) (name : String) :
    (db.takeInAll (ds.map Definition.unit)).lookup name = none ↔
      db.lookup name = none ∧ name ∉ ds.map Definition.title := by
  rw [lookup_takeInAll_eq_none hfresh, List.forall_mem_map]
  simp only [Definition.names_unit, mem_singleton, List.mem_map, not_exists, not_and, eq_comm]

theorem Judged.append (hfresh : db.Fresh) (h : Judged db ds ls)
    (h' : Judged (db.takeInAll (ds.map Definition.unit)) es ms) : Judged db (ds ++ es) (ls ++ ms) where
  taken := (accepts_append hfresh).2 ⟨h.taken, h'.taken⟩
  refused := by
    rw [map_append]
    refine forall_mem_append.2 ⟨fun d hd hnamed hnone => ?_, fun d hd hnamed hnone => ?_⟩
    · exact mem_append_left _ (h.refused d hd hnamed hnone)
    · by_cases htitle : d.title ∈ ds.map Definition.title
      · exact mem_append_left _ htitle
      · refine mem_append_right _ (h'.refused d hd hnamed ?_)
        exact (lookup_takeInAll_title hfresh ds d.title).2 ⟨hnone, htitle⟩

theorem judged_of_not_accepts (h : ¬Accepts db [d]) : Judged db [] [d] :=
  ⟨accepts_nil db, forall_mem_singleton.2 fun hnamed hnone => absurd (accepts_singleton.2 ⟨hnamed, hnone⟩) h⟩

def rule (σ : Type) : Rule (Handler (Pass σ)) :=
  ⟨StandardRule.nestedFunction.name, [.command], [("identifier", definition)], transform⟩

theorem applies_rule : (rule σ).applies n = true ↔ ∃ arguments, n.form = .command definition arguments := by
  rw [applies_iff (rule σ) rfl, Kind.command_mem_ancestors]
  obtain ⟨form, span⟩ := n
  cases form with
  | command identifier arguments => simp [holds, rule, Form.field, kind, Form.kind]
  | _ => simp [kind, Form.kind]

theorem reduce_rule {arguments : List Node} (h : r.node.form = .command definition arguments)
    (hnone : defined? r.node = none) (p : Pass σ) : (rule σ).reduce r p = (r, p) := by
  refine reduce_of_keep (applies_rule.2 ⟨arguments, h⟩) ?_
  obtain ⟨⟨form, span⟩, same, kept⟩ := r
  subst h
  change transform _ p = _
  rw [transform]
  split
  · rename_i name body hform
    cases hform
    exact absurd (hnone.symm.trans (defined?_eq_some (d := ⟨name, body⟩).2 rfl)) nofun
  · rfl

theorem reduce_rule_of_accepts (hd : defined? r.node = some d) (h : Accepts p.database [d]) :
    ∃ r', (rule σ).reduce r p = (r', { p with database := p.database.takeIn d.unit }) ∧ r'.node = toCall r.node := by
  have hform := defined?_eq_some.1 hd
  have hhandler : (rule σ).handler r.node p =
      (.ok (.replace ⟨.command call [d.name], r.node.span⟩ [true]), p.addUnit d.unit Stage.transform) := by
    change transform _ p = _
    rw [transform, hform]
    simp only [functionName_of_accepts h]
    rfl
  exact ⟨_, reduce_of_replace (applies_rule.2 ⟨_, hform⟩) hhandler, (toCall_of_some hd).symm⟩

/-- A report of the rule that something is wrong with a definition. -/
def Refusal (x : Diagnostic) : Prop :=
  x.rule = some StandardRule.nestedFunction.name ∧ ∃ problem : Problem, x.message = problem.message

theorem Refusal.stamp {x : Diagnostic} (h : Refusal x) (ds : Diagnostics) : Refusal (ds.stamp x) := by
  refine ⟨?_, h.2⟩
  change (x.rule <|> ds.rule) = _
  rw [h.1]
  rfl

/-- A report that a definition is refused, at its name. -/
structure Refuses (d : Definition) (x : Diagnostic) : Prop where
  isError : x.isError = true
  file : x.file = none
  rule : x.rule = some StandardRule.nestedFunction.name
  message : x.message = d.mark.problem.message
  place : x.LiesOn d.mark.span

theorem reduce_rule_of_not_accepts (hd : defined? r.node = some d) (h : ¬Accepts p.database [d]) :
    ∃ x, (rule σ).reduce r p = (r, Reports.report p x) ∧ Refuses d x := by
  have hform := defined?_eq_some.1 hd
  have hhandler : (rule σ).handler r.node p =
      (.error ({ level := .error, message := d.mark.problem.message : Diagnostic }.withSpan d.name.span), p) := by
    change transform _ p = _
    rw [transform, hform]
    simp only [functionName_of_not_accepts h]
  refine ⟨_, reduce_of_error (applies_rule.2 ⟨_, hform⟩) hhandler, by simp [isError], by simp, ?_, ?_, ?_⟩
  · rw [rule_complete, rule_withSpan]
    rfl
  · rw [message_complete, message_withSpan]
  · exact liesOn_complete _ _ (liesOn_withSpan _ _)

end NestedFunction

/-! ### Settled trees -/

namespace Options

open NestedFunction

/-- What the enabled rules make of a node if nothing is wrong with it. -/
def settleAt (o : Options) (n : Node) : Node :=
  let n := if o.enables .executeRun then ExecuteRun.inline n else n
  if o.enables .nestedFunction then toCall n else n

/-- What the enabled rules make of a tree if nothing is wrong with it. -/
def settle (o : Options) : Node → Node := rewrite o.settleAt

def settledBelow (o : Options) (n : Node) : Node := n.withChildren (n.children.map o.settle)

def definitionAt? (o : Options) (n : Node) : Option Definition :=
  if o.enables .nestedFunction then defined? n else none

/-- The functions that the enabled rules take out of a tree, in the order in which their definitions end. -/
def definitions (o : Options) (n : Node) : List Definition :=
  n.postorder.filterMap fun m => o.definitionAt? (o.settledBelow m)

theorem settle_eq (o : Options) (n : Node) : o.settle n = o.settleAt (o.settledBelow n) := rewrite_eq _ n

theorem definitions_eq (o : Options) (n : Node) :
    o.definitions n = n.children.flatMap o.definitions ++ (o.definitionAt? (o.settledBelow n)).toList := by
  rw [definitions, postorder_eq, filterMap_append, filterMap_flatMap]
  refine congrArg _ ?_
  cases hdef : o.definitionAt? (o.settledBelow n) <;> simp [hdef]

theorem children_settledBelow (o : Options) (n : Node) : (o.settledBelow n).children = n.children.map o.settle :=
  children_withChildren (length_map _)

theorem settleAt_of_root (h : n.kind = .root) :
    o.settleAt n = if o.enables .executeRun then ExecuteRun.inline n else n := by
  have hnone : ∀ m : Node, m.kind = .root → toCall m = m := fun m hm =>
    toCall_of_none (defined?_of_kind_ne (by rw [hm]; decide))
  have hcall : toCall (if o.enables .executeRun then ExecuteRun.inline n else n) =
      if o.enables .executeRun then ExecuteRun.inline n else n := by
    refine hnone _ ?_
    split
    · rw [ExecuteRun.kind_inline, h]
    · exact h
  rw [settleAt, hcall, ite_self]

theorem settleAt_of_kind_ne (h : n.kind ≠ .root) :
    o.settleAt n = if o.enables .nestedFunction then toCall n else n := by
  rw [settleAt, ExecuteRun.inline_of_kind_ne h, ite_self]

theorem definitionAt?_of_root (h : n.kind = .root) : o.definitionAt? n = none := by
  rw [definitionAt?, defined?_of_kind_ne (by rw [h]; decide), ite_self]

variable {ns nodes ms : List Node} {ds ls : List Definition} {n' m : Node}

theorem definitionAt?_eq_some :
    o.definitionAt? n = some d ↔ o.enables .nestedFunction = true ∧ defined? n = some d := by
  rw [definitionAt?]
  by_cases henabled : o.enables .nestedFunction = true <;> simp [henabled]

theorem settleAt_of_definitionAt? (h : o.definitionAt? n = some d) : n.form = .command definition [d.name, d.body] ∧
      o.settleAt n = ⟨.command call [d.name], n.span⟩ := by
  obtain ⟨henabled, hdefined⟩ := definitionAt?_eq_some.1 h
  have hform := defined?_eq_some.1 hdefined
  refine ⟨hform, ?_⟩
  rw [settleAt_of_kind_ne (by rw [kind_of_command hform]; decide), if_pos henabled, toCall_of_some hdefined]

theorem settleAt_of_not_root (h : n.kind ≠ .root) (hnone : o.definitionAt? n = none) : o.settleAt n = n := by
  rw [settleAt_of_kind_ne h]
  split
  · rename_i henabled
    rw [definitionAt?, if_pos henabled] at hnone
    exact toCall_of_none hnone
  · rfl

theorem size_settleAt_le (o : Options) (n : Node) :
    (o.settleAt n).size + sizes ((o.definitionAt? n).toList.map Definition.body) ≤ n.size := by
  cases hdef : o.definitionAt? n with
  | none =>
    by_cases hroot : n.kind = .root
    · rw [settleAt_of_root hroot]
      split
      · exact ExecuteRun.size_inline_le n
      · exact Nat.le_refl _
    · rw [settleAt_of_not_root hroot hdef]
      exact Nat.le_refl _
  | some d =>
    obtain ⟨hform, hsettled⟩ := settleAt_of_definitionAt? hdef
    rw [hsettled, size_eq, n.size_eq, children, children, hform]
    simp only [Form.children, toList_some, map_cons, map_nil, sizes_cons, sizes_nil]
    omega

/-! A tree that has been settled stays as it is, and has no definitions. -/

def Settled (o : Options) (n : Node) : Prop := ∀ m, n.Within m → o.settleAt m = m ∧ o.definitionAt? m = none

theorem Settled.within (h : o.Settled n) (hm : n.Within m) : o.Settled m := fun k hk => h k (hm.trans hk)

theorem settled_of_children (hn : o.settleAt n = n ∧ o.definitionAt? n = none)
    (hchildren : ∀ c ∈ n.children, o.Settled c) : o.Settled n := by
  intro m hm
  cases hm with
  | self => exact hn
  | child hc hm => exact hchildren _ hc m hm

theorem settled_settleAt (h : ∀ c ∈ n.children, o.Settled c) : o.Settled (o.settleAt n) := by
  cases hdef : o.definitionAt? n with
  | some d =>
    obtain ⟨hform, hsettled⟩ := settleAt_of_definitionAt? hdef
    have hname : d.name ∈ n.children := by
      rw [children, hform]
      exact mem_cons_self
    have hcall : o.definitionAt? (o.settleAt n) = none := by
      rw [hsettled, definitionAt?]
      exact ite_self _
    have hkind : (o.settleAt n).kind ≠ .root := by
      rw [hsettled, kind_of_command rfl]
      decide
    refine settled_of_children ⟨settleAt_of_not_root hkind hcall, hcall⟩ fun c hc => ?_
    rw [hsettled] at hc
    rw [mem_singleton.1 hc]
    exact h d.name hname
  | none =>
    by_cases hroot : n.kind = .root
    · obtain ⟨form, span⟩ := n
      cases form with
      | root commands =>
        rw [settleAt_of_root hroot]
        split
        · rename_i henabled
          refine settled_of_children ⟨?_, definitionAt?_of_root rfl⟩ fun c hc => ?_
          · rw [settleAt_of_root rfl, if_pos henabled]
            simp only [ExecuteRun.inline, List.map_map]
            refine congrArg (fun commands => Node.mk (.root commands) span) (map_congr_left fun c _ => ?_)
            exact ExecuteRun.unwrap_of_target?_eq_none (ExecuteRun.target?_unwrap c)
          · obtain ⟨c, hmem, rfl⟩ := mem_map.1 hc
            exact (h c hmem).within (ExecuteRun.within_unwrap c)
        · rename_i hdisabled
          exact settled_of_children ⟨by rw [settleAt_of_root hroot, if_neg hdisabled], hdef⟩ h
      | _ => cases hroot
    · have hsame := settleAt_of_not_root hroot hdef
      rw [hsame]
      exact settled_of_children ⟨hsame, hdef⟩ h

theorem settled_settle (o : Options) (n : Node) : o.Settled (o.settle n) := by
  induction n using induct with
  | hstep n ih =>
    rw [settle_eq]
    refine settled_settleAt fun c hc => ?_
    rw [children_settledBelow] at hc
    obtain ⟨c, hmem, rfl⟩ := mem_map.1 hc
    exact ih c hmem

theorem settle_of_settled (h : o.Settled n) : o.settle n = n := rewrite_of_fixed fun m hm => (h m hm).1

theorem definitions_of_settled (h : o.Settled n) : o.definitions n = [] := by
  refine filterMap_eq_nil_iff.2 fun m hm => ?_
  have hm := mem_postorder.1 hm
  have hbelow : o.settledBelow m = m := by
    have hchildren : m.children.map o.settle = m.children := by
      refine (map_congr_left fun c hc => ?_).trans (map_id _)
      exact settle_of_settled ((h.within hm).within (.child hc (.self c)))
    rw [settledBelow, hchildren, withChildren_children]
  rw [hbelow]
  exact (h m hm).2

theorem settled_body (h : d ∈ o.definitions n) : o.Settled d.body := by
  obtain ⟨m, -, hm⟩ := mem_filterMap.1 h
  have hbody : d.body ∈ (o.settledBelow m).children := by
    rw [children, (settleAt_of_definitionAt? hm).1]
    exact mem_cons_of_mem _ mem_cons_self
  rw [children_settledBelow] at hbody
  obtain ⟨c, -, hc⟩ := mem_map.1 hbody
  rw [← hc]
  exact o.settled_settle c

/-! ### The rules that change trees -/

theorem rules_transforms (o : Options) : (o.transforms σ).rules =
    (if o.enables .executeRun then [ExecuteRun.rule σ] else []) ++
      if o.enables .nestedFunction then [rule σ] else [] := by
  rw [transforms, register, register]
  by_cases hrun : o.enables .executeRun = true <;> by_cases hnested : o.enables .nestedFunction = true <;>
    simp only [hrun, hnested] <;> rfl

theorem dispatch_transforms (o : Options) (n : Node) : (o.transforms σ).dispatch n =
    if n.kind = .root then if o.enables .executeRun then [ExecuteRun.rule σ] else []
    else if o.enables .nestedFunction ∧ (rule σ).applies n then [rule σ] else [] := by
  have hrun := ExecuteRun.applies_rule (n := n) (σ := σ)
  have hnested : (rule σ).applies n = true → n.kind ≠ .root := by
    intro happlies
    obtain ⟨arguments, hform⟩ := applies_rule.1 happlies
    rw [kind_of_command hform]
    decide
  rw [dispatch_eq_filter] <;> rw [rules_transforms, filter_append] <;>
    by_cases h₁ : o.enables .executeRun = true <;> by_cases h₂ : o.enables .nestedFunction = true <;>
    by_cases h₃ : n.kind = .root <;> by_cases h₄ : (rule σ).applies n = true <;> simp_all

theorem reduceBy_transforms_of_accepts (h : Accepts p.database (o.definitionAt? r.node).toList) :
    ∃ r', reduceBy ((o.transforms σ).dispatch r.node) r p =
      (r', { p with database := p.database.takeInAll ((o.definitionAt? r.node).toList.map Definition.unit) }) ∧
        r'.node = o.settleAt r.node := by
  rw [dispatch_transforms]
  by_cases hroot : r.node.kind = .root
  · rw [if_pos hroot, definitionAt?_of_root hroot, settleAt_of_root hroot]
    split
    · obtain ⟨r', heq, hnode, -⟩ := ExecuteRun.reduce_rule r p
      exact ⟨r', heq, hnode⟩
    · exact ⟨r, rfl, rfl⟩
  · rw [if_neg hroot]
    cases hdef : o.definitionAt? r.node with
    | none =>
      refine ⟨r, ?_, (settleAt_of_not_root hroot hdef).symm⟩
      split
      · rename_i henabled
        obtain ⟨arguments, hform⟩ := applies_rule.1 henabled.2
        rw [definitionAt?, if_pos henabled.1] at hdef
        exact reduce_rule hform hdef p
      · rfl
    | some d =>
      rw [hdef] at h
      obtain ⟨henabled, hdefined⟩ := definitionAt?_eq_some.1 hdef
      have hform := defined?_eq_some.1 hdefined
      rw [if_pos ⟨henabled, applies_rule.2 ⟨_, hform⟩⟩, settleAt_of_kind_ne hroot, if_pos henabled]
      exact reduce_rule_of_accepts hdefined h

theorem reduceBy_transforms_of_not_accepts (h : ¬Accepts p.database (o.definitionAt? r.node).toList) :
    ∃ d x, o.definitionAt? r.node = some d ∧ ¬Accepts p.database [d] ∧
      reduceBy ((o.transforms σ).dispatch r.node) r p = (r, Reports.report p x) ∧ Refuses d x := by
  cases hdef : o.definitionAt? r.node with
  | none =>
    rw [hdef] at h
    exact absurd (accepts_nil _) h
  | some d =>
    rw [hdef] at h
    obtain ⟨henabled, hdefined⟩ := definitionAt?_eq_some.1 hdef
    have hform := defined?_eq_some.1 hdefined
    rw [dispatch_transforms, if_neg (by rw [kind_of_command hform]; decide),
      if_pos ⟨henabled, applies_rule.2 ⟨_, hform⟩⟩]
    obtain ⟨x, heq, hx⟩ := reduce_rule_of_not_accepts hdefined h
    exact ⟨d, x, rfl, h, heq, hx⟩

/-- What the enabled rules may put in the place of nodes, the definitions that they may take out of them, and those that
they refuse: at each node, after those below it, they do what they do if nothing is wrong with it, or they leave a
definition. -/
inductive Reworked (o : Options) : List Node → List Definition → List Definition → List Node → Prop where
  | nil : Reworked o [] [] [] []
  | cons {n m : Node} {ns ms : List Node} {ds ds' ls ls' : List Definition} (hfirst : Reworked o [n] ds ls [m])
      (hrest : Reworked o ns ds' ls' ms) : Reworked o (n :: ns) (ds ++ ds') (ls ++ ls') (m :: ms)
  | settled {n : Node} {ms : List Node} {ds ls : List Definition} (hbelow : Reworked o n.children ds ls ms) :
      Reworked o [n] (ds ++ (o.definitionAt? (n.withChildren ms)).toList) ls [o.settleAt (n.withChildren ms)]
  | left {n : Node} {ms : List Node} {ds ls : List Definition} {d : Definition} (hbelow : Reworked o n.children ds ls ms)
      (hd : o.definitionAt? (n.withChildren ms) = some d) : Reworked o [n] ds (ls ++ [d]) [n.withChildren ms]

theorem Reworked.append {ns' ms' : List Node} {ds' ls' : List Definition} (h : o.Reworked ns ds ls ms)
    (h' : o.Reworked ns' ds' ls' ms') : o.Reworked (ns ++ ns') (ds ++ ds') (ls ++ ls') (ms ++ ms') := by
  induction h with
  | nil => exact h'
  | cons hfirst _ _ ih =>
    rw [append_assoc, append_assoc]
    exact .cons hfirst ih
  | settled hbelow => exact .cons (.settled hbelow) h'
  | left hbelow hd => exact .cons (.left hbelow hd) h'

theorem Reworked.enabled (h : o.Reworked ns ds ls ms) :
    (∀ d ∈ ds, o.enables .nestedFunction = true) ∧ ∀ d ∈ ls, o.enables .nestedFunction = true := by
  induction h with
  | nil => exact ⟨forall_mem_nil _, forall_mem_nil _⟩
  | cons _ _ ih ih' => exact ⟨forall_mem_append.2 ⟨ih.1, ih'.1⟩, forall_mem_append.2 ⟨ih.2, ih'.2⟩⟩
  | settled _ ih =>
    refine ⟨forall_mem_append.2 ⟨ih.1, fun d hd => ?_⟩, ih.2⟩
    exact (definitionAt?_eq_some.1 (mem_toList.1 hd)).1
  | left _ hd ih =>
    exact ⟨ih.1, forall_mem_append.2 ⟨ih.2, forall_mem_singleton.2 (definitionAt?_eq_some.1 hd).1⟩⟩

/-- What the enabled rules make of trees: the nodes in their place, the definitions that become units, those that are
refused, and a report for each of these. If there is none, then the nodes and the definitions are those that are
expected. -/
structure Transformed (o : Options) (ns : List Node) (p : Pass σ) (ds ls : List Definition) (reports : List Diagnostic)
    (nodes : List Node) (p' : Pass σ) : Prop where
  pass : p' = { p with
    database := p.database.takeInAll (ds.map Definition.unit)
    diagnostics := reports.foldl Diagnostics.add p.diagnostics }
  reworked : o.Reworked ns ds ls nodes
  refuses : Forall₂ Refuses ls reports
  judged : Judged p.database ds ls
  sizes : sizes nodes + sizes (ds.map Definition.body) ≤ sizes ns
  exact : reports = [] → nodes = ns.map o.settle ∧ ds = ns.flatMap o.definitions
  accepted : reports = [] ↔ Accepts p.database (ns.flatMap o.definitions)

theorem transformed_nil (o : Options) (p : Pass σ) : o.Transformed [] p [] [] [] [] p where
  pass := rfl
  reworked := .nil
  refuses := .nil
  judged := ⟨accepts_nil _, forall_mem_nil _⟩
  sizes := Nat.le_refl _
  exact := fun _ => ⟨rfl, rfl⟩
  accepted := ⟨fun _ => accepts_nil _, fun _ => rfl⟩

theorem Transformed.append {ns' nodes' : List Node} {ds' ls' : List Definition}
    (hfresh : p.database.Fresh) (h : o.Transformed ns p ds ls reports nodes p')
    (h' : o.Transformed ns' p' ds' ls' reports' nodes' p'') :
    o.Transformed (ns ++ ns') p (ds ++ ds') (ls ++ ls') (reports ++ reports') (nodes ++ nodes') p'' where
  pass := by
    rw [h'.pass, h.pass]
    simp only [map_append, Database.takeInAll_append, foldl_append]
  reworked := h.reworked.append h'.reworked
  refuses := rel_append h.refuses h'.refuses
  judged := h.judged.append hfresh (by simpa only [h.pass] using h'.judged)
  sizes := by
    rw [map_append, sizes_append, sizes_append, sizes_append]
    have := h.sizes
    have := h'.sizes
    omega
  exact := by
    intro hnone
    obtain ⟨hreports, hreports'⟩ := append_eq_nil_iff.1 hnone
    obtain ⟨rfl, rfl⟩ := h.exact hreports
    obtain ⟨rfl, rfl⟩ := h'.exact hreports'
    exact ⟨map_append.symm, flatMap_append.symm⟩
  accepted := by
    rw [append_eq_nil_iff, flatMap_append, accepts_append hfresh, h.accepted]
    refine and_congr_right fun haccepts => ?_
    rw [h'.accepted, h.pass, (h.exact (h.accepted.2 haccepts)).2]

theorem Transformed.node (hfresh : p.database.Fresh)
    (hlen : nodes.length = n.children.length) (hnode : r.node = n.withChildren nodes)
    (h : o.Transformed n.children p ds ls reports nodes p') : ∃ ds ls reports, o.Transformed [n] p ds ls reports
      [(reduceBy ((o.transforms σ).dispatch r.node) r p').1.node]
      (reduceBy ((o.transforms σ).dispatch r.node) r p').2 := by
  have hsize : r.node.size = 1 + Node.sizes nodes := by rw [hnode, Node.size_eq, Node.children_withChildren hlen]
  have hbelow : reports = [] → r.node = o.settledBelow n := by
    intro hnone
    rw [hnode, (h.exact hnone).1]
    rfl
  have hdb : p'.database = p.database.takeInAll (ds.map Definition.unit) := by rw [h.pass]
  have hsizes := h.sizes
  by_cases haccepts : Accepts p'.database (o.definitionAt? r.node).toList
  · obtain ⟨r', heq, hr⟩ := reduceBy_transforms_of_accepts haccepts
    rw [heq]
    refine ⟨ds ++ (o.definitionAt? r.node).toList, ls, reports, ?_, ?_, h.refuses, ?_, ?_, ?_, ?_⟩
    · rw [h.pass]
      simp only [map_append, Database.takeInAll_append]
    · rw [hr, hnode]
      exact .settled h.reworked
    · rw [← append_nil ls]
      exact h.judged.append hfresh ⟨hdb ▸ haccepts, forall_mem_nil _⟩
    · have := o.size_settleAt_le r.node
      rw [map_append, sizes_append, sizes_cons, sizes_cons, sizes_nil, hr, n.size_eq]
      omega
    · intro hnone
      rw [hr, hbelow hnone, (h.exact hnone).2, map_singleton, flatMap_singleton, settle_eq, definitions_eq]
      exact ⟨rfl, rfl⟩
    · rw [flatMap_singleton, definitions_eq, accepts_append hfresh, h.accepted]
      refine ⟨fun hall => ⟨hall, ?_⟩, And.left⟩
      have hnone := h.accepted.2 hall
      rw [hbelow hnone, h.pass, (h.exact hnone).2] at haccepts
      exact haccepts
  · obtain ⟨d, x, hd, hrefused, heq, hx⟩ := reduceBy_transforms_of_not_accepts haccepts
    rw [heq]
    refine ⟨ds, ls ++ [d], reports ++ [x], ?_, ?_, rel_append h.refuses (.cons hx .nil), ?_, ?_, ?_, ?_⟩
    · rw [h.pass, foldl_append]
      rfl
    · rw [hnode] at hd ⊢
      exact .left h.reworked hd
    · rw [← append_nil ds]
      exact h.judged.append hfresh (judged_of_not_accepts (hdb ▸ hrefused))
    · rw [sizes_cons, sizes_cons, sizes_nil, hsize, n.size_eq]
      omega
    · intro hnone
      exact absurd (append_eq_nil_iff.1 hnone).2 (cons_ne_nil _ _)
    · refine iff_of_false (fun hnone => cons_ne_nil _ _ (append_eq_nil_iff.1 hnone).2) fun hall => ?_
      rw [flatMap_singleton, definitions_eq, accepts_append hfresh] at hall
      have hnone := h.accepted.2 hall.1
      rw [hbelow hnone, h.pass, (h.exact hnone).2] at haccepts
      exact haccepts hall.2

/-- What the enabled rules make of one tree, with units in a database already. -/
structure Extracts (o : Options) (db : Database) (n : Node) (ds ls : List Definition) (reports : List Diagnostic)
    (n' : Node) : Prop where
  reworked : o.Reworked [n] ds ls [n']
  refuses : Forall₂ Refuses ls reports
  judged : Judged db ds ls
  sizes : n'.size + sizes (ds.map Definition.body) ≤ n.size
  exact : reports = [] → n' = o.settle n ∧ ds = o.definitions n
  accepted : reports = [] ↔ Accepts db (o.definitions n)

theorem Transformed.extracts
    (h : o.Transformed [n] p ds ls reports [n'] p') : o.Extracts p.database n ds ls reports n' where
  reworked := h.reworked
  refuses := h.refuses
  judged := h.judged
  sizes := h.sizes
  exact := fun hnone => ⟨(cons.inj (h.exact hnone).1).1, by rw [(h.exact hnone).2, flatMap_singleton]⟩
  accepted := by rw [h.accepted, flatMap_singleton]

section Extracts

variable {ds ls : List Definition}

theorem Extracts.congr (h : o.Extracts db n ds ls reports n')
    (hlookup : ∀ name, db'.lookup name = db.lookup name) : o.Extracts db' n ds ls reports n' :=
  { h with
    judged := h.judged.congr hlookup
    accepted := h.accepted.trans ⟨.congr hlookup, .congr fun name => (hlookup name).symm⟩ }

theorem Extracts.refused (h : o.Extracts db n ds ls reports n') : ∀ x ∈ reports, ∃ d ∈ ls, Refuses d x := by
  intro x hx
  obtain ⟨i, hi, rfl⟩ := getElem_of_mem hx
  have hlen := h.refuses.length_eq
  exact ⟨ls[i], getElem_mem _, h.refuses.get (hlen ▸ hi) hi⟩

theorem Extracts.refusals (h : o.Extracts db n ds ls reports n') :
    ∀ x ∈ reports, o.enables .nestedFunction = true ∧ Refusal x := by
  intro x hx
  obtain ⟨d, hd, hrefuses⟩ := h.refused x hx
  exact ⟨h.reworked.enabled.2 d hd, hrefuses.rule, _, hrefuses.message⟩

end Extracts

theorem reduce_transforms (o : Options) (n : Node) (hfresh : p.database.Fresh) :
    ∃ ds ls reports, o.Extracts p.database n ds ls reports ((o.transforms σ).reduce n p).1.node ∧
      ((o.transforms σ).reduce n p).2 = { p with
        database := p.database.takeInAll (ds.map Definition.unit)
        diagnostics := reports.foldl Diagnostics.add p.diagnostics } := by
  have h := reduce_induct (d := o.transforms σ) (P := fun ns p rs p' => Forall₂ Honest ns rs ∧
    (p.database.Fresh → ∃ ds ls reports, o.Transformed ns p ds ls reports (rs.map node) p')) ?_ ?_ ?_ n p
  · obtain ⟨ds, ls, reports, htransf⟩ := h.2 hfresh
    exact ⟨ds, ls, reports, htransf.extracts, htransf.pass⟩
  · exact fun p => ⟨.nil, fun _ => ⟨[], [], [], o.transformed_nil p⟩⟩
  · rintro n ns p r p' rs p'' ⟨hhonest, hfirst⟩ ⟨hhonest', hrest⟩
    refine ⟨.cons (forall₂_cons.1 hhonest).1 hhonest', fun hfresh => ?_⟩
    obtain ⟨ds, ls, reports, htransf⟩ := hfirst hfresh
    have hfresh' : p'.database.Fresh := by
      rw [htransf.pass]
      exact hfresh.takeInAll _
    obtain ⟨ds', ls', reports', htransf'⟩ := hrest hfresh'
    exact ⟨_, _, _, htransf.append hfresh htransf'⟩
  · rintro n p rs p' ⟨hhonest, hchildren⟩
    refine ⟨.cons (reduceBy_honest (rebuild_node hhonest).2) .nil, fun hfresh => ?_⟩
    obtain ⟨ds, ls, reports, htransf⟩ := hchildren hfresh
    exact htransf.node hfresh (by rw [length_map, hhonest.length_eq]) (rebuild_node hhonest).1

/-! ### The rules that look at trees -/

/-- A report about a node of a tree that is no error, and that says nothing about the unit. -/
structure IsRemark (tree : Node) (x : Diagnostic) : Prop where
  isError : x.isError = false
  file : x.file = none
  place : ∃ m, tree.Within m ∧ x.LiesOn m.span

theorem foldl_report (reports : List Diagnostic) (p : Pass σ) :
    reports.foldl Reports.report p = { p with diagnostics := reports.foldl Diagnostics.add p.diagnostics } := by
  induction reports generalizing p with
  | nil => rfl
  | cons x reports ih => exact ih _

theorem lint_executeRun_onlyReports : OnlyReports IsRemark (ExecuteRun.lint (σ := σ)) := by
  intro n p
  rw [ExecuteRun.lint]
  split
  · rename_i commands hform
    refine ⟨(commands.filter fun c => (ExecuteRun.target? c).isSome).map ExecuteRun.warning, ?_, by rw [foldl_map]⟩
    refine forall_mem_map.2 fun c hc => ⟨?_, ?_, c, .child ?_ (.self c), liesOn_withSpan _ _⟩
    · simp [ExecuteRun.warning, isError]
    · simp [ExecuteRun.warning]
    · rw [children, hform]
      exact mem_of_mem_filter hc
  · exact ⟨[], forall_mem_nil _, rfl⟩

theorem isRemark_of_mem_warnings {seen : List String} (hns : ∀ m ∈ ns, m ∈ n.children) :
    ∀ x ∈ SelectorArguments.warnings seen ns, IsRemark n x := by
  fun_induction SelectorArguments.warnings seen ns with
  | case1 => exact forall_mem_nil _
  | case2 seen m ns hkey ih => exact ih (forall_mem_cons.1 hns).2
  | case3 seen m ns key hkey ih =>
    rw [forall_mem_cons] at hns
    refine forall_mem_append.2 ⟨?_, ih hns.2⟩
    split
    · refine forall_mem_singleton.2 ⟨?_, ?_, m, .child hns.1 (.self m), liesOn_withSpan _ _⟩
      · simp [SelectorArguments.warning, isError]
      · simp [SelectorArguments.warning]
    · exact forall_mem_nil _

theorem lint_selectorArguments_onlyReports : OnlyReports IsRemark (SelectorArguments.lint (σ := σ)) := by
  intro n p
  rw [SelectorArguments.lint]
  split
  · rename_i hform
    exact ⟨_, isRemark_of_mem_warnings (by rw [children, hform]; exact fun _ => id), rfl⟩
  · exact ⟨[], forall_mem_nil _, rfl⟩

theorem reduce_lints (o : Options) (n : Node) (p : Pass σ) : ((o.lints σ).reduce n p).1.same = true ∧
    ∃ reports : List Diagnostic, (∀ x ∈ reports, IsRemark n x) ∧
      ((o.lints σ).reduce n p).2 = { p with diagnostics := reports.foldl Diagnostics.add p.diagnostics } := by
  have hrules : ∀ rule ∈ (o.lints σ).rules, Dispatcher.OnlyReports IsRemark rule.handler := by
    intro rule hrule
    rw [lints, register, register] at hrule
    by_cases hrun : o.enables .redundantExecuteRun = true <;>
      by_cases hselector : o.enables .duplicateSelectorArgument = true <;>
      simp only [hrun, hselector, Dispatcher.register, Dispatcher.empty, nil_append, cons_append, if_true,
        Bool.false_eq_true, if_false, mem_cons, not_mem_nil, or_false] at hrule
    · rcases hrule with rfl | rfl
      · exact lint_executeRun_onlyReports
      · exact lint_selectorArguments_onlyReports
    · subst hrule
      exact lint_executeRun_onlyReports
    · subst hrule
      exact lint_selectorArguments_onlyReports
  obtain ⟨hsame, reports, hremarks, heq⟩ := Dispatcher.reduce_of_onlyReports hrules n p
  refine ⟨hsame, reports, fun x hx => ?_, heq.trans (foldl_report reports p)⟩
  obtain ⟨m, hm, herror, hfile, k, hk, hplace⟩ := hremarks x hx
  exact ⟨herror, hfile, k, hm.trans hk, hplace⟩

end Options

end Mcfunction
