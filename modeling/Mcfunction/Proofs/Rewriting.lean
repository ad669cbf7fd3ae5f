import Mathlib.Data.List.Perm.Basic
import Mcfunction.Proofs.Walk

/-! Trees that are rewritten from the leaves to the root. A form with other children, as many as it has, is the
same form with just these children; so a function on nodes is carried to trees, and meets each node once, after
the nodes below it. -/

namespace Mcfunction

open List Form

/-! ### Children -/

namespace Form

variable {ν μ : Type} {form : Form ν} {cs : List μ}

/-- A form without its children: each of them is left as a blank. -/
def outline : Form ν → Form Unit
  | root commands => root (commands.map fun _ => ())
  | command identifier arguments => command identifier (arguments.map fun _ => ())
  | comment text => comment text
  | bool value => bool value
  | number value => number value
  | word text => word text
  | string text => string text
  | greedy text => greedy text
  | time value unit => time value unit
  | resourceLocation location => resourceLocation location
  | coordinate kind value => coordinate kind value
  | vector2 _ _ => vector2 () ()
  | vector3 _ _ _ => vector3 () () ()
  | range min max => range min max
  | selector target arguments => selector target (arguments.map fun _ => ())
  | selectorArgument inverted key value => selectorArgument inverted key (value.map fun _ => ())
  | selectorScores scores => selectorScores (scores.map fun _ => ())
  | selectorScoreMatch key _ => selectorScoreMatch key ()
  | selectorAdvancements advancements => selectorAdvancements (advancements.map fun _ => ())
  | selectorAdvancementMatch _ _ => selectorAdvancementMatch () ()
  | selectorCriteria criteria => selectorCriteria (criteria.map fun _ => ())
  | selectorCriteriaMatch key value => selectorCriteriaMatch key value
  | message fragments => message (fragments.map fun _ => ())
  | messageText text => messageText text
  | json value => json value
  | nbtCompound entries => nbtCompound (entries.map fun _ => ())
  | nbtCompoundEntry key _ => nbtCompoundEntry key ()
  | nbtList elements => nbtList (elements.map fun _ => ())
  | nbtArray kind elements => nbtArray kind (elements.map fun _ => ())
  | nbtValue scalar => nbtValue scalar
  | blockState _ properties dataTags => blockState () (properties.map fun _ => ()) (dataTags.map fun _ => ())
  | blockProperty key value => blockProperty key value
  | itemStack _ dataTags => itemStack () (dataTags.map fun _ => ())

theorem kind_outline (form : Form ν) : form.outline.kind = form.kind := by cases form <;> rfl

theorem children_outline (form : Form ν) : form.outline.children = form.children.map fun _ => () := by
  cases form <;> simp [outline, children, Option.toList_map]

theorem outline_withChildren (form : Form ν) (cs : List μ) : form.outline.withChildren cs = form.withChildren cs := by
  unfold withChildren
  rw [children_outline, length_map]
  congr 1
  cases form with
  | vector2 | vector3 | selectorScoreMatch | selectorAdvancementMatch | nbtCompoundEntry =>
    rcases cs with _ | ⟨_, _ | ⟨_, _ | ⟨_, _⟩⟩⟩ <;> rfl
  | blockState | itemStack => cases cs <;> simp [outline]
  | _ => simp [outline]

theorem withChildren_children (form : Form ν) : form.withChildren form.children = some form := by
  unfold withChildren
  rw [if_neg (Nat.lt_irrefl _)]
  cases form with
  | selectorArgument inverted key value => cases value <;> rfl
  | itemStack identifier dataTags => cases dataTags <;> rfl
  | blockState identifier properties dataTags => cases dataTags <;> simp [children]
  | _ => simp [children]

/-- Children take their places from the front of a list that has enough of them, and nothing else changes. -/
theorem exists_withChildren_take (h : form.children.length ≤ cs.length) : ∃ form' : Form μ,
    form.withChildren cs = some form' ∧ form'.outline = form.outline ∧ form'.children = cs.take form.children.length := by
  unfold withChildren
  rw [if_neg (Nat.not_lt.2 h)]
  cases form with
  | vector2 | vector3 | selectorScoreMatch | selectorAdvancementMatch | nbtCompoundEntry =>
    rcases cs with _ | ⟨_, _ | ⟨_, _ | ⟨_, _⟩⟩⟩ <;> simp_all [outline, children]
  | selectorArgument _ _ value => cases value <;> cases cs <;> simp_all [outline, children]
  | itemStack _ dataTags => rcases cs with _ | ⟨_, _ | ⟨_, _⟩⟩ <;> cases dataTags <;> simp_all [outline, children]
  | blockState _ properties dataTags =>
    cases cs with
    | nil => simp [children] at h
    | cons _ cs =>
      cases dataTags with
      | none => simp_all [outline, children]
      | some =>
        have hlast : properties.length < cs.length := Nat.lt_of_succ_le (by simpa [children] using h)
        refine ⟨_, rfl, ?_, ?_⟩
        · simp [outline, hlast, Nat.le_of_lt hlast]
        · simp [children, hlast]
  | _ => simp_all [outline, children]

/-- As many children as a form has can take their place, and it keeps all that it holds besides them: with its old
children put back, it is what it was. -/
theorem exists_withChildren (h : cs.length = form.children.length) :
    ∃ form' : Form μ, form.withChildren cs = some form' ∧ form'.children = cs ∧ form'.kind = form.kind ∧
      form'.withChildren form.children = some form := by
  obtain ⟨form', hform', houtline, hchildren⟩ := exists_withChildren_take (Nat.le_of_eq h.symm)
  refine ⟨form', hform', ?_, ?_, ?_⟩
  · rw [hchildren, take_of_length_le (Nat.le_of_eq h)]
  · rw [← kind_outline, houtline, kind_outline]
  · rw [← outline_withChildren, houtline, outline_withChildren, withChildren_children]

end Form

namespace Node

variable {n m : Node} {cs arguments commands : List Node} {f : Node → Node} {identifier : String}

theorem kind_of_command (h : n.form = .command identifier arguments) : n.kind = .command := by
  rw [kind, h]
  rfl

def withChildren (n : Node) (cs : List Node) : Node := ⟨(n.form.withChildren cs).getD n.form, n.span⟩

@[simp] theorem withChildren_children (n : Node) : n.withChildren n.children = n := by
  obtain ⟨form, span⟩ := n
  rw [withChildren, children, Form.withChildren_children]
  rfl

theorem children_withChildren (h : cs.length = n.children.length) : (n.withChildren cs).children = cs := by
  obtain ⟨form, hform, hchildren, -⟩ := exists_withChildren h
  rw [withChildren, children, hform]
  exact hchildren

theorem kind_withChildren (h : cs.length = n.children.length) : (n.withChildren cs).kind = n.kind := by
  obtain ⟨form, hform, -, hkind, -⟩ := exists_withChildren h
  rw [withChildren, kind, hform]
  exact hkind

theorem withChildren_back (h : cs.length = n.children.length) : (n.withChildren cs).withChildren n.children = n := by
  obtain ⟨form, span⟩ := n
  obtain ⟨form', hform', -, -, hback⟩ := exists_withChildren h
  rw [withChildren, withChildren, hform', Option.getD_some]
  change Node.mk ((form'.withChildren form.children).getD form') span = _
  rw [hback]
  rfl

theorem form_withChildren_root (hform : n.form = .root commands)
    (h : cs.length = commands.length) : (n.withChildren cs).form = .root cs := by
  have hroot : (root commands).withChildren cs = some (.root cs) := by
    rw [Form.withChildren, if_neg (by simp [Form.children, h]), take_of_length_le (Nat.le_of_eq h)]
  rw [withChildren, hform, hroot]
  rfl

theorem form_withChildren_command (hform : n.form = .command identifier arguments) (h : cs.length = arguments.length) :
    (n.withChildren cs).form = .command identifier cs := by
  have hcmd : (command identifier arguments).withChildren cs = some (.command identifier cs) := by
    rw [Form.withChildren, if_neg (by simp [Form.children, h]), take_of_length_le (Nat.le_of_eq h)]
  rw [withChildren, hform, hcmd]
  rfl

/-! ### Rewriting -/

/-- Applies a function to every node of a tree, first to those below. -/
def rewrite (f : Node → Node) (n : Node) : Node := f (n.withChildren (n.children.attach.map fun c => c.1.rewrite f))
termination_by n.size
decreasing_by exact size_lt_of_mem_children c.property

theorem rewrite_eq (f : Node → Node) (n : Node) : n.rewrite f = f (n.withChildren (n.children.map (rewrite f))) := by
  rw [rewrite, attach_map_val (f := rewrite f)]

theorem rewrite_of_fixed (h : ∀ m, Within n m → f m = m) : n.rewrite f = n := by
  induction n using induct with
  | hstep n ih =>
    have hchildren : n.children.map (rewrite f) = n.children := by
      refine (map_congr_left fun c hc => ?_).trans (map_id _)
      exact ih c hc fun m hm => h m (.child hc hm)
    rw [rewrite_eq, hchildren, withChildren_children]
    exact h n (.self n)

/-! ### All nodes -/

def postorder (n : Node) : List Node := (n.children.attach.flatMap fun c => c.1.postorder) ++ [n]
termination_by n.size
decreasing_by exact size_lt_of_mem_children c.property

theorem postorder_eq (n : Node) : n.postorder = n.children.flatMap postorder ++ [n] := by
  rw [postorder, flatMap_def, attach_map_val (f := postorder), flatMap_def]

theorem walkFrom_perm (waiting : List Node) : (walkFrom waiting).Perm (waiting.flatMap postorder) := by
  fun_induction walkFrom waiting with
  | case1 => exact .nil
  | case2 n rest ih =>
    rw [flatMap_append] at ih
    rw [flatMap_cons, postorder_eq]
    refine (ih.cons n).trans ((perm_append_comm.cons n).trans ?_)
    rw [append_assoc]
    exact perm_middle.symm

theorem walk_perm (n : Node) : n.walk.Perm n.postorder := by
  have h := walkFrom_perm [n]
  rwa [flatMap_singleton] at h

theorem mem_postorder : m ∈ n.postorder ↔ Within n m := by
  rw [← n.walk_perm.mem_iff, mem_walk]

end Node

end Mcfunction
