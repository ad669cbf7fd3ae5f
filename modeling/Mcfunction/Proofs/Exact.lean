import Mcfunction.Proofs.Printing
import Mcfunction.Proofs.Reading

/-! Trees that can be written down without loss. Their numbers are integers, and no selector runs into the text
behind it. For them a reader is asked to return a tree: to read its text as the same tree. -/

namespace Mcfunction

open List Json Node Bool

mutual

def Json.isFloatFree : Json → Bool
  | .number (.floating _) => false
  | .array items => areFloatFree items
  | .object entries => entriesFloatFree entries
  | _ => true

def Json.areFloatFree : List Json → Bool
  | [] => true
  | v :: rest => v.isFloatFree && areFloatFree rest

def Json.entriesFloatFree : List (String × Json) → Bool
  | [] => true
  | (_, v) :: rest => v.isFloatFree && entriesFloatFree rest

end

def Number.isInteger : Number → Bool
  | .int _ => true
  | .float _ => false

namespace Node

/-- Whether the text of `b`, behind the selector `a` without arguments, would be read as a part of it. -/
def runsInto (a b : Node) : Bool :=
  match a.form, b.form with
  | .selector _ [], .messageText text =>
    text.toList.head?.any fun ch => ch = '[' || ch = '_' || Text.isAlphanumeric ch
  | _, _ => false

def areApart : List Node → Bool
  | a :: b :: rest => !a.runsInto b && areApart (b :: rest)
  | _ => true

def isExact (n : Node) : Bool :=
  match n.form with
  | .number value | .time value _ | .coordinate _ value => value.isInteger
  | .range min max => min.all Number.isInteger && max.all Number.isInteger
  | .nbtValue scalar => !Snbt.Scalar.same.isFloating scalar
  | .json value => value.isFloatFree
  | .message fragments => areApart fragments
  | _ => true

def Exact (n : Node) : Prop := ∀ m ∈ n.walk, m.isExact = true

instance (n : Node) : Decidable n.Exact := inferInstanceAs (Decidable (∀ m ∈ n.walk, m.isExact = true))

theorem Exact.self {n : Node} (h : n.Exact) : n.isExact = true := h n (mem_walk.2 (.self n))

theorem Exact.child {n m : Node} (h : n.Exact) (hm : m ∈ n.children) : m.Exact :=
  fun k hk => h k (mem_walk.2 (.child hm (mem_walk.1 hk)))

/-! ### Equality of trees -/

theorem allSame_iff {as bs : List Node} : allSame as bs = true ↔ Forall₂ (fun a b => a.same b = true) as bs := by
  induction as generalizing bs with
  | nil =>
    cases bs with
    | nil | cons b bs => simp [allSame]
  | cons a as ih =>
    cases bs with
    | nil => simp [allSame]
    | cons b bs => rw [allSame, and_eq_true, ih, forall₂_cons]

theorem same_iff {a b : Node} : a.same b = true ↔ a.form.sameData b.form = true ∧
      Forall₂ (fun x y => x.same y = true) a.children b.children := by
  rw [same, and_eq_true, allSame_iff]

theorem same_of_leaf {a b : Node} (h : a.form.sameData b.form = true) (ha : a.children = [])
    (hb : b.children = []) : a.same b = true := by
  rw [same_iff, ha, hb]
  exact ⟨h, .nil⟩

end Node

variable {F : List Char → Prop} {p : Char → Bool}

namespace Parse

abbrev AllSame (ns ms : List Node) : Prop := Forall₂ (fun n m => n.same m = true) ns ms

/-- The reader reads the text of a tree, which begins with a character of a class, in front of some tails as
the same tree. -/
structure Returns (r : Parse Node) (p : Char → Bool) (F : List Char → Prop) (n : Node) : Prop where
  starts : StartsAt p n.text.toList
  accepts : Accepts r n.text.toList F fun m => n.same m = true

/-- The reader reads the text of a node without children as a node of the same form. -/
structure Restores (r : Parse Node) (p : Char → Bool) (F : List Char → Prop) (n : Node) : Prop where
  starts : StartsAt p n.text.toList
  accepts : Accepts r n.text.toList F fun m => m.form = n.form
  isLeaf : n.children = []
  same : n.form.sameData n.form = true

section

variable {r : Parse Node} {n m : Node} {text : List Char}

theorem Returns.of_text (htext : n.text.toList = text) (hstarts : StartsAt p text)
    (haccepts : Accepts r text F fun m => n.same m = true) : Returns r p F n := by
  subst htext
  exact ⟨hstarts, haccepts⟩

theorem Restores.of_text (htext : n.text.toList = text) (hstarts : StartsAt p text)
    (haccepts : Accepts r text F fun m => m.form = n.form) (hleaf : n.children = [])
    (hsame : n.form.sameData n.form = true) : Restores r p F n := by
  subst htext
  exact ⟨hstarts, haccepts, hleaf, hsame⟩

theorem Restores.same_of_form (h : Restores r p F n) (hm : m.form = n.form) : n.same m = true := by
  refine same_of_leaf (hm ▸ h.same) h.isLeaf ?_
  rw [children, hm]
  exact h.isLeaf

theorem Restores.returns (h : Restores r p F n) : Returns r p F n :=
  ⟨h.starts, h.accepts.mono fun _ => h.same_of_form⟩

theorem Restores.checked {check : Node → Parse Node} (h : Restores r p F n)
    (hcheck : ∀ m : Node, m.form = n.form → check m = pure m) : Restores (r >>= check) p F n := by
  refine ⟨h.starts, fun c tail hc htail => ?_, h.isLeaf, h.same⟩
  refine (h.accepts c tail hc htail).bind fun m d hm hd => ?_
  rw [hcheck m hm]
  exact .pure hd hm

end

/-! ### Lists of nodes -/

theorem toList_bracketed (opening closing : String) (ns : List Node) :
    (Printer.bracketed opening closing (ns.map text)).toList =
      opening.toList ++ ([','].intercalate (ns.map fun n => n.text.toList) ++ closing.toList) := by
  rw [Printer.bracketed, String.toList_append, String.toList_append, String.toList_intercalate, map_map, append_assoc]
  rfl

theorem list_returns {item : Parse Node} {close : Char} {ns : List Node}
    (hclose : Cursor.isSpace close = false) (hcomma : close ≠ ',') (hblank : p ' ' = false) (htab : p '\t' = false)
    (hend : p close = false) (hitems : ∀ n ∈ ns, Returns item p (StartsAt (isSeparator close)) n) :
    Accepts (list close item) ([','].intercalate (ns.map fun n => n.text.toList) ++ [close]) F
      fun ms => Forall₂ (fun n m => n.same m = true) ns ms := by
  refine list_accepts hclose hcomma ns (fun n hn => (hitems n hn).accepts) fun n hn => ?_
  refine (hitems n hn).starts.mono fun ch hch => and_eq_true_iff.2 ⟨Cursor.not_isSpace hch hblank htab, ?_⟩
  refine bne_iff_ne.2 ?_
  rintro rfl
  rw [hch] at hend
  cases hend

end Parse

namespace Number

theorem exists_int {v : Number} (h : v.isInteger = true) : ∃ i, v = .int i := by
  cases v with
  | int i => exact ⟨i, rfl⟩
  | float x => cases h

theorem exists_ints {o : Option Number} (h : o.all isInteger = true) : ∃ p : Option Int, o = p.map .int := by
  cases o with
  | none => exact ⟨none, rfl⟩
  | some v =>
    obtain ⟨i, rfl⟩ := exists_int h
    exact ⟨some i, rfl⟩

@[simp] theorem same_int (i : Int) : (Number.int i).same (.int i) = true := decide_eq_true rfl

@[simp] theorem same?_ints (o : Option Int) : same? (o.map .int) (o.map .int) = true := by
  cases o with
  | none => rfl
  | some i => exact same_int i

end Number

end Mcfunction
