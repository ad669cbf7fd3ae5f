import Mcfunction.Json.Basic
import Mcfunction.Location
import Mcfunction.Node.Kind
import Mcfunction.Value

/-! Syntax trees. The form of a node says what it is and holds its children, of some type; a node is a
form over nodes together with the span it was read from. Any node may stand in any place: readers
build sensible trees, rules need not. -/

namespace Mcfunction

inductive Form (ν : Type) where
  | root (commands : List ν)
  | command (identifier : String) (arguments : List ν)
  | comment (text : String)
  | bool (value : Bool)
  | number (value : Number)
  | word (text : String)
  | string (text : String)
  | greedy (text : String)
  | time (value : Number) (unit : Option Char)
  | resourceLocation (location : ResourceLocation)
  | coordinate (kind : CoordinateKind) (value : Number)
  | vector2 (x y : ν)
  | vector3 (x y z : ν)
  | range (min max : Option Number)
  | selector (target : String) (arguments : List ν)
  | selectorArgument (inverted : Bool) (key : String) (value : Option ν)
  | selectorScores (scores : List ν)
  | selectorScoreMatch (key : String) (value : ν)
  | selectorAdvancements (advancements : List ν)
  | selectorAdvancementMatch (key value : ν)
  | selectorCriteria (criteria : List ν)
  | selectorCriteriaMatch (key : String) (value : Bool)
  | message (fragments : List ν)
  | messageText (text : String)
  | json (value : Json)
  | nbtCompound (entries : List ν)
  | nbtCompoundEntry (key : String) (value : ν)
  | nbtList (elements : List ν)
  | nbtArray (kind : Snbt.ArrayKind) (elements : List ν)
  | nbtValue (scalar : Snbt.Scalar)
  | blockState (identifier : ν) (properties : List ν) (dataTags : Option ν)
  | blockProperty (key value : String)
  | itemStack (identifier : ν) (dataTags : Option ν)

structure Node where
  form : Form Node
  span : Span

namespace Form

variable {ν μ : Type}

def kind : Form ν → Kind
  | .root _ => .root
  | .command .. => .command
  | .comment _ => .comment
  | .bool _ => .bool
  | .number _ => .number
  | .word _ => .word
  | .string _ => .string
  | .greedy _ => .greedy
  | .time .. => .time
  | .resourceLocation _ => .resourceLocation
  | .coordinate .. => .coordinate
  | .vector2 .. => .vector2
  | .vector3 .. => .vector3
  | .range .. => .range
  | .selector .. => .selector
  | .selectorArgument .. => .selectorArgument
  | .selectorScores _ => .selectorScores
  | .selectorScoreMatch .. => .selectorScoreMatch
  | .selectorAdvancements _ => .selectorAdvancements
  | .selectorAdvancementMatch .. => .selectorAdvancementMatch
  | .selectorCriteria _ => .selectorCriteria
  | .selectorCriteriaMatch .. => .selectorCriteriaMatch
  | .message _ => .message
  | .messageText _ => .messageText
  | .json _ => .json
  | .nbtCompound _ => .nbtCompound
  | .nbtCompoundEntry .. => .nbtCompoundEntry
  | .nbtList _ => .nbtList
  | .nbtArray .. => .nbtArray
  | .nbtValue _ => .nbtValue
  | .blockState .. => .blockState
  | .blockProperty .. => .blockProperty
  | .itemStack .. => .itemStack

def children : Form ν → List ν
  | .root commands => commands
  | .command _ arguments => arguments
  | .vector2 x y => [x, y]
  | .vector3 x y z => [x, y, z]
  | .selector _ arguments => arguments
  | .selectorArgument _ _ value => value.toList
  | .selectorScores scores => scores
  | .selectorScoreMatch _ value => [value]
  | .selectorAdvancements advancements => advancements
  | .selectorAdvancementMatch key value => [key, value]
  | .selectorCriteria criteria => criteria
  | .message fragments => fragments
  | .nbtCompound entries => entries
  | .nbtCompoundEntry _ value => [value]
  | .nbtList elements => elements
  | .nbtArray _ elements => elements
  | .blockState identifier properties dataTags => identifier :: (properties ++ dataTags.toList)
  | .itemStack identifier dataTags => identifier :: dataTags.toList
  | _ => []

/-- The same form with other children, taken from the front of a list; a list with too few of them
gives nothing. -/
def withChildren (form : Form ν) (cs : List μ) : Option (Form μ) :=
  if cs.length < form.children.length then none
  else match form, cs with
    | .root commands, cs => some (.root (cs.take commands.length))
    | .command identifier arguments, cs => some (.command identifier (cs.take arguments.length))
    | .comment text, _ => some (.comment text)
    | .bool value, _ => some (.bool value)
    | .number value, _ => some (.number value)
    | .word text, _ => some (.word text)
    | .string text, _ => some (.string text)
    | .greedy text, _ => some (.greedy text)
    | .time value unit, _ => some (.time value unit)
    | .resourceLocation location, _ => some (.resourceLocation location)
    | .coordinate kind value, _ => some (.coordinate kind value)
    | .vector2 _ _, x :: y :: _ => some (.vector2 x y)
    | .vector3 _ _ _, x :: y :: z :: _ => some (.vector3 x y z)
    | .range min max, _ => some (.range min max)
    | .selector target arguments, cs => some (.selector target (cs.take arguments.length))
    | .selectorArgument inverted key value, cs =>
      some (.selectorArgument inverted key (if value.isSome then cs.head? else none))
    | .selectorScores scores, cs => some (.selectorScores (cs.take scores.length))
    | .selectorScoreMatch key _, value :: _ => some (.selectorScoreMatch key value)
    | .selectorAdvancements advancements, cs => some (.selectorAdvancements (cs.take advancements.length))
    | .selectorAdvancementMatch _ _, key :: value :: _ => some (.selectorAdvancementMatch key value)
    | .selectorCriteria criteria, cs => some (.selectorCriteria (cs.take criteria.length))
    | .selectorCriteriaMatch key value, _ => some (.selectorCriteriaMatch key value)
    | .message fragments, cs => some (.message (cs.take fragments.length))
    | .messageText text, _ => some (.messageText text)
    | .json value, _ => some (.json value)
    | .nbtCompound entries, cs => some (.nbtCompound (cs.take entries.length))
    | .nbtCompoundEntry key _, value :: _ => some (.nbtCompoundEntry key value)
    | .nbtList elements, cs => some (.nbtList (cs.take elements.length))
    | .nbtArray kind elements, cs => some (.nbtArray kind (cs.take elements.length))
    | .nbtValue scalar, _ => some (.nbtValue scalar)
    | .blockState _ properties dataTags, identifier :: cs =>
      some (.blockState identifier (cs.take properties.length)
        (if dataTags.isSome then (cs.drop properties.length).head? else none))
    | .blockProperty key value, _ => some (.blockProperty key value)
    | .itemStack _ dataTags, identifier :: cs =>
      some (.itemStack identifier (if dataTags.isSome then cs.head? else none))
    | _, _ => none

/-- The text of a named field of a form, for the fields that rules may ask about. -/
def field (form : Form ν) (name : String) : Option String :=
  match form, name with
  | .command identifier _, "identifier" => some identifier
  | .selector target _, "variable" => some target
  | .selectorArgument _ key _, "key" => some key
  | .selectorScoreMatch key _, "key" => some key
  | .selectorCriteriaMatch key _, "key" => some key
  | .nbtCompoundEntry key _, "key" => some key
  | .blockProperty key _, "key" => some key
  | .selectorArgument inverted _ _, "inverted" => some (toString inverted)
  | .coordinate kind _, "kind" => some kind.name
  | .resourceLocation location, "namespace" => location.inNamespace?
  | .resourceLocation location, "path" => some location.path
  | .resourceLocation location, "is_tag" => some (toString location.isTag)
  | .comment text, "value" => some text
  | .word text, "value" => some text
  | .string text, "value" => some text
  | .greedy text, "value" => some text
  | .messageText text, "value" => some text
  | .bool value, "value" => some (toString value)
  | .number value, "value" => some value.write
  | _, _ => none

/-- Whether two forms agree in everything but their children, and in which children they have. -/
def sameData : Form ν → Form μ → Bool
  | .root a, .root b => a.length = b.length
  | .command i a, .command j b => i = j && a.length = b.length
  | .comment a, .comment b => a = b
  | .bool a, .bool b => a = b
  | .number a, .number b => a.same b
  | .word a, .word b => a = b
  | .string a, .string b => a = b
  | .greedy a, .greedy b => a = b
  | .time a u, .time b v => a.same b && u = v
  | .resourceLocation a, .resourceLocation b => a = b
  | .coordinate k a, .coordinate l b => k = l && a.same b
  | .vector2 _ _, .vector2 _ _ => true
  | .vector3 _ _ _, .vector3 _ _ _ => true
  | .range a b, .range c d => Number.same? a c && Number.same? b d
  | .selector s a, .selector t b => s = t && a.length = b.length
  | .selectorArgument i k a, .selectorArgument j l b => i = j && k = l && a.isSome = b.isSome
  | .selectorScores a, .selectorScores b => a.length = b.length
  | .selectorScoreMatch k _, .selectorScoreMatch l _ => k = l
  | .selectorAdvancements a, .selectorAdvancements b => a.length = b.length
  | .selectorAdvancementMatch _ _, .selectorAdvancementMatch _ _ => true
  | .selectorCriteria a, .selectorCriteria b => a.length = b.length
  | .selectorCriteriaMatch k a, .selectorCriteriaMatch l b => k = l && a = b
  | .message a, .message b => a.length = b.length
  | .messageText a, .messageText b => a = b
  | .json a, .json b => a.same b
  | .nbtCompound a, .nbtCompound b => a.length = b.length
  | .nbtCompoundEntry k _, .nbtCompoundEntry l _ => k = l
  | .nbtList a, .nbtList b => a.length = b.length
  | .nbtArray k a, .nbtArray l b => k = l && a.length = b.length
  | .nbtValue a, .nbtValue b => a.same b
  | .blockState _ a s, .blockState _ b t => a.length = b.length && s.isSome = t.isSome
  | .blockProperty k a, .blockProperty l b => k = l && a = b
  | .itemStack _ s, .itemStack _ t => s.isSome = t.isSome
  | _, _ => false

end Form

namespace Node

def synthetic (form : Form Node) : Node := ⟨form, .unknown⟩

instance : Inhabited Node := ⟨synthetic (.root [])⟩

def kind (n : Node) : Kind := n.form.kind

def children (n : Node) : List Node := n.form.children

theorem sizeOf_lt_of_mem_children {n c : Node} (h : c ∈ n.children) : sizeOf c < sizeOf n := by
  obtain ⟨form, span⟩ := n
  have list {cs : List Node} (hc : c ∈ cs) : sizeOf c < sizeOf cs := List.sizeOf_lt_of_mem hc
  cases form <;> simp only [children, Form.children] at h <;>
    first
    | (have hlt := list h; simp; omega)
    | simp at h
  case vector2 => rcases h with rfl | rfl <;> simp <;> omega
  case vector3 => rcases h with rfl | rfl | rfl <;> simp <;> omega
  case selectorArgument value => cases value <;> simp at h; subst h; simp; omega
  case selectorScoreMatch => subst h; simp; omega
  case selectorAdvancementMatch => rcases h with rfl | rfl <;> simp <;> omega
  case nbtCompoundEntry => subst h; simp; omega
  case blockState id properties tags =>
    rcases h with rfl | h | h
    · simp; omega
    · have := list h; simp; omega
    · cases tags <;> simp at h; subst h; simp; omega
  case itemStack id tags =>
    rcases h with rfl | h
    · simp; omega
    · cases tags <;> simp at h; subst h; simp; omega

def size (n : Node) : Nat := 1 + n.children.attach.foldr (fun c n => c.val.size + n) 0
termination_by sizeOf n
decreasing_by exact sizeOf_lt_of_mem_children c.property

def sizes (ns : List Node) : Nat := ns.foldr (fun m n => m.size + n) 0

theorem size_eq (n : Node) : n.size = 1 + sizes n.children := by
  rw [size, sizes, List.foldr_attach (f := fun (m : Node) (k : Nat) => m.size + k)]

@[simp] theorem sizes_nil : sizes [] = 0 := rfl

@[simp] theorem sizes_cons (n : Node) (ns : List Node) : sizes (n :: ns) = n.size + sizes ns := rfl

@[simp] theorem sizes_append (ms ns : List Node) : sizes (ms ++ ns) = sizes ms + sizes ns := by
  induction ms with
  | nil => rw [List.nil_append, sizes_nil, Nat.zero_add]
  | cons m ms ih => rw [List.cons_append, sizes_cons, sizes_cons, ih, Nat.add_assoc]

theorem size_pos (n : Node) : 0 < n.size := by
  rw [size_eq]
  omega

theorem size_le_sizes {n : Node} {ns : List Node} (h : n ∈ ns) : n.size ≤ sizes ns := by
  induction ns with
  | nil => cases h
  | cons m ns ih =>
    rw [sizes_cons]
    rcases List.mem_cons.1 h with rfl | h
    · omega
    · have := ih h
      omega

theorem size_lt_of_mem_children {n c : Node} (h : c ∈ n.children) : c.size < n.size := by
  rw [n.size_eq]
  have := size_le_sizes h
  omega

mutual

def same (a b : Node) : Bool := a.form.sameData b.form && allSame a.children b.children
termination_by 2 * a.size
decreasing_by
  rw [a.size_eq]
  omega

def allSame (as bs : List Node) : Bool :=
  match as, bs with
  | [], [] => true
  | a :: as, b :: bs => same a b && allSame as bs
  | _, _ => false
termination_by 2 * sizes as + 1
decreasing_by
  all_goals
    simp only [sizes_cons]
    have := a.size_pos
    omega

end

/-- The nodes of some trees, level by level: first those that wait, then the children of each. -/
def walkFrom (waiting : List Node) : List Node :=
  match waiting with
  | [] => []
  | n :: rest => n :: walkFrom (rest ++ n.children)
termination_by sizes waiting
decreasing_by
  simp only [sizes_append, sizes_cons]
  have := n.size_eq
  omega

/-- Every node of a tree, level by level and from left to right in a level. -/
def walk (n : Node) : List Node := walkFrom [n]

end Node

end Mcfunction
