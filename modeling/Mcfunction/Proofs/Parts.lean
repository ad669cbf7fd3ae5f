import Mcfunction.Parse.Leaf

/-! Readers made of named parts. Where a reader chooses between two ways to read a part, or calls itself
inside a list, the part gets a name here, and the reader is shown to be a plain sequence of its parts. Readers
follow the laws of monads, which is what allows to take them apart. -/

namespace Mcfunction

namespace Reader

variable {σ ε α β γ : Type} [Forward σ]

theorem bind_assoc (r : Reader σ ε α) (f : α → Reader σ ε β) (g : β → Reader σ ε γ) :
    (r >>= f >>= g) = r >>= fun a => f a >>= g := by
  funext s
  simp only [bind, Reader.bind]
  cases r s with
  | error e => rfl
  | ok x =>
    dsimp only
    cases f x.value x.next with
    | error e => rfl
    | ok y =>
      dsimp only [Step.since]
      cases g y.value y.next <;> rfl

theorem ite_bind {p : Prop} [Decidable p] (r t : Reader σ ε α) (f : α → Reader σ ε β) :
    (if p then r else t) >>= f = if p then r >>= f else t >>= f := by
  split <;> rfl

end Reader

namespace Parse

variable {α β : Type}

theorem bind_apply (r : Parse α) (f : α → Parse β) (c : Cursor) :
    (r >>= f) c =
      match r c with
      | .error e => .error e
      | .ok x =>
        match f x.value x.next with
        | .error e => .error e
        | .ok y => .ok (y.since x.ahead) := by
  simp only [bind, Reader.bind]
  cases r c with
  | error e => rfl
  | ok x =>
    dsimp only
    cases f x.value x.next <;> rfl

theorem node_apply (r : Parse (Form Node)) (c : Cursor) :
    node r c =
      match r c with
      | .error e => .error e
      | .ok x => .ok ⟨⟨x.value, x.next.spanFrom c.location⟩, x.next, x.ahead⟩ := by
  simp only [node, spanned, bind_apply, here, Reader.look]
  cases r c <;> rfl

theorem listWithin_congr {limit : Nat} {close : Char}
    {f g : (c : Cursor) → c.remaining ≤ limit → Except SyntaxError (Step c α)} {c : Cursor}
    {h : c.remaining ≤ limit} (hfg : ∀ d hd, f d hd = g d hd) : listWithin close f c h = listWithin close g c h := by
  rw [show f = g from funext fun d => funext fun hd => hfg d hd]

end Parse

namespace Snbt

open Parse Cursor

def anyTag : Parse Node := fun c => tag c

def entry : Parse Node := node do
  let key ← label
  let value ← anyTag
  return .nbtCompoundEntry key value

def element (array : Option ArrayKind) : Parse Node := do
  let n ← anyTag
  if array.isSome ∧ !isIntegral n then failAt n.span .notIntegerArray else return n

def listForm (array : Option ArrayKind) (elements : List Node) : Form Node :=
  match array with
  | some kind => .nbtArray kind elements
  | none => .nbtList elements

def opening (array : Option ArrayKind) : Nat := if array.isSome then 3 else 1

def entries : Parse Node := node do
  advance 1
  return .nbtCompound (← list '}' entry)

def elements (array : Option ArrayKind) : Parse Node := node do
  advance (opening array)
  return listForm array (← list ']' (element array))

theorem entry_apply (d : Cursor) :
    entry d =
      match label d with
      | .error e => .error e
      | .ok x =>
        match tag x.next with
        | .error e => .error e
        | .ok y => .ok ⟨⟨.nbtCompoundEntry x.value y.value, y.next.spanFrom d.location⟩, y.next,
            x.ahead.trans y.ahead⟩ := by
  simp only [entry, node_apply, bind_apply, anyTag]
  cases label d with
  | error e => rfl
  | ok x =>
    dsimp only
    cases tag x.next <;> rfl

theorem element_apply (array : Option ArrayKind) (d : Cursor) :
    element array d =
      match tag d with
      | .error e => .error e
      | .ok y =>
        if array.isSome ∧ !isIntegral y.value then .error ⟨.notIntegerArray, y.value.span⟩ else .ok y := by
  simp only [element, bind_apply, anyTag]
  cases tag d with
  | error e => rfl
  | ok y =>
    dsimp only
    by_cases h : array.isSome = true ∧ (!isIntegral y.value) = true
    · rw [if_pos h, if_pos h]
      rfl
    · rw [if_neg h, if_neg h]
      rfl

theorem entries_apply (c : Cursor) :
    entries c =
      match list '}' entry (c.drop 1) with
      | .error e => .error e
      | .ok x => .ok ⟨⟨.nbtCompound x.value, x.next.spanFrom c.location⟩, x.next,
          (c.reaches_drop 1).trans x.ahead⟩ := by
  simp only [entries, node_apply, bind_apply, advance, stepOver]
  cases list '}' entry (c.drop 1) <;> rfl

theorem elements_apply (array : Option ArrayKind) (c : Cursor) :
    elements array c =
      match list ']' (element array) (c.drop (opening array)) with
      | .error e => .error e
      | .ok x => .ok ⟨⟨listForm array x.value, x.next.spanFrom c.location⟩, x.next,
          (c.reaches_drop (opening array)).trans x.ahead⟩ := by
  simp only [elements, node_apply, bind_apply, advance, stepOver]
  cases list ']' (element array) (c.drop (opening array)) <;> rfl

theorem tag_eq (c : Cursor) :
    tag c =
      if c.peek = some '{' then entries c
      else if c.peek = some '[' then elements (arrayKind? c.rest) c
      else scalar c := by
  rw [tag]
  split
  · rename_i hrest
    rw [if_pos (by rw [Cursor.peek, hrest]; rfl), entries_apply]
    dsimp only
    split
    · rename_i e he
      rw [show list '}' entry (c.drop 1) = .error e from (listWithin_congr fun d _ => entry_apply d).trans he]
    · rename_i x hx
      rw [show list '}' entry (c.drop 1) = .ok x from (listWithin_congr fun d _ => entry_apply d).trans hx]
  · rename_i rest hrest
    have hpeek : c.peek = some '[' := by rw [Cursor.peek, hrest]; rfl
    rw [if_neg (by rw [hpeek]; decide), if_pos hpeek, elements_apply]
    dsimp only
    split
    · rename_i e he
      have hlist : list ']' (element (arrayKind? c.rest)) (c.drop (opening (arrayKind? c.rest))) = .error e := by
        refine (listWithin_congr fun d hd => ?_).trans he
        refine (element_apply _ d).trans ?_
        cases tag d <;> rfl
      rw [hlist]
    · rename_i x hx
      have hlist : list ']' (element (arrayKind? c.rest)) (c.drop (opening (arrayKind? c.rest))) = .ok x := by
        refine (listWithin_congr fun d hd => ?_).trans hx
        refine (element_apply _ d).trans ?_
        cases tag d <;> rfl
      rw [hlist]
      rfl
  · rename_i hbrace hbracket
    have hpeek : ∀ {ch : Char}, c.peek = some ch → ∃ rest, c.rest = ch :: rest :=
      fun h => List.head?_eq_some_iff.1 h
    rw [if_neg, if_neg]
    · exact fun h => (hpeek h).elim hbracket
    · exact fun h => (hpeek h).elim hbrace

def key : Parse String := do
  if ← atQuote then return (← quoted).1 else return (← token Token.word "compound key").1

theorem label_eq : label = do
    let text ← key
    skipSpaces
    expect ":"
    skipSpaces
    return text := by
  rw [label, key, Reader.bind_assoc]
  congr 1
  funext quote
  rw [Reader.ite_bind, Reader.bind_assoc, Reader.bind_assoc]

end Snbt

/-! ### Blocks and selectors -/

namespace Parse

def bracketed (item : Parse Node) : Parse (List Node) := do
  if ← consume "[" then list ']' item else pure []

theorem block_eq (allowTag : Bool) : block allowTag = node do
    let identifier ← resourceLocation allowTag
    let properties ← bracketed blockProperty
    return .blockState identifier properties (← dataTags) := by
  rw [block]
  congr 2
  funext identifier
  rw [bracketed, Reader.bind_assoc]
  congr 1
  funext found
  rw [Reader.ite_bind]

end Parse

namespace Selector

open Parse

theorem selector_eq : selector = node do
    let v ← target
    let arguments ← bracketed argument
    return .selector v arguments := by
  rw [selector]
  congr 2
  funext v
  rw [bracketed, Reader.bind_assoc]
  congr 1
  funext found
  rw [Reader.ite_bind]

def scoreMatch : Parse Node := node do
  let (key, _) ← token Token.word "objective"
  equalsSign
  return .selectorScoreMatch key (← range true)

def criterionMatch : Parse Node := node do
  let (key, _) ← token Token.word "criterion"
  equalsSign
  return .selectorCriteriaMatch key (← boolean)

def advancementValue : Parse Node := do
  if (← peek) = some '{' then criteria else node do return .bool (← boolean)

def advancementMatch : Parse Node := node do
  let key ← resourceLocation false
  equalsSign
  let value ← if (← peek) = some '{' then criteria else node do return .bool (← boolean)
  return .selectorAdvancementMatch key value

theorem advancementMatch_eq : advancementMatch = node do
    let key ← resourceLocation false
    equalsSign
    let value ← advancementValue
    return .selectorAdvancementMatch key value := by
  rw [advancementMatch]
  congr 2
  funext key
  congr 1
  funext _
  rw [advancementValue, Reader.bind_assoc]
  congr 1
  funext next
  rw [Reader.ite_bind]

end Selector

end Mcfunction
