import Mcfunction.Parse.Scalar

/-! Reading coordinates: numbers that may be relative to a position or to a view, and vectors of them. -/

namespace Mcfunction.Parse

/-- The mark of a coordinate and the text of its number, which may be missing but not with the mark. -/
def coordinateToken : Parse (CoordinateKind × Option String) := fun c =>
  let (kind, n) := Token.coordinate c.rest
  let mark := kind.mark.toList.length
  if c.rest = [] ∨ mark + n = 0 then .error ⟨.expected "coordinate", c.spanHere⟩
  else
    let text := if n = 0 then none else some (String.ofList ((c.rest.drop mark).take n))
    .ok ⟨(kind, text), c.drop (mark + n), c.reaches_drop _⟩

def coordinate (integral : Bool) : Parse Node := do
  let ((kind, text), span) ← spanned coordinateToken
  match text with
  | none => return ⟨.coordinate kind (.int 0), span⟩
  | some text =>
    if integral ∧ '.' ∈ text.toList then failAt span (.expected "integer coordinate")
    else return ⟨.coordinate kind (← numberAt text span integral), span⟩

def isLocal (n : Node) : Bool :=
  match n.form with
  | .coordinate .local _ => true
  | _ => false

def nextCoordinate (integral : Bool) : Parse Node := do
  if ← consume " " then coordinate integral else fail (.expected "whitespace")

/-- Refuses coordinates relative to a view where they are not allowed, or beside others. -/
def checkLocal (allowLocal : Bool) (span : Span) (cs : List Node) : Parse Unit :=
  if cs.any isLocal ∧ !allowLocal then failAt span .localNotAllowed
  else if cs.any isLocal ∧ !cs.all isLocal then failAt span .mixedCoordinates
  else pure ()

def vector3 (integral : Bool) : Parse Node := do
  let ((x, y, z), span) ← spanned do
    let x ← coordinate integral
    let y ← nextCoordinate integral
    let z ← nextCoordinate integral
    return (x, y, z)
  checkLocal true span [x, y, z]
  return ⟨.vector3 x y z, span⟩

def vector2 (integral : Bool) : Parse Node := do
  let ((x, y), span) ← spanned do
    let x ← coordinate integral
    let y ← nextCoordinate integral
    return (x, y)
  checkLocal false span [x, y]
  return ⟨.vector2 x y, span⟩

/-- Reads an angle: a coordinate that is not relative to a view. -/
def angle : Parse Node := do
  let n ← coordinate false
  if isLocal n then failAt n.span .localNotAllowed else return n

theorem coordinateToken_strict : coordinateToken.Strict := by
  intro c x h
  unfold coordinateToken at h
  dsimp only at h
  split at h
  · cases h
  · rename_i hc
    cases h
    simp only [not_or] at hc
    exact advance_strict (Nat.pos_of_ne_zero hc.2) hc.1 rfl

theorem coordinate_strict (integral : Bool) : (coordinate integral).Strict :=
  .bind_left (spanned_strict coordinateToken_strict) _

theorem vector3_strict (integral : Bool) : (vector3 integral).Strict :=
  .bind_left (spanned_strict (.bind_left (coordinate_strict _) _)) _

theorem vector2_strict (integral : Bool) : (vector2 integral).Strict :=
  .bind_left (spanned_strict (.bind_left (coordinate_strict _) _)) _

theorem angle_strict : angle.Strict := .bind_left (coordinate_strict _) _

end Mcfunction.Parse
