import Mcfunction.Json.Progress
import Mcfunction.Parse.Basic

/-! Reading text components: the JSON value at the front of the rest of the line. -/

namespace Mcfunction.Parse

def json : Parse Json := fun c =>
  match Json.Scanner.leading (.start c.lineRest) with
  | .error fault => .error ⟨.badComponent fault, c.spanHere⟩
  | .ok x =>
    match x.value with
    | none => .error ⟨.expected "text component", c.spanHere⟩
    | some v => .ok ⟨v, c.drop (c.lineRest.length - x.next.rest.length), c.reaches_drop _⟩

def component : Parse Node := node do
  return .json (← json)

theorem lineRest_ne_nil {c : Cursor} (h : 0 < c.lineRest.length) : c.rest ≠ [] := by
  intro hnil
  simp [Cursor.lineRest, hnil] at h

theorem json_strict : json.Strict := by
  intro c x h
  unfold json at h
  split at h
  · cases h
  · rename_i y hy
    split at h
    · cases h
    · rename_i v hv
      cases h
      have hlt : y.next.rest.length < c.lineRest.length := Json.Scanner.leading_strict hy (by simp [hv])
      exact advance_strict (by omega) (lineRest_ne_nil (by omega)) rfl

theorem component_strict : component.Strict := node_strict (.bind_left json_strict _)

end Mcfunction.Parse
