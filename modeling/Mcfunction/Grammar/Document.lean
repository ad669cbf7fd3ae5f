import Mcfunction.Grammar.Tree
import Mcfunction.Json.Decoder

/-! Command trees as JSON documents. -/

namespace Mcfunction

namespace CommandTree

structure Draft where
  role : Option Role := none
  reader : Option (Option String) := none
  properties : Option (Option Properties) := none
  executable : Option (Option Bool) := none
  redirect : Option (Option Path) := none
  children : Option (List (String × CommandTree)) := none
  subcommand : Option Bool := none

namespace Decoder

open Json.Scanner

def role (levels : Nat) : Json.Scanner Role :=
  variant levels ([.root, .literal, .argument].map fun r => (r.name, r))

def field (levels : Nat) (child : Json.Scanner CommandTree) (d : Draft) (key : String) :
    Json.Scanner Draft := do
  match key with
  | "type" => return { d with role := ← once key d.role (role levels) }
  | "parser" => return { d with reader := ← once key d.reader (optional text) }
  | "properties" =>
    return { d with properties := ← once key d.properties (optional (map levels (value (levels - 1)))) }
  | "executable" => return { d with executable := ← once key d.executable (optional bool) }
  | "redirect" => return { d with redirect := ← once key d.redirect (optional (list levels text)) }
  | "children" => return { d with children := ← once key d.children (map levels child) }
  | "subcommand" => return { d with subcommand := ← once key d.subcommand bool }
  | _ => do
    ignored
    return d

def complete (d : Draft) : Json.Scanner CommandTree := do
  return {
    role := ← required "type" d.role
    reader? := d.reader.join
    properties? := d.properties.join
    executable? := d.executable.join
    redirect? := d.redirect.join
    children := d.children.getD []
    subcommand := d.subcommand.getD false }

def values (levels : Nat) (child : Json.Scanner CommandTree) : Json.Scanner CommandTree := do
  match ← element true (role levels) with
  | none => failAfter ']' (.invalidLength 0 "struct CommandTree with 7 elements")
  | some role =>
    let reader ← element false (optional text)
    let properties ← element false (optional (map levels (value (levels - 1))))
    let executable ← element false (optional bool)
    let redirect ← element false (optional (list levels text))
    let children ← element false (map levels child)
    let subcommand ← element false bool
    return {
      role
      reader? := reader.join
      properties? := properties.join
      executable? := executable.join
      redirect? := redirect.join
      children := children.getD []
      subcommand := subcommand.getD false }

def tree : Nat → Json.Scanner CommandTree
  | levels + 2 =>
    record (levels + 2) "CommandTree" (values (levels + 1) (tree levels)) {} (field (levels + 1) (tree levels))
      complete
  | levels => record levels "CommandTree" (failNext .tooDeep) {} (fun _ _ => failNext .tooDeep) complete

end Decoder

def ofDocument (text : String) : Except Json.Fault CommandTree :=
  match (do
    let t ← Decoder.tree Json.Scanner.maxLevels
    Json.Scanner.finish
    return t : Json.Scanner CommandTree) (.start text.toList) with
  | .ok x => .ok x.value
  | .error fault => .error fault

mutual

def toJson : CommandTree → Json
  | ⟨role, reader?, properties?, executable?, redirect?, children, subcommand⟩ =>
    .object <|
      [("type", .string role.name)] ++
      (match reader? with
        | some name => [("parser", .string name)]
        | none => []) ++
      (match properties? with
        | some p => [("properties", .object p)]
        | none => []) ++
      (match executable? with
        | some b => [("executable", .bool b)]
        | none => []) ++
      (match redirect? with
        | some p => [("redirect", .array (p.map .string))]
        | none => []) ++
      (match childrenToJson children with
        | [] => []
        | cs => [("children", .object cs)]) ++
      (if subcommand then [("subcommand", .bool true)] else [])

def childrenToJson : List (String × CommandTree) → List (String × Json)
  | [] => []
  | (name, child) :: rest => (name, toJson child) :: childrenToJson rest

end

end CommandTree

end Mcfunction
