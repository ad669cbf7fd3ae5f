import Mcfunction.Options.Basic
import Mcfunction.Yaml.Document

/-! Options as YAML documents. Only plain scalars are booleans and numbers; every scalar is a text. An empty
scalar counts as an empty list, and as options of which none is given. -/

namespace Mcfunction.Options

namespace Reading

/-- Whether a scalar may be something else than a text: it is plain, or it is a literal block with a tag that
says so. -/
def mayBe (type : String) (s : Yaml.Scalar) : Bool :=
  s.style = .plain || (s.style = .literal && s.tag = some ("tag:yaml.org,2002:" ++ type))

def bool? : Yaml → Option Bool
  | .scalar s =>
    if !mayBe "bool" s then none
    else if ["true", "True", "TRUE"].contains s.text then some true
    else if ["false", "False", "FALSE"].contains s.text then some false
    else none
  | _ => none

def text? : Yaml → Option String
  | .scalar s => some s.text
  | _ => none

def digit? (base : Nat) (c : Char) : Option Nat :=
  let n := if c.isDigit then some (c.toNat - '0'.toNat)
    else if 'a' ≤ c ∧ c ≤ 'f' then some (c.toNat - 'a'.toNat + 10)
    else if 'A' ≤ c ∧ c ≤ 'F' then some (c.toNat - 'A'.toNat + 10)
    else none
  n.filter (· < base)

/-- The value of some digits in a base, if it has 64 bits. -/
def digits? (base : Nat) (cs : List Char) : Option Nat :=
  if cs.isEmpty then none
  else (cs.foldl (fun n c => do return base * (← n) + (← digit? base c)) (some 0)).filter (· < Nat.pow 2 64)

/-- The value of a number without its sign. A decimal has no zeros before it. -/
def unsigned? : List Char → Option Nat
  | '0' :: 'x' :: cs => digits? 16 cs
  | '0' :: 'o' :: cs => digits? 8 cs
  | '0' :: 'b' :: cs => digits? 2 cs
  | ['0'] => some 0
  | '0' :: _ => none
  | cs => digits? 10 cs

def natural? : Yaml → Option Nat
  | .scalar s =>
    if !mayBe "int" s then none
    else
      match s.text.toList with
      | '+' :: cs => unsigned? cs
      | cs => unsigned? cs
  | _ => none

def list? {α : Type} (item : Yaml → Option α) : Yaml → Option (List α)
  | .list items => items.mapM item
  | .scalar s => if s.text = "" then some [] else none
  | .map _ => none

def isNull (text : String) : Bool := ["null", "Null", "NULL", "~"].contains text

def optional? {α : Type} (read : Yaml → Option α) (y : Yaml) : Option (Option α) :=
  match y with
  | .scalar { text, style := .plain, tag := none } => if text = "" ∨ isNull text then some none else (read y).map some
  | .scalar { text, style := .plain, tag := some "tag:yaml.org,2002:null" } => if isNull text then some none else none
  | y => (read y).map some

def once? {α : Type} (before : Option α) (read : Option α) : Option (Option α) :=
  if before.isSome then none else read.map some

def field? (d : Draft) (key : String) (y : Yaml) : Option Draft := do
  match key with
  | "multiline" => return { d with multiline := ← once? d.multiline (bool? y) }
  | "keep_comments" => return { d with keepComments := ← once? d.keepComments (bool? y) }
  | "legacy_root_redirect" => return { d with legacyRootRedirect := ← once? d.legacyRootRedirect (bool? y) }
  | "grammars" => return { d with grammars := ← once? d.grammars (list? text? y) }
  | "rules" => return { d with rules := ← once? d.rules (optional? (list? text?) y) }
  | "indent" => return { d with indent := ← once? d.indent (natural? y) }
  | _ => none

def fields? (entries : List (String × Yaml)) : Option Options :=
  (entries.foldlM (fun d (key, y) => field? d key y) ({} : Draft)).map ofDraft

end Reading

open Reading in
/-- The options of a document: by name, or as a list in order. -/
def ofYaml? : Yaml → Option Options
  | .map entries => do fields? (← entries.mapM fun (key, y) => (text? key).map fun key => (key, y))
  | .list items => if fields.length < items.length then none else fields? (fields.zip items)
  | .scalar s => if s.text = "" then some {} else none

def ofYamlText? (text : String) : Option Options :=
  (Yaml.ofText? text).bind fun
    | some y => ofYaml? y
    | none => some {}

end Mcfunction.Options
