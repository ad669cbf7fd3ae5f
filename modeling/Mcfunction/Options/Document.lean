import Mcfunction.Json.Decoder
import Mcfunction.Options.Basic

/-! Options as JSON documents. -/

namespace Mcfunction.Options

namespace Decoder

open Json.Scanner

def path : Json.Scanner String :=
  expecting "path string" (· = '"') fun _ => do
    eat 1
    string

def naturalName : String := "usize"

def field (levels : Nat) (d : Draft) (key : String) : Json.Scanner Draft := do
  match key with
  | "multiline" => return { d with multiline := ← once key d.multiline bool }
  | "keep_comments" => return { d with keepComments := ← once key d.keepComments bool }
  | "legacy_root_redirect" => return { d with legacyRootRedirect := ← once key d.legacyRootRedirect bool }
  | "grammars" => return { d with grammars := ← once key d.grammars (list levels path) }
  | "rules" => return { d with rules := ← once key d.rules (optional (list levels text)) }
  | "indent" => return { d with indent := ← once key d.indent (natural naturalName) }
  | _ => failAfter '}' (.unknownField key fields)

def values (levels : Nat) : Json.Scanner Options := do
  let multiline ← element true bool
  let keepComments ← element false bool
  let legacyRootRedirect ← element false bool
  let grammars ← element false (list levels path)
  let rules ← element false (optional (list levels text))
  let indent ← element false (natural naturalName)
  return ofDraft { multiline, keepComments, legacyRootRedirect, grammars, rules, indent }

def options : Json.Scanner Options :=
  record maxLevels "CompilerOptions" (values (maxLevels - 1)) {} (field (maxLevels - 1))
    fun d => pure (ofDraft d)

end Decoder

def ofDocument (text : String) : Except Json.Fault Options :=
  match (do
    let o ← Decoder.options
    Json.Scanner.finish
    return o : Json.Scanner Options) (.start text.toList) with
  | .ok x => .ok x.value
  | .error fault => .error fault

end Mcfunction.Options
