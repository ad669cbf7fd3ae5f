/-! The arguments of the command line. -/

namespace Mcfunction.Cli

structure Compilation where
  paths : List String
  config? : Option String := none
  grammars : List String := []
  outDir? : Option String := none
  check : Bool := false
  diff : Bool := false
  multiline : Bool := false

inductive Command where
  | compile (c : Compilation)
  | prototypes (grammars : List String) (start? : Option String)
  | ast (file : String) (grammars : List String) (multiline keepComments : Bool)

inductive Argument where
  | plain (text : String)
  | flag (name : String)
  | option (name value : String)
  deriving DecidableEq

def valued : List String := ["--config", "--grammar", "--out-dir", "--filter"]

def isOption (text : String) : Bool := text.toList.head? = some '-' && text ≠ "-"

def isVerbose (text : String) : Bool :=
  text = "--verbose" || (text.toList.head? = some '-' && 1 < text.length && (text.toList.drop 1).all (· = 'v'))

def joined? (text : String) : Option Argument :=
  valued.findSome? fun name =>
    if (name ++ "=").toList.isPrefixOf text.toList then
      some (.option name (String.ofList (text.toList.drop (name.length + 1))))
    else none

/-- The arguments of a command. All after `--` stand for themselves. -/
def arguments : List String → Option (List Argument)
  | [] => some []
  | "--" :: rest => some (rest.map .plain)
  | text :: rest =>
    if isVerbose text then arguments rest
    else if !isOption text then (arguments rest).map (.plain text :: ·)
    else if valued.contains text then
      match rest with
      | value :: rest => if isOption value then none else (arguments rest).map (.option text value :: ·)
      | [] => none
    else
      match joined? text with
      | some a => (arguments rest).map (a :: ·)
      | none => (arguments rest).map (.flag text :: ·)

def values (name : String) (as : List Argument) : List String :=
  as.filterMap fun
    | .option other value => if other = name then some value else none
    | _ => none

def plains (as : List Argument) : List String :=
  as.filterMap fun
    | .plain text => some text
    | _ => none

/-- Whether the options are among some, and those that may be given once are given once. -/
def isProper (flags single many : List String) (as : List Argument) : Bool :=
  as.all (fun
    | .plain text => text ≠ ""
    | .flag name => flags.contains name && as.count (.flag name) = 1
    | .option name value => many.contains name && value ≠ "" || single.contains name) &&
    single.all fun name => (values name as).length ≤ 1

def Command.ofArguments? (texts : List String) : Option Command :=
  match texts.dropWhile isVerbose with
  | [] => none
  | name :: rest => do
    let as ← arguments rest
    let has (flag : String) := as.contains (.flag flag)
    match name with
    | "compile" =>
      if isProper ["--check", "--diff", "--multiline", "--fancy"] ["--config", "--out-dir"] ["--grammar"] as &&
          !(plains as).isEmpty then
        return .compile
          { paths := plains as
            config? := (values "--config" as).head?
            grammars := values "--grammar" as
            outDir? := (values "--out-dir" as).head?
            check := has "--check"
            diff := has "--diff"
            multiline := has "--multiline" }
      else none
    | "prototypes" =>
      if isProper [] ["--filter"] ["--grammar"] as && (plains as).isEmpty then
        return .prototypes (values "--grammar" as) (values "--filter" as).head?
      else none
    | "ast" =>
      match plains as with
      | [file] =>
        if isProper ["--multiline", "--keep-comments"] [] ["--grammar"] as then
          return .ast file (values "--grammar" as) (has "--multiline") (has "--keep-comments")
        else none
      | _ => none
    | _ => none

end Mcfunction.Cli
