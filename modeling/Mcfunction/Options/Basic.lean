/-! The options of a compiler. -/

namespace Mcfunction

inductive StandardRule where
  | executeRun
  | nestedFunction
  | redundantExecuteRun
  | duplicateSelectorArgument
  deriving DecidableEq

namespace StandardRule

def name : StandardRule → String
  | .executeRun => "execute_run"
  | .nestedFunction => "nested_function"
  | .redundantExecuteRun => "redundant_execute_run"
  | .duplicateSelectorArgument => "duplicate_selector_argument"

/-- All standard rules, in the order in which they are applied. -/
def all : List StandardRule := [.executeRun, .nestedFunction, .redundantExecuteRun, .duplicateSelectorArgument]

/-- Whether a rule is applied if the options name no rules. -/
def byDefault : StandardRule → Bool
  | .executeRun => false
  | _ => true

end StandardRule

structure Options where
  multiline : Bool := false
  keepComments : Bool := false
  /-- Whether nodes that lead nowhere are taken to lead back to the root. -/
  legacyRootRedirect : Bool := true
  grammars : List String := []
  rules : Option (List String) := none
  indent : Nat := 4
  deriving DecidableEq

namespace Options

def enables (o : Options) (r : StandardRule) : Bool :=
  match o.rules with
  | some names => names.contains r.name
  | none => r.byDefault

def unknownRule? (o : Options) : Option String :=
  (o.rules.getD []).find? fun name => !(StandardRule.all.map StandardRule.name).contains name

structure Draft where
  multiline : Option Bool := none
  keepComments : Option Bool := none
  legacyRootRedirect : Option Bool := none
  grammars : Option (List String) := none
  rules : Option (Option (List String)) := none
  indent : Option Nat := none

/-- The options of a draft, with what it does not say left as usual. -/
def ofDraft (d : Draft) : Options :=
  let usual : Options := {}
  { multiline := d.multiline.getD usual.multiline
    keepComments := d.keepComments.getD usual.keepComments
    legacyRootRedirect := d.legacyRootRedirect.getD usual.legacyRootRedirect
    grammars := d.grammars.getD usual.grammars
    rules := d.rules.getD usual.rules
    indent := d.indent.getD usual.indent }

def fields : List String :=
  ["multiline", "keep_comments", "legacy_root_redirect", "grammars", "rules", "indent"]

end Options

end Mcfunction
