import Mcfunction.Diagnostic.Basic
import Mcfunction.Dispatch.Basic
import Mcfunction.Grammar.Spec
import Mcfunction.Json.Printer
import Mcfunction.Snbt.Scalar

/-! Printing trees as function files. Printing is a visit of the tree with one clause for each kind of
node. A command is printed along its prototype; one that stands in the place of a whole command leaves
out the entries that the command around it has printed already. -/

namespace Mcfunction

inductive PrintProblem where
  | unknownCommand (identifier : String)
  | argumentCount (identifier : String) (wanted found : Nat)
  | missingArgument (name : String)
  | expected (what : String)
  | unprintable (kind : Kind)
  deriving DecidableEq

def PrintProblem.message : PrintProblem → String
  | .unknownCommand identifier => "Unknown command prototype \"" ++ identifier ++ "\"."
  | .argumentCount identifier wanted found =>
    "Command \"" ++ identifier ++ "\" expects " ++ toString wanted ++ " argument(s), found " ++
      toString found ++ "."
  | .missingArgument name => "Missing argument <" ++ name ++ ">."
  | .expected what => "Expected " ++ what ++ "."
  | .unprintable kind => "Cannot print " ++ kind.display ++ "."

/-- Why a tree cannot be printed: a problem at a span, or a node that no clause visits. -/
inductive PrintFault where
  | problem (p : PrintProblem) (span : Span)
  | visit (fault : VisitFault)
  deriving DecidableEq

def PrintProblem.rule : String := "serialize"

def PrintProblem.diagnostic (p : PrintProblem) (span : Span) : Diagnostic :=
  { level := .error, message := p.message, rule := some PrintProblem.rule : Diagnostic }.withSpan span

def PrintFault.diagnostic : PrintFault → Diagnostic
  | .problem p span => p.diagnostic span
  | .visit fault => { level := .error, message := fault.message, rule := some PrintProblem.rule }

inductive Clause where
  | root
  | comment
  | command
  | text
  | string
  | coordinate
  | vector
  | range
  | message
  | json
  | blockState
  | blockProperty
  | itemStack
  | selector
  | selectorArgument
  | selectorBraces
  | selectorMatch
  | nbtCompound
  | nbtCompoundEntry
  | nbtList
  | nbtValue
  deriving DecidableEq

namespace Clause

def all : Dispatcher Clause :=
  Dispatcher.empty
    |>.register "root" [.root] [] .root
    |>.register "comment" [.comment] [] .comment
    |>.register "command" [.command] [] .command
    |>.register "text" [.bool, .number, .word, .greedy, .messageText, .resourceLocation, .time] [] .text
    |>.register "string" [.string] [] .string
    |>.register "coordinate" [.coordinate] [] .coordinate
    |>.register "vector" [.vector] [] .vector
    |>.register "range" [.range] [] .range
    |>.register "message" [.message] [] .message
    |>.register "json" [.json] [] .json
    |>.register "block_state" [.blockState] [] .blockState
    |>.register "block_property" [.blockProperty] [] .blockProperty
    |>.register "item_stack" [.itemStack] [] .itemStack
    |>.register "selector" [.selector] [] .selector
    |>.register "selector_argument" [.selectorArgument] [] .selectorArgument
    |>.register "selector_braces" [.selectorScores, .selectorAdvancements, .selectorCriteria] []
      .selectorBraces
    |>.register "selector_match" [.selectorScoreMatch, .selectorAdvancementMatch, .selectorCriteriaMatch] []
      .selectorMatch
    |>.register "nbt_compound" [.nbtCompound] [] .nbtCompound
    |>.register "nbt_compound_entry" [.nbtCompoundEntry] [] .nbtCompoundEntry
    |>.register "nbt_list" [.nbtList, .nbtArray] [] .nbtList
    |>.register "nbt_value" [.nbtValue] [] .nbtValue

end Clause

structure Printer where
  spec : Spec
  /-- The number of spaces before a line of a nested block, for each level. -/
  indent : Nat := 4

namespace Printer

def textOf? {ν : Type} : Form ν → Option String
  | .bool value => some (toString value)
  | .number value => some value.write
  | .word text => some text
  | .greedy text => some text
  | .messageText text => some text
  | .resourceLocation location => some location.write
  | .time value unit => some (value.write ++ (unit.map String.singleton).getD "")
  | _ => none

def coordinateText (kind : CoordinateKind) (value : Number) : String :=
  kind.mark ++ (if kind = .absolute ∨ !value.isZero then value.write else "")

def rangeText (min max : Option Number) : String :=
  let ends := (min.map Number.write).getD "" ++ ".." ++ (max.map Number.write).getD ""
  match min, max with
  | some a, some b => if a.same b then a.write else ends
  | _, _ => ends

/-- The text of the key of a compound, quoted unless it is a word. -/
def keyText (key : String) : String :=
  if key ≠ "" ∧ key.toList.all Token.isWordChar then key else Text.quoted key

def bracketed (opening closing : String) (texts : List String) : String :=
  opening ++ ",".intercalate texts ++ closing

/-- The text of a command: its signature with the texts of the arguments, each of which comes with
whether it is a block. A block follows without a space. -/
def layout (isFirst : Bool) : List Entry → List (String × Bool) → Except PrintProblem String
  | [], _ => .ok ""
  | .literal name :: entries, arguments =>
    match layout false entries arguments with
    | .ok rest => .ok ((if isFirst then "" else " ") ++ name ++ rest)
    | .error p => .error p
  | .argument _ :: entries, (text, isBlock) :: arguments =>
    match layout false entries arguments with
    | .ok rest => .ok ((if isFirst || isBlock then "" else " ") ++ text ++ rest)
    | .error p => .error p
  | .argument slot :: _, [] => .error (.missingArgument slot.name)

/-- The text of a block at a level. The outermost block has its commands on lines of their own; any other
follows a colon, and its lines are indented. -/
def blockText (p : Printer) (level : Nat) (texts : List String) : String :=
  if level = 0 then String.join (texts.map (· ++ "\n"))
  else ":" ++ String.join (texts.map fun text =>
    "\n" ++ String.ofList (List.replicate (p.indent * level) ' ') ++ text)

theorem sizes_lt_of_form {n : Node} {form : Form Node} {ns : List Node} (h : n.form = form)
    (hns : Node.sizes ns ≤ Node.sizes form.children) : 2 * Node.sizes ns + 1 < 2 * n.size := by
  rw [n.size_eq, Node.children, h]
  omega

mutual

/-- The text of a node at a level of blocks. A command leaves out the first `shared` entries; what is
returned besides the text is the number of entries that the next command leaves out. -/
def print (p : Printer) (level : Nat) (shared : Option Nat) (n : Node) :
    Except PrintFault (String × Option Nat) :=
  match Clause.all.only n with
  | .error fault => .error (.visit fault)
  | .ok rule =>
    match rule.handler, _h : n.form with
    | .root, .root commands => do
      let (texts, shared) ← p.printAll (level + 1) shared commands
      return (p.blockText level texts, shared)
    | .root, _ => .error (.problem (.expected "root") n.span)
    | .comment, .comment text => .ok ("#" ++ text, shared)
    | .comment, _ => .ok ("", shared)
    | .command, .command identifier arguments =>
      match p.spec.prototype? identifier with
      | none => .error (.problem (.unknownCommand identifier) n.span)
      | some whole =>
        let prototype := match shared with
          | some k => whole.relativeTo k
          | none => whole
        if prototype.argumentCount ≠ arguments.length then
          .error (.problem (.argumentCount identifier prototype.argumentCount arguments.length) n.span)
        else do
          let (texts, shared) ← p.printArguments level none prototype.slots arguments
          match layout true prototype.signature (texts.zip (arguments.map (·.kind = .root))) with
          | .ok text => return (text, shared)
          | .error problem => .error (.problem problem n.span)
    | .command, _ => .error (.problem (.expected "command") n.span)
    | .text, form =>
      match textOf? form with
      | some text => .ok (text, shared)
      | none => .error (.problem (.unprintable n.kind) n.span)
    | .string, .string text => .ok (Text.quoted text, shared)
    | .string, _ => .ok ("", shared)
    | .coordinate, .coordinate kind value => .ok (coordinateText kind value, shared)
    | .coordinate, _ => .ok ("", shared)
    | .vector, form => do
      let (texts, shared) ← p.printAll level shared form.children
      return (" ".intercalate texts, shared)
    | .range, .range min max => .ok (rangeText min max, shared)
    | .range, _ => .ok ("", shared)
    | .message, .message fragments => do
      let (texts, shared) ← p.printAll level shared fragments
      return (String.join texts, shared)
    | .message, _ => .error (.problem (.expected "message") n.span)
    | .json, .json value => .ok (value.write, shared)
    | .json, _ => .ok ("", shared)
    | .blockState, .blockState identifier properties tags => do
      let (name, shared) ← p.printAll level shared [identifier]
      let (texts, shared) ← p.printAll level shared properties
      let (data, shared) ← p.printAll level shared tags.toList
      return (String.join name ++ (if properties.isEmpty then "" else bracketed "[" "]" texts) ++
        String.join data, shared)
    | .blockState, _ => .error (.problem (.expected "block state") n.span)
    | .blockProperty, .blockProperty key value => .ok (key ++ "=" ++ value, shared)
    | .blockProperty, _ => .ok ("", shared)
    | .itemStack, .itemStack identifier tags => do
      let (name, shared) ← p.printAll level shared [identifier]
      let (data, shared) ← p.printAll level shared tags.toList
      return (String.join name ++ String.join data, shared)
    | .itemStack, _ => .error (.problem (.expected "item stack") n.span)
    | .selector, .selector target arguments => do
      let (texts, shared) ← p.printAll level shared arguments
      return ("@" ++ target ++ (if arguments.isEmpty then "" else bracketed "[" "]" texts), shared)
    | .selector, _ => .error (.problem (.expected "selector") n.span)
    | .selectorArgument, .selectorArgument inverted key value => do
      let (texts, shared) ← p.printAll level shared value.toList
      return (key ++ (if inverted then "=!" else "=") ++ String.join texts, shared)
    | .selectorArgument, _ => .error (.problem (.expected "selector argument") n.span)
    | .selectorBraces, form => do
      let (texts, shared) ← p.printAll level shared form.children
      return (bracketed "\x7b" "\x7d" texts, shared)
    | .selectorMatch, .selectorScoreMatch key value => do
      let (texts, shared) ← p.printAll level shared [value]
      return (key ++ "=" ++ String.join texts, shared)
    | .selectorMatch, .selectorAdvancementMatch key value => do
      let (texts, shared) ← p.printAll level shared [key, value]
      return ("=".intercalate texts, shared)
    | .selectorMatch, .selectorCriteriaMatch key value => .ok (key ++ "=" ++ toString value, shared)
    | .selectorMatch, _ => .error (.problem (.unprintable n.kind) n.span)
    | .nbtCompound, .nbtCompound entries => do
      let (texts, shared) ← p.printAll level shared entries
      return (bracketed "\x7b" "\x7d" texts, shared)
    | .nbtCompound, _ => .error (.problem (.expected "compound") n.span)
    | .nbtCompoundEntry, .nbtCompoundEntry key value => do
      let (texts, shared) ← p.printAll level shared [value]
      return (keyText key ++ ":" ++ String.join texts, shared)
    | .nbtCompoundEntry, _ => .error (.problem (.expected "compound entry") n.span)
    | .nbtList, .nbtList elements => do
      let (texts, shared) ← p.printAll level shared elements
      return (bracketed "[" "]" texts, shared)
    | .nbtList, .nbtArray kind elements => do
      let (texts, shared) ← p.printAll level shared elements
      return (bracketed ("[" ++ String.singleton kind.letter ++ ";") "]" texts, shared)
    | .nbtList, _ => .error (.problem (.expected "list") n.span)
    | .nbtValue, .nbtValue scalar => .ok (scalar.write, shared)
    | .nbtValue, _ => .ok ("", shared)
termination_by 2 * n.size
decreasing_by all_goals exact sizes_lt_of_form _h (by simp [Form.children] <;> omega)

def printAll (p : Printer) (level : Nat) (shared : Option Nat) (ns : List Node) :
    Except PrintFault (List String × Option Nat) :=
  match ns with
  | [] => .ok ([], shared)
  | n :: ns => do
    let (text, shared) ← p.print level shared n
    let (texts, shared) ← p.printAll level shared ns
    return (text :: texts, shared)
termination_by 2 * Node.sizes ns + 1
decreasing_by
  all_goals
    simp only [Node.sizes_cons]
    have := n.size_pos
    omega

/-- The texts of the arguments of a command. In the place of a whole command, the entries on the path of
the redirect are left out. -/
def printArguments (p : Printer) (level : Nat) (shared : Option Nat) (slots : List Slot) (ns : List Node) :
    Except PrintFault (List String × Option Nat) :=
  match slots, ns with
  | slot :: slots, n :: ns => do
    let (text, after) ← p.print level (if slot.isSubcommand then some (p.spec.sharedEntries slot) else shared) n
    let (texts, shared) ← p.printArguments level (if slot.isSubcommand then shared else after) slots ns
    return (text :: texts, shared)
  | _, _ => .ok ([], shared)
termination_by 2 * Node.sizes ns + 1
decreasing_by
  all_goals
    simp only [Node.sizes_cons]
    have := n.size_pos
    omega

end

def render (p : Printer) (n : Node) : Except PrintFault String :=
  match p.print 0 none n with
  | .ok (text, _) => .ok text
  | .error fault => .error fault

end Printer

end Mcfunction
