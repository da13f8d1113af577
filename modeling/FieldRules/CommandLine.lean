import FieldRules.Commands

/-!
# The command line

Arguments name a command and its options. What they ask for is worked out before anything is run, so
a refused command line has no effect.
-/

namespace FieldRules.CommandLine

/-- What an option does: it stands for itself, it takes a value, or it settles what is asked for, so
that nothing behind it is looked at. -/
inductive Switch.Kind
  | plain
  | valued
  | settling
  deriving DecidableEq, Repr

/-- An option by its names: `--long`, and `-s` if it has a short name. -/
structure Switch where
  long : String
  short : Option Char
  kind : Switch.Kind
  deriving DecidableEq, Repr

/-- What comes after an option. -/
inductive Next
  | argument
  /-- The value of this option. -/
  | value (switch : Switch)
  | nothing
  deriving DecidableEq, Repr

/-- What has been found among arguments: options by their long names, with their values, and the
other arguments in order. -/
structure Found where
  options : Fields String := ∅
  operands : List String := []

namespace Found

/-- Adds an option, which must not come twice. -/
def addOption (found : Found) (switch : Switch) (value : String) : Option Found :=
  if found.options.contains switch.long then none
  else some { found with options := found.options.insert switch.long value }

def addOperand (found : Found) (operand : String) : Found :=
  { found with operands := found.operands ++ [operand] }

def has (found : Found) (long : String) : Bool :=
  found.options.contains long

def value? (found : Found) (long : String) : Option String :=
  found.options.get? long

end Found

/-- The forms of an argument. -/
inductive Argument
  /-- `--name` or `--name=value` -/
  | long (name : String) (value : Option String)
  /-- `-abc` -/
  | short (letters : List Char)
  /-- `--`, after which every argument is an operand -/
  | separator
  | operand (text : String)
  deriving DecidableEq, Repr

def Argument.ofText (text : String) : Argument :=
  match text.toList with
  | ['-', '-'] => .separator
  | '-' :: '-' :: rest =>
    let name := String.ofList (rest.takeWhile (· != '='))
    match rest.dropWhile (· != '=') with
    | [] => .long name none
    | _ :: value => .long name (some (String.ofList value))
  | '-' :: c :: rest => .short (c :: rest)
  | _ => .operand text

/-- Reads short options that stand together. The value of the last one may follow at once, behind an
`=` or not. -/
def readShort (switches : List Switch) (found : Found) : List Char → Option (Found × Next)
  | [] => some (found, .argument)
  | c :: rest => do
    let switch ← switches.find? (·.short == some c)
    match switch.kind, rest with
    | .plain, _ => do
      let found ← found.addOption switch ""
      readShort switches found rest
    | .valued, [] => if found.has switch.long then none else some (found, .value switch)
    | .valued, '=' :: value => (found.addOption switch (String.ofList value)).map (·, .argument)
    | .valued, value => (found.addOption switch (String.ofList value)).map (·, .argument)
    | .settling, _ => (found.addOption switch "").map (·, .nothing)

/-- Reads a long option, whose value may stand behind an `=`. -/
def readLong (switches : List Switch) (found : Found) (name : String) (value : Option String) :
    Option (Found × Next) := do
  let switch ← switches.find? (·.long == name)
  match switch.kind, value with
  | .plain, none => (found.addOption switch "").map (·, .argument)
  | .valued, none => if found.has name then none else some (found, .value switch)
  | .valued, some value => (found.addOption switch value).map (·, .argument)
  | .settling, none => (found.addOption switch "").map (·, .nothing)
  | _, some _ => none

/-- Reads arguments; `next` is what comes first. The first operand ends them if `untilOperand` says
so, and what stands from there on is given back. -/
def readArguments (switches : List Switch) (untilOperand : Bool) (found : Found) (next : Next) :
    List String → Option (Found × List String)
  | [] =>
    match next with
    | .value _ => none
    | _ => some (found, [])
  | text :: rest =>
    match next, Argument.ofText text with
    | .nothing, _ => some (found, [])
    | .value switch, .operand value => do
      let found ← found.addOption switch value
      readArguments switches untilOperand found .argument rest
    | .value _, _ => none
    | .argument, .long name value => do
      let (found, next) ← readLong switches found name value
      readArguments switches untilOperand found next rest
    | .argument, .short letters => do
      let (found, next) ← readShort switches found letters
      readArguments switches untilOperand found next rest
    | .argument, .separator =>
      if untilOperand then none else some (rest.foldl Found.addOperand found, [])
    | .argument, .operand operand =>
      if untilOperand then some (found, text :: rest)
      else readArguments switches untilOperand (found.addOperand operand) .argument rest

/-- The options of every command. They ask for a log, which is no part of an outcome. -/
def commonSwitches : List Switch :=
  [⟨"verbose", some 'v', .plain⟩, ⟨"debug", none, .plain⟩]

def prettySwitch : Switch :=
  ⟨"pretty", some 'p', .plain⟩

/-- The option that asks for the version. It stands before the command. -/
def versionSwitch : Switch :=
  ⟨"version", some 'V', .settling⟩

/-- What a command line asks for. -/
inductive Request
  | check (rule : String) (value : Option String)
  /-- The batch is read from the standard input if none is given. -/
  | batch (input : Option String) (onLines : Bool)
  | tokens (rule : String) (onLines : Bool)
  | tree (rule : String)
  | checkNames
  | overview
  | reference (category : String)
  | version
  deriving DecidableEq, Repr

/-- The options of a command beside the common ones; nothing if there is no such command. -/
def switchesOf? (command : String) : Option (List Switch) :=
  if command = "check" then some [⟨"value", none, .valued⟩, ⟨"absent", none, .plain⟩]
  else if command = "batch" then some [⟨"input", some 'i', .valued⟩, prettySwitch]
  else if command = "tokens" then some [prettySwitch]
  else if command ∈ ["tree", "checks", "docs", "doc"] then some []
  else none

namespace Request

/-- The request of a command with its operands and options. -/
def ofFound? (command : String) (found : Found) : Option Request :=
  match command, found.operands with
  | "check", [rule] =>
    if found.has "absent" then if found.has "value" then none else some (.check rule none)
    else some (.check rule (some ((found.value? "value").getD "")))
  | "batch", [] => some (.batch (found.value? "input") (found.has "pretty"))
  | "tokens", [rule] => some (.tokens rule (found.has "pretty"))
  | "tree", [rule] => some (.tree rule)
  | "checks", [] => some .checkNames
  | "docs", [] => some .overview
  | "doc", [category] => some (.reference category)
  | _, _ => none

/-- The request of a command line; nothing if it is not understood. -/
def ofArguments? (arguments : List String) : Option Request := do
  let (found, rest) ← readArguments (versionSwitch :: commonSwitches) true {} .argument arguments
  match rest with
  | [] => if found.has versionSwitch.long then some .version else none
  | command :: rest =>
    let switches ← switchesOf? command
    let (found, _) ← readArguments (switches ++ commonSwitches) false {} .argument rest
    ofFound? command found

/-- Whether the standard input is to be read. -/
def readsInput : Request → Bool
  | .batch none _ => true
  | _ => false

end Request

/-- What a program leaves behind. -/
structure Outcome where
  code : UInt32
  stdout : String
  stderr : String
  deriving DecidableEq, Repr

namespace Outcome

/-- A text as it is. -/
def text (output : String) : Outcome :=
  ⟨0, output, ""⟩

/-- A text on a line of its own. -/
def line (output : String) : Outcome :=
  text (output ++ "\n")

/-- The outcome of a command that may fail. -/
def ofResult (present : α → Outcome) : Except CommandError α → Outcome
  | .ok a => present a
  | .error e => ⟨1, "", e.message ++ "\n"⟩

/-- The outcome of a command line that is not understood. -/
def refusal : Outcome :=
  ⟨2, "", "usage: pupil [options] <check|batch|tokens|tree|checks|docs|doc> ...\n"⟩

end Outcome

/-- Validates a batch that is given as bytes. -/
def batchOfBytes (bytes : ByteArray) (onLines : Bool) : Except CommandError String :=
  match String.fromUTF8? bytes with
  | none => .error .notText
  | some text => Command.batch (some text) onLines

/-- Does what is asked for. There is no standard input if a person would have to type it. -/
def Request.run (input : Option ByteArray) : Request → Outcome
  | .check rule value =>
    .ofResult (fun outcome ↦ .line (if outcome then "true" else "false")) (Command.check rule value)
  | .batch (some text) onLines => .ofResult .line (Command.batch (some text) onLines)
  | .batch none onLines =>
    match input with
    | some bytes => .ofResult .line (batchOfBytes bytes onLines)
    | none => .ofResult .line (Command.batch none onLines)
  | .tokens rule onLines => .line (Command.tokens rule onLines)
  | .tree rule => .ofResult .text (Command.tree rule)
  | .checkNames => .text (Reference.lines Command.checkNames)
  | .overview => .text Reference.overview
  | .reference category => .ofResult .text (Command.reference category)
  | .version => .line "pupil 0.1.0"

end FieldRules.CommandLine
