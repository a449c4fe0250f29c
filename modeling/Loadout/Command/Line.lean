/-
# The command line

    kiln [-v]... resolve [options]
    kiln help [command]

Words are read from left to right, and the first one that is wrong, or that asks for
help or the version, decides.  A long option takes its value from behind `=` or from
the next word.  Short ones may share a word; one with a value takes the rest of the
word, without a `=` in front, or the next word.  A next word with a dash in front is no
value, unless it is the dash alone.  Options that hold one value may stand once.
-/

import Loadout.Text.Decimal

namespace Loadout
namespace Command

/-- The options of `resolve`. -/
structure Options where
  mods : List String := []
  classpath : List String := []
  preselect : List String := []
  remap : Bool := false
  discoveryTimeout? : Option Nat := none
  solverTimeout? : Option Nat := none
  workers? : Option Nat := none
  workingDirectory? : Option String := none
  deriving DecidableEq, Repr

/-- What a command line asks for. -/
inductive Request where
  | resolve (options : Options)
  | help
  | version
  deriving DecidableEq, Repr

/-- Why a command line is none. -/
inductive UsageError where
  | noCommand
  | unexpected (word : String)
  | missingValue (option : String)
  | invalidValue (option value : String)
  /-- a value for an option that has none -/
  | unneededValue (option : String)
  | repeated (option : String)
  deriving DecidableEq, Repr

namespace UsageError

/-- The wording of each error. -/
def message : UsageError → String
  | noCommand => "a command is required"
  | unexpected word => "unexpected argument '" ++ word ++ "' found"
  | missingValue option => "a value is required for '" ++ option ++ "' but none was supplied"
  | invalidValue option value => "invalid value '" ++ value ++ "' for '" ++ option ++ "'"
  | unneededValue option => "unexpected value for '" ++ option ++ "'"
  | repeated option => "the argument '" ++ option ++ "' cannot be used multiple times"

end UsageError

/-- What an option does. -/
inductive Action where
  | help
  | version
  | nothing
  | flag (set : Options → Except UsageError Options)
  | value (set : String → Options → Except UsageError Options)

/-- The options by name, without dashes. -/
abbrev OptionTable := List (String × Action)

/-- A flag that may be given once. -/
def onceFlag (name : String) (get : Options → Bool) (set : Options → Options) : Action :=
  .flag fun o => if get o then .error (.repeated name) else .ok (set o)

/-- A value that is read, and of which there may be one. -/
def once {α : Type} (name : String) (read : String → Option α) (get : Options → Option α)
    (set : α → Options → Options) : Action :=
  .value fun text o =>
    if (get o).isSome then .error (.repeated name)
    else (read text).elim (.error (.invalidValue name text)) fun a => .ok (set a o)

/-- A value that is read, of which there may be any number. -/
def many (name : String) (read : String → Option String) (set : String → Options → Options) :
    Action :=
  .value fun text o => (read text).elim (.error (.invalidValue name text)) fun a => .ok (set a o)

/-- A path is any text but the empty one. -/
def path? (text : String) : Option String := if text.isEmpty then none else some text

/-- A number of 64 bits, maybe with a plus sign. -/
def number? (text : String) : Option Nat :=
  let digits := match text.toList with
    | '+' :: rest => rest
    | s => s
  (Text.readUInt64 digits).toOption.map UInt64.toNat

/-- The options of `resolve`. -/
def resolveOptions : OptionTable :=
  let mods := many "--mods" path? fun a o => { o with mods := o.mods ++ [a] }
  let preselect := many "--preselect" some fun a o => { o with preselect := o.preselect ++ [a] }
  let directory := once "--working-dir" path? (·.workingDirectory?) fun a o =>
    { o with workingDirectory? := some a }
  [("mods", mods), ("m", mods),
    ("classpath", many "--classpath" path? fun a o => { o with classpath := o.classpath ++ [a] }),
    ("remap", onceFlag "--remap" (·.remap) fun o => { o with remap := true }),
    ("preselect", preselect), ("p", preselect),
    ("discovery-timeout", once "--discovery-timeout" number? (·.discoveryTimeout?) fun a o =>
      { o with discoveryTimeout? := some a }),
    ("solver-timeout", once "--solver-timeout" number? (·.solverTimeout?) fun a o =>
      { o with solverTimeout? := some a }),
    ("workers", once "--workers" number? (·.workers?) fun a o => { o with workers? := some a }),
    ("working-dir", directory), ("d", directory),
    ("verbose", .nothing), ("v", .nothing), ("help", .help), ("h", .help)]

/-- The options before the command. -/
def commonOptions : OptionTable :=
  [("verbose", .nothing), ("v", .nothing), ("help", .help), ("h", .help), ("version", .version),
    ("V", .version)]

/-- What a word leads to. -/
inductive Step where
  /-- the options so far -/
  | next (options : Options)
  /-- an option that takes its value from the next word -/
  | pending (option : String) (set : String → Options → Except UsageError Options)
      (options : Options)
  | done (request : Request)

/-- Takes an option, with the value in its own word if there is one. -/
def Action.take (option : String) (o : Options) : Action → Option String → Except UsageError Step
  | help, none => .ok (.done .help)
  | version, none => .ok (.done .version)
  | nothing, none => .ok (.next o)
  | flag set, none => (set o).map .next
  | value set, none => .ok (.pending option set o)
  | value set, some text => (set text o).map .next
  | _, some _ => .error (.unneededValue option)

/-- A long option, from behind its dashes.  Long names have two characters at least. -/
def longOption (table : OptionTable) (o : Options) (word : List Char) : Except UsageError Step :=
  let (name, attached) := word.span (· != '=')
  let option := "--" ++ String.ofList name
  match table.lookup (String.ofList name) with
  | none => .error (.unexpected option)
  | some action =>
    if name.length < 2 then .error (.unexpected option)
    else action.take option o (attached.tail?.map String.ofList)

/-- The value in the rest of a word of short options. -/
def attachedValue? : List Char → Option String
  | [] => none
  | '=' :: text => some (String.ofList text)
  | text => some (String.ofList text)

/-- Short options in one word, from behind its dash. -/
def shortOptions (table : OptionTable) (o : Options) : List Char → Except UsageError Step
  | [] => .ok (.next o)
  | c :: rest =>
    let option := String.ofList ['-', c]
    match table.lookup (String.ofList [c]) with
    | none => .error (.unexpected option)
    | some (.value set) => (Action.value set).take option o (attachedValue? rest)
    | some action =>
      match action.take option o none with
      | .ok (.next o) => shortOptions table o rest
      | r => r

/-- A word with a dash in front; none if it is something else. -/
def optionWord (table : OptionTable) (o : Options) (word : String) :
    Option (Except UsageError Step) :=
  match word.toList with
  | '-' :: '-' :: rest => some (longOption table o rest)
  | '-' :: c :: rest => some (shortOptions table o (c :: rest))
  | _ => none

/-- Whether a word can be the value of the option before it. -/
def isValue (word : String) : Bool := word == "-" || word.toList.head? != some '-'

/-- The words behind `resolve`. -/
def readOptions (o : Options) : List String → Except UsageError Request
  | [] => .ok (.resolve o)
  | word :: rest =>
    if word == "--" then
      match rest with
      | [] => .ok (.resolve o)
      | extra :: _ => .error (.unexpected extra)
    else
      match optionWord resolveOptions o word, rest with
      | none, _ => .error (.unexpected word)
      | some (.error e), _ => .error e
      | some (.ok (.done request)), _ => .ok request
      | some (.ok (.next o)), rest => readOptions o rest
      | some (.ok (.pending option _ _)), [] => .error (.missingValue option)
      | some (.ok (.pending option set o)), text :: rest =>
        if !isValue text then .error (.missingValue option)
        else
          match set text o with
          | .error e => .error e
          | .ok o => readOptions o rest

/-- The words behind `help`: at most one command. -/
def readTopic : List String → Except UsageError Request
  | [] => .ok .help
  | topic :: rest =>
    if topic != "resolve" && topic != "help" then .error (.unexpected topic)
    else
      match rest with
      | [] => .ok .help
      | extra :: _ => .error (.unexpected extra)

/-- Reads the words of a command line. -/
def readWords : List String → Except UsageError Request
  | [] => .error .noCommand
  | word :: rest =>
    if word == "resolve" then readOptions {} rest
    else if word == "help" then readTopic rest
    else if word == "--" then .error (rest.head?.elim .noCommand .unexpected)
    else
      match optionWord commonOptions {} word with
      | none => .error (.unexpected word)
      | some (.error e) => .error e
      | some (.ok (.done request)) => .ok request
      | some (.ok _) => readWords rest

end Command
end Loadout
