import ProceduralShapes.Cli.Failure
import ProceduralShapes.Cli.Path
import ProceduralShapes.Text.Digits

/-!
# Commands

A command line is a command and its argument, followed by options in any order. An option
given twice counts as it was given last. A request for help takes the place of the command,
unless something before it is wrong.
-/

namespace ProceduralShapes.Cli

structure Options where
  outDir? : Option String := none
  objPath? : Option String := none
  seed : UInt64 := 29
  slices : Nat := 40
  sectors : Nat := 10
  weld : Bool := false
  overwrite : Bool := false
deriving DecidableEq, Repr

inductive Command
  | help
  | list
  /-- A scenario or all of them. -/
  | run (scenario : String) (options : Options)
  | patches (path : String) (options : Options)
deriving DecidableEq, Repr

namespace Options

/-- The file that a mesh of this name goes to, if it is to be kept. -/
def output? (o : Options) (name : String) : Option String :=
  match o.objPath? with
  | some path => some path
  | none => o.outDir?.map fun dir => Path.join dir (name ++ ".obj")

/-- An unsigned number of 64 bits. -/
def number (option text : String) : Except Failure Nat :=
  match Text.unsigned? UInt64.size text with
  | some n => .ok n
  | none => .error (.invalidNumber option text)

def assign? (o : Options) (option value : String) : Option (Except Failure Options) :=
  match option with
  | "--out-dir" => some (.ok { o with outDir? := some value })
  | "--obj" => some (.ok { o with objPath? := some value })
  | "--seed" => some ((number option value).map fun n => { o with seed := n.toUInt64 })
  | "--slices" => some ((number option value).map fun n => { o with slices := n })
  | "--stacks" => some ((number option value).map fun n => { o with sectors := n })
  | _ => none

def enable? (o : Options) (option : String) : Option Options :=
  match option with
  | "--weld" => some { o with weld := true }
  | "--overwrite" => some { o with overwrite := true }
  | _ => none

def takesValue (option : String) : Bool := (({} : Options).assign? option "").isSome

def asksForHelp (word : String) : Bool := word == "-h" || word == "--help"

/-- The options that the words give, or nothing when they ask for help. -/
def read (o : Options) : List String → Except Failure (Option Options)
  | [] => if o.outDir?.isSome && o.objPath?.isSome then .error .twoOutputs else .ok (some o)
  | word :: rest =>
    if asksForHelp word then .ok none
    else match o.enable? word with
      | some o => o.read rest
      | none =>
        match rest with
        | [] => .error (if takesValue word then .missingValue word else .unknownOption word)
        | value :: rest =>
          match o.assign? word value with
          | some (.ok o) => o.read rest
          | some (.error e) => .error e
          | none => .error (.unknownOption word)

end Options

namespace Command

/-- A command with options, or help in its place. -/
def withOptions (command : Options → Command) (words : List String) : Except Failure Command :=
  (({} : Options).read words).map fun o => (o.map command).getD .help

def read : List String → Except Failure Command
  | [] => .ok .help
  | "list" :: _ => .ok .list
  | "run" :: [] => .error .missingScenario
  | "run" :: scenario :: words => withOptions (.run scenario) words
  | "rib" :: [] => .error .missingPatchFile
  | "rib" :: path :: words => withOptions (.patches path) words
  | word :: _ =>
    if word == "help" || Options.asksForHelp word then .ok .help
    else .error (.unknownCommand word)

end Command

end ProceduralShapes.Cli
