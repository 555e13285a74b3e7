import ProceduralShapes.Grammar.Error
import ProceduralShapes.Mesh.Basic
import ProceduralShapes.Rib.Error
import ProceduralShapes.Scenario

/-!
# Failures of a command

What can end a command before its work is done, and the text that says so.
-/

namespace ProceduralShapes.Cli

def usage : String := r#"procgeo_cli (procgeo-engine)

USAGE:
  procgeo_cli list
  procgeo_cli run <scenario|all> [options]
  procgeo_cli rib <file.rib> [options]

SCENARIOS:
  torus      closed torus
  sphere     open sphere
  klein      closed Klein bottle
  mobius     closed Moebius band
  tree       grammar: spiralling tree of tubes
  octopod    grammar: ring of bending arms
  nouveau    grammar: wandering ribbons

OPTIONS:
  --out-dir <dir>    Write <scenario>.obj to this dir (required for `all`)
  --obj <path>       Write OBJ (single scenario only)
  --seed <n>         Grammar seed (default 29)
  --slices <n>       Surface slices, or patch u segments for `rib` (default 40)
  --stacks <n>       Surface stacks, or patch v segments for `rib` (default 10)
  --weld             Weld coincident vertices before writing
  --overwrite        Overwrite existing output files
  -h, --help         Show this help
"#

inductive Failure
  | unknownCommand (name : String)
  | unknownOption (name : String)
  | missingScenario
  | missingPatchFile
  | missingValue (option : String)
  | invalidNumber (option text : String)
  /-- A file and a directory are both named for the output. -/
  | twoOutputs
  /-- All scenarios are asked for, but no directory for them. -/
  | missingDirectory
  | unknownScenario (name : String)
  | unreadable (path : String)
  | patchFile (path : String) (e : Rib.Error)
  | load (scenario : String) (e : Grammar.LoadError)
  | pick (scenario : String) (e : Grammar.PickError)
  | placement (scenario : String) (e : PlacementError)
  | invalidMesh (d : Mesh.Defect)
  | occupied (path : String)
  /-- The directory that is to hold all outputs cannot be made. -/
  | outDirectory (reason : String)
  | directory (path reason : String)
  | creation (path reason : String)
  | writing (reason : String)
  | flushing (path reason : String)
  | fault (f : Fault)
deriving DecidableEq, Repr

namespace Failure

/-- The names of the scenarios, one to a line. -/
def scenarioList : String := String.join (Scenario.all.map fun s => "  " ++ s.name ++ "\n")

def message : Failure → String
  | .unknownCommand name => s!"unknown command `{name}`\n\n{usage}"
  | .unknownOption name => s!"unknown option `{name}`\n\n{usage}"
  | .missingScenario => "missing scenario name"
  | .missingPatchFile => "missing RIB file"
  | .missingValue option => s!"missing value for {option}"
  | .invalidNumber option text => s!"{option} expects a non-negative integer, got `{text}`"
  | .twoOutputs => "use either --out-dir or --obj (not both)"
  | .missingDirectory => "`run all` requires --out-dir"
  | .unknownScenario name =>
    s!"unknown scenario `{name}`\n\navailable scenarios:\n{scenarioList}"
  | .unreadable path => s!"read {path}: the file cannot be read"
  | .patchFile path e => s!"{path}: {e.message}"
  | .load scenario e => s!"{scenario}: {e.message}"
  | .pick scenario e => s!"{scenario}: {e.message}"
  | .placement scenario e => s!"{scenario}: {e.message}"
  | .invalidMesh d => s!"mesh validation failed: {d.message}"
  | .occupied path => s!"refusing to overwrite existing file {path} (use --overwrite)"
  | .outDirectory reason => s!"create out dir: {reason}"
  | .directory path reason => s!"create dir {path}: {reason}"
  | .creation path reason => s!"create {path}: {reason}"
  | .writing reason => s!"write obj: {reason}"
  | .flushing path reason => s!"flush {path}: {reason}"
  | .fault _ => "the mesh does not fit in its buffers"

end Failure

end ProceduralShapes.Cli
