import ProceduralShapes.Cli.Host
import ProceduralShapes.Cli.Path
import ProceduralShapes.Decimal.Shortest
import Std.Data.TreeMap

/-!
# Sessions

A session is a host that is a value: a disk, and the texts that the two channels have
received. On a disk, files and directories are found at places, and a path leads from the
working directory to a place, one step after the other. A directory is not made where a file
stands, nor a file where a directory stands or where no path leads; and a disk may have
reasons of its own to refuse an access.
-/

namespace ProceduralShapes.Cli

/-- The names on the way from the working directory. -/
abbrev Place := List String

/-- What a file holds. A document is kept as such and written out when it is looked at. -/
inductive Contents
  | text (s : String)
  | document (d : Obj Float)

namespace Contents

def toText : Contents → String
  | .text s => s
  | .document d => d.text Decimal.positional

def take (n : Nat) (c : Contents) : Contents := .text (String.ofList (c.toText.toList.take n))

end Contents

/-- The ways in which a disk is changed. -/
inductive Access
  | makeDirectory
  | create
  | write
  | flush
deriving DecidableEq, Repr

/-- A reason to refuse an access, such as missing rights or a lack of room. -/
structure Obstacle where
  reason : String
  /-- How many characters of a text reach the file. -/
  written : Nat := 0
deriving DecidableEq, Repr

structure Disk where
  files : Std.TreeMap Place Contents := {}
  /-- The directories besides the working directory. -/
  directories : List Place := []
  obstacle? : Access → Place → Option Obstacle := fun _ _ => none

/-- One step further. The step back from the working directory leads nowhere. -/
def Place.move (here : Place) (step : String) : Place :=
  if step = Path.back then here.dropLast else here ++ [step]

namespace Disk

def isDirectory (d : Disk) (p : Place) : Bool := p.isEmpty || d.directories.contains p

def walk (d : Disk) (here : Place) : List String → Option Place
  | [] => some here
  | step :: rest => if d.isDirectory here then d.walk (Place.move here step) rest else none

def locate (d : Disk) (path : String) : Option Place :=
  if path.isEmpty then none
  else (d.walk [] (Path.steps path)).filter fun p => d.isDirectory p || !Path.endsIdle path

def occupied (d : Disk) (path : String) : Bool :=
  match d.locate path with
  | some p => d.isDirectory p || d.files.contains p
  | none => false

def contents? (d : Disk) (path : String) : Option String :=
  ((d.locate path).bind fun p => d.files.get? p).map Contents.toText

def put (d : Disk) (p : Place) (c : Contents) : Disk := { d with files := d.files.insert p c }

/-! ### Changes that may be refused -/

def addDirectory (d : Disk) (p : Place) : Except String Disk :=
  if d.isDirectory p then .ok d
  else if d.files.contains p then .error "a file stands there"
  else
    match d.obstacle? .makeDirectory p with
    | some o => .error o.reason
    | none => .ok { d with directories := p :: d.directories }

/-- Makes the directories that the steps lead through, up to the first that is refused. -/
def makeSteps (d : Disk) (here : Place) : List String → Except String Unit × Disk
  | [] => (.ok (), d)
  | step :: rest =>
    let next := Place.move here step
    match d.addDirectory next with
    | .ok d => d.makeSteps next rest
    | .error reason => (.error reason, d)

def makeDirectory (d : Disk) (path : String) : Except String Unit × Disk :=
  d.makeSteps [] (Path.steps path)

def create (d : Disk) (path : String) : Except String Place × Disk :=
  match d.locate path with
  | none => (.error "no path leads there", d)
  | some p =>
    if d.isDirectory p then (.error "a directory stands there", d)
    else
      match d.obstacle? .create p with
      | some o => (.error o.reason, d)
      | none => (.ok p, d.put p (.text ""))

def write (d : Disk) (p : Place) (document : Obj Float) : Except String Unit × Disk :=
  match d.obstacle? .write p with
  | some o => (.error o.reason, d.put p ((Contents.document document).take o.written))
  | none => (.ok (), d.put p (.document document))

def flush (d : Disk) (p : Place) : Except String Unit × Disk :=
  match d.obstacle? .flush p with
  | some o => (.error o.reason, { d with files := d.files.modify p (Contents.take o.written) })
  | none => (.ok (), d)

/-- A disk with these files, in directories made for them. -/
def ofFiles (files : List (String × String)) : Disk :=
  files.foldl (fun d (path, s) =>
    let d := (d.makeDirectory ((Path.parent? path).getD "")).2
    match d.locate path with
    | some p => d.put p (.text s)
    | none => d) {}

end Disk

structure Session where
  disk : Disk := {}
  output : String := ""
  diagnostics : String := ""

namespace Session

/-- Work that is done on the disk. -/
def onDisk {β : Type} (work : Disk → β × Disk) : StateM Session β :=
  modifyGet fun s =>
    let (b, disk) := work s.disk
    (b, { s with disk })

end Session

instance : Host (StateM Session) where
  File := Place
  print s := modify fun t => { t with output := t.output ++ s }
  report s := modify fun t => { t with diagnostics := t.diagnostics ++ s }
  contents? path := do return (← get).disk.contents? path
  occupied path := do return (← get).disk.occupied path
  makeDirectory path := Session.onDisk (·.makeDirectory path)
  create path := Session.onDisk (·.create path)
  write file document := Session.onDisk (·.write file document)
  flush file := Session.onDisk (·.flush file)

end ProceduralShapes.Cli
