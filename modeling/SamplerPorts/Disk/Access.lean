import SamplerPorts.Disk.Resolve

/-!
Reading, writing and removing what a path leads to.
-/

namespace SamplerPorts.Disk

def read (d : Disk) (p : Path) : Except IoError Bytes := do
  match (← d.resolve .read p).1 with
  | .vacant _ _ => .error .notFound
  | .entry loc =>
      match d.find? loc with
      | some (.file content) => .ok content
      | _ => .error .isADirectory

def readText (d : Disk) (p : Path) : Except IoError Text := do
  match Text.decode? (← d.read p) with
  | some t => .ok t
  | none => .error .notUtf8

/-- The disk after the content of a file was replaced. A file that is not there yet is made if its
directory is there. -/
def write (d : Disk) (p : Path) (content : Bytes) : Except IoError Disk := do
  match (← d.resolve .write p).1 with
  | .vacant dir name => .ok (d.insert (name :: dir) (.file content))
  | .entry loc =>
      match d.find? loc with
      | some (.file _) => .ok (d.replace loc (.file content))
      | _ => .error .isADirectory

def writeText (d : Disk) (p : Path) (t : Text) : Except IoError Disk := d.write p (Text.encode t)

/-- The disk without what the path names: a file, a link itself, or a directory with its contents.
Where there is nothing, nothing is removed. -/
def remove (d : Disk) (p : Path) : Disk :=
  match d.resolve .name p with
  | .ok (.entry loc, _) => d.erase loc
  | _ => d

/-- The disk with the directory that a path leads to as its current one. -/
def enter (d : Disk) (p : Path) : Except IoError Disk := do
  match (← d.resolve .read p).1 with
  | .vacant _ _ => .error .notFound
  | .entry loc => if d.isDirectory loc then .ok { d with current := loc } else .error .notADirectory

/-- The disk with a directory at the given path, whose own directory is there. A path that leads
somewhere already is left alone. -/
def makeDirectory (d : Disk) (p : Path) : Disk :=
  match d.resolve .write p with
  | .ok (.vacant dir name, _) => d.insert (name :: dir) .directory
  | _ => d

/-- The disk with directories for the given pieces, each in the one before it. -/
def makeDirectories (d : Disk) (done : List Text) : List Text → Disk
  | [] => d
  | piece :: rest =>
      (d.makeDirectory (.ofPieces (done ++ [piece]))).makeDirectories (done ++ [piece]) rest

/-- The disk with an entry at the given path, under directories that are made where they are
missing. A file is written; anything else does not replace what is there. -/
def put (d : Disk) (p : Path) (e : Entry) : Except IoError Disk :=
  let d := d.makeDirectories [] p.pieces.dropLast
  match e with
  | .file content => d.write p content
  | .directory => .ok (d.makeDirectory p)
  | .link _ => do
      match (← d.resolve .name p).1 with
      | .vacant dir name => .ok (d.insert (name :: dir) e)
      | .entry _ => .ok d

end SamplerPorts.Disk
