import SamplerPorts.CommandLine

/-!
The executable. It takes a picture of the test plans below the current directory and of what the
links there lead to, runs the tool on the picture, and writes back the files that the run changed.
-/

namespace SamplerPorts.Main

/-- The name of the directory that holds the test plans. -/
def plans : Text := (Path.pieces ⟨Config.standard.pattern⟩).headD []

/-- The disk with one more entry, or the disk itself where the entry cannot be. -/
def put (d : Disk) (path : String) (e : Entry) : Disk := (d.put (.ofString path) e).toOption.getD d

/-- Take a picture of an entry: of a directory with `levels` levels below it, of a file with its
content, and of a link with what it leads to. A link that leads nowhere is kept as one that does. -/
def load : (levels : Nat) → Disk → IO.FS.DirEntry → IO Disk
  | levels, d, entry => do
      let path := entry.path.toString
      match (← entry.path.symlinkMetadata).type with
      | .file => return put d path (.file (← IO.FS.readBinFile path).toList)
      | .dir => contents levels (put d path .directory) path
      | .other => return d
      | .symlink =>
          match ← entry.path.metadata.toBaseIO with
          | .error (.noFileOrDirectory ..) => return put d path (.link ⟨"nowhere\x00".toList⟩)
          | .error _ => return put d path (.link ⟨entry.fileName.toList⟩)
          | .ok target =>
              let real := (← IO.FS.realPath path).toString
              let d := put d path (.link (.ofString real))
              match target.type with
              | .file => return put d real (.file (← IO.FS.readBinFile real).toList)
              | .dir => contents levels (put d real .directory) real
              | _ => return d
where
  /-- Take a picture of the entries of a directory. -/
  contents : Nat → Disk → String → IO Disk
    | 0, d, _ => return d
    | levels + 1, d, path => do
        (← (← IO.FS.realPath path).readDir).foldlM (load levels) d

/-- Take a picture of the current directory, as far as the test plans go. -/
def loadCurrent : IO Disk := do
  let here ← IO.currentDir
  let d := put (Disk.empty []) here.toString .directory
  let d := (d.enter (.ofString here.toString)).toOption.getD d
  let entries := (← here.readDir).filter fun e => e.fileName.toList = plans
  entries.foldlM (load 1) d

/-- Write back the files of a disk that are not the same on another one. -/
def save (before after : Disk) : IO Unit :=
  after.entries.forM fun (loc, e) =>
    match e with
    | .file content =>
        if before.find? loc = some e then pure ()
        else IO.FS.writeBinFile (String.ofList (Disk.pathOf loc).text) content.toByteArray
    | _ => pure ()

end SamplerPorts.Main

/-- Run the tool in the current directory. -/
def main (arguments : List String) : IO UInt32 := do
  let before ← SamplerPorts.Main.loadCurrent
  let filter := (← IO.getEnv "RUST_LOG").map String.toList
  let out := SamplerPorts.CommandLine.run ⟨arguments.map String.toList, filter⟩ before
  SamplerPorts.Main.save before out.disk
  IO.eprint (String.ofList out.errors)
  (← IO.getStdout).write out.output.toByteArray
  return out.status.toUInt32
