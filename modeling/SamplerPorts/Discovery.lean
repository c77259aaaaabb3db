import SamplerPorts.Disk.Resolve
import SamplerPorts.RunError
import SamplerPorts.Glob.Parser

/-!
Finding test plans by globs. The tree below a root is walked in the order in which its directories
are listed, each directory before its contents. Links to directories are entered, unless they lead
back to a directory that the walk came through. Hidden entries are passed over with all that is
below them.
-/

namespace SamplerPorts

namespace Disk

/-- The directory that is entered through a name in a directory, if the name leads to one, and how
many links a path through it may still meet. The walk came through the directories `trail`. -/
def enter? (d : Disk) (links : Nat) (trail : List Location) (dir : Location) (name : Name) :
    Option (Location × Nat) :=
  match d.find? (name :: dir) with
  | some .directory => some (name :: dir, links)
  | some (.link _) =>
      match d.follow .read links dir [name.text] with
      | .ok (.entry loc, links) =>
          if d.isDirectory loc ∧ loc ∉ trail then some (loc, links) else none
      | _ => none
  | _ => none

/-- The names that lead from a directory to everything up to `depth` levels below it. -/
def below (d : Disk) : (depth links : Nat) → (trail : List Location) → (dir : Location) →
    List (List Name)
  | 0, _, _, _ => []
  | depth + 1, links, trail, dir =>
      (d.children dir).flatMap fun name =>
        if name.isHidden then []
        else [name] ::
          match d.enter? links trail dir name with
          | some (sub, links) => (d.below depth links (sub :: trail) sub).map (name :: ·)
          | none => []

/-- A depth that no walk reaches: between two links it can only go down the tree. -/
def depthBound (d : Disk) : Nat := (maxLinks + 1) * (d.height + 1)

/-- Everything up to `depth` levels below a root, or everything below it. A root that leads to no
directory has nothing below it. -/
def walk (d : Disk) (root : Path) (depth : Option Nat) : List (List Name) :=
  match d.resolve .read root with
  | .ok (.entry dir, links) =>
      if d.isDirectory dir then d.below (depth.getD d.depthBound) links [dir] dir else []
  | _ => []

end Disk

namespace Discovery

/-- The path that leads along some names. -/
def relativePath (names : List Name) : Path := .ofPieces (names.map Name.text)

/-- The tokens of a glob, which may be written with a dot and a slash in front. -/
def readGlob (pattern : Text) : Except RunError (List Glob.Token) :=
  let glob := (Text.rest? ['.', '/'] pattern).getD pattern
  match Glob.parse glob with
  | .ok tokens => .ok tokens
  | .error e => .error (.glob glob e)

/-- The deepest level that a pattern can reach, if it does not hold two asterisks. -/
def depthOf? (pattern : Text) : Option Nat :=
  if Text.has ['*', '*'] pattern then none else some (Path.nameCount ⟨pattern⟩)

/-- The deepest level that some pattern can reach, if no pattern holds two asterisks. -/
def depth? (patterns : List Text) : Option Nat :=
  (patterns.mapM depthOf?).map (·.foldl max 0)

/-- The names that lead from the root to what the patterns match. -/
def matching (d : Disk) (root : Path) (patterns : List Text) :
    Except RunError (List (List Name)) := do
  let globs ← patterns.mapM readGlob
  return (d.walk root (depth? patterns)).filter fun names =>
    globs.any fun glob => Glob.isMatch glob (Text.encode (relativePath names).text)

/-- The paths that the patterns match, as seen from where the root is seen. -/
def find (d : Disk) (root : Path) (patterns : List Text) : Except RunError (List Path) := do
  return (← matching d root patterns).map fun names => root.join (relativePath names)

end Discovery
end SamplerPorts
