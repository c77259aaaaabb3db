import SamplerPorts.Disk.Basic
import SamplerPorts.IoError

/-!
Where a path leads. A path is followed from left to right, through directories only; a link on the
way is replaced by its target, and one path may lead through at most forty links.
-/

namespace SamplerPorts.Disk

/-- What a path is followed for. -/
inductive Purpose where
  | read
  /-- To write a file, which need not be there yet. -/
  | write
  /-- To name an entry itself, also if it is a link. -/
  | name
  deriving DecidableEq

inductive Destination where
  | entry (loc : Location)
  /-- Nothing of this name is in the directory. -/
  | vacant (dir : Location) (name : Name)
  deriving DecidableEq

def maxLinks : Nat := 40

/-- Where a path ends, and how many links may still be met on a path that goes on from there. -/
abbrev Resolved := Except IoError (Destination × Nat)

/-- Whether the pieces are only the slashes at the end of a path. -/
def isSlashes (ps : List Text) : Bool := !ps.isEmpty && ps.all (·.isEmpty)

/-- Where a path is followed from that stands in the directory `place`. -/
def base (place : Location) (p : Path) : Location := if p.isAbsolute then [] else place

/-- Follow the pieces of a path. A file to be written cannot be named with a slash behind it. -/
def follow (d : Disk) (purpose : Purpose) (links : Nat) (place : Location) (pieces : List Text) :
    Resolved :=
  match pieces with
  | [] => .ok (.entry place, links)
  | piece :: rest =>
      if !d.isDirectory place then .error .notADirectory
      else
        match Name.ofText? piece with
        | none => follow d purpose links (if piece = ['.', '.'] then place.tail else place) rest
        | some name =>
            if purpose = .write ∧ isSlashes rest then .error .isADirectory
            else
              match d.find? (name :: place) with
              | none =>
                  if rest = [] then .ok (.vacant place name, links) else .error .notFound
              | some (.link target) =>
                  if purpose = .name ∧ rest = [] then .ok (.entry (name :: place), links)
                  else
                    match links with
                    | 0 => .error .tooManyLinks
                    | links + 1 =>
                        follow d purpose links (base place target) (target.pieces ++ rest)
              | some _ => follow d purpose links (name :: place) rest
termination_by (links, pieces.length)

def resolve (d : Disk) (purpose : Purpose) (p : Path) : Resolved :=
  if p.text = [] then .error .notFound
  else if '\x00' ∈ p.text then .error .nulInPath
  else d.follow purpose maxLinks (base d.current p) p.pieces

end SamplerPorts.Disk
