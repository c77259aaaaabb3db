import SamplerPorts.Text.Basic

/-!
Paths as they are written. A path is kept as the user gave it; its components are what stands
between its slashes, where empty components and single dots only count at the front.
-/

namespace SamplerPorts

structure Path where
  text : Text
  deriving DecidableEq

namespace Path

inductive Component where
  /-- The slash that an absolute path begins with. -/
  | top
  /-- A dot that a relative path begins with. -/
  | here
  | parent
  | name (text : Text)
  deriving DecidableEq

def ofString (s : String) : Path := ⟨s.toList⟩

def pieces (p : Path) : List Text := Text.pieces '/' p.text

def isAbsolute (p : Path) : Bool := p.text.head? == some '/'

/-- The path `q` seen from `p`. An absolute path stays as it is. -/
def join (p q : Path) : Path :=
  if q.isAbsolute then q
  else if p.text = [] ∨ p.text.getLast? = some '/' then ⟨p.text ++ q.text⟩
  else ⟨p.text ++ '/' :: q.text⟩

/-- Whether a piece behind the front of a path is passed over. -/
def isVoid (piece : Text) : Bool := piece == [] || piece == ['.']

/-- The component that a piece behind the front of a path stands for, if it is not void. -/
def componentOf (piece : Text) : Component :=
  if piece = ['.', '.'] then .parent else .name piece

/-- The component at the front of the path that only counts there, and the pieces behind it. -/
def split (p : Path) : Option Component × List Text :=
  match p.pieces with
  | [] :: piece :: rest => (some .top, piece :: rest)
  | ['.'] :: rest => (some .here, rest)
  | ps => (none, ps)

def componentsOf (ps : List Text) : List Component :=
  (ps.filter fun piece => !isVoid piece).map componentOf

def components (p : Path) : List Component := p.split.1.toList ++ componentsOf p.split.2

def nameCount (p : Path) : Nat :=
  p.components.countP fun
    | .name _ => true
    | _ => false

/-- The pieces that are left after the given components, if the pieces begin with them. -/
def dropComponents : List Component → List Text → Option (List Text)
  | [], ps => some ps
  | c :: cs, ps =>
      match ps.dropWhile isVoid with
      | [] => none
      | piece :: rest => if componentOf piece = c then dropComponents cs rest else none

def trimEnd (ps : List Text) : List Text := (ps.reverse.dropWhile isVoid).reverse

def ofPieces (ps : List Text) : Path := ⟨Text.join ['/'] ps⟩

/-- The path as seen from `base`, if its components begin with those of `base`. What lies between
the first and the last component that is left is kept as it is written. -/
def relativeTo? (p base : Path) : Option Path :=
  match base.split, p.split with
  | (none, bs), (front, ps) =>
      if componentsOf bs = [] then
        match front, trimEnd ps with
        | none, ps => some (ofPieces ps)
        | some .top, ps => some ⟨'/' :: Text.join ['/'] ps⟩
        | some _, [] => some ⟨['.']⟩
        | some _, ps => some (ofPieces (['.'] :: ps))
      else if front = none then
        (dropComponents (componentsOf bs) ps).map fun left =>
          ofPieces (trimEnd (left.dropWhile isVoid))
      else none
  | (some c, bs), (front, ps) =>
      if front = some c then
        (dropComponents (componentsOf bs) ps).map fun left =>
          ofPieces (trimEnd (left.dropWhile isVoid))
      else none

/-- How a file is called in messages: from the root if it lies below it, and in full otherwise. -/
def shownFrom (p root : Path) : Path := (p.relativeTo? root).getD p

end Path
end SamplerPorts
