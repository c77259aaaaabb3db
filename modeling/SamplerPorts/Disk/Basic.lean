import SamplerPorts.Path

/-!
Directories, files and symbolic links. The disk is a list of entries, each at its own location; the
order of the list is the order in which directories are listed. Locations say where an entry is,
whatever path leads there.
-/

namespace SamplerPorts

/-- The name of an entry in its directory. -/
structure Name where
  text : Text
  isProper : text ≠ [] ∧ text ≠ ['.'] ∧ text ≠ ['.', '.'] ∧ '/' ∉ text
  deriving DecidableEq

namespace Name

def ofText? (t : Text) : Option Name :=
  if h : t ≠ [] ∧ t ≠ ['.'] ∧ t ≠ ['.', '.'] ∧ '/' ∉ t then some ⟨t, h⟩ else none

/-- Names that begin with a dot are hidden. -/
def isHidden (n : Name) : Bool := n.text.head? == some '.'

end Name

/-- The place of an entry: its name, the name of its directory and so on to the top. -/
abbrev Location := List Name

instance : LawfulBEq Location := inferInstance

inductive Entry where
  | directory
  | file (content : Bytes)
  | link (target : Path)
  deriving DecidableEq

structure Disk where
  entries : List (Location × Entry)
  /-- The directory that relative paths start from. -/
  current : Location
  nodup : (entries.map (·.1)).Nodup

namespace Disk

@[ext] theorem ext {c d : Disk} (entries : c.entries = d.entries)
    (current : c.current = d.current) : c = d := by
  cases c
  cases d
  simp_all

def empty (current : Location) : Disk := ⟨[], current, by simp⟩

/-- The entry at a location. The top is a directory. -/
def find? (d : Disk) : Location → Option Entry
  | [] => some .directory
  | loc => (d.entries.find? (·.1 = loc)).map (·.2)

def isDirectory (d : Disk) (loc : Location) : Bool := d.find? loc == some .directory

/-- The name of what is at a location, if it is in the directory. -/
def nameIn? (dir : Location) : Location → Option Name
  | name :: parent => if parent = dir then some name else none
  | [] => none

/-- The names in a directory, in the order in which it is listed. -/
def children (d : Disk) (dir : Location) : List Name := d.entries.filterMap fun e => nameIn? dir e.1

/-- The number of names in the longest location. -/
def height (d : Disk) : Nat := (d.entries.map (·.1.length)).foldl max 0

/-- The disk with another entry in the place of one that is there. -/
def replace (d : Disk) (loc : Location) (e : Entry) : Disk where
  entries := d.entries.map fun old => (old.1, if old.1 = loc then e else old.2)
  current := d.current
  nodup := by simpa [Function.comp_def] using d.nodup

/-- The disk with one more entry, listed last. A location that is taken keeps its entry. -/
def insert (d : Disk) (loc : Location) (e : Entry) : Disk :=
  if h : loc ∈ d.entries.map (·.1) then d
  else
    { entries := d.entries ++ [(loc, e)]
      current := d.current
      nodup := by
        simp only [List.map_append, List.map_cons, List.map_nil]
        exact List.nodup_append.2 ⟨d.nodup, by simp, by
          intro a ha b hb
          simp only [List.mem_singleton] at hb
          exact fun hab => h (hb ▸ hab ▸ ha)⟩ }

/-- The disk without an entry and all that is below it. -/
def erase (d : Disk) (loc : Location) : Disk where
  entries := d.entries.filter fun e => !loc.isSuffixOf e.1
  current := d.current
  nodup := (List.filter_sublist.map _).nodup d.nodup

theorem find?_cons (d : Disk) (name : Name) (dir : Location) :
    d.find? (name :: dir) = (d.entries.find? (·.1 = name :: dir)).map (·.2) := rfl

theorem find?_eq_none_iff (d : Disk) (name : Name) (dir : Location) :
    d.find? (name :: dir) = none ↔ name :: dir ∉ d.entries.map (·.1) := by
  simp only [find?_cons, Option.map_eq_none_iff, List.find?_eq_none, decide_eq_true_eq,
    List.mem_map, not_exists, not_and]

/-- The path of a location from the top. -/
def pathOf (loc : Location) : Path := ⟨'/' :: Text.join ['/'] (loc.reverse.map Name.text)⟩

def currentPath (d : Disk) : Path := pathOf d.current

end Disk
end SamplerPorts
