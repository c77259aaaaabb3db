import SamplerPorts.Discovery
import SamplerPorts.Proofs.Disk.Contents

/-!
What files contain does not matter for finding them: the walk and the paths that it finds are the
same on two disks that differ in the contents of their files only (`find_mapFiles`).
-/

namespace SamplerPorts
namespace Disk

theorem enter?_mapFiles (d : Disk) (f : Location → Bytes → Bytes) (links : Nat)
    (trail : List Location) (dir : Location) (name : Name) :
    (d.mapFiles f).enter? links trail dir name = d.enter? links trail dir name := by
  rw [enter?, enter?, find?_mapFiles]
  cases d.find? (name :: dir) with
  | none => rfl
  | some e =>
      cases e with
      | directory | file content => rfl
      | link target =>
          simp only [Option.map_some, Entry.mapFile, follow_mapFiles, isDirectory_mapFiles]

theorem below_mapFiles (d : Disk) (f : Location → Bytes → Bytes) (depth links : Nat)
    (trail : List Location) (dir : Location) :
    (d.mapFiles f).below depth links trail dir = d.below depth links trail dir := by
  induction depth generalizing links trail dir with
  | zero => rfl
  | succ depth ih => simp only [below, children_mapFiles, enter?_mapFiles, ih]

theorem walk_mapFiles (d : Disk) (f : Location → Bytes → Bytes) (root : Path)
    (depth : Option Nat) : (d.mapFiles f).walk root depth = d.walk root depth := by
  have hbound : (d.mapFiles f).depthBound = d.depthBound := by
    rw [depthBound, height_mapFiles, depthBound]
  simp only [walk, resolve_mapFiles, isDirectory_mapFiles, hbound, below_mapFiles]

end Disk

theorem Discovery.find_mapFiles (d : Disk) (f : Location → Bytes → Bytes) (root : Path)
    (patterns : List Text) : find (d.mapFiles f) root patterns = find d root patterns := by
  simp only [find, matching, Disk.walk_mapFiles]

end SamplerPorts
