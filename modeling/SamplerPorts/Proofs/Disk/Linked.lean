import SamplerPorts.Proofs.Disk.Contents
import SamplerPorts.Proofs.Processing

/-!
A disk with one file that two paths lead to, a name and a link, and the runs over both paths. What
is written to one of the paths is read from the other one.
-/

namespace SamplerPorts
namespace Disk

def fileName : Name := ⟨"plan.jmx".toList, by decide⟩

def linkName : Name := ⟨"link.jmx".toList, by decide⟩

def filePath : Path := .ofString "./plan.jmx"

def linkPath : Path := .ofString "./link.jmx"

/-- The disk on which the file holds a text. -/
def linked (t : Text) : Disk where
  entries := [([fileName], .file (Text.encode t)), ([linkName], .link ⟨fileName.text⟩)]
  current := []
  nodup := show [[fileName], [linkName]].Nodup by decide

theorem follow_fileName (t : Text) (links : Nat) :
    (linked t).follow .read links [] [fileName.text] = .ok (.entry [fileName], links) :=
  (follow_cons ..).trans (follow.eq_1 ..)

theorem follow_linkName (t : Text) (links : Nat) :
    (linked t).follow .read (links + 1) [] [linkName.text] = .ok (.entry [fileName], links) :=
  (follow_cons ..).trans (follow_fileName t links)

theorem resolve_linked (t : Text) {p : Path} (hp : p = filePath ∨ p = linkPath) :
    ∃ links, (linked t).resolve .read p = .ok (.entry [fileName], links) := by
  obtain rfl | rfl := hp
  · have hpieces : filePath.pieces = [['.'], fileName.text] := by decide
    rw [resolve, if_neg (by decide), if_neg (by decide), hpieces]
    exact ⟨40, (follow_dot rfl).trans (follow_fileName t 40)⟩
  · have hpieces : linkPath.pieces = [['.'], linkName.text] := by decide
    rw [resolve, if_neg (by decide), if_neg (by decide), hpieces]
    exact ⟨39, (follow_dot rfl).trans (follow_linkName t 39)⟩

theorem fileOf_linked (t : Text) {p : Path} (hp : p = filePath ∨ p = linkPath) :
    (linked t).fileOf p = .ok ([fileName], Text.encode t) := by
  obtain ⟨links, h⟩ := resolve_linked t hp
  exact fileOf_of_resolve h rfl

theorem readText_linked (t : Text) {p : Path} (hp : p = filePath ∨ p = linkPath) :
    (linked t).readText p = .ok t := by
  rw [readText, read_eq_fileOf, fileOf_linked t hp]
  simp [Except.map, bind, Except.bind, Text.decode?_encode]

theorem writeText_linked (t u : Text) {p : Path} (hp : p = filePath ∨ p = linkPath) :
    (linked t).writeText p u = .ok (linked u) := by
  rw [writeText, write_of_fileOf (fileOf_linked t hp)]
  rfl

end Disk

/-- The run that comes to the file first by its name and then by the link. -/
def Run.linked (t : Transformation) : Run where
  root := .ofString "."
  config := .standard
  files := some [.ofString "plan.jmx", .ofString "link.jmx"]
  custom := some t
  dryRun := false

theorem Run.targets_linked (t : Transformation) (d : Disk) :
    (linked t).targets d = .ok [Disk.filePath, Disk.linkPath] := by
  have hfile : (Path.ofString ".").join (.ofString "plan.jmx") = Disk.filePath := by decide
  have hlink : (Path.ofString ".").join (.ofString "link.jmx") = Disk.linkPath := by decide
  simp only [targets, linked, List.map_cons, List.map_nil, hfile, hlink]

theorem Run.write_linked (t : Transformation) (content : Text) {c : PlanChange}
    (hc : c.path = Disk.filePath ∨ c.path = Disk.linkPath) :
    (linked t).write (Disk.linked content) c = .ok (Disk.linked c.after) := by
  rw [write, Disk.writeText_linked _ _ hc]
  rfl

end SamplerPorts
