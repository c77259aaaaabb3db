import Mathlib.Data.List.Nodup
import SamplerPorts.Proofs.Disk.Resolution

/-!
Disks that differ in the contents of their files only. Where a path leads depends on directories and
links, so it leads to the same place on both (`resolve_mapFiles`). Writing to a path that can be
read is such a change: it gives the file that the path leads to a new content and touches nothing
else (`write_of_fileOf`).
-/

namespace SamplerPorts

def Entry.mapFile (f : Bytes → Bytes) : Entry → Entry
  | .file content => .file (f content)
  | e => e

namespace Disk

/-- The disk with a new content for every file, made from its location and its old content. -/
def mapFiles (d : Disk) (f : Location → Bytes → Bytes) : Disk where
  entries := d.entries.map fun e => (e.1, e.2.mapFile (f e.1))
  current := d.current
  nodup := by simpa [Function.comp_def] using d.nodup

/-- The new contents that differ from the old ones at one location only. -/
def setAt (loc : Location) (content : Bytes) : Location → Bytes → Bytes :=
  fun l old => if l = loc then content else old

/-- The file that a path leads to, with its location. -/
def fileOf (d : Disk) (p : Path) : Except IoError (Location × Bytes) := do
  match (← d.resolve .read p).1 with
  | .vacant _ _ => .error .notFound
  | .entry loc =>
      match d.find? loc with
      | some (.file content) => .ok (loc, content)
      | _ => .error .isADirectory

theorem read_eq_fileOf (d : Disk) (p : Path) : d.read p = (d.fileOf p).map Prod.snd := by
  rw [read, fileOf]
  cases d.resolve .read p with
  | error e => rfl
  | ok r =>
      obtain ⟨_ | _, links⟩ := r
      · rename_i loc
        rcases h : d.find? loc with _ | _ | content | target <;>
          simp [bind, Except.bind, Except.map, h]
      · rfl

section
variable (d : Disk) (f : Location → Bytes → Bytes)

theorem map_fst_mapFiles : (d.mapFiles f).entries.map Prod.fst = d.entries.map Prod.fst := by
  rw [mapFiles, List.map_map]
  rfl

theorem find?_mapFiles (loc : Location) :
    (d.mapFiles f).find? loc = (d.find? loc).map (Entry.mapFile (f loc)) := by
  cases loc with
  | nil => rfl
  | cons name dir =>
      simp only [find?_cons, mapFiles, List.find?_map, Option.map_map, Function.comp_def]
      cases h : d.entries.find? (·.1 = name :: dir) with
      | none => rfl
      | some e =>
          have hloc := List.find?_some h
          simp_all

theorem isDirectory_mapFiles (loc : Location) :
    (d.mapFiles f).isDirectory loc = d.isDirectory loc := by
  rw [isDirectory, find?_mapFiles, isDirectory]
  rcases d.find? loc with _ | _ | content | target <;> rfl

theorem children_mapFiles (dir : Location) : (d.mapFiles f).children dir = d.children dir := by
  rw [children, mapFiles, List.filterMap_map]
  rfl

theorem height_mapFiles : (d.mapFiles f).height = d.height := by
  simp [height, mapFiles, Function.comp_def]

theorem next_mapFiles (purpose : Purpose) (links : Nat) (place : Location) (piece : Text)
    (rest : List Text) :
    (d.mapFiles f).next purpose links place piece rest = d.next purpose links place piece rest := by
  simp only [next, isDirectory_mapFiles, find?_mapFiles]
  cases Name.ofText? piece with
  | none => rfl
  | some name =>
      dsimp only
      rcases d.find? (name :: place) with _ | _ | content | target <;> rfl

theorem follow_mapFiles (purpose : Purpose) (links : Nat) (place : Location) (pieces : List Text) :
    (d.mapFiles f).follow purpose links place pieces = d.follow purpose links place pieces := by
  induction links, place, pieces using followInduction d purpose with
  | nil links place => rw [follow, follow]
  | cons links place piece rest ih =>
      rw [follow_cons, follow_cons, next_mapFiles]
      cases h : d.next purpose links place piece rest with
      | done r => rfl
      | onward l pl ps => exact ih l pl ps h

theorem resolve_mapFiles (purpose : Purpose) (p : Path) :
    (d.mapFiles f).resolve purpose p = d.resolve purpose p := by
  rw [resolve, follow_mapFiles]
  rfl

theorem fileOf_mapFiles (p : Path) :
    (d.mapFiles f).fileOf p = (d.fileOf p).map fun file => (file.1, f file.1 file.2) := by
  rw [fileOf, resolve_mapFiles, fileOf]
  cases d.resolve .read p with
  | error e => rfl
  | ok r =>
      obtain ⟨loc | ⟨dir, name⟩, links⟩ := r
      · change (match (d.mapFiles f).find? loc with
          | some (.file content) => _
          | _ => _) = _
        rw [find?_mapFiles]
        rcases h : d.find? loc with _ | _ | content | target <;>
          simp [bind, Except.bind, Except.map, h, Entry.mapFile]
      · rfl

theorem mapFiles_mapFiles (g : Location → Bytes → Bytes) :
    (d.mapFiles f).mapFiles g = d.mapFiles fun loc content => g loc (f loc content) := by
  apply Disk.ext
  · simp only [mapFiles, List.map_map]
    congr 1
    funext e
    obtain ⟨loc, _ | content | target⟩ := e <;> rfl
  · rfl

end

theorem mapFiles_id (d : Disk) : (d.mapFiles fun _ content => content) = d := by
  apply Disk.ext
  · have : (fun e : Location × Entry => (e.1, e.2.mapFile fun content => content)) = id := by
      funext e
      obtain ⟨loc, _ | content | target⟩ := e <;> rfl
    simp [mapFiles, this]
  · rfl

theorem mapFiles_congr {d : Disk} {f g : Location → Bytes → Bytes}
    (h : ∀ loc content, (loc, Entry.file content) ∈ d.entries → f loc content = g loc content) :
    d.mapFiles f = d.mapFiles g := by
  apply Disk.ext
  · apply List.map_congr_left
    rintro ⟨loc, _ | content | target⟩ he
    · rfl
    · simp only [Entry.mapFile, h loc content he]
    · rfl
  · rfl

theorem find?_of_mem {d : Disk} {loc : Location} {e : Entry} (hne : loc ≠ [])
    (h : (loc, e) ∈ d.entries) : d.find? loc = some e := by
  cases loc with
  | nil => exact absurd rfl hne
  | cons name dir =>
      rw [find?_cons]
      cases hf : d.entries.find? (·.1 = name :: dir) with
      | none => simpa using List.find?_eq_none.1 hf _ h
      | some x =>
          have hx : x.1 = name :: dir := by simpa using List.find?_some hf
          have := List.inj_on_of_nodup_map d.nodup (List.mem_of_find?_eq_some hf) h hx
          rw [this]
          rfl

/-- A file is never at the top. -/
theorem ne_nil_of_find? {d : Disk} {loc : Location} {content : Bytes}
    (h : d.find? loc = some (.file content)) : loc ≠ [] := by
  rintro rfl
  cases h

/-- Replacing a file by a file gives it a new content. -/
theorem replace_eq_mapFiles {d : Disk} {loc : Location} {old : Bytes} (new : Bytes)
    (h : d.find? loc = some (.file old)) :
    d.replace loc (.file new) = d.mapFiles (setAt loc new) := by
  apply Disk.ext
  · simp only [replace, mapFiles]
    apply List.map_congr_left
    rintro ⟨l, e⟩ he
    by_cases hl : l = loc
    · subst hl
      have hfind := find?_of_mem (ne_nil_of_find? h) he
      obtain rfl : e = .file old := Option.some.inj (hfind.symm.trans h)
      simp [Entry.mapFile, setAt]
    · cases e <;> simp [hl, Entry.mapFile, setAt]
  · rfl

theorem resolve_of_fileOf {d : Disk} {p : Path} {loc : Location} {content : Bytes}
    (h : d.fileOf p = .ok (loc, content)) :
    (∃ links, d.resolve .read p = .ok (.entry loc, links)) ∧
      d.find? loc = some (.file content) := by
  rw [fileOf] at h
  cases hr : d.resolve .read p with
  | error e => rw [hr] at h; cases h
  | ok r =>
      rw [hr] at h
      obtain ⟨l | ⟨dir, name⟩, links⟩ := r
      · rcases hf : d.find? l with _ | _ | c | target <;>
          simp only [bind, Except.bind, hf, Except.ok.injEq, Prod.mk.injEq, reduceCtorEq] at h
        obtain ⟨rfl, rfl⟩ := h
        exact ⟨⟨links, rfl⟩, hf⟩
      · cases h

theorem fileOf_of_resolve {d : Disk} {p : Path} {loc : Location} {content : Bytes} {links : Nat}
    (hr : d.resolve .read p = .ok (.entry loc, links)) (hf : d.find? loc = some (.file content)) :
    d.fileOf p = .ok (loc, content) := by
  simp [fileOf, hr, hf, bind, Except.bind]

theorem write_of_fileOf {d : Disk} {p : Path} {loc : Location} {old : Bytes}
    (h : d.fileOf p = .ok (loc, old)) (new : Bytes) :
    d.write p new = .ok (d.mapFiles (setAt loc new)) := by
  obtain ⟨⟨links, hr⟩, hf⟩ := resolve_of_fileOf h
  rw [write, resolve_write_of_read hr hf, ← replace_eq_mapFiles new hf]
  simp [bind, Except.bind, hf]

end Disk
end SamplerPorts
