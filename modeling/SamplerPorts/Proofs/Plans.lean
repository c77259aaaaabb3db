import SamplerPorts.Proofs.Disk.Contents
import SamplerPorts.Proofs.Reassignment
import SamplerPorts.RunError

/-!
Test plans on a disk. Paths may lead to the same plan, so a plan is known by the location of its
file. `Disk.assign` sets the plans at some locations, each once; because assigning is idempotent, it
does not matter how often and in which order they are set (`assign_assign`), and a plan reads the
same way after it was set, except that its text is the new one (`plan?_assign`).
-/

namespace SamplerPorts
open Text

/-- A test plan: the path that names it, the place of its file and what it holds. -/
structure Plan where
  path : Path
  loc : Location
  text : Text

namespace Assigner
variable (a : Assigner)

/-- The new bytes of a file. What is not a text is kept. -/
def rewrite (content : Bytes) : Bytes :=
  match decode? content with
  | some t => encode (a.apply t).content
  | none => content

theorem decode?_rewrite (content : Bytes) :
    decode? (a.rewrite content) = (decode? content).map fun t => (a.apply t).content := by
  cases h : decode? content with
  | none => rw [rewrite, h]; exact h
  | some t =>
      rw [rewrite, h]
      exact decode?_encode _

variable {a} in
theorem rewrite_rewrite (hc : a.classifier.ReadsPaths) (content : Bytes) :
    a.rewrite (a.rewrite content) = a.rewrite content := by
  rw [rewrite, decode?_rewrite, rewrite]
  cases decode? content with
  | none => rfl
  | some t => simp only [Option.map_some, apply_content hc]

end Assigner

/-- The plan after the plans at some locations were set. -/
def Plan.assigned (a : Assigner) (locs : List Location) (q : Plan) : Plan :=
  { q with text := if q.loc ∈ locs then (a.apply q.text).content else q.text }

namespace Disk

/-- The disk after the plans at some locations were set. -/
def assign (d : Disk) (a : Assigner) (locs : List Location) : Disk :=
  d.mapFiles fun loc content => if loc ∈ locs then a.rewrite content else content

/-- The plan that a path leads to. -/
def plan? (d : Disk) (p : Path) : Except IoError Plan :=
  match d.fileOf p with
  | .error e => .error e
  | .ok (loc, content) =>
      match decode? content with
      | some t => .ok ⟨p, loc, t⟩
      | none => .error .notUtf8

/-- The path leads to a file that holds the text. -/
def Holds (d : Disk) (p : Path) (loc : Location) (t : Text) : Prop :=
  (∃ links, d.resolve .read p = .ok (.entry loc, links)) ∧
    ∃ content, d.find? loc = some (.file content) ∧ decode? content = some t

/-- The plans before the first path that leads to none, and how the run fails at this path. -/
def survey (d : Disk) : List Path → List Plan × Option RunError
  | [] => ([], none)
  | p :: ps =>
      match d.plan? p with
      | .error e => ([], some (.unreadable p e))
      | .ok q => (q :: (d.survey ps).1, (d.survey ps).2)

theorem readText_eq_plan? (d : Disk) (p : Path) : d.readText p = (d.plan? p).map Plan.text := by
  rw [readText, read_eq_fileOf, plan?]
  obtain e | ⟨loc, content⟩ := d.fileOf p
  · rfl
  · cases h : decode? content <;> simp [bind, Except.bind, Except.map, h]

theorem fileOf_of_plan? {d : Disk} {p : Path} {q : Plan} (h : d.plan? p = .ok q) :
    ∃ content, d.fileOf p = .ok (q.loc, content) ∧ decode? content = some q.text ∧ q.path = p := by
  rw [plan?] at h
  rcases hf : d.fileOf p with e | ⟨loc, content⟩
  · rw [hf] at h
    cases h
  · rw [hf] at h
    cases ht : decode? content with
    | none => simp [ht] at h
    | some t =>
        simp only [ht] at h
        cases h
        exact ⟨content, rfl, ht, rfl⟩

theorem plan?_eq_ok_iff {d : Disk} {p : Path} {q : Plan} :
    d.plan? p = .ok q ↔ q.path = p ∧ d.Holds p q.loc q.text := by
  constructor
  · intro h
    obtain ⟨content, hf, ht, hpath⟩ := fileOf_of_plan? h
    obtain ⟨hr, hfind⟩ := resolve_of_fileOf hf
    exact ⟨hpath, hr, content, hfind, ht⟩
  · rintro ⟨rfl, ⟨links, hr⟩, content, hfind, ht⟩
    simp only [plan?, fileOf_of_resolve hr hfind, ht]

theorem exists_plan?_iff {d : Disk} {p : Path} :
    (∃ q, d.plan? p = .ok q) ↔ ∃ loc t, d.Holds p loc t := by
  constructor
  · rintro ⟨q, hq⟩
    exact ⟨q.loc, q.text, (plan?_eq_ok_iff.1 hq).2⟩
  · rintro ⟨loc, t, h⟩
    exact ⟨⟨p, loc, t⟩, plan?_eq_ok_iff.2 ⟨rfl, h⟩⟩

theorem assign_nil (d : Disk) (a : Assigner) : d.assign a [] = d := by
  simp [assign, mapFiles_id]

theorem assign_congr (d : Disk) (a : Assigner) {locs more : List Location}
    (h : ∀ loc, loc ∈ locs ↔ loc ∈ more) : d.assign a locs = d.assign a more := by
  simp only [assign, h]

theorem assign_assign (d : Disk) {a : Assigner} (hc : a.classifier.ReadsPaths)
    (locs more : List Location) : (d.assign a locs).assign a more = d.assign a (locs ++ more) := by
  rw [assign, assign, assign, mapFiles_mapFiles]
  congr 1
  funext loc content
  by_cases hl : loc ∈ locs <;> by_cases hm : loc ∈ more <;>
    simp [hl, hm, Assigner.rewrite_rewrite hc]

theorem plan?_assign (d : Disk) (a : Assigner) (locs : List Location) (p : Path) :
    (d.assign a locs).plan? p = (d.plan? p).map (Plan.assigned a locs) := by
  rw [plan?, assign, fileOf_mapFiles, plan?]
  obtain e | ⟨loc, content⟩ := d.fileOf p
  · rfl
  · by_cases hl : loc ∈ locs
    · simp only [Except.map, if_pos hl, Assigner.decode?_rewrite]
      cases decode? content <;> simp [Plan.assigned, hl]
    · simp only [Except.map, if_neg hl]
      cases decode? content <;> simp [Plan.assigned, hl]

/-- Writing the new text of a plan sets this plan and no other one. -/
theorem writeText_plan {d : Disk} {a : Assigner} {p : Path} {q : Plan} (h : d.plan? p = .ok q) :
    d.writeText p (a.apply q.text).content = .ok (d.assign a [q.loc]) := by
  obtain ⟨content, hf, ht, rfl⟩ := fileOf_of_plan? h
  have hfind := (resolve_of_fileOf hf).2
  rw [writeText, write_of_fileOf hf, assign]
  congr 1
  apply mapFiles_congr
  intro loc old hmem
  by_cases hl : loc = q.loc
  · subst hl
    have := (find?_of_mem (ne_nil_of_find? hfind) hmem).symm.trans hfind
    cases this
    simp [setAt, Assigner.rewrite, ht]
  · simp [setAt, hl]

theorem survey_assign (d : Disk) (a : Assigner) (locs : List Location) (ps : List Path) :
    (d.assign a locs).survey ps =
      ((d.survey ps).1.map (Plan.assigned a locs), (d.survey ps).2) := by
  induction ps with
  | nil => rfl
  | cons p ps ih =>
      rw [survey, survey, plan?_assign, ih]
      cases d.plan? p <;> rfl

theorem plan?_of_mem_survey {d : Disk} {ps : List Path} {q : Plan} (h : q ∈ (d.survey ps).1) :
    q.path ∈ ps ∧ d.plan? q.path = .ok q := by
  induction ps with
  | nil => cases h
  | cons p ps ih =>
      rw [survey] at h
      cases hp : d.plan? p with
      | error e => rw [hp] at h; cases h
      | ok q' =>
          rw [hp] at h
          obtain rfl | h := List.mem_cons.1 h
          · obtain ⟨content, -, -, hpath⟩ := fileOf_of_plan? hp
            rw [hpath]
            exact ⟨List.mem_cons_self .., hp⟩
          · exact ⟨List.mem_cons_of_mem _ (ih h).1, (ih h).2⟩

theorem survey_eq_none_iff {d : Disk} {ps : List Path} :
    (d.survey ps).2 = none ↔ ∀ p ∈ ps, ∃ q, d.plan? p = .ok q := by
  induction ps with
  | nil => simp [survey]
  | cons p ps ih =>
      rw [survey]
      cases hp : d.plan? p with
      | error e => simp [hp]
      | ok q => simp [hp, ih]

/-- Without a failure every path has its plan. -/
theorem mem_survey_of_plan? {d : Disk} {ps : List Path} (h : (d.survey ps).2 = none) {p : Path}
    (hp : p ∈ ps) {q : Plan} (hq : d.plan? p = .ok q) : q ∈ (d.survey ps).1 := by
  induction ps with
  | nil => cases hp
  | cons p' ps ih =>
      rw [survey] at h ⊢
      cases hp' : d.plan? p' with
      | error e => rw [hp'] at h; cases h
      | ok q' =>
          rw [hp'] at h
          obtain rfl | hp := List.mem_cons.1 hp
          · cases hp'.symm.trans hq
            exact List.mem_cons_self ..
          · exact List.mem_cons_of_mem _ (ih h hp)

theorem find?_assign_of_not_mem (d : Disk) (a : Assigner) {locs : List Location} {loc : Location}
    (h : loc ∉ locs) : (d.assign a locs).find? loc = d.find? loc := by
  rw [assign, find?_mapFiles]
  simp only [if_neg h]
  rcases d.find? loc with _ | _ | content | target <;> rfl

theorem find?_assign_of_holds {d : Disk} (a : Assigner) {locs : List Location} {loc : Location}
    (hl : loc ∈ locs) {p : Path} {t : Text} (h : d.Holds p loc t) :
    (d.assign a locs).find? loc = some (.file (encode (a.apply t).content)) := by
  obtain ⟨-, content, hfind, ht⟩ := h
  rw [assign, find?_mapFiles, hfind]
  simp only [if_pos hl, Option.map_some, Entry.mapFile, Assigner.rewrite, ht]

end Disk
end SamplerPorts
