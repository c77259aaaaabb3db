import SamplerPorts.Proofs.Plans
import SamplerPorts.Proofs.Processing

/-!
Runs that assign ports, with an output that takes everything. Paths that lead to the same file make
a run read what it wrote before. As assigning is idempotent, it does the same with a plan that it
has set as with the plan at the start, so the outlook at the start tells the whole run: which
plans are set, what comes out, and how the run ends (`perform_eq`).
-/

namespace SamplerPorts

/-- What becomes of a plan. -/
def Plan.change (a : Assigner) (q : Plan) : PlanChange :=
  ⟨q.path, q.text, (a.apply q.text).content, (a.apply q.text).warnings⟩

theorem Plan.apply_assigned {a : Assigner} (hc : a.classifier.ReadsPaths) (locs : List Location)
    (q : Plan) : a.apply (q.assigned a locs).text = a.apply q.text := by
  by_cases h : q.loc ∈ locs
  · simp only [assigned, if_pos h, Assigner.apply_content hc]
  · simp only [assigned, if_neg h]

namespace Run
variable (r : Run)

def assigner : Assigner := .ofConfig r.config

theorem readsPaths_assigner : r.assigner.classifier.ReadsPaths :=
  Classifier.readsPaths_lookahead r.config.lookahead

/-- The plans that are set after some more plans. A dry run sets none. -/
def setAfter (locs more : List Location) : List Location :=
  if r.dryRun then locs else locs ++ more

/-- The changes of a run that has set the plans at some locations before. -/
def changes (locs : List Location) : List Plan → List PlanChange
  | [] => []
  | q :: qs =>
      (q.assigned r.assigner locs).change r.assigner :: changes (r.setAfter locs [q.loc]) qs

/-- The plans that a run over the disk comes to, and how it fails behind them, if it does. -/
def outlook (d : Disk) : List Plan × Option RunError :=
  match r.targets d with
  | .error e => ([], some e)
  | .ok ps => d.survey ps

/-- The answer of a run with some outlook. -/
def answer (o : List Plan × Option RunError) : Except RunError Report :=
  match o.2 with
  | none => .ok (.ofChanges (r.changes [] o.1))
  | some e => .error e

/-- What comes out about some plans. -/
def report (qs : List Plan) : Text := qs.flatMap fun q => r.lines (q.change r.assigner)

theorem setAfter_nil (locs : List Location) : r.setAfter locs [] = locs := by
  simp [setAfter]

theorem setAfter_setAfter (locs more rest : List Location) :
    r.setAfter (r.setAfter locs more) rest = r.setAfter locs (more ++ rest) := by
  cases h : r.dryRun <;> simp [setAfter, h]

theorem lines_change_assigned (locs : List Location) (q : Plan) :
    r.lines ((q.assigned r.assigner locs).change r.assigner) =
      r.lines (q.change r.assigner) := by
  rw [Plan.change, Plan.apply_assigned r.readsPaths_assigner]
  rfl

variable {r} (hr : r.custom = none) {d : Disk} {s : Session} (hs : s.sink.limit = none)
include hr hs

theorem process_plan {locs : List Location} (hd : s.disk = d.assign r.assigner locs) {p : Path}
    {q : Plan} (hq : d.plan? p = .ok q) :
    ∃ log, r.process s p =
      (⟨d.assign r.assigner (r.setAfter locs [q.loc]),
          s.sink.add (r.lines (q.change r.assigner)), log⟩,
        .ok ((q.assigned r.assigner locs).change r.assigner)) := by
  have hplan : s.disk.plan? p = .ok (q.assigned r.assigner locs) := by
    rw [hd, Disk.plan?_assign, hq]
    rfl
  obtain rfl : (q.assigned r.assigner locs).path = p := (Disk.fileOf_of_plan? hplan).choose_spec.2.2
  let c := (q.assigned r.assigner locs).change r.assigner
  have hread : s.disk.readText c.path = .ok c.before := by
    rw [Disk.readText_eq_plan?, show s.disk.plan? c.path = _ from hplan]
    rfl
  have happly : r.transformation.apply s.disk c.path c.before =
      (s.disk, .ok (r.assigner.apply c.before)) := by
    rw [transformation, hr]
    rfl
  have hwrite : r.write s.disk c = .ok (d.assign r.assigner (r.setAfter locs [q.loc])) := by
    cases hdry : r.dryRun with
    | true => simp [write, setAfter, hdry, hd]
    | false =>
        rw [write, hdry, if_neg (by decide),
          show s.disk.writeText c.path c.after = _ from Disk.writeText_plan hplan, hd,
          Disk.assign_assign d r.readsPaths_assigner, setAfter, hdry]
        rfl
  refine ⟨s.log ++ r.events c, ?_⟩
  rw [← r.lines_change_assigned locs q]
  exact (process_eq_finish hread happly).trans
    (finish_of_fits hwrite (Sink.fits_of_unlimited hs _))

theorem processAll_eq {locs : List Location} (hd : s.disk = d.assign r.assigner locs)
    (ps : List Path) :
    ∃ log, r.processAll s ps =
      (⟨d.assign r.assigner (r.setAfter locs ((d.survey ps).1.map Plan.loc)),
          s.sink.add (r.report (d.survey ps).1), log⟩,
        match (d.survey ps).2 with
        | none => .ok (r.changes locs (d.survey ps).1)
        | some e => .error e) := by
  induction ps generalizing s locs with
  | nil =>
      refine ⟨s.log, ?_⟩
      simp only [Disk.survey, List.map_nil, setAfter_nil, report, List.flatMap_nil, Sink.add_nil,
        ← hd]
      rfl
  | cons p ps ih =>
      cases hp : d.plan? p with
      | error e =>
          have hread : s.disk.readText p = .error e := by
            rw [Disk.readText_eq_plan?, hd, Disk.plan?_assign, hp]
            rfl
          refine ⟨s.log, ?_⟩
          simp only [Disk.survey, hp, List.map_nil, setAfter_nil, report, List.flatMap_nil,
            Sink.add_nil, ← hd, processAll, process_of_unreadable hread]
      | ok q =>
          obtain ⟨log, hstep⟩ := process_plan hr hs hd hp
          obtain ⟨log', hrest⟩ := @ih ⟨d.assign r.assigner (r.setAfter locs [q.loc]),
            s.sink.add (r.lines (q.change r.assigner)), log⟩ hs (r.setAfter locs [q.loc]) rfl
          refine ⟨log', ?_⟩
          rw [processAll, hstep]
          simp only [hrest]
          simp only [Disk.survey, hp, List.map_cons, setAfter_setAfter, List.singleton_append,
            Sink.add_add, report, List.flatMap_cons]
          cases (d.survey ps).2 <;> rfl

/-- A run that assigns ports comes to what its outlook says. -/
theorem perform_eq :
    ∃ log, r.perform s =
      (⟨s.disk.assign r.assigner (r.setAfter [] ((r.outlook s.disk).1.map Plan.loc)),
          s.sink.add (r.report (r.outlook s.disk).1), log⟩, r.answer (r.outlook s.disk)) := by
  rw [outlook]
  cases hps : r.targets s.disk with
  | error e =>
      refine ⟨s.log, ?_⟩
      simp only [perform, hps, report, List.map_nil, setAfter_nil, Disk.assign_nil,
        List.flatMap_nil, Sink.add_nil]
      rfl
  | ok ps =>
      have hd : s.disk = s.disk.assign r.assigner [] := (Disk.assign_nil ..).symm
      obtain ⟨log, h⟩ := @processAll_eq r hr s.disk (s.logged (r.startEvents ps.length)) hs [] hd ps
      rw [perform, hps]
      simp only [h, answer]
      cases (s.disk.survey ps).2 with
      | none => exact ⟨_, rfl⟩
      | some e => exact ⟨_, rfl⟩

end Run
end SamplerPorts
