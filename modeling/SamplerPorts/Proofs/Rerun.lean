import SamplerPorts.Proofs.Assigning
import SamplerPorts.Proofs.Diff.Equal
import SamplerPorts.Proofs.Finding

/-!
Two runs compared. A dry run tells what the real run will come to (`dryRun_tells_run`), and a second
run finds everything done (`second_run_keeps_all`). Both hold for files that are named twice or
through links and for runs that fail on the way.
-/

namespace SamplerPorts

/-- What a report says about each plan, apart from what the plan held before. -/
def Report.results (report : Report) : List (Path × Text × List Warning) :=
  report.changes.map fun c => (c.path, c.after, c.warnings)

namespace Plan

/-- The plan holds what it would be set to. -/
def IsSet (a : Assigner) (q : Plan) : Prop := (a.apply q.text).content = q.text

theorem isSet_assigned {a : Assigner} (hc : a.classifier.ReadsPaths) {locs : List Location}
    {q : Plan} (h : q.loc ∈ locs) : (q.assigned a locs).IsSet a := by
  simp only [IsSet, assigned, if_pos h, Assigner.apply_content hc]

theorem assigned_of_isSet {a : Assigner} {q : Plan} (h : q.IsSet a) (locs : List Location) :
    q.assigned a locs = q := by
  by_cases hl : q.loc ∈ locs
  · rw [assigned, if_pos hl, show (a.apply q.text).content = q.text from h]
  · rw [assigned, if_neg hl]

end Plan

namespace Run
variable (r : Run)

theorem results_changes (locs : List Location) (qs : List Plan) :
    (Report.ofChanges (r.changes locs qs)).results = qs.map fun q =>
      (q.path, (r.assigner.apply q.text).content, (r.assigner.apply q.text).warnings) := by
  rw [Report.results, Report.changes_ofChanges]
  induction qs generalizing locs with
  | nil => rfl
  | cons q qs ih =>
      rw [changes, List.map_cons, ih, Plan.change, Plan.apply_assigned r.readsPaths_assigner]
      rfl

theorem after_eq_before_of_isSet {qs : List Plan} (h : ∀ q ∈ qs, q.IsSet r.assigner)
    (locs : List Location) : ∀ c ∈ r.changes locs qs, c.after = c.before := by
  induction qs generalizing locs with
  | nil => simp [changes]
  | cons q qs ih =>
      intro c hc
      have hq := h q (List.mem_cons_self ..)
      rw [changes, Plan.assigned_of_isSet hq] at hc
      obtain rfl | hc := List.mem_cons.1 hc
      · exact hq
      · exact ih (fun q hq => h q (List.mem_cons_of_mem _ hq)) _ c hc

theorem outlook_assign (d : Disk) (a : Assigner) (locs : List Location) :
    r.outlook (d.assign a locs) =
      ((r.outlook d).1.map (Plan.assigned a locs), (r.outlook d).2) := by
  have htargets : r.targets (d.assign a locs) = r.targets d := by
    rw [targets, targets]
    cases r.files with
    | none => exact Discovery.find_mapFiles d _ r.root [r.config.pattern]
    | some files => rfl
  rw [outlook, htargets, outlook]
  cases r.targets d with
  | error e => rfl
  | ok ps => exact Disk.survey_assign d a locs ps

theorem plan?_of_mem_outlook {r : Run} {d : Disk} {q : Plan} (h : q ∈ (r.outlook d).1) :
    d.plan? q.path = .ok q := by
  rw [outlook] at h
  cases hps : r.targets d with
  | error e => rw [hps] at h; cases h
  | ok ps =>
      rw [hps] at h
      exact (Disk.plan?_of_mem_survey h).2

theorem report_map_assigned (locs : List Location) (qs : List Plan) :
    r.report (qs.map (Plan.assigned r.assigner locs)) = r.report qs := by
  simp only [report, List.flatMap_map, lines_change_assigned]

theorem results_answer (o : List Plan × Option RunError) :
    (r.answer o).map Report.results =
      match o.2 with
      | none => .ok (o.1.map fun q =>
          (q.path, (r.assigner.apply q.text).content, (r.assigner.apply q.text).warnings))
      | some e => .error e := by
  rw [answer]
  cases o.2 with
  | none => exact congrArg Except.ok (r.results_changes [] o.1)
  | some e => rfl

/-- The results of a run do not depend on which of its plans were set before it. -/
theorem results_answer_assigned (locs : List Location) (o : List Plan × Option RunError) :
    (r.answer (o.1.map (Plan.assigned r.assigner locs), o.2)).map Report.results =
      (r.answer o).map Report.results := by
  have hmap : (fun q : Plan => (q.path, (r.assigner.apply q.text).content,
      (r.assigner.apply q.text).warnings)) ∘ Plan.assigned r.assigner locs =
        fun q => (q.path, (r.assigner.apply q.text).content,
          (r.assigner.apply q.text).warnings) := by
    funext q
    rw [Function.comp_apply, Plan.apply_assigned r.readsPaths_assigner]
    rfl
  rw [results_answer, results_answer, List.map_map, hmap]

/-- After all plans of an outlook were set, each of them reads as its new text. -/
theorem readText_assign_outlook {r : Run} {d : Disk} {q : Plan} (h : q ∈ (r.outlook d).1) :
    (d.assign r.assigner ((r.outlook d).1.map Plan.loc)).readText q.path =
      .ok (r.assigner.apply q.text).content := by
  have hloc : q.loc ∈ (r.outlook d).1.map Plan.loc := List.mem_map_of_mem h
  rw [Disk.readText_eq_plan?, Disk.plan?_assign, plan?_of_mem_outlook h]
  simp only [Except.map, Plan.assigned, if_pos hloc]

theorem exists_plan_of_mem_changes {report : Report} {o : List Plan × Option RunError}
    (h : r.answer o = .ok report) {c : PlanChange} (hc : c ∈ report.changes) :
    ∃ q ∈ o.1, q.path = c.path ∧ (r.assigner.apply q.text).content = c.after := by
  have hresults := r.results_answer o
  rw [h] at hresults
  cases ho : o.2 with
  | some e => rw [ho] at hresults; cases hresults
  | none =>
      rw [ho] at hresults
      have hmem : (c.path, c.after, c.warnings) ∈ report.results := List.mem_map_of_mem hc
      rw [Except.ok.inj hresults] at hmem
      obtain ⟨q, hq, heq⟩ := List.mem_map.1 hmem
      simp only [Prod.mk.injEq] at heq
      exact ⟨q, hq, heq.1, heq.2.1⟩

/-- After a run all its plans are set, so a second run finds each of them as the first run left it
and leaves it so. -/
theorem perform_again {r : Run} (hr : r.custom = none) (hdry : r.dryRun = false) (d : Disk) :
    let o := r.outlook d
    let locs := o.1.map Plan.loc
    ∃ log, r.perform (.start (d.assign r.assigner locs) .unlimited) =
      (⟨d.assign r.assigner locs, Sink.unlimited.add (r.report o.1), log⟩,
        r.answer (o.1.map (Plan.assigned r.assigner locs), o.2)) := by
  intro o locs
  have hset : r.setAfter [] ((o.1.map (Plan.assigned r.assigner locs)).map Plan.loc) = locs := by
    rw [setAfter, hdry, List.map_map]
    rfl
  have hagain : (d.assign r.assigner locs).assign r.assigner locs = d.assign r.assigner locs := by
    rw [Disk.assign_assign d r.readsPaths_assigner]
    exact Disk.assign_congr d _ (by simp)
  obtain ⟨log, h⟩ := @perform_eq r hr (.start (d.assign r.assigner locs) .unlimited) rfl
  refine ⟨log, h.trans ?_⟩
  simp only [Session.start, outlook_assign]
  rw [hset, hagain, report_map_assigned]

/-- A report about plans that are set counts no change. -/
theorem counts_of_answer {r : Run} {qs : List Plan} {e : Option RunError} {report : Report}
    (hset : ∀ q ∈ qs, q.IsSet r.assigner) (h : r.answer (qs, e) = .ok report) :
    report.countModified = 0 ∧ report.summary = .zero := by
  rw [answer] at h
  cases e with
  | some e => cases h
  | none =>
      cases h
      exact Report.counts_of_unchanged (r.after_eq_before_of_isSet hset [])

end Run

/-- A dry run and the real run from the same disk list the same plans with the same new texts and
warnings, or fail alike; the dry run leaves the disk as it is, and after the real run every plan of
the report reads as the report says. -/
theorem dryRun_tells_run (root : Path) (config : Config) (files : Option (List Path)) (d : Disk) :
    let dry := (Run.mk root config files none true).perform (.start d .unlimited)
    let real := (Run.mk root config files none false).perform (.start d .unlimited)
    dry.2.map Report.results = real.2.map Report.results ∧ dry.1.disk = d ∧
      ∀ report, real.2 = .ok report →
        ∀ c ∈ report.changes, real.1.disk.readText c.path = .ok c.after := by
  intro dry real
  let run (dryRun : Bool) : Run := ⟨root, config, files, none, dryRun⟩
  obtain ⟨log, hdry⟩ := @Run.perform_eq (run true) rfl (.start d .unlimited) rfl
  obtain ⟨log', hreal⟩ := @Run.perform_eq (run false) rfl (.start d .unlimited) rfl
  have houtlook : (run true).outlook d = (run false).outlook d := rfl
  rw [show dry = _ from hdry, show real = _ from hreal]
  refine ⟨?_, Disk.assign_nil d _, ?_⟩
  · change ((run true).answer ((run true).outlook d)).map _ =
      ((run false).answer ((run false).outlook d)).map _
    rw [houtlook, Run.results_answer, Run.results_answer]
    rfl
  · intro report hreport c hc
    obtain ⟨q, hq, hpath, hafter⟩ := (run false).exists_plan_of_mem_changes hreport hc
    rw [← hpath, ← hafter]
    exact Run.readText_assign_outlook hq

/-- A second run leaves the disk as the first one left it and puts the same text out. It reports the
same new texts and warnings but no changes, or it fails as the first one did. -/
theorem second_run_keeps_all (root : Path) (config : Config) (files : Option (List Path))
    (d : Disk) :
    let run : Run := ⟨root, config, files, none, false⟩
    let first := run.perform (.start d .unlimited)
    let second := run.perform (.start first.1.disk .unlimited)
    second.1.disk = first.1.disk ∧ second.1.sink.written = first.1.sink.written ∧
      second.2.map Report.results = first.2.map Report.results ∧
      ∀ report, second.2 = .ok report → report.countModified = 0 ∧ report.summary = .zero := by
  intro run first second
  let o := run.outlook d
  let locs := o.1.map Plan.loc
  have hset : ∀ q ∈ o.1.map (Plan.assigned run.assigner locs), q.IsSet run.assigner := by
    intro q hq
    obtain ⟨q, hmem, rfl⟩ := List.mem_map.1 hq
    exact Plan.isSet_assigned run.readsPaths_assigner (List.mem_map_of_mem hmem)
  obtain ⟨log, hfirst⟩ := @Run.perform_eq run rfl (.start d .unlimited) rfl
  obtain ⟨log', hsecond⟩ := @Run.perform_again run rfl rfl d
  have hfirst : first = (⟨d.assign run.assigner locs, Sink.unlimited.add (run.report o.1), log⟩,
      run.answer o) := hfirst
  have hsecond : second = (⟨d.assign run.assigner locs, Sink.unlimited.add (run.report o.1), log'⟩,
      run.answer (o.1.map (Plan.assigned run.assigner locs), o.2)) := by
    rw [show second = run.perform (.start first.1.disk .unlimited) from rfl, hfirst]
    exact hsecond
  rw [hfirst, hsecond]
  refine ⟨rfl, rfl, run.results_answer_assigned locs o, ?_⟩
  intro report hreport
  exact Run.counts_of_answer hset hreport

end SamplerPorts
