import SamplerPorts.Proofs.Assigning
import SamplerPorts.Proofs.Diff.Equal
import SamplerPorts.Proofs.Disk.Linked

/-!
Runs over the same files in another order. If some of the files are one file, only the first visit
changes it. Which path comes first makes no difference to the texts that the visits see, so the
changes are the same up to their paths and their order (`texts_changes_perm`), and so are the disk
and the totals in the end (`order_irrelevant`).
-/

namespace SamplerPorts

/-- What a change says about a plan, apart from the path that led to it. -/
def PlanChange.texts (c : PlanChange) : Text × Text × List Warning := (c.before, c.after, c.warnings)

namespace Report

theorem summary_ofChanges (cs : List PlanChange) :
    (ofChanges cs).summary =
      (cs.map PlanChange.texts).foldl (fun s t => s.add (.of t.1 t.2.1)) .zero := by
  rw [ofChanges, List.foldl_map]
  generalize hr : empty = r
  rw [show Diff.Summary.zero = r.summary by rw [← hr]; rfl]
  clear hr
  induction cs generalizing r with
  | nil => rfl
  | cons c cs ih => exact ih (r.add c)

theorem countModified_ofChanges (cs : List PlanChange) :
    (ofChanges cs).countModified = (cs.map PlanChange.texts).countP fun t => t.1 != t.2.1 := by
  rw [countModified, changes_ofChanges, List.countP_map]
  rfl

theorem countWarnings_ofChanges (cs : List PlanChange) :
    (ofChanges cs).countWarnings = ((cs.map PlanChange.texts).flatMap fun t => t.2.2).length := by
  rw [countWarnings, changes_ofChanges, List.flatMap_map]
  rfl

/-- The totals do not depend on the paths and the order of the changes. -/
theorem totals_of_texts_perm {cs cs' : List PlanChange}
    (h : (cs.map PlanChange.texts).Perm (cs'.map PlanChange.texts)) :
    (ofChanges cs).summary = (ofChanges cs').summary ∧
      (ofChanges cs).countModified = (ofChanges cs').countModified ∧
      (ofChanges cs).countWarnings = (ofChanges cs').countWarnings := by
  refine ⟨?_, ?_, ?_⟩
  · rw [summary_ofChanges, summary_ofChanges]
    apply h.foldl_eq'
    intro t _ u _ s
    simp only [Diff.Summary.add, Nat.add_right_comm]
  · rw [countModified_ofChanges, countModified_ofChanges, h.countP_eq]
  · rw [countWarnings_ofChanges, countWarnings_ofChanges, (h.flatMap_right _).length_eq]

end Report

namespace Plan

/-- Plans of the same file hold the same text. -/
def Agree (qs : List Plan) : Prop := ∀ q ∈ qs, ∀ q' ∈ qs, q.loc = q'.loc → q.text = q'.text

theorem Agree.of_perm {qs qs' : List Plan} (h : Agree qs) (hperm : qs.Perm qs') : Agree qs' :=
  fun q hq q' hq' => h q (hperm.mem_iff.2 hq) q' (hperm.mem_iff.2 hq')

theorem Agree.tail {q : Plan} {qs : List Plan} (h : Agree (q :: qs)) : Agree qs :=
  fun q hq q' hq' => h q (List.mem_cons_of_mem _ hq) q' (List.mem_cons_of_mem _ hq')

theorem assigned_congr {locs more : List Location} (a : Assigner) {q : Plan}
    (h : q.loc ∈ locs ↔ q.loc ∈ more) : q.assigned a locs = q.assigned a more := by
  simp only [assigned, h]

theorem texts_change_assigned {q q' : Plan} (a : Assigner) (locs : List Location)
    (hloc : q.loc = q'.loc) (htext : q.text = q'.text) :
    ((q.assigned a locs).change a).texts = ((q'.assigned a locs).change a).texts := by
  simp only [change, assigned, PlanChange.texts, hloc, htext]

end Plan

namespace Disk
variable {d : Disk}

theorem text_eq_of_loc {p p' : Path} {q q' : Plan} (h : d.plan? p = .ok q) (h' : d.plan? p' = .ok q')
    (hloc : q.loc = q'.loc) : q.text = q'.text := by
  obtain ⟨-, -, content, hfind, ht⟩ := plan?_eq_ok_iff.1 h
  obtain ⟨-, -, content', hfind', ht'⟩ := plan?_eq_ok_iff.1 h'
  rw [hloc, hfind'] at hfind
  cases hfind
  exact Option.some.inj (ht.symm.trans ht')

theorem agree_survey (d : Disk) (ps : List Path) : Plan.Agree (d.survey ps).1 := by
  intro q hq q' hq' hloc
  exact text_eq_of_loc (plan?_of_mem_survey hq).2 (plan?_of_mem_survey hq').2 hloc

theorem survey_eq_filterMap {ps : List Path} (h : (d.survey ps).2 = none) :
    (d.survey ps).1 = ps.filterMap fun p => (d.plan? p).toOption := by
  induction ps with
  | nil => rfl
  | cons p ps ih =>
      rw [survey] at h ⊢
      cases hp : d.plan? p with
      | error e => rw [hp] at h; cases h
      | ok q =>
          rw [hp] at h
          simp only [List.filterMap_cons, hp, Except.toOption, ih h]

theorem survey_eq_none_of_perm {ps qs : List Path} (h : ps.Perm qs) (hps : (d.survey ps).2 = none) :
    (d.survey qs).2 = none :=
  survey_eq_none_iff.2 fun p hp => survey_eq_none_iff.1 hps p (h.mem_iff.2 hp)

theorem survey_perm {ps qs : List Path} (h : ps.Perm qs) (hps : (d.survey ps).2 = none) :
    (d.survey ps).1.Perm (d.survey qs).1 := by
  rw [survey_eq_filterMap hps, survey_eq_filterMap (survey_eq_none_of_perm h hps)]
  exact h.filterMap _

end Disk

namespace Run
variable (r : Run)

theorem mem_setAfter_congr {locs more : List Location} (h : ∀ loc, loc ∈ locs ↔ loc ∈ more)
    (rest : List Location) (loc : Location) :
    loc ∈ r.setAfter locs rest ↔ loc ∈ r.setAfter more rest := by
  cases hdry : r.dryRun <;> simp [setAfter, hdry, h]

theorem changes_congr {locs more : List Location} (h : ∀ loc, loc ∈ locs ↔ loc ∈ more)
    (qs : List Plan) : r.changes locs qs = r.changes more qs := by
  induction qs generalizing locs more with
  | nil => rfl
  | cons q qs ih =>
      rw [changes, changes, Plan.assigned_congr _ (h q.loc), ih (r.mem_setAfter_congr h [q.loc])]

/-- The changes of plans do not depend on the files that the run was given. -/
theorem changes_files (files : Option (List Path)) (locs : List Location) (qs : List Plan) :
    { r with files }.changes locs qs = r.changes locs qs := by
  induction qs generalizing locs with
  | nil => rfl
  | cons q qs ih =>
      rw [changes, changes, ih]
      rfl

/-- Setting another file first makes no difference to a plan. -/
theorem assigned_setAfter_of_ne {q : Plan} {loc : Location} (h : q.loc ≠ loc)
    (locs : List Location) :
    q.assigned r.assigner (r.setAfter locs [loc]) = q.assigned r.assigner locs := by
  apply Plan.assigned_congr
  cases hdry : r.dryRun <;> simp [setAfter, hdry, h]

theorem texts_changes_perm {qs qs' : List Plan} (h : qs.Perm qs') (hagree : Plan.Agree qs)
    (locs : List Location) :
    ((r.changes locs qs).map PlanChange.texts).Perm
      ((r.changes locs qs').map PlanChange.texts) := by
  induction h generalizing locs with
  | nil => exact .refl _
  | cons q _ ih => exact (ih hagree.tail _).cons _
  | swap x y l =>
      have hrest : r.changes (r.setAfter (r.setAfter locs [y.loc]) [x.loc]) l =
          r.changes (r.setAfter (r.setAfter locs [x.loc]) [y.loc]) l := by
        apply r.changes_congr
        intro loc
        rw [setAfter_setAfter, setAfter_setAfter]
        cases hdry : r.dryRun <;> simp [setAfter, hdry, or_comm]
      simp only [changes, List.map_cons, hrest]
      by_cases hloc : x.loc = y.loc
      · -- one file: its first visit and its second one see the same texts in both orders
        have htext : x.text = y.text := hagree x (by simp) y (by simp) hloc
        rw [Plan.texts_change_assigned _ locs hloc htext, hloc,
          Plan.texts_change_assigned _ (r.setAfter locs [y.loc]) hloc htext]
      · rw [assigned_setAfter_of_ne r hloc, assigned_setAfter_of_ne r (Ne.symm hloc)]
        exact .swap ..
  | trans h₁ _ ih₁ ih₂ => exact (ih₁ hagree locs).trans (ih₂ (hagree.of_perm h₁) locs)

variable {r} {d : Disk}

theorem answer_ok_iff {o : List Plan × Option RunError} {report : Report} :
    r.answer o = .ok report ↔ o.2 = none ∧ .ofChanges (r.changes [] o.1) = report := by
  rw [answer]
  cases o.2 <;> simp

end Run

/-- Two runs over the same files in different orders both succeed or both fail. If they succeed,
they leave the same disk and report the same totals, also if several paths lead to one file. -/
theorem order_irrelevant (root : Path) (config : Config) (dryRun : Bool) (d : Disk)
    {ps qs : List Path} (h : ps.Perm qs) :
    let run (files : List Path) : Run := ⟨root, config, some files, none, dryRun⟩
    let first := (run ps).perform (.start d .unlimited)
    let second := (run qs).perform (.start d .unlimited)
    ((∃ report, first.2 = .ok report) ↔ ∃ report, second.2 = .ok report) ∧
      ∀ report report', first.2 = .ok report → second.2 = .ok report' →
        first.1.disk = second.1.disk ∧ report.summary = report'.summary ∧
          report.countModified = report'.countModified ∧
          report.countWarnings = report'.countWarnings := by
  intro run first second
  have hperm : (ps.map root.join).Perm (qs.map root.join) := h.map _
  let o := d.survey (ps.map root.join)
  let o' := d.survey (qs.map root.join)
  obtain ⟨log, hfirst⟩ := @Run.perform_eq (run ps) rfl (.start d .unlimited) rfl
  obtain ⟨log', hsecond⟩ := @Run.perform_eq (run qs) rfl (.start d .unlimited) rfl
  have hfirst : first = (⟨d.assign (run ps).assigner ((run ps).setAfter [] (o.1.map Plan.loc)),
    Sink.unlimited.add ((run ps).report o.1), log⟩, (run ps).answer o) := hfirst
  have hsecond : second = (⟨d.assign (run qs).assigner ((run qs).setAfter [] (o'.1.map Plan.loc)),
    Sink.unlimited.add ((run qs).report o'.1), log'⟩, (run qs).answer o') := hsecond
  have hnone : o.2 = none ↔ o'.2 = none :=
    ⟨Disk.survey_eq_none_of_perm hperm, Disk.survey_eq_none_of_perm hperm.symm⟩
  rw [hfirst, hsecond]
  simp only [Run.answer_ok_iff]
  refine ⟨by simp [hnone], ?_⟩
  rintro _ _ ⟨ho, rfl⟩ ⟨-, rfl⟩
  have hplans : o.1.Perm o'.1 := Disk.survey_perm hperm ho
  refine ⟨?_, Report.totals_of_texts_perm ?_⟩
  · apply Disk.assign_congr d (run ps).assigner
    intro loc
    have hmem : loc ∈ o.1.map Plan.loc ↔ loc ∈ o'.1.map Plan.loc := (hplans.map _).mem_iff
    rw [Run.setAfter, Run.setAfter]
    cases dryRun <;> simp [run, hmem]
  · rw [show (run qs).changes [] o'.1 = _ from (run ps).changes_files (some qs) [] o'.1]
    exact (run ps).texts_changes_perm hplans (d.agree_survey _) []

/-- A plan that needs a new port is visited by its name and by a link to it. -/
theorem order_irrelevant_linked :
    let d := Disk.linked "HTTPSampler.port\">3033\nHTTPSampler.path\">/api".toList
    let ps : List Path := [.ofString "plan.jmx", .ofString "link.jmx"]
    let qs : List Path := [.ofString "link.jmx", .ofString "plan.jmx"]
    let run (files : List Path) : Run := ⟨.ofString ".", .standard, some files, none, false⟩
    let first := (run ps).perform (.start d .unlimited)
    let second := (run qs).perform (.start d .unlimited)
    ps.Perm qs ∧ (∃ report, first.2 = .ok report) ∧
      ((∃ report, first.2 = .ok report) ↔ ∃ report, second.2 = .ok report) ∧
      ∀ report report', first.2 = .ok report → second.2 = .ok report' →
        first.1.disk = second.1.disk ∧ report.summary = report'.summary ∧
          report.countModified = report'.countModified ∧
          report.countWarnings = report'.countWarnings := by
  intro d ps qs run first second
  have hperm : ps.Perm qs := .swap ..
  have htargets : ps.map (Path.ofString ".").join = [Disk.filePath, Disk.linkPath] := by decide
  have hnone : (d.survey (ps.map (Path.ofString ".").join)).2 = none := by
    rw [htargets, Disk.survey_eq_none_iff]
    intro p hp
    have hp : p = Disk.filePath ∨ p = Disk.linkPath := by simpa using hp
    exact Disk.exists_plan?_iff.2 ⟨_, _, Disk.resolve_linked _ hp, _, rfl, Text.decode?_encode _⟩
  obtain ⟨log, hperform⟩ := @Run.perform_eq (run ps) rfl (.start d .unlimited) rfl
  have hsuccess : ∃ report, first.2 = .ok report :=
    ⟨_, (congrArg Prod.snd hperform).trans (Run.answer_ok_iff.2 ⟨hnone, rfl⟩)⟩
  exact ⟨hperm, hsuccess, order_irrelevant (.ofString ".") .standard false d hperm⟩

end SamplerPorts
