import SamplerPorts.Proofs.Diff.Deletions
import SamplerPorts.Proofs.Passing
import SamplerPorts.Proofs.Reassignment

/-!
The two counts of changed plans in a report. One counts the plans with a new text, the other one the
plans whose difference deletes a line. A port value holds no line end except perhaps between the two
words of its key, where setting it takes the line end away; so a plan that is set gets no more lines
(`noMoreLines_apply`), and the two counts are the same (`change_counts_agree`).
-/

namespace SamplerPorts
open Text PortValue Diff

namespace PortValue

theorem noMoreLines_setAll {new old : Text} (h : NoMoreLines new old) (port : Nat) (t : Text) :
    NoMoreLines (setAll (written port) t ++ new) (t ++ old) := by
  have hv := isValue_written port
  induction t using valueInduction with
  | nil => rwa [setAll_nil]
  | value t rest hr ih =>
      obtain ⟨m, hm, -, rfl⟩ := eq_append_of_after? hr
      obtain ⟨x, hx⟩ := hm.eq_cons
      obtain ⟨y, hy⟩ := hv.eq_cons
      rw [setAll_of_after? _ hr, List.append_assoc, List.append_assoc]
      apply ih.replace
      · simp [hy]
      · exact not_mem_written (by decide) (by decide) port
      · exact not_mem_written (by decide) (by decide) port
      · simp [hx]
      · simp [hx]
  | char c rest hr ih =>
      rw [setAll_cons _ hr]
      exact ih.cons c

end PortValue

theorem Verdict.noMoreLines_newLine {new old : Text} (h : NoMoreLines new old) (v : Verdict)
    (line : Text) : NoMoreLines (v.newLine line ++ new) (line ++ old) := by
  cases v with
  | set e port => exact noMoreLines_setAll h port.toNat line
  | notAPort | unrecognized | pathless => exact h.prepend line

theorem noMoreLines_unlines (f : Nat → Text → Verdict) (ls : List Text) :
    NoMoreLines (unlines (ls.mapIdx fun i line => (f i line).newLine line)) (unlines ls) := by
  induction ls generalizing f with
  | nil => exact .refl []
  | cons line ls ih =>
      rw [List.mapIdx_cons]
      cases ls with
      | nil =>
          have := Verdict.noMoreLines_newLine (.refl []) (f 0 line) line
          rwa [List.append_nil, List.append_nil] at this
      | cons next more =>
          have hne : ((next :: more).mapIdx fun i l => (f (i + 1) l).newLine l) ≠ [] := by simp
          rw [unlines, unlines, join_cons_of_ne_nil _ _ hne, join_cons_of_ne_nil _ _ (by simp),
            List.append_assoc, List.append_assoc]
          exact Verdict.noMoreLines_newLine ((ih fun i => f (i + 1)).cons '\n') (f 0 line) line

theorem Assigner.noMoreLines_apply (a : Assigner) (source : Text) :
    NoMoreLines (a.apply source).content source := by
  have h := noMoreLines_unlines (a.verdict (Text.lines source)) (Text.lines source)
  rwa [unlines_lines] at h

/-- The summary counts a change exactly if the plan has a new content. -/
structure PlanChange.IsCounted (c : PlanChange) : Prop where
  files : c.summary.files = if c.differs then 1 else 0
  lines : c.summary.lines = 0 ↔ c.differs = false

theorem PlanChange.isCounted_of_apply {a : Assigner} {c : PlanChange}
    (h : c.after = (a.apply c.before).content) : c.IsCounted := by
  have hzero : c.summary.lines = 0 ↔ c.differs = false := by
    rw [summary, Summary.lines_eq_zero_iff (h ▸ (a.noMoreLines_apply c.before).length_le), differs,
      bne_eq_false_iff_eq, eq_comm]
  refine ⟨?_, hzero⟩
  rw [summary, Summary.files_of, ← summary]
  simp only [hzero]
  cases c.differs <;> rfl

theorem Diff.header_ne_nil (path : Path) : header path ≠ [] := by
  have hfirst : "--- a/".toList ≠ [] := by decide
  intro h
  unfold header at h
  simp only [List.append_eq_nil_iff] at h
  exact hfirst h.1.1.1.1

namespace Report

/-- The summary of a report counts the plans with a new content. -/
structure Agrees (r : Report) : Prop where
  files : r.summary.files = r.countModified
  lines : r.summary.lines = 0 ↔ r.countModified = 0

theorem Agrees.add {r : Report} {c : PlanChange} (h : r.Agrees) (hc : c.IsCounted) :
    (r.add c).Agrees := by
  have hcount : (r.add c).countModified = r.countModified + if c.differs then 1 else 0 := by
    rw [countModified, Report.add, List.countP_append, List.countP_singleton, countModified]
  refine ⟨?_, ?_⟩
  · rw [hcount, ← h.files, ← hc.files]
    rfl
  · change r.summary.lines + c.summary.lines = 0 ↔ _
    rw [hcount, Nat.add_eq_zero_iff, Nat.add_eq_zero_iff, h.lines, hc.lines]
    cases c.differs <;> simp

theorem agrees_ofChanges {cs : List PlanChange} (h : ∀ c ∈ cs, c.IsCounted) :
    (ofChanges cs).Agrees := by
  have hfold (r : Report) (hr : r.Agrees) : (cs.foldl Report.add r).Agrees := by
    induction cs generalizing r with
    | nil => exact hr
    | cons c cs ih =>
        exact ih (fun c hc => h c (List.mem_cons_of_mem _ hc)) _ (hr.add (h c (by simp)))
  exact hfold empty ⟨rfl, by simp [empty, countModified, Summary.zero]⟩

/-- A report has a patch if a plan has a new content, as every patch has a header. -/
theorem diff_eq_nil_iff (r : Report) : r.diff = [] ↔ r.countModified = 0 := by
  rw [diff, countModified, List.countP_eq_length_filter, List.length_eq_zero_iff]
  cases r.changes.filter PlanChange.differs with
  | nil => simp [join]
  | cons c cs =>
      have hheader : c.diff ≠ [] := by
        rw [PlanChange.diff, unified]
        exact List.append_ne_nil_of_left_ne_nil (header_ne_nil c.path) _
      cases cs with
      | nil => simpa [join] using hheader
      | cons next more => simp [join, hheader]

end Report

namespace Run
variable {r : Run} {s : Session}

/-- If a plan is finished, its change is the one that was made of it. -/
theorem eq_of_finish {c c' : PlanChange} (h : (r.finish s c).2 = .ok c') : c' = c := by
  rw [finish] at h
  split at h
  · cases h
  · split at h
    · exact (Except.ok.inj h).symm
    · split at h
      · cases h
      · exact (Except.ok.inj h).symm

theorem isCounted_of_process {a : Assigner} (ha : r.transformation = .ofAssigner a) {path : Path}
    {c : PlanChange} (h : (r.process s path).2 = .ok c) : c.IsCounted := by
  have hkeep : r.transformation.KeepsDisk := ha ▸ Transformation.keepsDisk_ofAssigner a
  cases hchange : r.change? s.disk path with
  | error e =>
      rw [process_of_failsAt hkeep (change?_eq_error_iff.1 hchange)] at h
      cases h
  | ok c' =>
      rw [process_of_change? hkeep hchange] at h
      obtain rfl := eq_of_finish h
      obtain ⟨-, -, hout⟩ := change?_eq_ok_iff.1 hchange
      rw [ha] at hout
      exact PlanChange.isCounted_of_apply (congrArg Output.content (Except.ok.inj hout)).symm

theorem isCounted_of_processAll {a : Assigner} (ha : r.transformation = .ofAssigner a)
    {paths : List Path} {cs : List PlanChange} (h : (r.processAll s paths).2 = .ok cs) :
    ∀ c ∈ cs, c.IsCounted := by
  induction paths generalizing s cs with
  | nil =>
      obtain rfl := Except.ok.inj h
      exact List.forall_mem_nil _
  | cons path paths ih =>
      rw [processAll] at h
      rcases hstep : r.process s path with ⟨s₁, e | c⟩
      · simp [hstep] at h
      · rcases hrest : r.processAll s₁ paths with ⟨s₂, e | more⟩
        · simp [hstep, hrest] at h
        · simp only [hstep, hrest, Except.ok.injEq] at h
          rw [← h, List.forall_mem_cons]
          exact ⟨isCounted_of_process ha (congrArg Prod.snd hstep), ih (congrArg Prod.snd hrest)⟩

theorem agrees_of_perform {a : Assigner} (ha : r.transformation = .ofAssigner a) {report : Report}
    (h : (r.perform s).2 = .ok report) : report.Agrees := by
  rw [perform] at h
  cases htargets : r.targets s.disk with
  | error e => simp [htargets] at h
  | ok files =>
      rcases hall : r.processAll (s.logged (r.startEvents files.length)) files with ⟨s', e | cs⟩
      · simp [htargets, hall] at h
      · simp only [htargets, hall, Except.ok.injEq] at h
        rw [← h]
        exact Report.agrees_ofChanges (isCounted_of_processAll ha (congrArg Prod.snd hall))

end Run

/-- The two counts of changes agree. The summary of a plan that is set by an assigner counts a file
exactly if the plan gets a new content, and counts no line exactly if it gets none. So after every
run with the assigner that ends well, real or dry, the summary counts as many files as the report,
and the report has a patch unless the summary counts no line. -/
theorem change_counts_agree (a : Assigner) :
    (∀ source : Text,
      let new := (a.apply source).content
      ((Summary.of source new).files = 1 ↔ new ≠ source) ∧
        ((Summary.of source new).lines = 0 ↔ new = source)) ∧
    ∀ (r : Run) (s : Session) (report : Report), r.transformation = .ofAssigner a →
      (r.perform s).2 = .ok report →
        report.summary.files = report.countModified ∧
          (report.diff = [] ↔ report.summary.lines = 0) := by
  refine ⟨fun source => ?_, fun r s report ha h => ?_⟩
  · intro new
    have hlines : (Summary.of source new).lines = 0 ↔ new = source :=
      Summary.lines_eq_zero_iff (a.noMoreLines_apply source).length_le
    refine ⟨?_, hlines⟩
    rw [Summary.files_of, Ne, ← hlines]
    split <;> simp_all
  · have hagrees := Run.agrees_of_perform ha h
    exact ⟨hagrees.files, by rw [Report.diff_eq_nil_iff, hagrees.lines]⟩

end SamplerPorts
