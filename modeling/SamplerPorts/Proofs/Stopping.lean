import SamplerPorts.Proofs.Disk.Linked
import SamplerPorts.Proofs.Passing

/-!
Runs that fail while their output takes everything. Such a run either finds no plans because its
pattern is no glob, and then it does nothing, or it stops at the first plan that cannot be read or
transformed (`failing_run_stops`). What it did before is complete: the plans before are written,
their lines are in the output, and no other file is touched.
-/

namespace SamplerPorts

theorem Discovery.exists_glob_of_readGlob {pattern : Text} {e : RunError}
    (h : readGlob pattern = .error e) : ∃ glob cause, e = .glob glob cause := by
  rw [readGlob] at h
  cases hparse : Glob.parse ((Text.rest? ['.', '/'] pattern).getD pattern) with
  | ok tokens => simp [hparse] at h
  | error cause =>
      simp only [hparse, Except.error.injEq] at h
      exact ⟨_, cause, h.symm⟩

theorem Discovery.readGlob_of_find {d : Disk} {root : Path} {pattern : Text} {e : RunError}
    (h : find d root [pattern] = .error e) : readGlob pattern = .error e := by
  rw [find, matching] at h
  cases hglob : readGlob pattern with
  | error e' =>
      simp only [List.mapM_cons, hglob, bind, Except.bind, Except.error.injEq] at h
      rw [h]
  | ok tokens => simp [hglob, bind, Except.bind, pure, Except.pure] at h

namespace Run
variable {r : Run} {d : Disk}

theorem keepsDisk_transformation (h : ∀ t ∈ r.custom, t.KeepsDisk) :
    r.transformation.KeepsDisk := by
  rw [transformation]
  cases hc : r.custom with
  | none => exact Transformation.keepsDisk_ofAssigner _
  | some t => exact h t hc

theorem readGlob_of_targets {e : RunError} (h : r.targets d = .error e) :
    r.files = none ∧ Discovery.readGlob r.config.pattern = .error e := by
  rw [targets] at h
  cases hfiles : r.files with
  | some files => rw [hfiles] at h; cases h
  | none =>
      rw [hfiles] at h
      exact ⟨rfl, Discovery.readGlob_of_find h⟩

/-- A failed run that did not find its plans and left everything as it was. -/
structure FindsNothing (r : Run) (d : Disk) (e : RunError) (out : Session) : Prop where
  files : r.files = none
  pattern : Discovery.readGlob r.config.pattern = .error e
  error : ∃ glob cause, e = .glob glob cause
  disk : out.disk = d
  output : out.sink.written = []

/-- A failed run that stopped at file `k`, with the changes `cs` behind it. -/
structure StopsAt (r : Run) (d : Disk) (e : RunError) (out : Session) (files : List Path) (k : Nat)
    (cs : List PlanChange) : Prop where
  targets : r.targets d = .ok files
  /-- The file cannot be read or transformed on the disk that the run left. -/
  failure : ∃ p, files[k]? = some p ∧ r.FailsAt out.disk p e
  /-- Each file before could be, on the disk that the files before it left. -/
  least : ∀ i < k, ∃ p di, files[i]? = some p ∧ r.Passes d (files.take i) (cs.take i) di ∧
    ∀ e, ¬ r.FailsAt di p e
  /-- Exactly the files before were passed, in order, and written if the run is not dry. -/
  disk : r.Passes d (files.take k) cs out.disk
  dry : r.dryRun = true → out.disk = d
  /-- A written file holds its new text, unless a later one was the same file. -/
  held : r.dryRun = false → ∀ done c later, cs = done ++ c :: later →
    (∀ c' ∈ later, ∀ loc, d.Leads c'.path loc → ¬ d.Leads c.path loc) →
      out.disk.readText c.path = .ok c.after
  others : ∀ q, (∀ p ∈ files.take k, ∀ loc, d.Leads p loc → ¬ d.Leads q loc) →
    out.disk.read q = d.read q
  output : out.sink.written = Text.encode (cs.flatMap r.lines)

theorem stopsAt_of_passes {e : RunError} {out : Session} {done rest : List Path} {p : Path}
    {cs : List PlanChange} (htargets : r.targets d = .ok (done ++ p :: rest))
    (hbefore : r.Passes d done cs out.disk) (hfailure : r.FailsAt out.disk p e)
    (houtput : out.sink.written = Text.encode (cs.flatMap r.lines)) :
    r.StopsAt d e out (done ++ p :: rest) done.length cs where
  targets := htargets
  failure := ⟨p, by simp, hfailure⟩
  least i hi := by
    rw [List.getElem?_append_left hi, List.take_append_of_le_length (Nat.le_of_lt hi)]
    exact hbefore.not_failsAt hi
  disk := by rwa [List.take_left]
  dry := hbefore.eq_of_dryRun
  held hdry _ _ _ := hbefore.readText_of_last hdry
  others q hq := by
    rw [List.take_left] at hq
    exact hbefore.read_eq hq
  output := houtput

end Run

/-- A run fails because its pattern is no glob, with nothing done, or at the first of its files that
cannot be read or transformed, with the files before it done and nothing else. -/
theorem failing_run_stops (r : Run) (hkeep : ∀ t ∈ r.custom, t.KeepsDisk) (d : Disk) (e : RunError)
    (h : (r.perform (.start d .unlimited)).2 = .error e) :
    let out := (r.perform (.start d .unlimited)).1
    r.FindsNothing d e out ∨ ∃ files k cs, r.StopsAt d e out files k cs := by
  intro out
  have hkeep := Run.keepsDisk_transformation hkeep
  cases htargets : r.targets d with
  | error e' =>
      have hperform : r.perform (.start d .unlimited) = (.start d .unlimited, .error e') := by
        rw [Run.perform, show r.targets (Session.start d .unlimited).disk = _ from htargets]
      have hout : out = .start d .unlimited := congrArg Prod.fst hperform
      rw [hperform, Except.error.injEq] at h
      subst h
      obtain ⟨hfiles, hpattern⟩ := Run.readGlob_of_targets htargets
      left
      rw [hout]
      exact ⟨hfiles, hpattern, Discovery.exists_glob_of_readGlob hpattern, rfl, rfl⟩
  | ok files =>
      obtain ⟨cs, d', failure, hends⟩ := r.exists_ends d files
      obtain ⟨log, hperform⟩ := Run.perform_of_ends hkeep htargets hends
      have hperform := hperform .unlimited (Sink.fits_of_unlimited rfl _)
      have hout : out = ⟨d', Sink.unlimited.add (cs.flatMap r.lines), log⟩ :=
        congrArg Prod.fst hperform
      rw [hperform] at h
      right
      rw [hout]
      cases hends with
      | complete all => cases h
      | @failed done rest p _ _ e' before failure =>
          obtain rfl : e' = e := Except.error.inj h
          exact ⟨_, done.length, cs, Run.stopsAt_of_passes htargets before failure rfl⟩

/-- A transformation that refuses a plan that it has set before. -/
def Transformation.once : Transformation :=
  .ofContent "set once".toList fun _ content =>
    if content = "new".toList then .error (.io (.other "set before".toList))
    else .ok ⟨"new".toList, [⟨1, none⟩]⟩

/-- By the link the run reads what it wrote to the file, and this it refuses. -/
theorem failing_run_stops_at_link :
    let r := Run.linked .once
    let d := Disk.linked "old".toList
    let e := RunError.io (.other "set before".toList)
    let out := (r.perform (.start d .unlimited)).1
    (∀ t ∈ r.custom, t.KeepsDisk) ∧ (r.perform (.start d .unlimited)).2 = .error e ∧
      (r.FindsNothing d e out ∨ ∃ files k cs, r.StopsAt d e out files k cs) := by
  intro r d e out
  have hkeep : ∀ t ∈ r.custom, t.KeepsDisk := by
    rintro t ⟨⟩
    exact Transformation.keepsDisk_ofContent _ _
  have hchange : r.change? d Disk.filePath =
      .ok ⟨Disk.filePath, "old".toList, "new".toList, [⟨1, none⟩]⟩ :=
    Run.change?_eq_ok_iff.2 ⟨rfl, Disk.readText_linked _ (.inl rfl), rfl⟩
  have hwrite := Run.write_linked .once "old".toList
    (c := ⟨Disk.filePath, "old".toList, "new".toList, [⟨1, none⟩]⟩) (.inl rfl)
  have hfails : r.FailsAt (Disk.linked "new".toList) Disk.linkPath e :=
    .transform (Disk.readText_linked _ (.inr rfl)) rfl
  have hends := @Run.Ends.failed r d [Disk.filePath] [] Disk.linkPath _ _ e
    (.cons hchange hwrite (.nil _)) hfails
  obtain ⟨log, hperform⟩ := Run.perform_of_ends (Run.keepsDisk_transformation hkeep)
    (Run.targets_linked _ d) hends
  have hfail : (r.perform (.start d .unlimited)).2 = .error e :=
    congrArg Prod.snd (hperform .unlimited (Sink.fits_of_unlimited rfl _))
  exact ⟨hkeep, hfail, failing_run_stops r hkeep d e hfail⟩

end SamplerPorts
