import SamplerPorts.Proofs.Diff.Equal
import SamplerPorts.Proofs.Disk.Contents
import SamplerPorts.Proofs.Processing

/-!
Runs with any transformation that leaves the disk alone. Such a run passes the plans one after the
other: it reads and transforms each plan on the disk that the plans before it left, and writes it
(`Passes`). What can be read can be written, so the run passes every plan up to the first one that
cannot be read or transformed (`exists_ends`). A passed plan holds what was written to it last
(`Passes.readText_of_last`), and no other file is changed (`Passes.read_eq`). An output with room
for the lines about all passed plans has no influence on the run (`perform_of_ends`).
-/

namespace SamplerPorts

/-- The transformation may look at the disk, but it leaves the disk as it is. -/
def Transformation.KeepsDisk (t : Transformation) : Prop :=
  ∀ d path content, (t.apply d path content).1 = d

theorem Transformation.keepsDisk_ofAssigner (a : Assigner) : (ofAssigner a).KeepsDisk :=
  fun _ _ _ => rfl

theorem Transformation.keepsDisk_ofContent (describe : Text)
    (f : Path → Text → Except RunError Output) : (ofContent describe f).KeepsDisk :=
  fun _ _ _ => rfl

namespace Disk

/-- The path leads to what is at the location. -/
def Leads (d : Disk) (p : Path) (loc : Location) : Prop :=
  ∃ links, d.resolve .read p = .ok (.entry loc, links)

/-- The contents may differ only where one of the paths leads. -/
def OnlyAt (d : Disk) (ps : List Path) (f : Location → Bytes → Bytes) : Prop :=
  ∀ loc content, (∀ p ∈ ps, ¬ d.Leads p loc) → f loc content = content

variable {d : Disk} {p : Path}

theorem leads_mapFiles_iff (f : Location → Bytes → Bytes) {loc : Location} :
    (d.mapFiles f).Leads p loc ↔ d.Leads p loc := by
  rw [Leads, resolve_mapFiles, Leads]

theorem read_mapFiles {ps : List Path} {f : Location → Bytes → Bytes} (hf : d.OnlyAt ps f)
    (h : ∀ q ∈ ps, ∀ loc, d.Leads q loc → ¬ d.Leads p loc) :
    (d.mapFiles f).read p = d.read p := by
  rw [read_eq_fileOf, fileOf_mapFiles, read_eq_fileOf]
  cases hp : d.fileOf p with
  | error e => rfl
  | ok file =>
      have hleads : d.Leads p file.1 := (resolve_of_fileOf hp).1
      simp only [Except.map]
      rw [hf file.1 file.2 fun q hq hl => h q hq file.1 hl hleads]

theorem exists_fileOf_of_readText {t : Text} (h : d.readText p = .ok t) :
    ∃ file, d.fileOf p = .ok file := by
  rw [readText, read_eq_fileOf] at h
  cases hp : d.fileOf p with
  | error e => rw [hp] at h; cases h
  | ok file => exact ⟨file, rfl⟩

theorem readText_of_writeText {before after : Text} {d' : Disk} (h : d.readText p = .ok before)
    (hwrite : d.writeText p after = .ok d') : d'.readText p = .ok after := by
  obtain ⟨file, hp⟩ := exists_fileOf_of_readText h
  rw [writeText, write_of_fileOf hp, Except.ok.injEq] at hwrite
  rw [← hwrite, readText, read_eq_fileOf, fileOf_mapFiles, hp]
  simp [Except.map, bind, Except.bind, setAt, Text.decode?_encode]

/-- A text can be written wherever one can be read, and writing it changes this file only. -/
theorem writeText_of_readText {before : Text} (h : d.readText p = .ok before) (after : Text) :
    ∃ f, d.writeText p after = .ok (d.mapFiles f) ∧ d.OnlyAt [p] f := by
  obtain ⟨file, hp⟩ := exists_fileOf_of_readText h
  refine ⟨setAt file.1 (Text.encode after), write_of_fileOf hp _, ?_⟩
  intro loc content hloc
  have hne : loc ≠ file.1 := by
    rintro rfl
    exact hloc p (List.mem_singleton_self p) (resolve_of_fileOf hp).1
  simp only [setAt, if_neg hne]

end Disk

namespace Run
variable (r : Run)

/-- What the run makes of the plan at a path. -/
def change? (d : Disk) (p : Path) : Except RunError PlanChange :=
  match d.readText p with
  | .error e => .error (.unreadable p e)
  | .ok before =>
      match (r.transformation.apply d p before).2 with
      | .error e => .error e
      | .ok out => .ok ⟨p, before, out.content, out.warnings⟩

/-- The plan at a path cannot be read as a text, or it cannot be transformed. -/
inductive FailsAt (d : Disk) (p : Path) : RunError → Prop where
  | read {cause : IoError} (unread : d.readText p = .error cause) :
      FailsAt d p (.unreadable p cause)
  | transform {content : Text} {e : RunError} (read : d.readText p = .ok content)
      (untransformed : (r.transformation.apply d p content).2 = .error e) : FailsAt d p e

/-- The run comes past the plans at some paths. Each of them is read and transformed on the disk
that those before it left, which gives its change, and written. -/
inductive Passes : Disk → List Path → List PlanChange → Disk → Prop where
  | nil (d : Disk) : Passes d [] [] d
  | cons {d d' d'' : Disk} {p : Path} {ps : List Path} {c : PlanChange} {cs : List PlanChange}
      (change : r.change? d p = .ok c) (write : r.write d c = .ok d')
      (rest : Passes d' ps cs d'') : Passes d (p :: ps) (c :: cs) d''

/-- How a run over some paths ends: behind all of them, or with a failure at one of them. -/
inductive Ends (d : Disk) : List Path → List PlanChange → Disk → Option RunError → Prop where
  | complete {ps : List Path} {cs : List PlanChange} {d' : Disk} (all : r.Passes d ps cs d') :
      Ends d ps cs d' none
  | failed {done rest : List Path} {p : Path} {cs : List PlanChange} {d' : Disk} {e : RunError}
      (before : r.Passes d done cs d') (failure : r.FailsAt d' p e) :
      Ends d (done ++ p :: rest) cs d' (some e)

variable {r} {d d' : Disk} {p : Path} {ps : List Path} {c : PlanChange} {cs : List PlanChange}

theorem change?_eq_ok_iff :
    r.change? d p = .ok c ↔ c.path = p ∧ d.readText p = .ok c.before ∧
      (r.transformation.apply d p c.before).2 = .ok ⟨c.after, c.warnings⟩ := by
  rw [change?]
  cases hread : d.readText p with
  | error e => simp
  | ok before =>
      dsimp only
      cases happly : (r.transformation.apply d p before).2 with
      | error e =>
          simp only [reduceCtorEq, Except.ok.injEq, false_iff]
          rintro ⟨-, rfl, h⟩
          cases happly.symm.trans h
      | ok out =>
          simp only [Except.ok.injEq]
          constructor
          · rintro rfl
            exact ⟨rfl, rfl, happly⟩
          · rintro ⟨rfl, rfl, h⟩
            obtain rfl := Except.ok.inj (happly.symm.trans h)
            rfl

theorem change?_eq_error_iff {e : RunError} : r.change? d p = .error e ↔ r.FailsAt d p e := by
  rw [change?]
  cases hread : d.readText p with
  | error cause =>
      constructor
      · rintro ⟨⟩
        exact .read hread
      · rintro (⟨h⟩ | ⟨h, -⟩) <;> cases hread.symm.trans h
        rfl
  | ok before =>
      have hfails : r.FailsAt d p e ↔ (r.transformation.apply d p before).2 = .error e := by
        constructor
        · rintro (⟨h⟩ | ⟨h, hfail⟩) <;> cases hread.symm.trans h
          exact hfail
        · exact .transform hread
      rw [hfails]
      dsimp only
      cases (r.transformation.apply d p before).2 <;> simp

theorem write_of_change? (h : r.change? d p = .ok c) :
    ∃ f, r.write d c = .ok (d.mapFiles f) ∧ d.OnlyAt [p] f := by
  obtain ⟨rfl, hread, -⟩ := change?_eq_ok_iff.1 h
  rw [write]
  cases r.dryRun with
  | true => exact ⟨_, congrArg Except.ok d.mapFiles_id.symm, fun _ _ _ => rfl⟩
  | false =>
      obtain ⟨f, hwrite, hf⟩ := Disk.writeText_of_readText hread c.after
      exact ⟨f, by rw [hwrite]; rfl, hf⟩

theorem readText_of_write (hdry : r.dryRun = false) (hread : d.readText c.path = .ok c.before)
    (h : r.write d c = .ok d') : d'.readText c.path = .ok c.after := by
  rw [write, hdry, if_neg (by decide)] at h
  cases hwrite : d.writeText c.path c.after with
  | error e => rw [hwrite] at h; cases h
  | ok next =>
      rw [hwrite] at h
      cases h
      exact Disk.readText_of_writeText hread hwrite

namespace Passes

theorem length_eq (h : r.Passes d ps cs d') : ps.length = cs.length := by
  induction h with
  | nil => rfl
  | cons _ _ _ ih => rw [List.length_cons, List.length_cons, ih]

theorem mapFiles (h : r.Passes d ps cs d') : ∃ f, d' = d.mapFiles f ∧ d.OnlyAt ps f := by
  induction h with
  | nil d => exact ⟨_, d.mapFiles_id.symm, fun _ _ _ => rfl⟩
  | @cons d d' d'' p ps c cs change write rest ih =>
      obtain ⟨f, hwrite, hf⟩ := write_of_change? change
      obtain rfl := Except.ok.inj (write.symm.trans hwrite)
      obtain ⟨g, rfl, hg⟩ := ih
      refine ⟨_, d.mapFiles_mapFiles f g, fun loc content h => ?_⟩
      obtain ⟨hp, hps⟩ := List.forall_mem_cons.1 h
      rw [hf loc content (List.forall_mem_singleton.2 hp)]
      exact hg loc content fun q hq hl => hps q hq ((Disk.leads_mapFiles_iff f).1 hl)

/-- A path keeps its bytes unless it leads to the file of one of the plans. -/
theorem read_eq (h : r.Passes d ps cs d') {q : Path}
    (hq : ∀ p ∈ ps, ∀ loc, d.Leads p loc → ¬ d.Leads q loc) : d'.read q = d.read q := by
  obtain ⟨f, rfl, hf⟩ := h.mapFiles
  exact Disk.read_mapFiles hf hq

theorem map_path (h : r.Passes d ps cs d') : ps = cs.map (·.path) := by
  induction h with
  | nil => rfl
  | cons change _ _ ih => rw [List.map_cons, (change?_eq_ok_iff.1 change).1, ← ih]

/-- What a run does at some paths and the disk that it leaves are determined by where it starts. -/
theorem unique (h : r.Passes d ps cs d') {cs' : List PlanChange} {d'' : Disk}
    (h' : r.Passes d ps cs' d'') : cs = cs' ∧ d' = d'' := by
  induction h generalizing cs' with
  | nil =>
      cases h'
      exact ⟨rfl, rfl⟩
  | cons change write _ ih =>
      cases h' with
      | cons change' write' rest' =>
          cases change.symm.trans change'
          cases write.symm.trans write'
          obtain ⟨rfl, rfl⟩ := ih rest'
          exact ⟨rfl, rfl⟩

/-- A plan holds the text that was written to it last, whatever was written to other files since. -/
theorem readText_of_last (h : r.Passes d ps cs d') (hdry : r.dryRun = false)
    {done later : List PlanChange} (hcs : cs = done ++ c :: later)
    (hlater : ∀ c' ∈ later, ∀ loc, d.Leads c'.path loc → ¬ d.Leads c.path loc) :
    d'.readText c.path = .ok c.after := by
  induction h generalizing done with
  | nil => simp at hcs
  | @cons d d' d'' p ps first cs change write rest ih =>
      obtain ⟨f, hmap, -⟩ := write_of_change? change
      obtain rfl := Except.ok.inj (write.symm.trans hmap)
      have hlater' : ∀ c' ∈ later, ∀ loc,
          (d.mapFiles f).Leads c'.path loc → ¬ (d.mapFiles f).Leads c.path loc := by
        simpa only [Disk.leads_mapFiles_iff] using hlater
      cases done with
      | cons _ done => exact ih (List.cons.inj hcs).2 hlater'
      | nil =>
          obtain ⟨rfl, rfl⟩ := List.cons.inj hcs
          obtain ⟨rfl, hread, -⟩ := change?_eq_ok_iff.1 change
          have hhere := readText_of_write hdry hread write
          have hkept : d''.read first.path = (d.mapFiles f).read first.path := by
            apply rest.read_eq
            rw [rest.map_path]
            exact List.forall_mem_map.2 hlater'
          rwa [Disk.readText, hkept]

theorem eq_of_dryRun (h : r.Passes d ps cs d') (hdry : r.dryRun = true) : d' = d := by
  induction h with
  | nil => rfl
  | cons change write rest ih =>
      rw [Run.write, hdry, if_pos rfl, Except.ok.injEq] at write
      rw [ih, write]

/-- Every plan before the one at which a run fails could be read and transformed. -/
theorem not_failsAt (h : r.Passes d ps cs d') {i : Nat} (hi : i < ps.length) :
    ∃ q di, ps[i]? = some q ∧ r.Passes d (ps.take i) (cs.take i) di ∧
      ∀ e, ¬ r.FailsAt di q e := by
  induction h generalizing i with
  | nil => cases hi
  | @cons d d' d'' p ps c cs change write rest ih =>
      cases i with
      | zero =>
          refine ⟨p, d, rfl, .nil d, fun e he => ?_⟩
          cases change.symm.trans (change?_eq_error_iff.2 he)
      | succ i =>
          obtain ⟨q, di, hq, hpasses, hok⟩ := ih (Nat.lt_of_succ_lt_succ hi)
          exact ⟨q, di, hq, .cons change write hpasses, hok⟩

end Passes

theorem exists_ends (r : Run) (d : Disk) (ps : List Path) :
    ∃ cs d' failure, r.Ends d ps cs d' failure := by
  induction ps generalizing d with
  | nil => exact ⟨[], d, none, .complete (.nil d)⟩
  | cons p ps ih =>
      cases hchange : r.change? d p with
      | error e =>
          have hfails := change?_eq_error_iff.1 hchange
          exact ⟨[], d, some e, @Ends.failed r d [] ps p [] d e (.nil d) hfails⟩
      | ok c =>
          obtain ⟨f, hwrite, -⟩ := write_of_change? hchange
          obtain ⟨cs, d', failure, hends⟩ := ih (d.mapFiles f)
          refine ⟨c :: cs, d', failure, ?_⟩
          cases hends with
          | complete all => exact .complete (.cons hchange hwrite all)
          | @failed done rest q _ _ e before failure =>
              have hbefore := Passes.cons hchange hwrite before
              exact @Ends.failed r d (p :: done) rest q (c :: cs) d' e hbefore failure

theorem Ends.exists_passes {failure : Option RunError} (h : r.Ends d ps cs d' failure) :
    ∃ done rest, ps = done ++ rest ∧ r.Passes d done cs d' := by
  cases h with
  | complete all => exact ⟨ps, [], (List.append_nil ps).symm, all⟩
  | failed before _ => exact ⟨_, _, rfl, before⟩

/-- What a run reports that ends in this way. -/
def answerOf (cs : List PlanChange) : Option RunError → Except RunError Report
  | none => .ok (.ofChanges cs)
  | some e => .error e

theorem eq_of_answerOf {cs' : List PlanChange} {failure : Option RunError}
    (h : answerOf cs failure = .ok (.ofChanges cs')) : cs = cs' := by
  cases failure with
  | some e => cases h
  | none =>
      have hchanges := congrArg Report.changes (Except.ok.inj h)
      rwa [Report.changes_ofChanges, Report.changes_ofChanges] at hchanges

section
variable (hkeep : r.transformation.KeepsDisk) {s : Session}
include hkeep

theorem process_of_change? (h : r.change? s.disk p = .ok c) : r.process s p = r.finish s c := by
  obtain ⟨rfl, hread, happly⟩ := change?_eq_ok_iff.1 h
  exact process_eq_finish hread (Prod.ext (hkeep ..) happly)

theorem process_of_failsAt {e : RunError} (h : r.FailsAt s.disk p e) :
    r.process s p = (s, .error e) := by
  cases h with
  | read unread => exact process_of_unreadable unread
  | @transform content _ read untransformed =>
      have happly : r.transformation.apply s.disk p content = (s.disk, .error e) :=
        Prod.ext (hkeep ..) untransformed
      rw [process, read]
      simp only [happly]

/-- The plans that a run passes put their lines into an output that has room for them all, and the
run goes on with the rest. -/
theorem processAll_of_passes (h : r.Passes s.disk ps cs d')
    (hfits : s.sink.Fits (cs.flatMap r.lines)) (rest : List Path) :
    let next := r.processAll
      ⟨d', s.sink.add (cs.flatMap r.lines), s.log ++ cs.flatMap r.events⟩ rest
    r.processAll s (ps ++ rest) = (next.1, next.2.map (cs ++ ·)) := by
  generalize hd : s.disk = d at h
  induction h generalizing s with
  | nil d =>
      subst hd
      simp only [List.flatMap_nil, Sink.add_nil, List.append_nil, List.nil_append]
      rcases r.processAll s rest with ⟨s', _ | cs⟩ <;> rfl
  | @cons d d' d'' p ps c cs change write _ ih =>
      subst hd
      rw [List.flatMap_cons] at hfits
      obtain ⟨hfirst, hmore⟩ := Sink.fits_append_iff.1 hfits
      have hnext := @ih ⟨d', s.sink.add (r.lines c), s.log ++ r.events c⟩ hmore rfl
      simp only [List.cons_append, processAll, process_of_change? hkeep change,
        finish_of_fits write hfirst, hnext, List.flatMap_cons, Sink.add_add, List.append_assoc]
      rcases r.processAll ⟨d'', s.sink.add (r.lines c ++ cs.flatMap r.lines),
        s.log ++ (r.events c ++ cs.flatMap r.events)⟩ rest with ⟨s', _ | more⟩ <;> rfl

theorem processAll_of_ends {failure : Option RunError} (h : r.Ends s.disk ps cs d' failure)
    (hfits : s.sink.Fits (cs.flatMap r.lines)) :
    r.processAll s ps =
      (⟨d', s.sink.add (cs.flatMap r.lines), s.log ++ cs.flatMap r.events⟩,
        match failure with
        | none => .ok cs
        | some e => .error e) := by
  cases h with
  | complete all =>
      have hrun := processAll_of_passes hkeep all hfits []
      rw [List.append_nil] at hrun
      rw [hrun]
      simp only [processAll, Except.map, List.append_nil]
  | failed before failure =>
      rw [processAll_of_passes hkeep before hfits, processAll, process_of_failsAt hkeep failure]
      rfl

/-- Two outputs with room for the lines about the passed plans get the same lines, and the run ends
in the same way. -/
theorem perform_of_ends {failure : Option RunError} (htargets : r.targets d = .ok ps)
    (h : r.Ends d ps cs d' failure) :
    ∃ log, ∀ sink : Sink, sink.Fits (cs.flatMap r.lines) →
      r.perform (.start d sink) =
        (⟨d', sink.add (cs.flatMap r.lines), log⟩, answerOf cs failure) := by
  cases failure with
  | none =>
      refine ⟨r.startEvents ps.length ++ cs.flatMap r.events ++
        [.runFinished (Report.ofChanges cs).summary], fun sink hfits => ?_⟩
      rw [perform, show r.targets (Session.start d sink).disk = _ from htargets]
      simp only [processAll_of_ends hkeep (s := (Session.start d sink).logged _) h hfits]
      rfl
  | some e =>
      refine ⟨r.startEvents ps.length ++ cs.flatMap r.events, fun sink hfits => ?_⟩
      rw [perform, show r.targets (Session.start d sink).disk = _ from htargets]
      simp only [processAll_of_ends hkeep (s := (Session.start d sink).logged _) h hfits]
      rfl

end
end Run
end SamplerPorts
