import SamplerPorts.Proofs.Stopping

/-!
Runs whose output takes a limited number of bytes. An output that has no room for the next line
takes the part that fits and ends the run, at the same byte at which the output of the unlimited run
is cut off. The plans whose confirmation begins within the limit are written by then and hold their
new texts, and no others are written (`limited_run_cut_off`).
-/

namespace SamplerPorts

namespace Sink

/-- The sink has kept its limit so far, but it has no room for the text. -/
structure Overflows (s : Sink) (limit : Nat) (t : Text) : Prop where
  limit_eq : s.limit = some limit
  kept : s.written.length ≤ limit
  beyond : limit < s.written.length + (Text.encode t).length

/-- The sink after it has taken what fits of the text. -/
def full (s : Sink) (limit : Nat) (t : Text) : Sink :=
  ⟨some limit, (s.written ++ Text.encode t).take limit⟩

variable {s : Sink} {limit : Nat} {t : Text}

theorem write_of_overflows (h : s.Overflows limit t) :
    s.write t = (s.full limit t, .error .sinkFull) := by
  have hroom : s.room (Text.encode t).length = limit - s.written.length := by
    have := h.beyond
    simp only [room, h.limit_eq]
    omega
  have htaken : ((Text.encode t).take (limit - s.written.length)).length ≠
      (Text.encode t).length := by
    have := h.beyond
    have := h.kept
    rw [List.length_take]
    omega
  have hfull : s.written ++ (Text.encode t).take (limit - s.written.length) =
      (s.written ++ Text.encode t).take limit := by
    rw [List.take_append, List.take_of_length_le h.kept]
  simp only [write, hroom, if_neg htaken, hfull, h.limit_eq, full]

/-- What would come behind a text that does not fit makes no difference. -/
theorem Overflows.full_append (h : s.Overflows limit t) (u : Text) :
    s.full limit (t ++ u) = s.full limit t := by
  have hle : limit ≤ (s.written ++ Text.encode t).length := by
    have := h.beyond
    rw [List.length_append]
    omega
  simp only [full, Text.encode_append, ← List.append_assoc, List.take_append_of_le_length hle]

theorem full_add (s : Sink) (limit : Nat) (t u : Text) :
    (s.add t).full limit u = s.full limit (t ++ u) := by
  simp only [full, add, Text.encode_append, List.append_assoc]

/-- The text overflows the sink at its first part or at the second one. -/
theorem Overflows.of_append {u : Text} (h : s.Overflows limit (t ++ u)) :
    s.Overflows limit t ∨ s.Fits t ∧ (s.add t).Overflows limit u := by
  by_cases ht : limit < s.written.length + (Text.encode t).length
  · exact .inl ⟨h.limit_eq, h.kept, ht⟩
  · refine .inr ⟨?_, h.limit_eq, ?_, ?_⟩
    · intro l hl
      obtain rfl : limit = l := Option.some.inj (h.limit_eq.symm.trans hl)
      omega
    · rw [add, List.length_append]
      omega
    · have := h.beyond
      rw [Text.encode_append, List.length_append] at this
      rw [add, List.length_append]
      omega

end Sink

namespace Session
variable {s : Session} {limit : Nat}

theorem say_of_overflows {line : Text} (h : s.sink.Overflows limit (line ++ ['\n'])) :
    s.say line = ({ s with sink := s.sink.full limit (line ++ ['\n']) },
      .error (.io .sinkFull)) := by
  rw [say, Sink.write_of_overflows h]
  rfl

theorem warn_of_overflows (path : Path) {ws : List Warning}
    (h : s.sink.Overflows limit (Warning.lines ws)) :
    ∃ log, s.warn path ws =
      (⟨s.disk, s.sink.full limit (Warning.lines ws), log⟩, .error (.io .sinkFull)) := by
  induction ws generalizing s with
  | nil =>
      have hkept := h.kept
      have hbeyond := h.beyond
      simp [Warning.lines, Text.encode] at hbeyond
      omega
  | cons w ws ih =>
      rw [Warning.lines_cons] at h
      obtain hfirst | ⟨hfits, hrest⟩ := h.of_append
      · have hsay := @say_of_overflows (s.logged [.portPathless path w.line]) limit _ hfirst
        refine ⟨(s.logged [.portPathless path w.line]).log, ?_⟩
        simp only [warn, hsay]
        rw [Warning.lines_cons, hfirst.full_append]
        rfl
      · have hsay := @say_of_fits (s.logged [.portPathless path w.line]) _ hfits
        obtain ⟨log, hwarn⟩ := @ih { s.logged [.portPathless path w.line] with
          sink := s.sink.add ("Warning: ".toList ++ w.message ++ ['\n']) } hrest
        refine ⟨log, ?_⟩
        simp only [warn, hsay]
        refine hwarn.trans ?_
        rw [Sink.full_add, Warning.lines_cons]
        rfl

end Session

namespace Run
variable (r : Run)

/-- Where in the output the confirmation of a change begins that comes behind some other ones. -/
def confirmedFrom (done : List PlanChange) (c : PlanChange) : Nat :=
  (Text.encode (done.flatMap r.lines ++ Warning.lines c.warnings)).length

theorem confirmedFrom_nil (c : PlanChange) :
    r.confirmedFrom [] c = (Text.encode (Warning.lines c.warnings)).length := rfl

theorem confirmedFrom_cons (first : PlanChange) (done : List PlanChange) (c : PlanChange) :
    r.confirmedFrom (first :: done) c =
      (Text.encode (r.lines first)).length + r.confirmedFrom done c := by
  rw [confirmedFrom, List.flatMap_cons, List.append_assoc, Text.encode_append, List.length_append,
    confirmedFrom]

variable {r} {s : Session} {limit : Nat} {c : PlanChange} {d' : Disk}

theorem commit_of_overflows (hwrite : c.apply s.disk = .ok d')
    (h : s.sink.Overflows limit (r.confirmation c.path)) :
    ∃ log, r.commit s c =
      (⟨d', s.sink.full limit (r.confirmation c.path), log⟩, .error (.io .sinkFull)) := by
  rw [commit, hwrite]
  exact ⟨_, Session.say_of_overflows h⟩

/-- Without room for its warnings a plan is not written. -/
theorem finish_of_warnings_overflow (h : s.sink.Overflows limit (Warning.lines c.warnings)) :
    ∃ log, r.finish s c =
      (⟨s.disk, s.sink.full limit (r.lines c), log⟩, .error (.io .sinkFull)) := by
  obtain ⟨log, hwarn⟩ := @Session.warn_of_overflows
    (s.logged (r.transformation.events c.path c.before)) limit c.path _ h
  refine ⟨log, ?_⟩
  rw [finish, hwarn, lines, h.full_append]
  rfl

/-- A plan is written before its confirmation turns out to have no room. -/
theorem finish_of_confirmation_overflow (hdry : r.dryRun = false)
    (hwrite : r.write s.disk c = .ok d') (hfits : s.sink.Fits (Warning.lines c.warnings))
    (h : (s.sink.add (Warning.lines c.warnings)).Overflows limit (r.confirmation c.path)) :
    ∃ log, r.finish s c =
      (⟨d', s.sink.full limit (r.lines c), log⟩, .error (.io .sinkFull)) := by
  have hwarn := @Session.warn_of_fits (s.logged (r.transformation.events c.path c.before)) c.path _
    hfits
  rw [write_eq_apply hdry] at hwrite
  obtain ⟨log, hcommit⟩ := @commit_of_overflows r
    ⟨s.disk, s.sink.add (Warning.lines c.warnings), s.log ++ r.transformation.events c.path
      c.before ++ c.warnings.map (.portPathless c.path ·.line)⟩ limit c d' hwrite h
  refine ⟨log, ?_⟩
  rw [finish, hwarn, hdry]
  simp only [Session.logged, hcommit, Bool.false_eq_true, if_false]
  rw [Sink.full_add, lines, hdry, if_neg (by decide)]

/-- Of the changes of a run, the first `n` are those whose confirmation begins within the limit, in
an output that held some bytes before. -/
structure DueWithin (r : Run) (limit held : Nat) (cs : List PlanChange) (n : Nat) : Prop where
  le : n ≤ cs.length
  lt_iff : ∀ done c rest, cs = done ++ c :: rest →
    (done.length < n ↔ held + r.confirmedFrom done c ≤ limit)

theorem length_lines (hdry : r.dryRun = false) (c : PlanChange) :
    (Text.encode (r.lines c)).length =
      r.confirmedFrom [] c + (Text.encode (r.confirmation c.path)).length := by
  rw [lines, hdry, if_neg (by decide), Text.encode_append, List.length_append, confirmedFrom_nil]

theorem dueWithin_cons {held n : Nat} {cs : List PlanChange} (hle : n ≤ cs.length + 1)
    (hfirst : 0 < n ↔ held + r.confirmedFrom [] c ≤ limit)
    (hrest : ∀ done c' rest, cs = done ++ c' :: rest →
      (done.length + 1 < n ↔
        held + (Text.encode (r.lines c)).length + r.confirmedFrom done c' ≤ limit)) :
    r.DueWithin limit held (c :: cs) n := by
  refine ⟨hle, ?_⟩
  intro done c' rest h
  cases done with
  | nil =>
      obtain ⟨rfl, -⟩ := List.cons.inj h
      exact hfirst
  | cons first done =>
      obtain ⟨rfl, rfl⟩ := List.cons.inj h
      rw [confirmedFrom_cons, List.length_cons, ← Nat.add_assoc]
      exact hrest done c' rest rfl

variable {ps : List Path} {cs : List PlanChange}

theorem processAll_of_overflows (hkeep : r.transformation.KeepsDisk) (hdry : r.dryRun = false)
    (h : r.Passes s.disk ps cs d') (hover : s.sink.Overflows limit (cs.flatMap r.lines))
    (rest : List Path) :
    ∃ n dn log, r.Passes s.disk (ps.take n) (cs.take n) dn ∧
      r.DueWithin limit s.sink.written.length cs n ∧
      r.processAll s (ps ++ rest) =
        (⟨dn, s.sink.full limit (cs.flatMap r.lines), log⟩, .error (.io .sinkFull)) := by
  generalize hd : s.disk = d at h
  induction h generalizing s with
  | nil d =>
      have hkept := hover.kept
      have hbeyond := hover.beyond
      simp [Text.encode] at hbeyond
      omega
  | @cons d d' d'' p ps c cs change write _ ih =>
      subst hd
      have hlength := length_lines hdry c
      rw [List.flatMap_cons] at hover ⊢
      have hprocess := process_of_change? hkeep change
      obtain hnow | ⟨hfits, hlater⟩ := hover.of_append
      · -- the output ends within the lines about this plan
        have hsplit : s.sink.Overflows limit
            (Warning.lines c.warnings ++ r.confirmation c.path) := by
          rwa [lines, hdry, if_neg (by decide)] at hnow
        have hbeyond := hnow.beyond
        obtain hwarnings | ⟨hfits, hconfirmation⟩ := hsplit.of_append
        · obtain ⟨log, hfinish⟩ := @finish_of_warnings_overflow r s limit c hwarnings
          refine ⟨0, s.disk, log, .nil _, dueWithin_cons (Nat.zero_le _) ?_ ?_, ?_⟩
          · have := hwarnings.beyond
            rw [← confirmedFrom_nil r] at this
            omega
          · intros
            omega
          · rw [List.cons_append, processAll, hprocess, hfinish, hnow.full_append]
        · obtain ⟨log, hfinish⟩ := finish_of_confirmation_overflow hdry write hfits hconfirmation
          refine ⟨1, d', log, .cons change write (.nil _),
            dueWithin_cons (Nat.succ_le_succ (Nat.zero_le _)) ?_ ?_, ?_⟩
          · have := hfits limit hnow.limit_eq
            rw [← confirmedFrom_nil r] at this
            omega
          · intros
            omega
          · rw [List.cons_append, processAll, hprocess, hfinish, hnow.full_append]
      · obtain ⟨n, dn, log, hpasses, hdue, hrun⟩ :=
          @ih ⟨d', s.sink.add (r.lines c), s.log ++ r.events c⟩ hlater rfl
        refine ⟨n + 1, dn, log, .cons change write hpasses,
          dueWithin_cons (Nat.succ_le_succ hdue.le) ?_ ?_, ?_⟩
        · have := hfits limit hover.limit_eq
          omega
        · intro done c' rest hcs
          have := hdue.lt_iff done c' rest hcs
          simp only [Sink.add, List.length_append] at this
          omega
        · rw [List.cons_append, processAll, hprocess, finish_of_fits write hfits]
          simp only [hrun, Sink.full_add]

/-- A run whose output was cut off, next to the same run without a limit, which passed plans with
the changes `cs`. The run that was cut off wrote the first `n` of them. -/
structure CutAt (r : Run) (d : Disk) (limit : Nat) (whole : Session.Step Report) (cut : Session)
    (files : List Path) (cs : List PlanChange) (n : Nat) : Prop where
  targets : r.targets d = .ok files
  /-- The changes are all that the other run did, whether it came to its end or failed. -/
  whole_end : ∃ failure, r.Ends d files cs whole.1.disk failure ∧ whole.2 = answerOf cs failure
  whole_output : whole.1.sink.written = Text.encode (cs.flatMap r.lines)
  output : cut.sink.written = whole.1.sink.written.take limit
  /-- Exactly the first `n` plans are written, in order. -/
  disk : r.Passes d (files.take n) (cs.take n) cut.disk
  /-- A written plan holds its new text, unless a later one was the same file. -/
  held : ∀ done c later, cs.take n = done ++ c :: later →
    (∀ c' ∈ later, ∀ loc, d.Leads c'.path loc → ¬ d.Leads c.path loc) →
      cut.disk.readText c.path = .ok c.after
  /-- Any other file is as it was. -/
  others : ∀ q, (∀ p ∈ files.take n, ∀ loc, d.Leads p loc → ¬ d.Leads q loc) →
    cut.disk.read q = d.read q
  /-- The first `n` plans are those whose confirmation begins within the limit. -/
  due : n ≤ cs.length ∧ ∀ done c rest, cs = done ++ c :: rest →
    (done.length < n ↔ r.confirmedFrom done c ≤ limit)
  /-- All warnings about a written plan came out. -/
  warned : ∀ done c rest, cs = done ++ c :: rest → done.length < n →
    Text.encode (done.flatMap r.lines ++ Warning.lines c.warnings) <+: cut.sink.written
  /-- Only a written plan has a byte of its confirmation in the output. -/
  confirmed : ∀ done c rest, cs = done ++ c :: rest →
    r.confirmedFrom done c < cut.sink.written.length → done.length < n
  /-- All written plans but the last one are confirmed in full. -/
  complete : ∀ done c rest, cs = done ++ c :: rest → done.length + 1 < n →
    Text.encode ((done ++ [c]).flatMap r.lines) <+: cut.sink.written

section
variable {done rest : List PlanChange} {out : Bytes} (hsplit : cs = done ++ c :: rest)
  (hout : out = (Text.encode (cs.flatMap r.lines)).take limit)
include hsplit hout

theorem warnings_prefix (h : r.confirmedFrom done c ≤ limit) :
    Text.encode (done.flatMap r.lines ++ Warning.lines c.warnings) <+: out := by
  have hlines : cs.flatMap r.lines = done.flatMap r.lines ++ Warning.lines c.warnings ++
      ((if r.dryRun then [] else r.confirmation c.path) ++ rest.flatMap r.lines) := by
    simp only [hsplit, List.flatMap_append, List.flatMap_cons, lines, List.append_assoc]
  rw [hout, hlines, Text.encode_append _ (_ ++ rest.flatMap r.lines), List.take_append,
    List.take_of_length_le h]
  exact List.prefix_append ..

theorem lt_of_confirmed {n : Nat} (hdue : r.DueWithin limit 0 cs n)
    (h : r.confirmedFrom done c < out.length) : done.length < n := by
  rw [hout, List.length_take] at h
  apply (hdue.lt_iff done c rest hsplit).2
  omega

theorem lines_prefix {n : Nat} (hdue : r.DueWithin limit 0 cs n) (h : done.length + 1 < n) :
    Text.encode ((done ++ [c]).flatMap r.lines) <+: out := by
  cases rest with
  | nil =>
      have hle := hdue.le
      rw [hsplit, List.length_append, List.length_singleton] at hle
      omega
  | cons next rest =>
      have hnext : cs = (done ++ [c]) ++ next :: rest := by rw [hsplit, List.append_assoc]; rfl
      have hbegin := (hdue.lt_iff _ _ _ hnext).1 (by rwa [List.length_append])
      rw [Nat.zero_add] at hbegin
      have hwarnings := warnings_prefix hnext hout hbegin
      rw [Text.encode_append] at hwarnings
      exact (List.prefix_append ..).trans hwarnings

end

theorem cutAt_of_dueWithin {d : Disk} {whole : Session.Step Report} {cut : Session}
    {files : List Path} {n : Nat} (hdry : r.dryRun = false) (htargets : r.targets d = .ok files)
    (hwhole : ∃ failure, r.Ends d files cs whole.1.disk failure ∧ whole.2 = answerOf cs failure)
    (hwritten : whole.1.sink.written = Text.encode (cs.flatMap r.lines))
    (houtput : cut.sink.written = (Text.encode (cs.flatMap r.lines)).take limit)
    (hpasses : r.Passes d (files.take n) (cs.take n) cut.disk) (hdue : r.DueWithin limit 0 cs n) :
    r.CutAt d limit whole cut files cs n where
  targets := htargets
  whole_end := hwhole
  whole_output := hwritten
  output := by rw [houtput, hwritten]
  disk := hpasses
  held _ _ _ := hpasses.readText_of_last hdry
  others _ := hpasses.read_eq
  due := by
    refine ⟨hdue.le, fun done c rest h => ?_⟩
    rw [hdue.lt_iff done c rest h, Nat.zero_add]
  warned done c rest h hlt := by
    apply warnings_prefix h houtput
    have := (hdue.lt_iff done c rest h).1 hlt
    rwa [Nat.zero_add] at this
  confirmed _ _ _ h := lt_of_confirmed h houtput hdue
  complete _ _ _ h := lines_prefix h houtput hdue

theorem perform_of_overflows {d : Disk} {rest : List Path} (hkeep : r.transformation.KeepsDisk)
    (hdry : r.dryRun = false) (htargets : r.targets d = .ok (ps ++ rest))
    (h : r.Passes d ps cs d') (hover : limit < (Text.encode (cs.flatMap r.lines)).length) :
    ∃ n dn log, r.Passes d (ps.take n) (cs.take n) dn ∧ r.DueWithin limit 0 cs n ∧
      r.perform (.start d (.limited limit)) =
        (⟨dn, (Sink.limited limit).full limit (cs.flatMap r.lines), log⟩,
          .error (.io .sinkFull)) := by
  have hover : (Sink.limited limit).Overflows limit (cs.flatMap r.lines) :=
    ⟨rfl, Nat.zero_le _, by rwa [Sink.limited, List.length_nil, Nat.zero_add]⟩
  obtain ⟨n, dn, log, hpasses, hdue, hrun⟩ := processAll_of_overflows hkeep hdry (s :=
    (Session.start d (.limited limit)).logged (r.startEvents (ps ++ rest).length)) h hover rest
  refine ⟨n, dn, log, hpasses, hdue, ?_⟩
  rw [perform, show r.targets (Session.start d (.limited limit)).disk = _ from htargets]
  simp only [hrun]
  rfl

end Run

/-- A run whose output is limited does the same as without the limit if the limit leaves room for
the whole output. Otherwise it fails with the output, which holds exactly what fits, and the plans
whose confirmation begins within the limit are written, and no others. -/
theorem limited_run_cut_off (root : Path) (config : Config) (files : Option (List Path))
    (custom : Option Transformation) (hkeep : ∀ t ∈ custom, t.KeepsDisk) (d : Disk) (limit : Nat) :
    let r : Run := ⟨root, config, files, custom, false⟩
    let whole := r.perform (.start d .unlimited)
    let cut := r.perform (.start d (.limited limit))
    (whole.1.sink.written.length ≤ limit →
      cut = ({ whole.1 with sink := ⟨some limit, whole.1.sink.written⟩ }, whole.2)) ∧
    (limit < whole.1.sink.written.length →
      cut.2 = .error (.io .sinkFull) ∧ ∃ files cs n, r.CutAt d limit whole cut.1 files cs n) := by
  intro r whole cut
  have hkeep : r.transformation.KeepsDisk := Run.keepsDisk_transformation hkeep
  cases htargets : r.targets d with
  | error e =>
      have hperform (sink : Sink) : r.perform (.start d sink) = (.start d sink, .error e) := by
        rw [Run.perform, show r.targets (Session.start d sink).disk = _ from htargets]
      have hwhole : whole = _ := hperform .unlimited
      have hcut : cut = _ := hperform (.limited limit)
      rw [hwhole, hcut]
      exact ⟨fun _ => rfl, fun h => absurd h (Nat.not_lt_zero _)⟩
  | ok files =>
      obtain ⟨cs, d', failure, hends⟩ := r.exists_ends d files
      obtain ⟨log, hperform⟩ := Run.perform_of_ends hkeep htargets hends
      have hwhole : whole = _ := hperform .unlimited (Sink.fits_of_unlimited rfl _)
      have hwritten : whole.1.sink.written = Text.encode (cs.flatMap r.lines) := by
        rw [hwhole]
        rfl
      rw [hwritten]
      constructor
      · intro hle
        have hfits : (Sink.limited limit).Fits (cs.flatMap r.lines) := by
          rintro l ⟨⟩
          rwa [Sink.limited, List.length_nil, Nat.zero_add]
        have hcut : cut = _ := hperform (.limited limit) hfits
        rw [hwhole, hcut]
        rfl
      · intro hover
        obtain ⟨done, rest, rfl, hpasses⟩ := hends.exists_passes
        obtain ⟨n, dn, log', hfirst, hdue, hrun⟩ :=
          Run.perform_of_overflows hkeep rfl htargets hpasses hover
        have hcut : cut = _ := hrun
        have hdisk : whole.1.disk = d' := by rw [hwhole]
        refine ⟨by rw [hcut], _, cs, n,
          Run.cutAt_of_dueWithin rfl htargets ⟨failure, ?_, ?_⟩ hwritten ?_ ?_ hdue⟩
        · rwa [hdisk]
        · rw [hwhole]
        · rw [hcut]
          rfl
        · rw [hcut]
          have hle : n ≤ done.length := by
            rw [hpasses.length_eq]
            exact hdue.le
          rwa [List.take_append_of_le_length hle]

/-- A transformation that makes every plan longer and warns about its first line. -/
def Transformation.appending : Transformation :=
  .ofContent "append".toList fun _ content => .ok ⟨content ++ ['!'], [⟨1, none⟩]⟩

/-- What the transformation makes of a plan. -/
def PlanChange.appended (p : Path) (t : Text) : PlanChange := ⟨p, t, t ++ ['!'], [⟨1, none⟩]⟩

/-- The changes of the run over both paths to a file. At the second one it reads what it wrote. -/
def Run.appendedTwice : List PlanChange :=
  [.appended Disk.filePath "old".toList, .appended Disk.linkPath "old!".toList]

namespace Run

theorem Passes.cons_appended {t : Text} {p : Path} {ps : List Path} {cs : List PlanChange}
    {d : Disk} (hp : p = Disk.filePath ∨ p = Disk.linkPath)
    (rest : (linked .appending).Passes (.linked (t ++ ['!'])) ps cs d) :
    (linked .appending).Passes (.linked t) (p :: ps) (.appended p t :: cs) d :=
  .cons (change?_eq_ok_iff.2 ⟨rfl, Disk.readText_linked t hp, rfl⟩) (write_linked _ t hp) rest

theorem passes_file : (linked .appending).Passes (.linked "old".toList) [Disk.filePath]
    (appendedTwice.take 1) (.linked "old!".toList) :=
  .cons_appended (.inl rfl) (.nil _)

theorem passes_file_link : (linked .appending).Passes (.linked "old".toList)
    [Disk.filePath, Disk.linkPath] appendedTwice (.linked "old!!".toList) :=
  .cons_appended (.inl rfl) (.cons_appended (.inr rfl) (.nil _))

/-- The confirmations begin behind 49 and 119 bytes. -/
theorem CutAt.count_linked {limit n : Nat} {whole : Session.Step Report} {cut : Session}
    (h : (linked .appending).CutAt (.linked "old".toList) limit whole cut
      [Disk.filePath, Disk.linkPath] appendedTwice n) :
    n = if limit < 49 then 0 else if limit < 119 then 1 else 2 := by
  obtain ⟨hle, hdue⟩ := h.due
  have hfirst := hdue [] (.appended Disk.filePath "old".toList) _ rfl
  have hsecond := hdue [.appended Disk.filePath "old".toList]
    (.appended Disk.linkPath "old!".toList) [] rfl
  rw [show confirmedFrom _ [] _ = 49 by decide +kernel] at hfirst
  rw [show confirmedFrom _ [_] _ = 119 by decide +kernel] at hsecond
  simp only [appendedTwice, List.length_cons, List.length_nil] at hle hfirst hsecond
  split
  · omega
  · split <;> omega

end Run

/-- The output is full one byte before the second confirmation, so the file holds what was written
to it by its name. With room for this byte it is written by the link too, though nothing of the
confirmation comes out. -/
theorem limited_run_cut_off_at_link :
    let r := Run.linked .appending
    let d := Disk.linked "old".toList
    let whole := r.perform (.start d .unlimited)
    let cut limit := r.perform (.start d (.limited limit))
    (∀ t ∈ r.custom, t.KeepsDisk) ∧ 119 < whole.1.sink.written.length ∧
      (cut 118).2 = .error (.io .sinkFull) ∧
      r.CutAt d 118 whole (cut 118).1 [Disk.filePath, Disk.linkPath] Run.appendedTwice 1 ∧
      (cut 118).1.disk = .linked "old!".toList ∧
      (cut 119).2 = .error (.io .sinkFull) ∧
      r.CutAt d 119 whole (cut 119).1 [Disk.filePath, Disk.linkPath] Run.appendedTwice 2 ∧
      (cut 119).1.disk = .linked "old!!".toList := by
  intro r d whole cut
  have hkeep : ∀ t ∈ r.custom, t.KeepsDisk := by
    rintro t ⟨⟩
    exact Transformation.keepsDisk_ofContent _ _
  obtain ⟨log, hperform⟩ := Run.perform_of_ends (Run.keepsDisk_transformation hkeep)
    (Run.targets_linked _ d) (.complete Run.passes_file_link)
  have hwhole : whole = _ := hperform .unlimited (Sink.fits_of_unlimited rfl _)
  have hsink : whole.1.sink = Sink.unlimited.add _ := congrArg (·.1.sink) hwhole
  have hover : 119 < whole.1.sink.written.length := by
    rw [hsink]
    decide +kernel
  have hcut (limit : Nat) (hlimit : limit < whole.1.sink.written.length) :
      (cut limit).2 = .error (.io .sinkFull) ∧
        ∃ n, r.CutAt d limit whole (cut limit).1 [Disk.filePath, Disk.linkPath]
          Run.appendedTwice n := by
    obtain ⟨-, hcut⟩ := limited_run_cut_off r.root r.config r.files r.custom hkeep d limit
    obtain ⟨herror, files, cs, n, hcut⟩ := hcut hlimit
    cases hcut.targets.symm.trans (Run.targets_linked _ d)
    obtain ⟨failure, -, hanswer⟩ := hcut.whole_end
    obtain rfl := Run.eq_of_answerOf (hanswer.symm.trans (congrArg Prod.snd hwhole))
    exact ⟨herror, n, hcut⟩
  obtain ⟨hshort, n, hfirst⟩ := hcut 118 (Nat.lt_of_succ_lt hover)
  obtain ⟨hlong, n', hboth⟩ := hcut 119 hover
  obtain rfl : n = 1 := hfirst.count_linked
  obtain rfl : n' = 2 := hboth.count_linked
  exact ⟨hkeep, hover, hshort, hfirst, (hfirst.disk.unique Run.passes_file).2, hlong, hboth,
    (hboth.disk.unique Run.passes_file_link).2⟩

end SamplerPorts
