import SamplerPorts.Run

/-!
What one plan comes to in a run whose output takes all that is said about it. A plan that was read
and transformed puts its warnings into the output and, unless the run is dry, is written and
confirmed behind them (`finish_of_fits`).
-/

namespace SamplerPorts

namespace Sink

def add (s : Sink) (t : Text) : Sink := { s with written := s.written ++ Text.encode t }

/-- The sink has room for the whole text. -/
def Fits (s : Sink) (t : Text) : Prop :=
  ∀ limit ∈ s.limit, s.written.length + (Text.encode t).length ≤ limit

theorem add_nil (s : Sink) : s.add [] = s := by
  simp [add, Text.encode]

theorem add_add (s : Sink) (t u : Text) : (s.add t).add u = s.add (t ++ u) := by
  simp [add, Text.encode_append]

theorem fits_of_unlimited {s : Sink} (h : s.limit = none) (t : Text) : s.Fits t := by
  intro limit hl
  rw [h] at hl
  cases hl

theorem fits_append_iff {s : Sink} {t u : Text} :
    s.Fits (t ++ u) ↔ s.Fits t ∧ (s.add t).Fits u := by
  have hlength (limit : Nat) : s.written.length + (Text.encode (t ++ u)).length ≤ limit ↔
      s.written.length + (Text.encode t).length ≤ limit ∧
        (s.add t).written.length + (Text.encode u).length ≤ limit := by
    simp only [add, Text.encode_append, List.length_append]
    omega
  simp only [Fits, hlength]
  exact ⟨fun h => ⟨fun l hl => (h l hl).1, fun l hl => (h l hl).2⟩,
    fun h l hl => ⟨h.1 l hl, h.2 l hl⟩⟩

theorem write_of_fits {s : Sink} {t : Text} (h : s.Fits t) : s.write t = (s.add t, .ok ()) := by
  have hroom : s.room (Text.encode t).length = (Text.encode t).length := by
    cases hl : s.limit with
    | none => simp [room, hl]
    | some limit =>
        have := h limit hl
        simp only [room, hl]
        omega
  simp [write, hroom, add]

end Sink

/-- The lines of the output about some warnings. -/
def Warning.lines (ws : List Warning) : Text :=
  ws.flatMap fun w => "Warning: ".toList ++ w.message ++ ['\n']

theorem Warning.lines_cons (w : Warning) (ws : List Warning) :
    lines (w :: ws) = "Warning: ".toList ++ w.message ++ ['\n'] ++ lines ws := rfl

namespace Session

theorem say_of_fits {s : Session} {line : Text} (h : s.sink.Fits (line ++ ['\n'])) :
    s.say line = ({ s with sink := s.sink.add (line ++ ['\n']) }, .ok ()) := by
  rw [say, Sink.write_of_fits h]
  rfl

theorem warn_of_fits {s : Session} (path : Path) {ws : List Warning}
    (h : s.sink.Fits (Warning.lines ws)) :
    s.warn path ws = (⟨s.disk, s.sink.add (Warning.lines ws),
      s.log ++ ws.map fun w => .portPathless path w.line⟩, .ok ()) := by
  induction ws generalizing s with
  | nil => rw [warn, Warning.lines, List.flatMap_nil, Sink.add_nil, List.map_nil, List.append_nil]
  | cons w ws ih =>
      obtain ⟨hfirst, hrest⟩ := Sink.fits_append_iff.1 (Warning.lines_cons w ws ▸ h)
      have hsay := @say_of_fits (s.logged [.portPathless path w.line]) _ hfirst
      have hwarn := @ih { s.logged [.portPathless path w.line] with
        sink := s.sink.add ("Warning: ".toList ++ w.message ++ ['\n']) } hrest
      simp only [warn, hsay]
      refine hwarn.trans ?_
      simp only [Sink.add_add, Warning.lines_cons, List.map_cons, logged, List.append_assoc,
        List.singleton_append]

end Session

namespace Run
variable (r : Run)

def confirmation (path : Path) : Text :=
  "✓ Updated ".toList ++ (path.shownFrom r.root).text ++ ['\n']

/-- What a change puts into the output. -/
def lines (c : PlanChange) : Text :=
  Warning.lines c.warnings ++ if r.dryRun then [] else r.confirmation c.path

/-- What is logged about a change. -/
def events (c : PlanChange) : List Log.Event :=
  r.transformation.events c.path c.before ++ c.warnings.map (.portPathless c.path ·.line) ++
    if r.dryRun then [] else [.planWritten c.path (Text.encode c.after).length c.differs]

/-- The disk after the run has come past a change: unless the run is dry, the plan's new text is
written to the plan's path. -/
def write (d : Disk) (c : PlanChange) : Except RunError Disk :=
  if r.dryRun then .ok d else (d.writeText c.path c.after).mapError (.unwritable c.path)

/-- What is left to be done about a plan that was read and transformed. -/
def finish (s : Session) (c : PlanChange) : Session.Step PlanChange :=
  match (s.logged (r.transformation.events c.path c.before)).warn c.path c.warnings with
  | (s, .error e) => (s, .error e)
  | (s, .ok ()) =>
      if r.dryRun then (s, .ok c)
      else
        match r.commit s c with
        | (s, .error e) => (s, .error e)
        | (s, .ok ()) => (s, .ok c)

variable {r} {s : Session} {path : Path} {before : Text}

theorem process_of_unreadable {e : IoError} (h : s.disk.readText path = .error e) :
    r.process s path = (s, .error (.unreadable path e)) := by
  rw [process, h]

theorem process_eq_finish {out : Output} (hread : s.disk.readText path = .ok before)
    (happly : r.transformation.apply s.disk path before = (s.disk, .ok out)) :
    r.process s path = r.finish s ⟨path, before, out.content, out.warnings⟩ := by
  rw [process, hread]
  simp only [happly]
  rfl

/-- What a change does to the disk is what is to be written. -/
theorem write_eq_apply (hdry : r.dryRun = false) (d : Disk) (c : PlanChange) :
    r.write d c = c.apply d := by
  rw [write, hdry, PlanChange.apply]
  rfl

theorem commit_of_fits {c : PlanChange} {disk : Disk} (hwrite : c.apply s.disk = .ok disk)
    (h : s.sink.Fits (r.confirmation c.path)) :
    r.commit s c = (⟨disk, s.sink.add (r.confirmation c.path),
      s.log ++ [.planWritten c.path (Text.encode c.after).length c.differs]⟩, .ok ()) := by
  rw [commit, hwrite]
  exact Session.say_of_fits h

/-- A transformed plan is written if the run is not dry. -/
theorem finish_of_fits {c : PlanChange} {disk : Disk} (hwrite : r.write s.disk c = .ok disk)
    (h : s.sink.Fits (r.lines c)) :
    r.finish s c = (⟨disk, s.sink.add (r.lines c), s.log ++ r.events c⟩, .ok c) := by
  obtain ⟨hwarnings, hconfirmation⟩ := Sink.fits_append_iff.1 h
  have hwarn := @Session.warn_of_fits (s.logged (r.transformation.events c.path c.before)) c.path _
    hwarnings
  rw [finish, hwarn]
  cases hdry : r.dryRun with
  | true =>
      rw [write, hdry, if_pos rfl, Except.ok.injEq] at hwrite
      simp only [if_pos, ← hwrite, lines, events, hdry, List.append_nil, Session.logged,
        List.append_assoc]
  | false =>
      rw [write_eq_apply hdry] at hwrite
      rw [hdry, if_neg (by decide)] at hconfirmation
      have hcommit := @commit_of_fits r
        ⟨s.disk, s.sink.add (Warning.lines c.warnings), s.log ++ r.transformation.events c.path
          c.before ++ c.warnings.map (.portPathless c.path ·.line)⟩ c disk hwrite hconfirmation
      simp only [Session.logged, hcommit, Bool.false_eq_true, if_false]
      simp only [Sink.add_add, lines, events, hdry, Bool.false_eq_true, if_false, List.append_assoc]

end Run
end SamplerPorts
