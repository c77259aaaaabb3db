import SamplerPorts.Discovery
import SamplerPorts.Report
import SamplerPorts.Sink
import SamplerPorts.Transformation

/-!
Runs over the test plans. The plans are read, transformed and written one at a time, and the first
failure ends the run with the later plans left alone. For each plan the warnings come out before it
is written, and the confirmation after it.
-/

namespace SamplerPorts

/-- What a run works on: the disk, the output and the log so far. -/
structure Session where
  disk : Disk
  sink : Sink
  log : List Log.Event

namespace Session

def start (d : Disk) (s : Sink) : Session := ⟨d, s, []⟩

/-- What an action makes of a session, and its answer. -/
abbrev Step (α : Type) := Session × Except RunError α

def logged (s : Session) (events : List Log.Event) : Session := { s with log := s.log ++ events }

/-- Put a line into the output. -/
def say (s : Session) (line : Text) : Step Unit :=
  let (sink, answer) := s.sink.write (line ++ ['\n'])
  ({ s with sink }, answer.mapError .io)

def warn (s : Session) (path : Path) : List Warning → Step Unit
  | [] => (s, .ok ())
  | w :: more =>
      match (s.logged [.portPathless path w.line]).say ("Warning: ".toList ++ w.message) with
      | (s, .ok ()) => s.warn path more
      | (s, .error e) => (s, .error e)

end Session

/-- Write the new content of a plan, also if it is the old one. -/
def PlanChange.apply (c : PlanChange) (d : Disk) : Except RunError Disk :=
  (d.writeText c.path c.after).mapError (.unwritable c.path)

structure Run where
  root : Path
  config : Config
  /-- The plans to process, as seen from the root, if they are not to be found by the pattern. -/
  files : Option (List Path)
  /-- What to do with a plan instead of assigning ports to its samplers. -/
  custom : Option Transformation
  /-- Whether the disk is left as it is. -/
  dryRun : Bool

namespace Run

/-- The run over the test plans below a root with the standard ports. -/
def standard (root : Path) : Run := ⟨root, .standard, none, none, false⟩

def transformation (r : Run) : Transformation :=
  r.custom.getD (.ofAssigner (.ofConfig r.config))

/-- The plans of the run, in the order in which they are processed. -/
def targets (r : Run) (d : Disk) : Except RunError (List Path) :=
  match r.files with
  | some files => .ok (files.map r.root.join)
  | none => Discovery.find d r.root [r.config.pattern]

/-- What is logged when it is known how many plans there are. -/
def startEvents (r : Run) (count : Nat) : List Log.Event :=
  (if r.files.isNone then [.filesCollected r.root count] else [])
    ++ [.runStarted r.root count r.transformation.describe r.dryRun]

/-- Write a change to the disk and confirm it. -/
def commit (r : Run) (s : Session) (c : PlanChange) : Session.Step Unit :=
  match c.apply s.disk with
  | .error e => (s, .error e)
  | .ok disk =>
      ({ s with disk }.logged [.planWritten c.path (Text.encode c.after).length c.differs]).say
        ("✓ Updated ".toList ++ (c.path.shownFrom r.root).text)

def process (r : Run) (s : Session) (path : Path) : Session.Step PlanChange :=
  match s.disk.readText path with
  | .error e => (s, .error (.unreadable path e))
  | .ok before =>
      match r.transformation.apply s.disk path before with
      | (disk, .error e) => ({ s with disk }, .error e)
      | (disk, .ok out) =>
          let change : PlanChange := ⟨path, before, out.content, out.warnings⟩
          match ({ s with disk }.logged (r.transformation.events path before)).warn path
              out.warnings with
          | (s, .error e) => (s, .error e)
          | (s, .ok ()) =>
              if r.dryRun then (s, .ok change)
              else
                match r.commit s change with
                | (s, .error e) => (s, .error e)
                | (s, .ok ()) => (s, .ok change)

def processAll (r : Run) (s : Session) : List Path → Session.Step (List PlanChange)
  | [] => (s, .ok [])
  | path :: more =>
      match r.process s path with
      | (s, .error e) => (s, .error e)
      | (s, .ok change) =>
          match r.processAll s more with
          | (s, .error e) => (s, .error e)
          | (s, .ok changes) => (s, .ok (change :: changes))

/-- Find the plans, process them all and report the changes. -/
def perform (r : Run) (s : Session) : Session.Step Report :=
  match r.targets s.disk with
  | .error e => (s, .error e)
  | .ok files =>
      match r.processAll (s.logged (r.startEvents files.length)) files with
      | (s, .error e) => (s, .error e)
      | (s, .ok changes) =>
          let report := Report.ofChanges changes
          (s.logged [.runFinished report.summary], .ok report)

def performQuietly (r : Run) (d : Disk) : Disk × Except RunError Report :=
  let (s, answer) := r.perform (.start d .unlimited)
  (s.disk, answer)

/-- The patch that a run would apply. -/
def preview (r : Run) (d : Disk) : Disk × Except RunError Text :=
  let (d, answer) := { r with dryRun := true }.performQuietly d
  (d, answer.map Report.diff)

end Run
end SamplerPorts
