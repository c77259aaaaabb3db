import SamplerPorts.Config
import SamplerPorts.PortValue
import SamplerPorts.Warning

/-!
Assigning ports to the samplers of a test plan. Each line gets a verdict from the lines of the plan
as it was read, and the new content and the warnings are both read off the verdicts, so that no
line that was set is ever looked at again.
-/

namespace SamplerPorts

/-- What happens to one line. -/
inductive Verdict where
  /-- The line holds none of the old ports and is kept. -/
  | notAPort
  /-- The port values of the line are set to the port of the endpoint. -/
  | set (endpoint : Endpoint) (port : Port)
  /-- The path belongs to neither service, so the line is kept. -/
  | unrecognized
  /-- No path was found, so the line is kept and warned about. -/
  | pathless
  deriving DecidableEq

def Verdict.newLine : Verdict → Text → Text
  | .set _ port, line => PortValue.setAll (PortValue.written port.toNat) line
  | _, line => line

/-- What a transformation makes of a test plan. -/
structure Output where
  content : Text
  warnings : List Warning
  deriving DecidableEq

structure Assigner where
  config : Config
  classifier : Classifier

namespace Assigner

/-- The assigner that looks ahead as far as its configuration says. -/
def ofConfig (config : Config) : Assigner := ⟨config, .lookahead config.lookahead⟩

/-- Whether the assigner is responsible for the line. -/
def handles (a : Assigner) (line : Text) : Bool :=
  PortValue.holdsOneOf (a.config.oldPorts.map (·.toNat)) line

/-- The verdict on line `i` of the given lines, whose text is `line`. -/
def verdict (a : Assigner) (ls : List Text) (i : Nat) (line : Text) : Verdict :=
  if a.handles line then
    match a.classifier.classify ls i with
    | none => .pathless
    | some endpoint =>
        match a.config.portOf? endpoint with
        | some port => .set endpoint port
        | none => .unrecognized
  else .notAPort

def verdicts (a : Assigner) (source : Text) : List Verdict :=
  (Text.lines source).mapIdx fun i line => a.verdict (Text.lines source) i line

def newLines (a : Assigner) (ls : List Text) : List Text :=
  ls.mapIdx fun i line => (a.verdict ls i line).newLine line

/-- The lines warned about, counted from one. -/
def warnedLines (a : Assigner) (source : Text) : List Nat :=
  (a.verdicts source).zipIdx.filterMap fun (v, i) => if v = .pathless then some (i + 1) else none

/-- The new content of a plan and the warnings about it, in the order of the lines. -/
def apply (a : Assigner) (source : Text) : Output where
  content := Text.unlines (a.newLines (Text.lines source))
  warnings := (a.warnedLines source).map (⟨·, a.classifier.window⟩)

def describe (a : Assigner) : Text :=
  "Set REST ports to ".toList ++ Text.ofNat a.config.restPort.toNat
    ++ " and GraphQL ports to ".toList ++ Text.ofNat a.config.graphQlPort.toNat
    ++ " (".toList ++ a.classifier.describe ++ ")".toList

end Assigner
end SamplerPorts
