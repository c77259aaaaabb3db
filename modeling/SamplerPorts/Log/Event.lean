import SamplerPorts.Diff.Summary
import SamplerPorts.Endpoint
import SamplerPorts.Path
import SamplerPorts.Text.Quoted

/-!
What a run logs. Each event belongs to a part of the program, its target, and is one line of text:
what happened, and then the details as names and values.
-/

namespace SamplerPorts.Log

inductive Event where
  | argumentsIgnored (arguments : List Text)
  | filesCollected (root : Path) (count : Nat)
  | runStarted (root : Path) (files : Nat) (transform : Text) (dryRun : Bool)
  | portSet (path : Path) (line : Nat) (endpoint : Endpoint) (port : Nat)
  | pathUnrecognized (path : Path) (line : Nat)
  | portPathless (path : Path) (line : Nat)
  | planWritten (path : Path) (bytes : Nat) (modified : Bool)
  | runFinished (summary : Diff.Summary)
  deriving DecidableEq

namespace Event

def target : Event → Text
  | argumentsIgnored _ => "fix_ports".toList
  | filesCollected _ _ => "jmx_ports::matcher::file".toList
  | runStarted _ _ _ _ | portPathless _ _ | runFinished _ => "jmx_ports::fixer".toList
  | portSet _ _ _ _ | pathUnrecognized _ _ => "jmx_ports::transform::port".toList
  | planWritten _ _ _ => "jmx_ports::transform".toList

def message : Event → Text
  | argumentsIgnored _ => "ignoring command line arguments".toList
  | filesCollected _ _ => "collected files".toList
  | runStarted _ _ _ _ => "starting port rewrite".toList
  | portSet _ _ _ _ => "rewrote sampler port".toList
  | pathUnrecognized _ _ => "path matches no known endpoint, port left as is".toList
  | portPathless _ _ => "port without path".toList
  | planWritten _ _ _ => "wrote test plan".toList
  | runFinished _ => "port rewrite finished".toList

def ofBool (b : Bool) : Text := (if b then "true" else "false").toList

def ofEndpoint : Endpoint → Text
  | .rest => "Rest".toList
  | .graphQl => "GraphQl".toList
  | .unrecognized => "Unrecognized".toList

def fields : Event → List (String × Text)
  | argumentsIgnored arguments => [("args", Text.quotedList arguments)]
  | filesCollected root count => [("root", root.text), ("count", Text.ofNat count)]
  | runStarted root files transform dryRun =>
      [("root", root.text), ("files", Text.ofNat files), ("transform", transform),
        ("dry_run", ofBool dryRun)]
  | portSet path line endpoint port =>
      [("path", path.text), ("line", Text.ofNat line), ("endpoint", ofEndpoint endpoint),
        ("port", Text.ofNat port)]
  | pathUnrecognized path line | portPathless path line =>
      [("path", path.text), ("line", Text.ofNat line)]
  | planWritten path bytes modified =>
      [("path", path.text), ("bytes", Text.ofNat bytes), ("modified", ofBool modified)]
  | runFinished summary => [("summary", summary.message)]

/-- The line of the log for an event. Every event is one for debugging. -/
def line (e : Event) : Text :=
  "DEBUG ".toList ++ e.target ++ ": ".toList ++ e.message
    ++ (e.fields.flatMap fun (name, value) => ' ' :: name.toList ++ '=' :: value) ++ ['\n']

end Event
end SamplerPorts.Log
