import SamplerPorts.Run
import SamplerPorts.Log.Filter

/-!
The command line tool. It sets the ports of the test plans below the current directory in the
standard way, whatever its arguments are, and ends with an overview of the ports or with what went
wrong.
-/

namespace SamplerPorts.CommandLine

structure Invocation where
  arguments : List Text
  /-- The log filter as it was given, if it was. -/
  filter : Option Text

structure Outcome where
  disk : Disk
  output : Bytes
  errors : Text
  status : Nat

/-- The arguments that are ignored: all of them but two dashes in front. -/
def ignored : List Text → List Text
  | ['-', '-'] :: more => more
  | arguments => arguments

/-- A text whose further lines are indented as far as the first one is by its number. -/
def numbered (n : Nat) (t : Text) : Text :=
  "    ".toList ++ Text.ofNat n ++ ": ".toList
    ++ Text.join "\n       ".toList (Text.lines t) ++ ['\n']

def failure (e : RunError) : Text :=
  "Error: Failed to update test plans\n\nCaused by:\n".toList
    ++ numbered 0 e.message ++ numbered 1 e.cause

/-- What the user is told about the ports when all went well. -/
def success (config : Config) : Text :=
  "\nPort configuration updated:\n".toList ++ config.overview.flatMap (· ++ ['\n'])

def Invocation.logFilter (i : Invocation) : Log.Filter :=
  (i.filter.bind Log.Filter.ofText?).getD .standard

/-- Run the tool in the current directory of the disk. -/
def run (i : Invocation) (d : Disk) : Outcome :=
  let standard := Run.standard (.ofString ".")
  let before : List Log.Event :=
    if (ignored i.arguments).isEmpty then [] else [.argumentsIgnored (ignored i.arguments)]
  let (s, answer) := standard.perform ((Session.start d .unlimited).logged before)
  let log := i.logFilter.render s.log
  match answer with
  | .ok _ =>
      { disk := s.disk, output := s.sink.written ++ Text.encode (success standard.config)
        errors := log, status := 0 }
  | .error e =>
      { disk := s.disk, output := s.sink.written, errors := log ++ failure e, status := 1 }

end SamplerPorts.CommandLine
