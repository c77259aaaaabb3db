import SamplerPorts.IoError

/-!
The output of a run. A sink may take a limited number of bytes: of a text that does not fit it
takes what fits, and then it fails.
-/

namespace SamplerPorts

structure Sink where
  /-- How many bytes the sink takes in all, if there is a limit. -/
  limit : Option Nat
  written : Bytes
  deriving DecidableEq

namespace Sink

def unlimited : Sink := ⟨none, []⟩

def limited (n : Nat) : Sink := ⟨some n, []⟩

/-- How many of the next `n` bytes the sink takes. -/
def room (s : Sink) (n : Nat) : Nat :=
  match s.limit with
  | none => n
  | some limit => min n (limit - s.written.length)

def write (s : Sink) (t : Text) : Sink × Except IoError Unit :=
  let bytes := Text.encode t
  let taken := bytes.take (s.room bytes.length)
  ({ s with written := s.written ++ taken },
    if taken.length = bytes.length then .ok () else .error .sinkFull)

end Sink
end SamplerPorts
