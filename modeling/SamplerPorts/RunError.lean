import SamplerPorts.Glob.Error
import SamplerPorts.IoError
import SamplerPorts.Path

/-!
Why a run can fail. Every error has a cause underneath, and its own words end with those of the
cause.
-/

namespace SamplerPorts

inductive RunError where
  /-- The output could not be written, or a transformation failed. -/
  | io (cause : IoError)
  | unreadable (path : Path) (cause : IoError)
  | unwritable (path : Path) (cause : IoError)
  /-- A search expression could not be read. -/
  | expression (cause : Text)
  | glob (pattern : Text) (cause : Glob.Error)
  deriving DecidableEq

namespace RunError

def cause : RunError → Text
  | io e | unreadable _ e | unwritable _ e => e.message
  | expression text => text
  | glob pattern e => "error parsing glob '".toList ++ pattern ++ "': ".toList ++ e.message

def lead : RunError → Text
  | io _ => "IO error: ".toList
  | unreadable path _ => "Failed to read ".toList ++ path.text ++ ": ".toList
  | unwritable path _ => "Failed to write ".toList ++ path.text ++ ": ".toList
  | expression _ => "Regex error: ".toList
  | glob _ _ => "Glob pattern error: ".toList

def message (e : RunError) : Text := e.lead ++ e.cause

end RunError
end SamplerPorts
