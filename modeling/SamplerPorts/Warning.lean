import SamplerPorts.Text.Basic

/-!
The warning about a port that could not be tied to a path.
-/

namespace SamplerPorts

structure Warning where
  /-- The line of the port, counted from one. -/
  line : Nat
  /-- How many lines after the port were read, if the rule reads a fixed number. -/
  window : Option Nat
  deriving DecidableEq

namespace Warning

/-- The warning in words. The span that it names counts the port line itself. -/
def message (w : Warning) : Text :=
  "Found port at line ".toList ++ Text.ofNat w.line ++
    match w.window with
    | some window =>
        " but no path within next ".toList ++ Text.ofNat (window + 1) ++ " lines".toList
    | none => " but no path for it".toList

end Warning
end SamplerPorts
