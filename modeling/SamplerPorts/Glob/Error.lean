import SamplerPorts.Text.Basic

/-!
Why a glob cannot be read.
-/

namespace SamplerPorts.Glob

inductive Error where
  | unclosedClass
  /-- The bounds of a range of characters, in the order in which they are written. -/
  | invalidRange (first last : Char)
  | unopenedGroup
  | unclosedGroup
  | danglingEscape
  deriving DecidableEq

def Error.message : Error → Text
  | .unclosedClass => "unclosed character class; missing ']'".toList
  | .invalidRange first last =>
      "invalid range; '".toList ++ [first] ++ "' > '".toList ++ [last] ++ "'".toList
  | .unopenedGroup =>
      "unopened alternate group; missing '\x7b' (maybe escape '\x7d' with '[\x7d]'?)".toList
  | .unclosedGroup =>
      "unclosed alternate group; missing '\x7d' (maybe escape '\x7b' with '[\x7b]'?)".toList
  | .danglingEscape => "dangling '\\'".toList

end SamplerPorts.Glob
