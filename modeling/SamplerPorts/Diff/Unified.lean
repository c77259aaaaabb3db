import SamplerPorts.Diff.Group
import SamplerPorts.Path

/-!
The difference of two texts as a patch: two lines that name the file and then the groups of
changes. Each line of a group has a sign, and a line without an end gets one.
-/

namespace SamplerPorts.Diff

def signed (sign : Char) (line : Text) : Text :=
  sign :: line ++ (if isEnded line then [] else ['\n'])

/-- A change in a group: the deleted lines come before the inserted ones. -/
def Change.show : Change → Text
  | .same ls => ls.flatMap (signed ' ')
  | .replace old new => old.flatMap (signed '-') ++ new.flatMap (signed '+')

def header (path : Path) : Text :=
  "--- a/".toList ++ path.text ++ "\n+++ b/".toList ++ path.text ++ "\n".toList

def unified (old new : Text) (path : Path) : Text :=
  header path ++ Text.join ['\n'] ((groups (changes old new)).map (·.flatMap Change.show))

end SamplerPorts.Diff
