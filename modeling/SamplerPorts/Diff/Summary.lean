import SamplerPorts.Diff.Change

/-!
How many files and lines a run changed. A line that was set is a deleted and an inserted one, so
the deleted lines are counted.
-/

namespace SamplerPorts.Diff

structure Summary where
  files : Nat
  lines : Nat
  deriving DecidableEq

namespace Summary

def zero : Summary := ⟨0, 0⟩

/-- The summary of one file with this old and new content. -/
def of (old new : Text) : Summary :=
  let deleted := ((changes old new).flatMap Change.deleted).length
  ⟨if deleted > 0 then 1 else 0, deleted⟩

def add (a b : Summary) : Summary := ⟨a.files + b.files, a.lines + b.lines⟩

def message (s : Summary) : Text :=
  Text.ofNat s.files ++ " file(s) changed, ".toList ++ Text.ofNat s.lines
    ++ " port line(s) rewritten".toList

end Summary
end SamplerPorts.Diff
