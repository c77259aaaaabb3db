import SamplerPorts.Diff.Line
import SamplerPorts.Diff.Sliding

/-!
The difference of two texts as a list of changes: runs of lines that stay and runs of lines that
are replaced. Neighbouring edits are one change, with the deleted lines before the inserted ones.
-/

namespace SamplerPorts.Diff

/-- A run of lines that stays, or a run of old lines with what stands in their place. -/
inductive Change where
  | same (ls : List Text)
  | replace (old new : List Text)
  deriving DecidableEq

namespace Change

def old : Change → List Text
  | same ls | replace ls _ => ls

def new : Change → List Text
  | same ls | replace _ ls => ls

/-- The lines that are in the old text only. -/
def deleted : Change → List Text
  | same _ => []
  | replace ls _ => ls

/-- Put a step of a script in front of the changes behind it. -/
def addEdit : Edit → List Change → List Change
  | .keep ls, same ks :: more => same (ls ++ ks) :: more
  | .keep ls, more => same ls :: more
  | .delete ls, replace o n :: more => replace (ls ++ o) n :: more
  | .delete ls, more => replace ls [] :: more
  | .insert ls, replace o n :: more => replace o (ls ++ n) :: more
  | .insert ls, more => replace [] ls :: more

def ofScript (s : Script) : List Change := s.foldr addEdit []

theorem old_addEdit (e : Edit) (cs : List Change) :
    (addEdit e cs).flatMap old = e.old ++ cs.flatMap old := by
  fun_cases addEdit e cs <;> simp [old, Edit.old]

theorem old_ofScript (s : Script) : (ofScript s).flatMap old = s.old := by
  induction s with
  | nil => rfl
  | cons e s ih => rw [Script.old_cons, ← ih]; exact old_addEdit e (ofScript s)

theorem new_addEdit (e : Edit) (cs : List Change) :
    (addEdit e cs).flatMap new = e.new ++ cs.flatMap new := by
  fun_cases addEdit e cs <;> simp [new, Edit.new]

theorem new_ofScript (s : Script) : (ofScript s).flatMap new = s.new := by
  induction s with
  | nil => rfl
  | cons e s ih => rw [Script.new_cons, ← ih]; exact new_addEdit e (ofScript s)

end Change

/-- The changes that lead from one text to another. -/
def changes (old new : Text) : List Change :=
  Change.ofScript (between (lines old) (lines new)).settle

theorem flatMap_old_changes (old new : Text) : (changes old new).flatMap Change.old = lines old := by
  rw [changes, Change.old_ofScript, Script.old_settle, old_between]

theorem flatMap_new_changes (old new : Text) : (changes old new).flatMap Change.new = lines new := by
  rw [changes, Change.new_ofScript, Script.new_settle, new_between]

end SamplerPorts.Diff
