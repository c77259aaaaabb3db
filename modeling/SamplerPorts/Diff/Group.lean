import SamplerPorts.Diff.Change

/-!
Groups of changes. A group shows each replaced run of lines with up to three unchanged lines on
either side; changes that are further apart than six unchanged lines are in different groups.
-/

namespace SamplerPorts.Diff

/-- How many unchanged lines are shown on either side of a replaced run. -/
def context : Nat := 3

namespace Change

/-- A run that stays, cut to the last lines of its context. -/
def keepLast : Change → Change
  | same ls => same (ls.drop (ls.length - context))
  | c => c

/-- A run that stays, cut to the first lines of its context. -/
def keepFirst : Change → Change
  | same ls => same (ls.take context)
  | c => c

/-- The changes with the unchanged lines at the two ends cut to the context. -/
def trimEnds (cs : List Change) : List Change :=
  ((cs.modifyHead keepLast).reverse.modifyHead keepFirst).reverse

end Change

/-- The groups of the given changes, of which `pending` are in the group that is still open. -/
def groupsFrom : (pending cs : List Change) → List (List Change)
  | pending, [] =>
      match pending with
      | [] | [.same _] => []
      | group => [group]
  | pending, .same ls :: cs =>
      if ls.length > 2 * context then
        (pending ++ [.same (ls.take context)])
          :: groupsFrom [.same (ls.drop (ls.length - context))] cs
      else groupsFrom (pending ++ [.same ls]) cs
  | pending, c :: cs => groupsFrom (pending ++ [c]) cs

def groups (cs : List Change) : List (List Change) := groupsFrom [] (Change.trimEnds cs)

end SamplerPorts.Diff
