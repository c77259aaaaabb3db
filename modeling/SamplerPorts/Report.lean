import SamplerPorts.Diff.Summary
import SamplerPorts.Diff.Unified
import SamplerPorts.Warning

/-!
What a run did: one change for each test plan in the order of the run, and the summary of them all.
A plan that kept its content has a change too.
-/

namespace SamplerPorts

structure PlanChange where
  path : Path
  before : Text
  after : Text
  warnings : List Warning
  deriving DecidableEq

namespace PlanChange

/-- Whether the plan has a new content. -/
def differs (c : PlanChange) : Bool := c.before != c.after

def summary (c : PlanChange) : Diff.Summary := .of c.before c.after

def diff (c : PlanChange) : Text := Diff.unified c.before c.after c.path

end PlanChange

structure Report where
  changes : List PlanChange
  summary : Diff.Summary
  deriving DecidableEq

namespace Report

def empty : Report := ⟨[], .zero⟩

def add (r : Report) (c : PlanChange) : Report := ⟨r.changes ++ [c], r.summary.add c.summary⟩

def ofChanges (cs : List PlanChange) : Report := cs.foldl add empty

/-- How many plans have a new content. -/
def countModified (r : Report) : Nat := r.changes.countP PlanChange.differs

/-- How many ports could not be tied to a path. -/
def countWarnings (r : Report) : Nat := (r.changes.flatMap PlanChange.warnings).length

/-- The patches of the plans with a new content. -/
def diff (r : Report) : Text :=
  Text.join ['\n'] ((r.changes.filter PlanChange.differs).map PlanChange.diff)

end Report
end SamplerPorts
