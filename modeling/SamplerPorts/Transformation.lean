import SamplerPorts.Assigner
import SamplerPorts.Disk.Access
import SamplerPorts.Log.Event
import SamplerPorts.RunError

/-!
Transformations of test plans. Next to the assigner of ports a run can be given any other
transformation; it may fail, and it may touch the disk.
-/

namespace SamplerPorts

structure Transformation where
  describe : Text
  /-- What the transformation makes of the plan with this path and content. -/
  apply : Disk → Path → Text → Disk × Except RunError Output
  /-- What is logged about a plan that was transformed. -/
  events : Path → Text → List Log.Event

namespace Transformation

/-- A transformation that leaves the disk alone. -/
def ofContent (describe : Text) (f : Path → Text → Except RunError Output) : Transformation where
  describe := describe
  apply d path content := (d, f path content)
  events _ _ := []

/-- What is logged about line `i`, counted from zero, with this verdict. -/
def eventOf? (path : Path) (i : Nat) : Verdict → Option Log.Event
  | .set endpoint port => some (.portSet path (i + 1) endpoint port.toNat)
  | .unrecognized => some (.pathUnrecognized path (i + 1))
  | .notAPort | .pathless => none

def ofAssigner (a : Assigner) : Transformation where
  describe := a.describe
  apply d _ content := (d, .ok (a.apply content))
  events path content := (a.verdicts content).zipIdx.filterMap fun (v, i) => eventOf? path i v

end Transformation
end SamplerPorts
