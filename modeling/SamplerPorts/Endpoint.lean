import SamplerPorts.Text.Basic

/-!
The service that a sampler's path belongs to, and how a port line is tied to a path. The lookahead
classifier reads the lines after a port, as many as its window, and goes by the first path line.
-/

namespace SamplerPorts

/-- What a path line says about the service behind it. -/
inductive Endpoint where
  | rest
  | graphQl
  | unrecognized
  deriving DecidableEq, Repr

namespace Endpoint

/-- The mark of a line that holds a sampler's path. -/
def pathKey : Text := "HTTPSampler.path".toList

/-- A path line that names both services belongs to REST. -/
def ofPathLine (line : Text) : Endpoint :=
  if Text.has "/api".toList line then .rest
  else if Text.has "/graph".toList line then .graphQl
  else .unrecognized

end Endpoint

/-- A rule that ties a port line to an endpoint. -/
structure Classifier where
  /-- The endpoint for the line with this index, counted from zero, if the rule finds a path. -/
  classify : List Text → Nat → Option Endpoint
  /-- How many lines after the port the rule reads, if it reads a fixed number. -/
  window : Option Nat
  describe : Text

namespace Classifier

def defaultWindow : Nat := 9

/-- The endpoint of the first path line among the `window` lines after the port. -/
def lookahead (window : Nat) : Classifier where
  classify ls port :=
    (((ls.drop (port + 1)).take window).find? (Text.has Endpoint.pathKey)).map Endpoint.ofPathLine
  window := some window
  describe := "First HTTPSampler.path within ".toList ++ Text.ofNat window
    ++ " lines after the port".toList

end Classifier
end SamplerPorts
