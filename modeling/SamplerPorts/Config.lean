import SamplerPorts.Endpoint

/-!
What a run is configured with: the ports of the two services, the ports to be replaced, how far to
look for a path and where the test plans are.
-/

namespace SamplerPorts

abbrev Port := UInt16

structure Config where
  restPort : Port
  graphQlPort : Port
  /-- The ports that are replaced. -/
  oldPorts : List Port
  /-- How many lines after a port are searched for its path. -/
  lookahead : Nat
  /-- The glob that names the test plans below the root. -/
  pattern : Text
  deriving DecidableEq

namespace Config

/-- The configuration of the command line tool. The current ports are old ports too, so a plan
that was set before is set again. -/
def standard : Config where
  restPort := 3034
  graphQlPort := 3035
  oldPorts := [3033, 3034, 3035]
  lookahead := Classifier.defaultWindow
  pattern := "test-plans/*.jmx".toList

/-- The port for an endpoint; a path of neither service has none. -/
def portOf? (config : Config) : Endpoint → Option Port
  | .rest => some config.restPort
  | .graphQl => some config.graphQlPort
  | .unrecognized => none

/-- The lines that tell the user which service got which port. -/
def overview (config : Config) : List Text :=
  ["  - REST endpoints (/api) → port ".toList ++ Text.ofNat config.restPort.toNat,
   "  - GraphQL endpoints (/graph) → port ".toList ++ Text.ofNat config.graphQlPort.toNat]

end Config
end SamplerPorts
