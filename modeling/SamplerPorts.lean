import SamplerPorts.Main
import SamplerPorts.Proofs.Rerun
import SamplerPorts.Proofs.CommandLine
import SamplerPorts.Proofs.Reordering
import SamplerPorts.Proofs.CutOff
import SamplerPorts.Proofs.LineFates
import SamplerPorts.Proofs.ChangeCounts
import SamplerPorts.Proofs.HandledLines
import SamplerPorts.Proofs.Discovering
import SamplerPorts.Proofs.CountedLines
import SamplerPorts.Proofs.Diff.Common
import SamplerPorts.Proofs.Diff.Fronts
import SamplerPorts.Proofs.Diff.Meeting
import SamplerPorts.Proofs.Diff.Shortest
import SamplerPorts.Proofs.ValuePlaces
import SamplerPorts.Proofs.Reconfiguration
import SamplerPorts.Proofs.Visiting
import SamplerPorts.Proofs.DepthBound
import SamplerPorts.Proofs.Windows
import SamplerPorts.Proofs.Diff.Patches
import SamplerPorts.Proofs.SpelledPaths
import SamplerPorts.Proofs.LineEnds
import SamplerPorts.Proofs.RelativePaths
import SamplerPorts.Proofs.RootSpelling
