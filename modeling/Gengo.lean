import Gengo.Budget.Bound
import Gengo.Gbc.Bounds
import Gengo.Gbc.Constants
import Gengo.Gbc.Linking
import Gengo.Gbc.RoundTrip
import Gengo.Gc.Safety
import Gengo.Generics.Availability
import Gengo.Generics.Substitution
import Gengo.Heap.Preservation
import Gengo.Heap.Recovery
import Gengo.Host.Agreement
import Gengo.Interning.Immutability
import Gengo.Messages.Isolation
import Gengo.Regexp.Quoting
import Gengo.Tasks.Outcome
import Gengo.Tasks.Protocol
import Gengo.Tasks.SpawnAtomicity
import Gengo.Tasks.Turns
import Gengo.Verifier.Soundness
import Gengo.Vm.Frames
import Gengo.Vm.Recovery
import Gengo.Wire.Codec
import Gengo.Mounts.Sandbox
import Gengo.Imports.Sandbox
import Gengo.Engines.Callbacks
import Gengo.Exchange.RoundTrip
import Gengo.Capabilities.Confinement
import Gengo.Bindings.Immutability
import Gengo.Caches.Transparency
import Gengo.Maps.Refinement
import Gengo.Maps.Compaction
import Gengo.Named.Exactness
import Gengo.Network.Endpoints
import Gengo.Network.Connections
import Gengo.Network.Specifications
import Gengo.Interfaces.Satisfaction
import Gengo.Imports.Dependencies
import Gengo.Positions.Survival
import Gengo.Positions.Deletion
import Gengo.Json.RoundTrip
import Gengo.Reentry.Balance
import Gengo.Arrays.Filter
import Gengo.Lookahead.Parser
import Gengo.Sorting.Sort
import Gengo.Strings.RuneCache
import Gengo.Operands.Faithful
import Gengo.Cuts.Separators
import Gengo.Lexing.Constants
import Gengo.Templates.Code
import Gengo.Templates.Nesting
import Gengo.Templates.Rendering
import Gengo.Bundles.Globs
import Gengo.Imports.Canonical
import Gengo.Generics.Constraints
import Gengo.Encodings.Base64
