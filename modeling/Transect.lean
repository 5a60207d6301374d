import Transect.Main
import Transect.Model.Text
import Transect.Proofs.Exact
import Transect.Proofs.ExactLinear
import Transect.Proofs.Welford
import Transect.Proofs.Queries
import Transect.Proofs.Reference
import Transect.Proofs.ExactMatch
import Transect.Proofs.SampleRate
import Transect.Proofs.Lifecycle
import Transect.Proofs.ShippedSamplers
import Transect.Proofs.FlatImages
import Transect.Proofs.NoDrift
import Transect.Proofs.Tracking
import Transect.Proofs.UnusableModels
import Transect.Proofs.Distances
import Transect.Proofs.SingularCovariances
import Transect.Proofs.RealLookups
import Transect.Proofs.SamplePositions
import Transect.Proofs.BestPositions
import Transect.Proofs.Operations
import Transect.Proofs.Transparency
import Transect.Proofs.LitSamples
import Transect.Proofs.Lighting
import Transect.Proofs.Movements
import Transect.Proofs.Orbits
import Transect.Proofs.UnitSpacing
import Transect.Proofs.UndefinedScores
import Transect.Proofs.SafeInverses
import Transect.Proofs.NonnegativeSamples
import Transect.Proofs.Simplex
import Transect.Proofs.TotalSearches
import Transect.Proofs.ConditionNumbers
import Transect.Proofs.ComponentOrder
import Transect.Proofs.BandOrder
import Transect.Proofs.BandPermutations
import Transect.Proofs.NearestPixels
import Transect.Proofs.SwappedLines
import Transect.Proofs.SwappedRuns
