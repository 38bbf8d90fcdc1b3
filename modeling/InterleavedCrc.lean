import InterleavedCrc.Plan.Construction
import InterleavedCrc.Hasher.Bench
import InterleavedCrc.Backend
import InterleavedCrc.Proofs.Remainder
import InterleavedCrc.Proofs.Reduction
import InterleavedCrc.Proofs.History
import InterleavedCrc.Proofs.Acceptance
import InterleavedCrc.Proofs.Burst
import InterleavedCrc.Proofs.Constructors
import InterleavedCrc.Proofs.Safety
import InterleavedCrc.Proofs.Dispatch
import InterleavedCrc.Proofs.Period
import InterleavedCrc.Proofs.Coherence
import InterleavedCrc.Proofs.Parity
import InterleavedCrc.Proofs.Rebuilding
import InterleavedCrc.Proofs.LinearTables
import InterleavedCrc.Proofs.Resets
import InterleavedCrc.Proofs.ZeroBytes
import InterleavedCrc.Proofs.Products
import InterleavedCrc.Proofs.Pass
import InterleavedCrc.Proofs.Rejection
import InterleavedCrc.Proofs.Stretches
import InterleavedCrc.Proofs.Offender
import InterleavedCrc.Proofs.Trailer
import InterleavedCrc.Proofs.Suffixes
import InterleavedCrc.Proofs.Affinity
import InterleavedCrc.Proofs.Enclosing
import InterleavedCrc.Proofs.PlanText
import InterleavedCrc.Proofs.FeatureSets
import InterleavedCrc.Proofs.Sweep
import InterleavedCrc.Proofs.Positions
