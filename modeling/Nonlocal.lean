import Nonlocal.Host.Machine
import Nonlocal.Main
import Nonlocal.Proofs.Binary64.Probability
import Nonlocal.Proofs.Chsh.Separable
import Nonlocal.Proofs.Chsh.Tsirelson
import Nonlocal.Proofs.Register.Expectation
import Nonlocal.Proofs.Register.Representation
import Nonlocal.Proofs.Run.Threading
import Nonlocal.Proofs.Run.TwoParty
import Nonlocal.Proofs.Register.Product
import Nonlocal.Proofs.Privacy.Distribution
import Nonlocal.Proofs.Run.Chaos
import Nonlocal.Proofs.Privacy.Metrics
import Nonlocal.Proofs.Privacy.Spectrum
import Nonlocal.Proofs.Privacy.Verdict
import Nonlocal.Proofs.Privacy.Depolarized
import Nonlocal.Proofs.Json.Fields
import Nonlocal.Proofs.Json.Values
import Nonlocal.Proofs.Binary64.Equality
import Nonlocal.Proofs.Settings.RoundTrip
import Nonlocal.Proofs.Run.Clamping
import Nonlocal.Proofs.Run.Noninterference
import Nonlocal.Proofs.Chaos.Seed
import Nonlocal.Proofs.Command.Flow
import Nonlocal.Proofs.Host.Files
import Nonlocal.Proofs.Command.Effects
import Nonlocal.Proofs.Report.Nulls
import Nonlocal.Proofs.Settings.Violations
import Nonlocal.Proofs.Settings.Factors
import Nonlocal.Proofs.Run.Budget
import Nonlocal.Proofs.Register.Depolarizing
import Nonlocal.Proofs.Privacy.Purity
import Nonlocal.Proofs.Register.Perturbing
import Nonlocal.Proofs.Register.Operators
import Nonlocal.Proofs.Register.Vectors
import Nonlocal.Proofs.Json.Objects
import Nonlocal.Proofs.Settings.Receipt
import Nonlocal.Proofs.Command.Spelling
import Nonlocal.Proofs.Chaos.Window
import Nonlocal.Proofs.Chaos.Fraction
import Nonlocal.Proofs.Report.Projection
import Nonlocal.Proofs.Run.Confidence
import Nonlocal.Proofs.Fingerprint.Norms
import Nonlocal.Proofs.Ciphertext.Digest
import Nonlocal.Proofs.Chaos.Symmetry
import Nonlocal.Proofs.Chaos.Linear
import Nonlocal.Proofs.Chaos.Logistic
import Nonlocal.Proofs.Run.Draws
