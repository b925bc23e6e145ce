import Nonlocal.Json.Fault
import Nonlocal.Random.Binomial

/-!
The errors of the library, as causes. `Error.message` puts them into words; nothing else does.
-/

namespace Nonlocal

/-- What makes settings unusable. Positions count from zero. -/
inductive Defect (K : Type) where
  /-- The text is not JSON, or not JSON of the right shape. -/
  | unreadable (fault : Json.Fault)
  /-- The seed is blank. -/
  | seedBlank
  /-- The seed does not start with hexadecimal digits. -/
  | seedNotHexadecimal (seed : String)
  /-- An angle or bound of the two-party plan is infinite or undefined. -/
  | twoPartyNotFinite
  /-- The number of measured qubits cannot be simulated. -/
  | axisCount (count : Nat)
  /-- The target of the hypergraph plan is infinite or undefined. -/
  | targetNotFinite
  /-- A qubit has no primary setting. -/
  | axisWithoutPrimary (axis : Nat)
  /-- A qubit has an infinite or undefined angle. -/
  | axisNotFinite (axis : Nat)
  /-- A hyperedge names more or fewer selectors than qubits. -/
  | edgeArity (edge participants selectors : Nat)
  /-- The sign of a hyperedge is not a unit. -/
  | edgeSign (edge : Nat) (sign : K)
  /-- A hyperedge names a qubit that is not there. -/
  | edgeQubit (edge participant axes : Nat)
  /-- A hyperedge names a qubit twice. -/
  | edgeRepeats (edge participant : Nat)
  /-- A hyperedge names a setting that its qubit does not have. -/
  | edgeSelector (edge : Nat) (selector : String) (participant : Nat)
  /-- There are hyperedges and no axes for them. -/
  | edgesWithoutAxes
  /-- There is nothing to evaluate. -/
  | noPlan
  /-- A hyperedge of a plan does not resolve. -/
  | termUnresolved (edge : Nat) (selector : String) (participant : Nat)
  /-- A qubit of a plan has no primary setting to show. -/
  | primaryMissing (axis : Nat)
  /-- A term has more or fewer factors than the state has qubits. -/
  | termSize (term factors qubits : Nat)
  /-- A product state of this many qubits cannot be simulated. -/
  | productSize (qubits : Nat)
  /-- The length of a state vector is not a supported power of two. -/
  | ketLength (length : Nat)
  /-- The state vector vanishes. -/
  | ketZero
  /-- The rate of the logistic map lies outside its range. -/
  | logisticRate
  /-- An integration span is empty or has no steps. -/
  | span (name : String)
  /-- The order of the divergence is not positive, or it is one. -/
  | divergenceOrder
  /-- The scale of the ciphertext is not positive. -/
  | ciphertextScale

/-- Why a file cannot be used. -/
inductive FileFault where
  | notFound
  | notDirectory
  | isDirectory
  | nameTooLong
  | invalidEncoding
  | other (text : String)

/-- The message of a file fault. -/
def FileFault.message : FileFault → String
  | .notFound => "No such file or directory (os error 2)"
  | .notDirectory => "Not a directory (os error 20)"
  | .isDirectory => "Is a directory (os error 21)"
  | .nameTooLong => "File name too long (os error 36)"
  | .invalidEncoding => "stream did not contain valid UTF-8"
  | .other text => text

/-- What ends a program on the spot. It can happen while a sample is taken, and nothing is reported
of it. -/
inductive Panic where
  /-- The steps of an integration do not fit into a word. -/
  | stepOverflow
  /-- A draw has no answer. -/
  | unanswered
  /-- A draw counts more successes than trials. -/
  | countOverflow

/-- Why a sample cannot be taken. -/
inductive SamplingFault where
  /-- What should be the probability of an outcome is none. -/
  | improbable (fault : Binomial.Fault)
  /-- The program ends on the spot. -/
  | panic (cause : Panic)

/-- Why there is no result: an error of the library, or the end of the program. -/
inductive Error (K : Type) where
  /-- There is no settings file at the path. -/
  | settingsNotFound (path : String)
  /-- The settings are unusable. -/
  | malformed (defect : Defect K)
  /-- A file cannot be read or written. -/
  | inaccessible (path : String) (fault : FileFault)
  /-- A sample cannot be taken. -/
  | sampling (fault : SamplingFault)

/-- Does the program end on the spot? -/
def Error.isPanic {K : Type} : Error K → Bool
  | .sampling (.panic _) => true
  | .sampling (.improbable _) | .settingsNotFound _ | .malformed _ | .inaccessible _ _ => false

/-- The message of a defect. -/
def Defect.message : Defect Float → String
  | .unreadable fault => fault.message
  | .seedBlank => "qrng_seed_hex must not be empty"
  | .seedNotHexadecimal seed => s!"qrng seed `{seed}` is not a hexadecimal string"
  | .twoPartyNotFinite => "two_qubit angles and bounds must be finite numbers"
  | .axisCount count => s!"five_d.axes must describe 1..=10 qubits, got {count}"
  | .targetNotFinite => "five_d.target_violation must be finite"
  | .axisWithoutPrimary axis => s!"axis {axis} is missing the `primary` selector"
  | .axisNotFinite axis => s!"axis {axis} carries non-finite angles"
  | .edgeArity edge participants selectors =>
    s!"hyperedge {edge} lists {participants} participants but {selectors} basis selectors"
  | .edgeSign edge sign => s!"hyperedge {edge} sign must be +1 or -1, got {Decimal.plain sign}"
  | .edgeQubit edge participant axes =>
    s!"hyperedge {edge} references qubit {participant} outside {axes} axes"
  | .edgeRepeats edge participant => s!"hyperedge {edge} lists qubit {participant} twice"
  | .edgeSelector edge selector participant =>
    s!"hyperedge {edge} uses unknown selector `{selector}` on qubit {participant}"
  | .edgesWithoutAxes => "hyperedges supplied without a five_d axes section"
  | .noPlan => "settings carry neither a two_qubit nor a five_d plan"
  | .termUnresolved edge selector participant =>
    s!"hyperedge {edge} cannot resolve `{selector}` on qubit {participant}"
  | .primaryMissing axis => s!"axis {axis} is missing `primary`"
  | .termSize term factors qubits =>
    s!"correlator term {term} acts on {factors} qubits but the state holds {qubits}"
  | .productSize qubits => s!"product state needs 1..=10 qubits, got {qubits}"
  | .ketLength length => s!"state vector length {length} is not a supported power of two"
  | .ketZero => "state vector has zero norm"
  | .logisticRate => "chaos.logistic_r must lie in (0, 4]"
  | .span name => s!"chaos.{name} needs end > start, samples >= 2 and substeps >= 1"
  | .divergenceOrder => "privacy.reyni_alpha must be positive and different from 1"
  | .ciphertextScale => "fhe.ciphertext_scale must be positive"

/-- The message of a panic. -/
def Panic.message : Panic → String
  | .stepOverflow => "attempt to multiply with overflow"
  | .unanswered => "the draw has no answer"
  | .countOverflow => "attempt to subtract with overflow"

/-- The message of a fault in sampling. -/
def SamplingFault.message : SamplingFault → String
  | .improbable fault => s!"binomial sampling failed: {fault.message}"
  | .panic cause => cause.message

/-- The message of an error. -/
def Error.message : Error Float → String
  | .settingsNotFound path => s!"settings file not found: {path}"
  | .malformed defect => s!"malformed settings: {defect.message}"
  | .inaccessible path fault => s!"unable to access {path}: {fault.message}"
  | .sampling fault => fault.message

end Nonlocal
