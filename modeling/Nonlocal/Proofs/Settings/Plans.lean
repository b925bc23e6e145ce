import Nonlocal.Proofs.Json.Fields
import Nonlocal.Proofs.Settings.Admission
import Nonlocal.Settings.Codec

/-!
What the settings ask for.

Settings that are accepted give the two-party plan, if they have one, and then at most one
hypergraph plan, which is sound (`BridgeSettings.isSound_of_plans`). Each half is read from its own
sections, so that it stays when the sections of the other are removed.
-/

namespace Nonlocal

variable {K : Type} [Scalar K]

/-- A hypergraph plan resolves; a two-party plan can always be evaluated. -/
def EvaluationPlan.IsSound : EvaluationPlan K → Prop
  | .twoParty _ => True
  | .hypergraph plan => plan.IsSound

namespace BridgeSettings

variable {s : BridgeSettings K} {plans two many : List (EvaluationPlan K)}

/-- The settings without the sections of the hypergraph plan. -/
def withoutHypergraph (s : BridgeSettings K) : BridgeSettings K :=
  { s with fiveD := none, hyperedges := [] }

/-- The settings without the section of the two-party plan. -/
def withoutTwoParty (s : BridgeSettings K) : BridgeSettings K :=
  { s with twoQubit := none }

theorem plans_eq_ok_iff :
    s.plans = .ok plans ↔
      ∃ two many, s.twoPartyPlans = .ok two ∧ s.hypergraphPlans = .ok many ∧
        plans = two ++ many := by
  rw [BridgeSettings.plans]
  cases s.twoPartyPlans with
  | error e => exact ⟨nofun, fun ⟨_, _, absent, _⟩ => nomatch absent⟩
  | ok two =>
    cases s.hypergraphPlans with
    | error e => exact ⟨nofun, fun ⟨_, _, _, absent, _⟩ => nomatch absent⟩
    | ok many =>
      constructor
      · intro found
        exact ⟨two, many, rfl, rfl, (Except.ok.inj found).symm⟩
      · rintro ⟨two', many', sameTwo, sameMany, rfl⟩
        rw [sameTwo, sameMany]
        rfl

theorem twoPartyPlans_of_isFinite {plan : TwoPartyPlan K} (present : s.twoQubit = some plan)
    (finite : plan.isFinite = true) : s.twoPartyPlans = .ok [.twoParty plan] := by
  rw [twoPartyPlans, present]
  exact if_pos finite

theorem plans_of_not_isFinite {plan : TwoPartyPlan K} (present : s.twoQubit = some plan)
    (infinite : plan.isFinite = false) : s.plans = .error (.malformed .twoPartyNotFinite) := by
  have refused : s.twoPartyPlans = .error (.malformed .twoPartyNotFinite) := by
    rw [twoPartyPlans, present]
    exact if_neg (Bool.not_eq_true _ ▸ infinite)
  rw [plans, refused]
  rfl

theorem twoPartyPlans_eq_ok (found : s.twoPartyPlans = .ok two) :
    two = s.twoQubit.toList.map .twoParty := by
  rw [twoPartyPlans] at found
  split at found
  · next absent =>
    rw [absent]
    exact (Except.ok.inj found).symm
  · next plan present =>
    rw [present]
    split at found
    · exact (Except.ok.inj found).symm
    · cases found

theorem hypergraphPlans_eq_ok (found : s.hypergraphPlans = .ok many) :
    ∃ plan : Option (HypergraphPlan K), many = plan.toList.map .hypergraph ∧
      ∀ p ∈ plan, p.IsSound := by
  rw [hypergraphPlans] at found
  split at found
  · next axesPart _ =>
    cases made : HypergraphPlan.of axesPart.axes s.hyperedges axesPart.targetViolation with
    | error e =>
      rw [made] at found
      cases found
    | ok plan =>
      rw [made] at found
      obtain ⟨-, sound⟩ := HypergraphPlan.of_eq_ok_iff.mp made
      exact ⟨some plan, (Except.ok.inj found).symm, fun p same => Option.some.inj same ▸ sound⟩
  · split at found
    · exact ⟨none, (Except.ok.inj found).symm, nofun⟩
    · cases found

theorem isFinite_of_twoPartyPlans (found : s.twoPartyPlans = .ok two) :
    ∀ plan ∈ s.twoQubit, plan.isFinite = true := by
  intro plan present
  rw [twoPartyPlans, present] at found
  change (if plan.isFinite = true then _ else _) = _ at found
  split at found
  · assumption
  · cases found

theorem isSound_of_hypergraphPlans (found : s.hypergraphPlans = .ok many) :
    ∀ part ∈ s.fiveD, HypergraphPlan.IsSound ⟨part.axes, s.hyperedges, part.targetViolation⟩ := by
  intro part present
  rw [hypergraphPlans, present] at found
  obtain ⟨plan, made, -⟩ := Json.bind_eq_ok.mp found
  obtain ⟨rfl, sound⟩ := HypergraphPlan.of_eq_ok_iff.mp made
  exact sound

theorem hyperedges_of_hypergraphPlans (found : s.hypergraphPlans = .ok many)
    (absent : s.fiveD = none) : s.hyperedges = [] := by
  rw [hypergraphPlans, absent] at found
  change (if s.hyperedges.isEmpty = true then _ else _) = _ at found
  split at found
  · next empty => exact List.isEmpty_iff.mp empty
  · cases found

theorem isSound_of_plans (found : s.plans = .ok plans) : ∀ plan ∈ plans, plan.IsSound := by
  obtain ⟨two, many, foundTwo, foundMany, rfl⟩ := plans_eq_ok_iff.mp found
  obtain ⟨plan, rfl, sound⟩ := hypergraphPlans_eq_ok foundMany
  rw [twoPartyPlans_eq_ok foundTwo]
  intro p member
  rcases List.mem_append.mp member with first | second
  · obtain ⟨-, -, rfl⟩ := List.mem_map.mp first
    trivial
  · obtain ⟨h, inside, rfl⟩ := List.mem_map.mp second
    exact sound h (Option.mem_toList.mp inside)

/-- The hyperedges of a hypergraph plan are those of the settings. -/
theorem hyperedges_of_mem_plans {plan : HypergraphPlan K} (found : s.plans = .ok plans)
    (inside : .hypergraph plan ∈ plans) : plan.hyperedges = s.hyperedges := by
  rcases plans_eq_ok_iff.mp found with ⟨two, many, foundTwo, foundMany, rfl⟩
  rw [twoPartyPlans_eq_ok foundTwo] at inside
  have listed : .hypergraph plan ∈ many := by simpa using inside
  rw [hypergraphPlans] at foundMany
  split at foundMany
  · rcases Json.bind_eq_ok.mp foundMany with ⟨made, accepted, same⟩
    cases same
    rcases HypergraphPlan.of_eq_ok_iff.mp accepted with ⟨rfl, -⟩
    cases List.mem_singleton.mp listed
    rfl
  · split at foundMany
    · cases foundMany
      cases listed
    · cases foundMany

theorem validate_eq_ok_iff :
    s.validate = .ok () ↔ s.seedIsBlank = false ∧ ∃ plans, s.plans = .ok plans := by
  unfold validate
  split
  · next blank => exact ⟨nofun, fun ⟨named, _⟩ => nomatch blank.symm.trans named⟩
  · next named =>
    rw [Json.map_eq_ok]
    constructor
    · rintro ⟨plans, found, -⟩
      exact ⟨Bool.not_eq_true _ ▸ named, plans, found⟩
    · rintro ⟨-, plans, found⟩
      exact ⟨plans, found, rfl⟩

theorem ofText_eq_ok_iff {content : String} {s : BridgeSettings Float} :
    ofText content = .ok s ↔ Json.decodeText decode content = .ok s ∧ s.validate = .ok () := by
  unfold ofText
  cases Json.decodeText decode content with
  | error fault => exact ⟨nofun, fun ⟨absent, _⟩ => nomatch absent⟩
  | ok settings =>
    change (settings.validate >>= fun _ => .ok settings) = _ ↔ _
    rw [Json.bind_eq_ok]
    constructor
    · rintro ⟨⟨⟩, valid, same⟩
      cases same
      exact ⟨rfl, valid⟩
    · rintro ⟨same, valid⟩
      cases same
      exact ⟨(), valid, rfl⟩

/-- Plans of both kinds come from the two halves of the settings, the two-party plan first. -/
theorem eq_pair_of_plans {plan : TwoPartyPlan K} {hyper : HypergraphPlan K}
    (found : s.plans = .ok plans) (first : .twoParty plan ∈ plans)
    (second : .hypergraph hyper ∈ plans) :
    s.twoPartyPlans = .ok [.twoParty plan] ∧ s.hypergraphPlans = .ok [.hypergraph hyper] ∧
      plans = [.twoParty plan, .hypergraph hyper] := by
  obtain ⟨two, many, foundTwo, foundMany, rfl⟩ := plans_eq_ok_iff.mp found
  obtain ⟨hyper', rfl, -⟩ := hypergraphPlans_eq_ok foundMany
  obtain rfl := twoPartyPlans_eq_ok foundTwo
  have present : s.twoQubit = some plan := by
    simpa using first
  have resolved : hyper' = some hyper := by
    simpa using second
  rw [present] at foundTwo ⊢
  rw [resolved] at foundMany ⊢
  exact ⟨foundTwo, foundMany, rfl⟩

theorem plans_withoutHypergraph (found : s.twoPartyPlans = .ok two) :
    s.withoutHypergraph.plans = .ok two :=
  plans_eq_ok_iff.mpr ⟨two, [], found, rfl, (List.append_nil two).symm⟩

theorem plans_withoutTwoParty (found : s.hypergraphPlans = .ok many) :
    s.withoutTwoParty.plans = .ok many :=
  plans_eq_ok_iff.mpr ⟨[], many, rfl, found, rfl⟩

end BridgeSettings

end Nonlocal
