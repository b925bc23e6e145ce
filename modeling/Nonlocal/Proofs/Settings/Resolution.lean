import Mathlib.Data.List.Perm.Basic
import Mathlib.Data.List.ReduceOption
import Nonlocal.Proofs.Settings.Admission

/-!
How the hyperedges of a sound plan resolve.

A hyperedge becomes a term with one factor for each qubit of the plan. Its participants carry the
settings that were chosen on them and no other qubit carries any, so that the settings in the term
are those of the hyperedge up to their order (`Hyperedge.IsSound.perm_settings`). In a sound plan
every hyperedge resolves to such a term (`HypergraphPlan.IsSound.terms_eq`), and every qubit has a
primary direction.
-/

namespace Nonlocal

variable {K : Type}

/-- The settings that a hyperedge chooses, in the order of its participants. -/
def Hyperedge.settings (axes : List (AxisSet K)) (edge : Hyperedge K) : List (Setting K) :=
  edge.choices.filterMap (setting? axes)

namespace HypergraphPlan

/-! ## Factors -/

/-- The factors after the settings of some choices have been put in their places. -/
def place (axes : List (AxisSet K)) (factors : List (Option (Setting K)))
    (choices : List (UInt64 × String)) : List (Option (Setting K)) :=
  choices.foldl (fun factors choice => factors.set choice.1.toNat (setting? axes choice)) factors

/-- The factors of a hyperedge: one for each qubit, and none where it does not take part. -/
def edgeFactors (axes : List (AxisSet K)) (edge : Hyperedge K) : List (Option (Setting K)) :=
  place axes (List.replicate axes.length none) edge.choices

/-- The term of a hyperedge that resolves. -/
def resolvedTerm (axes : List (AxisSet K)) (edge : Hyperedge K) : Term K :=
  ⟨edgeFactors axes edge, edge.sign⟩

/-- The terms of a plan whose hyperedges resolve. -/
def resolvedTerms (plan : HypergraphPlan K) : List (Term K) :=
  plan.hyperedges.map (resolvedTerm plan.axes)

theorem length_resolvedTerms (plan : HypergraphPlan K) :
    plan.resolvedTerms.length = plan.hyperedges.length :=
  List.length_map _

variable (axes : List (AxisSet K))

theorem length_place (factors : List (Option (Setting K))) (choices : List (UInt64 × String)) :
    (place axes factors choices).length = factors.length := by
  induction choices generalizing factors with
  | nil => rfl
  | cons choice rest ih => exact (ih _).trans List.length_set

theorem length_edgeFactors (edge : Hyperedge K) :
    (edgeFactors axes edge).length = axes.length :=
  (length_place axes _ _).trans List.length_replicate

theorem qubits_resolvedTerm (edge : Hyperedge K) :
    (resolvedTerm axes edge).qubits = axes.length :=
  length_edgeFactors axes edge

/-- Choices that resolve place their settings. -/
theorem resolve_eq (edge : Nat) {choices : List (UInt64 × String)}
    (resolved : ∀ choice ∈ choices, (setting? axes choice).isSome = true)
    (factors : List (Option (Setting K))) :
    resolve axes edge factors choices = .ok (place axes factors choices) := by
  induction choices generalizing factors with
  | nil => rfl
  | cons choice rest ih =>
    obtain ⟨q, selector⟩ := choice
    obtain ⟨s, chosen⟩ := Option.isSome_iff_exists.mp (resolved _ List.mem_cons_self)
    have others := ih (fun c inside => resolved c (List.mem_cons_of_mem _ inside))
      (factors.set q.toNat (some s))
    rw [place, List.foldl_cons, chosen, resolve]
    rw [setting?] at chosen
    rw [chosen]
    exact others

/-- A choice on a qubit that exists. -/
theorem lt_of_setting? {choice : UInt64 × String}
    (resolved : (setting? axes choice).isSome = true) : choice.1.toNat < axes.length := by
  rw [setting?, Option.isSome_bind] at resolved
  grind

/-- A setting that is put in an empty place is added to those that are there. -/
theorem perm_reduceOption_set {α : Type} {factors : List (Option α)} {i : Nat}
    (empty : factors[i]? = some none) (a : α) :
    (factors.set i (some a)).reduceOption.Perm (a :: factors.reduceOption) := by
  induction factors generalizing i with
  | nil => simp at empty
  | cons f rest ih =>
    cases i with
    | zero =>
      obtain rfl : f = none := by simpa using empty
      rw [List.set_cons_zero, List.reduceOption_cons_of_some, List.reduceOption_cons_of_none]
    | succ i =>
      have later := ih (i := i) (by simpa using empty)
      rw [List.set_cons_succ]
      cases f with
      | none =>
        rw [List.reduceOption_cons_of_none, List.reduceOption_cons_of_none]
        exact later
      | some b =>
        rw [List.reduceOption_cons_of_some, List.reduceOption_cons_of_some]
        exact (later.cons b).trans (.swap a b _)

/-- Choices on different qubits without a setting add their settings to those that are there. -/
theorem perm_place {choices : List (UInt64 × String)} {factors : List (Option (Setting K))}
    (resolved : ∀ choice ∈ choices, (setting? axes choice).isSome = true)
    (distinct : (choices.map Prod.fst).Nodup)
    (empty : ∀ choice ∈ choices, factors[choice.1.toNat]? = some none) :
    (place axes factors choices).reduceOption.Perm
      (choices.filterMap (setting? axes) ++ factors.reduceOption) := by
  induction choices generalizing factors with
  | nil => exact .refl _
  | cons choice rest ih =>
    obtain ⟨s, chosen⟩ := Option.isSome_iff_exists.mp (resolved _ List.mem_cons_self)
    obtain ⟨fresh, distinct⟩ := List.nodup_cons.mp distinct
    -- The remaining choices are on other qubits, whose places stay empty.
    have still (c) (inside : c ∈ rest) :
        (factors.set choice.1.toNat (some s))[c.1.toNat]? = some none := by
      have other : choice.1.toNat ≠ c.1.toNat := fun same =>
        fresh (List.mem_map.mpr ⟨c, inside, UInt64.toNat_inj.mp same.symm⟩)
      rw [List.getElem?_set_ne other]
      exact empty c (List.mem_cons_of_mem _ inside)
    have others := ih (fun c inside => resolved c (List.mem_cons_of_mem _ inside)) distinct still
    have first := perm_reduceOption_set (empty choice List.mem_cons_self) s
    rw [place, List.foldl_cons, chosen, List.filterMap_cons_some chosen]
    exact others.trans ((first.append_left _).trans List.perm_middle)

end HypergraphPlan

/-! ## Sound hyperedges -/

open HypergraphPlan

section Sound

variable [Scalar K] {axes : List (AxisSet K)} {edge : Hyperedge K}

/-- Up to their order, the settings of a sound hyperedge are those of its factors. -/
theorem Hyperedge.IsSound.perm_settings (sound : edge.IsSound axes) :
    (edgeFactors axes edge).reduceOption.Perm (edge.settings axes) := by
  have empty (choice) (inside : choice ∈ edge.choices) :
      (List.replicate axes.length (none : Option (Setting K)))[choice.1.toNat]? = some none := by
    rw [List.getElem?_replicate, if_pos (lt_of_setting? axes (sound.resolved choice inside))]
  have placed := perm_place axes sound.resolved sound.distinct empty
  rw [List.reduceOption_replicate_none, List.append_nil] at placed
  exact placed

/-- All choices of a sound hyperedge resolve. -/
theorem Hyperedge.IsSound.map_setting? (sound : edge.IsSound axes) :
    edge.choices.map (setting? axes) = (edge.settings axes).map some := by
  have resolved := sound.resolved
  unfold settings
  generalize edge.choices = choices at resolved ⊢
  induction choices with
  | nil => rfl
  | cons choice rest ih =>
    obtain ⟨first, others⟩ := List.forall_mem_cons.mp resolved
    obtain ⟨s, chosen⟩ := Option.isSome_iff_exists.mp first
    rw [List.map_cons, List.filterMap_cons_some chosen, List.map_cons, chosen, ih others]

/-- A sound hyperedge has one setting for each of its participants. -/
theorem Hyperedge.IsSound.length_settings (sound : edge.IsSound axes) :
    (edge.settings axes).length = edge.participants.length := by
  have paired : edge.choices.length = edge.participants.length := by
    rw [choices, List.length_zip, ← sound.arity, Nat.min_self]
  have same := congrArg List.length sound.map_setting?
  rw [List.length_map, List.length_map] at same
  exact same.symm.trans paired

/-- A setting of a sound hyperedge is one of the settings of an axis, which are all finite. -/
theorem isFinite_of_mem_settings (soundAxes : ∀ axis ∈ axes, AxisSet.IsSound axis)
    {s : Setting K} (chosen : s ∈ edge.settings axes) : s.isFinite = true := by
  obtain ⟨choice, -, found⟩ := List.mem_filterMap.mp chosen
  obtain ⟨axis, existing, named⟩ := Option.bind_eq_some_iff.mp found
  exact (soundAxes axis (List.mem_of_getElem? existing)).finite choice.2 s named

namespace HypergraphPlan

theorem edgeTerm_eq (sound : edge.IsSound axes) (index : Nat) :
    edgeTerm axes index edge = .ok (resolvedTerm axes edge) := by
  have resolved := resolve_eq axes index sound.resolved (List.replicate axes.length none)
  rw [edgeTerm]
  change (resolve axes index _ edge.choices >>= _) = _
  rw [resolved]
  rfl

theorem termsFrom_eq {hyperedges : List (Hyperedge K)}
    (sound : ∀ edge ∈ hyperedges, edge.IsSound axes) (index : Nat) :
    termsFrom axes index hyperedges = .ok (hyperedges.map (resolvedTerm axes)) := by
  induction hyperedges generalizing index with
  | nil => rfl
  | cons edge rest ih =>
    obtain ⟨first, others⟩ := List.forall_mem_cons.mp sound
    rw [termsFrom, edgeTerm_eq first index, ih others (index + 1)]
    rfl

/-- Sound axes show their primary directions, in order. -/
theorem exists_primaryDirectionsFrom (sound : ∀ axis ∈ axes, AxisSet.IsSound axis) (index : Nat) :
    ∃ directions, primaryDirectionsFrom index axes = .ok directions ∧
      directions.map some = axes.map fun axis => axis.primary?.map Setting.direction := by
  induction axes generalizing index with
  | nil => exact ⟨[], rfl, rfl⟩
  | cons axis rest ih =>
    obtain ⟨first, others⟩ := List.forall_mem_cons.mp sound
    obtain ⟨s, present⟩ := Option.isSome_iff_exists.mp first.primary
    obtain ⟨directions, shown, same⟩ := ih others (index + 1)
    refine ⟨s.direction :: directions, ?_, ?_⟩
    · rw [primaryDirectionsFrom, present, shown]
      rfl
    · rw [List.map_cons, List.map_cons, same, present]
      rfl

variable {plan : HypergraphPlan K}

/-- In a sound plan every hyperedge becomes a term, in order. -/
theorem IsSound.terms_eq (sound : plan.IsSound) :
    plan.terms = .ok plan.resolvedTerms :=
  termsFrom_eq sound.hyperedges 0

/-- In a sound plan every qubit has a primary direction. -/
theorem IsSound.exists_primaryDirections (sound : plan.IsSound) :
    ∃ directions, plan.primaryDirections = .ok directions :=
  (exists_primaryDirectionsFrom sound.axes 0).imp fun _ shown => shown.1

end HypergraphPlan

end Sound

end Nonlocal
