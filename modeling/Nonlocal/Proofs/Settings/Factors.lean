import Nonlocal.Proofs.Exact.Number
import Nonlocal.Proofs.Settings.Resolution

/-!
Which qubit of a term carries which setting.

The choices of a hyperedge are put in their places one after the other. As long as they name
different qubits no choice overwrites another one, so that a participant carries the setting that
was chosen on it (`HypergraphPlan.getElem?_place_of_mem`), any other qubit carries none, and the
order in which the participants are listed does not matter (`HypergraphPlan.place_perm`).
Main statement: `HypergraphPlan.admitted_terms`.
-/

namespace Nonlocal

variable {K : Type}

namespace HypergraphPlan

/-! ## Places -/

section Places

variable (axes : List (AxisSet K)) {choices : List (UInt64 × String)}

/-- A qubit that no choice names keeps its factor. -/
theorem getElem?_place_of_forall_ne {q : Nat} (other : ∀ choice ∈ choices, choice.1.toNat ≠ q)
    (factors : List (Option (Setting K))) :
    (place axes factors choices)[q]? = factors[q]? := by
  induction choices generalizing factors with
  | nil => rfl
  | cons choice rest ih =>
    rcases List.forall_mem_cons.mp other with ⟨first, others⟩
    rw [place, List.foldl_cons]
    exact (ih others _).trans (List.getElem?_set_ne first)

/-- A qubit that a choice names carries the setting of this choice, whatever is chosen after it. -/
theorem getElem?_place_of_mem (distinct : (choices.map Prod.fst).Nodup)
    {choice : UInt64 × String} (inside : choice ∈ choices)
    {factors : List (Option (Setting K))} (room : choice.1.toNat < factors.length) :
    (place axes factors choices)[choice.1.toNat]? = some (setting? axes choice) := by
  induction choices generalizing factors with
  | nil => cases inside
  | cons first rest ih =>
    rcases List.nodup_cons.mp distinct with ⟨fresh, distinct⟩
    rw [place, List.foldl_cons]
    rcases List.mem_cons.mp inside with rfl | later
    · have other : ∀ c ∈ rest, c.1.toNat ≠ choice.1.toNat := fun c member same =>
        fresh (List.mem_map.mpr ⟨c, member, UInt64.toNat_inj.mp same⟩)
      exact (getElem?_place_of_forall_ne axes other _).trans (List.getElem?_set_self room)
    · exact ih distinct later (by rwa [List.length_set])

/-- Choices on different qubits can be placed in any order. -/
theorem place_perm {others : List (UInt64 × String)} (same : choices.Perm others)
    (distinct : (choices.map Prod.fst).Nodup) (factors : List (Option (Setting K))) :
    place axes factors choices = place axes factors others := by
  apply same.foldl_eq'
  intro first hfirst second hsecond factors
  by_cases equal : first = second
  · rw [equal]
  · have apart : first.1.toNat ≠ second.1.toNat := fun named =>
      equal (List.inj_on_of_nodup_map distinct hfirst hsecond (UInt64.toNat_inj.mp named))
    exact List.set_comm _ _ apart

end Places

end HypergraphPlan

/-! ## Order of the participants -/

/-- The elements of a list at some positions. -/
def atPositions {α : Type} (order : List Nat) (xs : List α) : List α :=
  order.filterMap (xs[·]?)

/-- The hyperedge with its participants in another order, each with its selector. -/
def Hyperedge.reorder (edge : Hyperedge K) (order : List Nat) : Hyperedge K :=
  { edge with
    participants := atPositions order edge.participants
    basis := atPositions order edge.basis }

theorem atPositions_range {α : Type} (xs : List α) :
    atPositions (List.range xs.length) xs = xs := by
  induction xs with
  | nil => rfl
  | cons x xs ih =>
    have first : (x :: xs)[0]? = some x := rfl
    rw [atPositions, List.length_cons, List.range_succ_eq_map, List.filterMap_cons_some first,
      List.filterMap_map]
    exact congrArg (x :: ·) ih

theorem atPositions_perm {α : Type} {order : List Nat} {xs : List α}
    (permutes : order.Perm (List.range xs.length)) : (atPositions order xs).Perm xs := by
  have same : (atPositions order xs).Perm (atPositions (List.range xs.length) xs) :=
    permutes.filterMap _
  rwa [atPositions_range] at same

/-- Positions that both lists have are taken out of the pairs. -/
theorem zip_atPositions {α β : Type} {order : List Nat} {xs : List α} {ys : List β}
    (even : xs.length = ys.length) (within : ∀ i ∈ order, i < xs.length) :
    (atPositions order xs).zip (atPositions order ys) = atPositions order (xs.zip ys) := by
  induction order with
  | nil => rfl
  | cons i rest ih =>
    rcases List.forall_mem_cons.mp within with ⟨first, others⟩
    have left : xs[i]? = some xs[i] := List.getElem?_eq_getElem first
    have right : ys[i]? = some ys[i] := List.getElem?_eq_getElem (even ▸ first)
    have both : (xs.zip ys)[i]? = some (xs[i], ys[i]) :=
      List.getElem?_zip_eq_some.mpr ⟨left, right⟩
    have later := ih others
    unfold atPositions at later ⊢
    rw [List.filterMap_cons_some left, List.filterMap_cons_some right,
      List.filterMap_cons_some both, List.zip_cons_cons, later]

section Reordered

variable {edge : Hyperedge K} {order : List Nat}

theorem Hyperedge.choices_reorder (arity : edge.participants.length = edge.basis.length)
    (permutes : order.Perm (List.range edge.participants.length)) :
    (edge.reorder order).choices.Perm edge.choices := by
  have within : ∀ i ∈ order, i < edge.participants.length := fun i member =>
    List.mem_range.mp (permutes.mem_iff.mp member)
  have paired : (edge.reorder order).choices = atPositions order edge.choices :=
    zip_atPositions arity within
  have size : edge.choices.length = edge.participants.length := by
    rw [choices, List.length_zip, ← arity, Nat.min_self]
  rw [paired]
  exact atPositions_perm (size ▸ permutes)

variable [Scalar K] {axes : List (AxisSet K)}

theorem Hyperedge.IsSound.reorder (sound : edge.IsSound axes)
    (permutes : order.Perm (List.range edge.participants.length)) :
    (edge.reorder order).IsSound axes := by
  have same := choices_reorder sound.arity permutes
  refine { arity := ?_, sign := sound.sign, resolved := ?_, distinct := ?_ }
  · have participants := (atPositions_perm permutes).length_eq
    have selectors := (atPositions_perm (sound.arity ▸ permutes)).length_eq
    exact participants.trans (sound.arity.trans selectors.symm)
  · intro choice inside
    exact sound.resolved choice (same.mem_iff.mp inside)
  · exact (same.map Prod.fst).nodup_iff.mpr sound.distinct

/-- The order in which a sound hyperedge lists its participants does not show in its term. -/
theorem HypergraphPlan.edgeFactors_reorder (sound : edge.IsSound axes)
    (permutes : order.Perm (List.range edge.participants.length)) :
    edgeFactors axes (edge.reorder order) = edgeFactors axes edge :=
  (place_perm axes (Hyperedge.choices_reorder sound.arity permutes).symm sound.distinct _).symm

end Reordered

/-! ## Terms -/

/-- The term measures the participants of the hyperedge, each with the setting that its selector
names on its axis, and no other qubit. -/
structure Term.Resolves (axes : List (AxisSet K)) (edge : Hyperedge K) (t : Term K) : Prop where
  size : t.factors.length = axes.length
  sign : t.sign = edge.sign
  participant : ∀ {i : Nat} {q : UInt64}, edge.participants[i]? = some q →
    ∃ name axis s, edge.basis[i]? = some name ∧ axes[q.toNat]? = some axis ∧
      axis[name]? = some s ∧ t.factors[q.toNat]? = some (some s)
  other : ∀ q < axes.length, (∀ p ∈ edge.participants, p.toNat ≠ q) →
    t.factors[q]? = some none

variable [Scalar K]

theorem Hyperedge.IsSound.resolves {axes : List (AxisSet K)} {edge : Hyperedge K}
    (sound : edge.IsSound axes) :
    (HypergraphPlan.resolvedTerm axes edge).Resolves axes edge where
  size := HypergraphPlan.length_edgeFactors axes edge
  sign := rfl
  participant := by
    intro i q listed
    have paired : i < edge.basis.length :=
      sound.arity ▸ (List.getElem?_eq_some_iff.mp listed).1
    have named : edge.basis[i]? = some edge.basis[i] := List.getElem?_eq_getElem paired
    have inside : (q, edge.basis[i]) ∈ edge.choices :=
      List.mem_of_getElem? (List.getElem?_zip_eq_some.mpr ⟨listed, named⟩)
    have resolved := sound.resolved _ inside
    rcases Option.isSome_iff_exists.mp resolved with ⟨s, chosen⟩
    rcases Option.bind_eq_some_iff.mp chosen with ⟨axis, existing, found⟩
    have room : q.toNat < (List.replicate axes.length (none : Option (Setting K))).length := by
      rw [List.length_replicate]
      exact HypergraphPlan.lt_of_setting? axes resolved
    have placed := HypergraphPlan.getElem?_place_of_mem axes sound.distinct inside room
    exact ⟨_, axis, s, named, existing, found, placed.trans (congrArg some chosen)⟩
  other := by
    intro q room absent
    have unnamed : ∀ choice ∈ edge.choices, choice.1.toNat ≠ q := fun choice inside =>
      absent choice.1 (List.of_mem_zip inside).1
    exact (HypergraphPlan.getElem?_place_of_forall_ne axes unnamed _).trans
      (List.getElem?_replicate_of_lt room)

namespace HypergraphPlan

variable {plan : HypergraphPlan K}

/-- The primary direction of each qubit, by its number. -/
theorem IsSound.exists_directionAt (sound : plan.IsSound) :
    ∃ directions, plan.primaryDirections = .ok directions ∧ directions.length = plan.dims ∧
      ∀ (q : Nat) (axis : AxisSet K), plan.axes[q]? = some axis →
        ∃ s, axis.primary? = some s ∧ directions[q]? = some s.direction := by
  rcases exists_primaryDirectionsFrom sound.axes 0 with ⟨directions, shown, same⟩
  have size := congrArg List.length same
  rw [List.length_map, List.length_map] at size
  refine ⟨directions, shown, size, fun q axis existing => ?_⟩
  have primary := (sound.axes axis (List.mem_of_getElem? existing)).primary
  rcases Option.isSome_iff_exists.mp primary with ⟨s, present⟩
  have at_q := congrArg (·[q]?) same
  simp only [List.getElem?_map, existing, Option.map_some, present] at at_q
  exact ⟨s, present, by simpa using at_q⟩

/-- The plan with the participants of one of its hyperedges in another order. -/
def reorderEdge (plan : HypergraphPlan K) (i : Nat) (edge : Hyperedge K) (order : List Nat) :
    HypergraphPlan K :=
  { plan with hyperedges := plan.hyperedges.set i (edge.reorder order) }

theorem IsSound.reorderEdge (sound : plan.IsSound) {i : Nat} {edge : Hyperedge K}
    (listed : plan.hyperedges[i]? = some edge) {order : List Nat}
    (permutes : order.Perm (List.range edge.participants.length)) :
    (plan.reorderEdge i edge order).IsSound where
  nonempty := sound.nonempty
  bounded := sound.bounded
  target := sound.target
  axes := sound.axes
  hyperedges := by
    intro other inside
    rcases List.mem_or_eq_of_mem_set inside with kept | rfl
    · exact sound.hyperedges other kept
    · exact (sound.hyperedges edge (List.mem_of_getElem? listed)).reorder permutes

theorem IsSound.terms_reorderEdge (sound : plan.IsSound) {i : Nat} {edge : Hyperedge K}
    (listed : plan.hyperedges[i]? = some edge) {order : List Nat}
    (permutes : order.Perm (List.range edge.participants.length)) :
    (plan.reorderEdge i edge order).terms = plan.terms := by
  have soundEdge := sound.hyperedges edge (List.mem_of_getElem? listed)
  have same : resolvedTerm plan.axes (edge.reorder order) = resolvedTerm plan.axes edge := by
    rw [resolvedTerm, edgeFactors_reorder soundEdge permutes]
    rfl
  obtain ⟨_, rfl⟩ := List.getElem?_eq_some_iff.mp listed
  rw [(sound.reorderEdge listed permutes).terms_eq, sound.terms_eq]
  change Except.ok ((plan.hyperedges.set i _).map (resolvedTerm plan.axes)) = _
  rw [List.map_set, same, ← List.map_set, List.set_getElem_self]
  rfl

/-- What an admitted plan measures. Every hyperedge becomes a term, in order, which has the sign of
the hyperedge and one factor for each qubit: on a participant the setting that the selector paired
with it names on its axis, and on any other qubit none. Listing the participants of a hyperedge in
another order, each with its selector, gives an admitted plan with the same terms. And every qubit
shows the direction of its primary setting. -/
theorem admitted_terms {axes : List (AxisSet K)} {hyperedges : List (Hyperedge K)} {target : K}
    (admitted : of axes hyperedges target = .ok plan) :
    (∃ terms, plan.terms = .ok terms ∧ terms.length = plan.hyperedges.length ∧
      ∀ (i : Nat) (edge : Hyperedge K), plan.hyperedges[i]? = some edge →
        ∃ t, terms[i]? = some t ∧ t.Resolves plan.axes edge) ∧
    (∀ (i : Nat) (edge : Hyperedge K) (order : List Nat), plan.hyperedges[i]? = some edge →
      order.Perm (List.range edge.participants.length) →
      of axes (hyperedges.set i (edge.reorder order)) target =
          .ok (plan.reorderEdge i edge order) ∧
        (plan.reorderEdge i edge order).terms = plan.terms) ∧
    ∃ directions, plan.primaryDirections = .ok directions ∧ directions.length = plan.dims ∧
      ∀ (q : Nat) (axis : AxisSet K), plan.axes[q]? = some axis →
        ∃ s, axis.primary? = some s ∧ directions[q]? = some s.direction := by
  rcases of_eq_ok_iff.mp admitted with ⟨rfl, sound⟩
  refine ⟨⟨_, sound.terms_eq, length_resolvedTerms _, fun i edge listed => ?_⟩,
    fun i edge order listed permutes => ?_, ?_⟩
  · have soundEdge := sound.hyperedges edge (List.mem_of_getElem? listed)
    refine ⟨_, ?_, soundEdge.resolves⟩
    rw [resolvedTerms, List.getElem?_map, listed, Option.map_some]
  · have reordered := sound.reorderEdge listed permutes
    exact ⟨of_eq_ok_iff.mpr ⟨rfl, reordered⟩, sound.terms_reorderEdge listed permutes⟩
  · exact sound.exists_directionAt

/-- A qubit with two settings. -/
noncomputable def crossAxis : AxisSet Exact :=
  (Std.ExtTreeMap.empty.insert primarySelector ⟨.finite 1, .finite 0⟩).insert "alternate"
    ⟨.finite 1, .finite 2⟩

/-- A hyperedge that leaves out the qubit in the middle and starts at the last one. -/
noncomputable def outerEdge : Hyperedge Exact :=
  ⟨[2, 0], ["alternate", primarySelector], .finite (-1)⟩

/-- Three qubits with two settings each, and one hyperedge. -/
noncomputable def outerPlan : HypergraphPlan Exact :=
  ⟨[crossAxis, crossAxis, crossAxis], [outerEdge], .finite 1⟩

theorem crossAxis_primary : crossAxis[primarySelector]? = some ⟨.finite 1, .finite 0⟩ := by
  rw [crossAxis, Std.ExtTreeMap.getElem?_insert, Std.ExtTreeMap.getElem?_insert]
  rfl

theorem crossAxis_alternate : crossAxis["alternate"]? = some ⟨.finite 1, .finite 2⟩ := by
  simp [crossAxis]

theorem crossAxis_isSound : AxisSet.IsSound crossAxis where
  primary := by
    simp [AxisSet.primary?, crossAxis]
  finite := by
    intro name s named
    rw [crossAxis, Std.ExtTreeMap.getElem?_insert, Std.ExtTreeMap.getElem?_insert] at named
    split at named
    · cases named
      rfl
    · split at named
      · cases named
        rfl
      · simp at named

theorem setting?_outerPlan {q : UInt64} (existing : q.toNat < 3) (name : String) :
    setting? outerPlan.axes (q, name) = crossAxis[name]? := by
  have axis : outerPlan.axes[q.toNat]? = some crossAxis :=
    List.getElem?_replicate_of_lt (n := 3) existing
  rw [setting?, axis]
  rfl

theorem outerPlan_isSound : outerPlan.IsSound where
  nonempty := by decide
  bounded := by decide
  target := rfl
  axes := by
    intro axis inside
    rw [List.eq_of_mem_replicate (n := 3) inside]
    exact crossAxis_isSound
  hyperedges := by
    intro edge inside
    rcases List.mem_singleton.mp inside with rfl
    refine { arity := rfl, sign := ?_, resolved := ?_, distinct := by decide }
    · simp [outerEdge]
    · simp [outerEdge, Hyperedge.choices, setting?_outerPlan, crossAxis]

/-- The last qubit carries its second setting, the first one its primary setting and the one between
them none, in whichever order the two are listed. -/
theorem admitted_terms_outer :
    of outerPlan.axes outerPlan.hyperedges outerPlan.targetViolation = .ok outerPlan ∧
    [1, 0].Perm (List.range outerEdge.participants.length) ∧
    outerEdge.reorder [1, 0] = ⟨[0, 2], [primarySelector, "alternate"], .finite (-1)⟩ ∧
    ∃ t, outerPlan.terms = .ok [t] ∧
      (outerPlan.reorderEdge 0 outerEdge [1, 0]).terms = .ok [t] ∧
      t.factors = [some ⟨.finite 1, .finite 0⟩, none, some ⟨.finite 1, .finite 2⟩] ∧
      t.sign = .finite (-1) := by
  have admitted : of outerPlan.axes outerPlan.hyperedges outerPlan.targetViolation =
      .ok outerPlan := of_eq_ok_iff.mpr ⟨rfl, outerPlan_isSound⟩
  have swapped : [1, 0].Perm (List.range outerEdge.participants.length) := .swap 0 1 []
  rcases admitted_terms admitted with ⟨⟨terms, found, size, resolved⟩, reordered, -⟩
  rcases resolved 0 outerEdge rfl with ⟨t, listed, size_t, sign, participant, other⟩
  rcases List.length_eq_one_iff.mp size with ⟨t', rfl⟩
  cases listed
  refine ⟨admitted, swapped, rfl, t, found, ?_, ?_, sign⟩
  · exact (reordered 0 outerEdge [1, 0] rfl swapped).2.trans found
  · have last : t.factors[2]? = some (some ⟨.finite 1, .finite 2⟩) := by
      rcases participant (i := 0) (q := 2) rfl with ⟨_, _, s, ⟨⟩, ⟨⟩, named, carried⟩
      rwa [Option.some_inj.mp (named.symm.trans crossAxis_alternate)] at carried
    have first : t.factors[0]? = some (some ⟨.finite 1, .finite 0⟩) := by
      rcases participant (i := 1) (q := 0) rfl with ⟨_, _, s, ⟨⟩, ⟨⟩, named, carried⟩
      rwa [Option.some_inj.mp (named.symm.trans crossAxis_primary)] at carried
    have middle : t.factors[1]? = some none := other 1 (by decide) (by simp [outerEdge])
    rcases List.length_eq_three.mp size_t with ⟨a, b, c, shape⟩
    rw [shape] at first middle last ⊢
    cases first
    cases middle
    cases last
    rfl

end HypergraphPlan

end Nonlocal
