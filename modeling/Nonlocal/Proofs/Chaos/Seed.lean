import Nonlocal.Chaos.Seed

/-!
Which seeds are accepted.

A seed gives a fraction exactly if it is hexadecimal (`Seed.exists_fraction_iff`): after blanks and
one mark of hexadecimal notation it goes on with a digit, and of what follows the first sixteen
characters are digits.
-/

namespace Nonlocal

namespace Text

theorem hexDigit?_lt {c : Char} {n : Nat} (digit : hexDigit? c = some n) : n < 16 := by
  have bounded {last : Char} (inside : c ≤ last) : c.toNat ≤ last.toNat := inside
  unfold hexDigit? at digit
  split at digit
  · next decimal =>
    have last : c.toNat ≤ 57 := bounded decimal.2
    cases digit
    change c.toNat - 48 < 16
    omega
  · split at digit
    · next lower =>
      have last : c.toNat ≤ 102 := bounded lower.2
      cases digit
      change c.toNat - 97 + 10 < 16
      omega
    · split at digit
      · next upper =>
        have last : c.toNat ≤ 70 := bounded upper.2
        cases digit
        change c.toNat - 65 + 10 < 16
        omega
      · cases digit

theorem digit?_sixteen (c : Char) : digit? 16 c = hexDigit? c := by
  unfold digit?
  cases digit : hexDigit? c with
  | none => rfl
  | some n => exact if_pos (decide_eq_true (hexDigit?_lt digit))

theorem exists_foldlM_iff {base : Nat} {digits : List Char} (start : Nat) :
    (∃ n, digits.foldlM (fun n c => (digit? base c).map (base * n + ·)) start = some n) ↔
      ∀ c ∈ digits, (digit? base c).isSome = true := by
  induction digits generalizing start with
  | nil => exact ⟨fun _ => List.forall_mem_nil _, fun _ => ⟨start, rfl⟩⟩
  | cons c rest ih =>
    rw [List.foldlM_cons, List.forall_mem_cons]
    cases digit? base c with
    | none => exact ⟨nofun, fun ⟨absent, _⟩ => nomatch absent⟩
    | some d => exact (ih (base * start + d)).trans ⟨fun others => ⟨rfl, others⟩, And.right⟩

theorem exists_hexValue?_iff {digits : List Char} :
    (∃ n, hexValue? digits = some n) ↔ ∀ c ∈ digits, (hexDigit? c).isSome = true := by
  simp only [← digit?_sixteen]
  exact exists_foldlM_iff 0

end Text

namespace Seed

variable {K : Type}

/-- A seed has leading digits, and all of them are digits indeed. -/
def IsHexadecimal (seed : String) : Prop :=
  leadingDigits seed ≠ [] ∧ ∀ c ∈ leadingDigits seed, (Text.hexDigit? c).isSome = true

theorem exists_upperBits_iff {seed : String} :
    (∃ n, upperBits K seed = .ok n) ↔ IsHexadecimal seed := by
  unfold IsHexadecimal
  rw [← Text.exists_hexValue?_iff]
  cases value : Text.hexValue? (leadingDigits seed) with
  | none =>
    simp [upperBits, value]
  | some n =>
    have read : upperBits K seed = if leadingDigits seed = [] then
        .error (.malformed (.seedNotHexadecimal seed)) else .ok n := by
      unfold upperBits
      simp only [value]
    rw [read]
    split
    · next blank => exact ⟨nofun, fun accepted => absurd blank accepted.1⟩
    · next digits => exact ⟨fun _ => ⟨digits, n, rfl⟩, fun _ => ⟨n, rfl⟩⟩

theorem exists_fraction_iff [Scalar K] {seed : String} :
    (∃ fraction : K, Seed.fraction seed = .ok fraction) ↔ IsHexadecimal seed := by
  rw [← exists_upperBits_iff (K := K)]
  unfold fraction
  cases upperBits K seed with
  | error e => exact ⟨nofun, nofun⟩
  | ok n => exact ⟨fun _ => ⟨n, rfl⟩, fun _ => ⟨_, rfl⟩⟩

end Seed

end Nonlocal
