import Mathlib.Data.Nat.Prime.Basic
import Mathlib.Tactic.Common

/-!
# Primes by trial division

A number is prime if no odd number up to its root divides it, and neither does 2. The candidates
are halved rather than counted down, and the recursion is spelt out, for the kernel to evaluate the
test.
-/

namespace CiteParser.TrialDivision

/-- None of `2 ^ depth` numbers from `lo` on, every second one, divides the number. -/
def noDivisor (p depth : Nat) : Nat → Bool :=
  Nat.rec (fun lo => Nat.ble 1 (Nat.mod p lo))
    (fun d ih lo => Bool.rec false (ih (Nat.add lo (Nat.pow 2 (Nat.succ d)))) (ih lo)) depth

theorem noDivisor_zero (p lo : Nat) : noDivisor p 0 lo = Nat.ble 1 (p % lo) := rfl

theorem noDivisor_succ (p depth lo : Nat) : noDivisor p (depth + 1) lo =
    (noDivisor p depth lo && noDivisor p depth (lo + 2 ^ (depth + 1))) := by
  change (Bool.rec false (noDivisor p depth (lo + 2 ^ (depth + 1)))
    (noDivisor p depth lo) : Bool) = _
  cases noDivisor p depth lo <;> rfl

theorem not_dvd_of_noDivisor {p depth lo : Nat} (h : noDivisor p depth lo = true) {k : Nat}
    (hk : k < 2 ^ depth) : ¬ lo + 2 * k ∣ p := by
  induction depth generalizing lo k with
  | zero =>
      obtain rfl : k = 0 := by omega
      rw [noDivisor_zero, Nat.ble_eq] at h
      intro hdvd
      rw [Nat.mul_zero, Nat.add_zero] at hdvd
      rw [Nat.mod_eq_zero_of_dvd hdvd] at h
      contradiction
  | succ depth ih =>
      rw [noDivisor_succ, Bool.and_eq_true] at h
      rw [Nat.pow_succ] at hk
      by_cases hlow : k < 2 ^ depth
      · exact ih h.1 hlow
      · have heq : lo + 2 ^ (depth + 1) + 2 * (k - 2 ^ depth) = lo + 2 * k := by
          rw [Nat.pow_succ]
          omega
        exact heq ▸ ih h.2 (by omega)

/-- What the test has to go through. -/
def isPrime (p depth : Nat) : Bool :=
  Nat.ble 2 p && Nat.ble 1 (p % 2) && Nat.ble (p + 1) ((3 + 2 * 2 ^ depth) ^ 2) &&
    noDivisor p depth 3

theorem prime_of_isPrime {p depth : Nat} (h : isPrime p depth = true) : p.Prime := by
  rw [isPrime, Bool.and_eq_true, Bool.and_eq_true, Bool.and_eq_true, Nat.ble_eq, Nat.ble_eq,
    Nat.ble_eq] at h
  obtain ⟨⟨⟨htwo, hodd⟩, hlt⟩, hnone⟩ := h
  refine Nat.prime_def_le_sqrt.mpr ⟨htwo, fun m hm hsqrt hdvd => ?_⟩
  have hmlt : m < 3 + 2 * 2 ^ depth := hsqrt.trans_lt (Nat.sqrt_lt'.mpr hlt)
  rcases Nat.even_or_odd' m with ⟨k, rfl | rfl⟩
  · have hzero := Nat.mod_eq_zero_of_dvd ((Nat.dvd_mul_right 2 k).trans hdvd)
    omega
  · have heq : 3 + 2 * (k - 1) = 2 * k + 1 := by omega
    exact not_dvd_of_noDivisor hnone (by omega : k - 1 < 2 ^ depth) (heq ▸ hdvd)

end CiteParser.TrialDivision
