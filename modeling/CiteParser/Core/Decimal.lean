import Mathlib.Data.Int.ModEq
import Mathlib.Data.Nat.Digits.Defs
import Mathlib.Tactic.Common

/-!
# Accumulating decimal digits

Digits are read from the highest one on, each step multiplying what has been read by ten. An
accumulator of bounded size computes each sum and stores what it can hold of it. It computes
sums below its bound only exactly if the number spelled is below the bound, and one that wraps
around holds that number modulo its size.
-/

namespace CiteParser

/-- The number that digits spell, the highest one first. -/
def decimal (ds : List Nat) : Nat := Nat.ofDigits 10 ds.reverse

theorem decimal_append (ds ds' : List Nat) :
    decimal (ds ++ ds') = decimal ds' + 10 ^ ds'.length * decimal ds := by
  rw [decimal, List.reverse_append, Nat.ofDigits_append, List.length_reverse]
  rfl

theorem decimal_concat (ds : List Nat) (d : Nat) : decimal (ds ++ [d]) = decimal ds * 10 + d := by
  have hone : decimal [d] = d := Nat.ofDigits_singleton
  rw [decimal_append, hone, List.length_singleton, Nat.pow_one, Nat.mul_comm, Nat.add_comm]

/-- More digits spell no smaller number. -/
theorem decimal_le_append (ds ds' : List Nat) : decimal ds ≤ decimal (ds ++ ds') := by
  rw [decimal_append]
  exact (Nat.le_mul_of_pos_left _ (Nat.pow_pos (by decide))).trans (Nat.le_add_left _ _)

section Accumulator

variable {store : Int → Int}

/-- The sums that an accumulator computes, each before it is stored. -/
def runningSums (store : Int → Int) : Int → List Nat → List Int
  | _, [] => []
  | sum, d :: ds => (sum * 10 + d) :: runningSums store (store (sum * 10 + d)) ds

/-- An accumulator that holds every number below a bound computes such numbers only exactly if
the digits spell one. -/
theorem runningSums_within {bound : Nat} (hstore : ∀ n < bound, store (n : Nat) = (n : Nat))
    {ds : List Nat} (hds : decimal ds < bound) (ds' : List Nat) :
    (∀ x ∈ runningSums store (decimal ds) ds', 0 ≤ x ∧ x < (bound : Int)) ↔
      decimal (ds ++ ds') < bound := by
  induction ds' generalizing ds with
  | nil => simpa [runningSums] using hds
  | cons d ds' ih =>
      have hsum : (decimal ds : Int) * 10 + d = (decimal (ds ++ [d]) : Nat) := by
        rw [decimal_concat]
        push_cast
        rfl
      have hsplit : ds ++ d :: ds' = ds ++ [d] ++ ds' := by rw [List.append_assoc]; rfl
      rw [runningSums, List.forall_mem_cons, hsum, hsplit]
      by_cases hd : decimal (ds ++ [d]) < bound
      · rw [hstore _ hd, ih hd]
        exact and_iff_right ⟨Int.natCast_nonneg _, Int.ofNat_lt.mpr hd⟩
      · refine iff_of_false (fun h => hd (Int.ofNat_lt.mp h.1.2)) fun hall => hd ?_
        exact (decimal_le_append _ _).trans_lt hall

/-- An accumulator that wraps around keeps the number spelled, as far as it can hold it. -/
theorem bmod_concat (m : Nat) (ds : List Nat) (d : Nat) :
    ((decimal ds : Int).bmod m * 10 + d).bmod m = (decimal (ds ++ [d]) : Int).bmod m := by
  rw [Int.add_bmod, Int.mul_bmod, Int.bmod_bmod, ← Int.mul_bmod, ← Int.add_bmod, decimal_concat]
  push_cast
  rfl

end Accumulator

end CiteParser
