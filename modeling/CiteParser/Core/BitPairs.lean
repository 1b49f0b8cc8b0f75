import Mathlib.Logic.Function.Basic
import Mathlib.Tactic.Common

/-!
# Pairs of bits in words

An array that has two bits for each index, sixteen indices to a word. A mask that is shifted to the
place of an index changes the bits of that index and no others.
-/

namespace CiteParser.BitPairs

variable {words : Nat → BitVec 32} {mask : BitVec 32} {i j bit : Nat}

/-- The lower bit of an index, or the upper one. -/
def bitOf (words : Nat → BitVec 32) (i bit : Nat) : Bool :=
  (words (i / 16)).getLsbD (2 * (i % 16) + bit)

/-- The word of an index is replaced. -/
def setWord (words : Nat → BitVec 32) (i : Nat) (f : BitVec 32 → BitVec 32) : Nat → BitVec 32 :=
  Function.update words (i / 16) (f (words (i / 16)))

/-- A mask that has been shifted to the place of an index has bits there only. -/
theorem getLsbD_shiftLeft_pair {r s : Nat} (hmask : mask.toNat < 4) (hbit : bit < 2) (hr : r < 16) :
    (mask <<< (2 * s)).getLsbD (2 * r + bit) = (decide (r = s) && mask.getLsbD bit) := by
  have hhigh (k : Nat) (hk : 2 ≤ k) : mask.getLsbD k = false := by
    have hle : 2 ^ 2 ≤ 2 ^ k := Nat.pow_le_pow_right (by decide) hk
    exact Nat.testBit_lt_two_pow (by omega)
  rw [BitVec.getLsbD_shiftLeft, decide_eq_true (by omega : 2 * r + bit < 32), Bool.true_and]
  rcases Nat.lt_trichotomy r s with hlt | rfl | hgt
  · rw [decide_eq_true (by omega : 2 * r + bit < 2 * s), decide_eq_false (by omega : ¬ r = s)]
    rfl
  · rw [decide_eq_false (by omega : ¬ 2 * r + bit < 2 * r), decide_eq_true rfl,
      Nat.add_sub_cancel_left]
    rfl
  · rw [decide_eq_false (by omega : ¬ 2 * r + bit < 2 * s), decide_eq_false (by omega : ¬ r = s),
      hhigh _ (by omega)]
    rfl

/-- The bit is read in the word of the index. -/
theorem bitOf_setWord (f : BitVec 32 → BitVec 32) : bitOf (setWord words i f) j bit =
    if i / 16 = j / 16 then (f (words (j / 16))).getLsbD (2 * (j % 16) + bit)
    else bitOf words j bit := by
  rw [bitOf, setWord]
  split
  next heq => rw [heq, Function.update_self]
  next hne => rw [Function.update_of_ne (Ne.symm hne), bitOf]

/-- Indices in one word are told apart by their places. -/
theorem eq_iff_place (h : i / 16 = j / 16) : j % 16 = i % 16 ↔ i = j := by
  omega

/-- Bits are cleared. -/
theorem bitOf_clear (mask : BitVec 32) (hmask : mask.toNat < 4) (hbit : bit < 2) :
    bitOf (setWord words i fun w => w &&& ~~~(mask <<< (2 * (i % 16)))) j bit =
      (bitOf words j bit && !(decide (i = j) && mask.getLsbD bit)) := by
  rw [bitOf_setWord]
  split
  next heq =>
    have hin : 2 * (j % 16) + bit < 32 := by omega
    rw [BitVec.getLsbD_and, BitVec.getLsbD_not, decide_eq_true hin, Bool.true_and,
      getLsbD_shiftLeft_pair hmask hbit (by omega), decide_eq_decide.mpr (eq_iff_place heq), bitOf]
  next hne =>
    have hij : i ≠ j := fun heq => hne (congrArg (· / 16) heq)
    rw [decide_eq_false hij, Bool.false_and, Bool.not_false, Bool.and_true]

/-- Bits are set. -/
theorem bitOf_set (mask : BitVec 32) (hmask : mask.toNat < 4) (hbit : bit < 2) :
    bitOf (setWord words i fun w => w ||| mask <<< (2 * (i % 16))) j bit =
      (bitOf words j bit || (decide (i = j) && mask.getLsbD bit)) := by
  rw [bitOf_setWord]
  split
  next heq =>
    rw [BitVec.getLsbD_or, getLsbD_shiftLeft_pair hmask hbit (by omega),
      decide_eq_decide.mpr (eq_iff_place heq), bitOf]
  next hne =>
    have hij : i ≠ j := fun heq => hne (congrArg (· / 16) heq)
    rw [decide_eq_false hij, Bool.false_and, Bool.or_false]

/-- A word whose bits are moved down is masked at the bits of the index. -/
theorem and_ne_zero_iff (w : BitVec 32) (s : Nat) (bit : Nat) (hbit : bit < 2) :
    (w >>> s &&& BitVec.twoPow 32 bit != 0#32) = w.getLsbD (s + bit) := by
  rw [BitVec.and_twoPow, BitVec.getLsbD_ushiftRight]
  cases w.getLsbD (s + bit) with
  | false => rfl
  | true =>
      have htwo : bit = 0 ∨ bit = 1 := by omega
      rcases htwo with rfl | rfl <;> rfl

end CiteParser.BitPairs
