import CiteParser.Area.Window
import CiteParser.Core.CString
import Mathlib.Data.Rat.Defs
import Mathlib.Tactic.IntervalCases

/-!
# Looking for words

`hasWords` counts, in a run of letters, how often the letter changes. The counter is compared
with 0 before it is raised and raised only if it is not 0, so it stays 0 and no run of letters
is ever a word.
-/

namespace CiteParser

/-- The variables of the inner loop of `hasWords`. -/
structure WordRun where
  i : Int
  sum : Nat
  diff : Nat
  key : UInt8

/-- The inner loop: over the letters from `i` on, up to the last offset of the window. -/
def wordRun (T : Pcontent) (offend : Int) : Nat → WordRun → WordRun
  | 0, s => s
  | n + 1, s =>
      if fitPattern 'a'.toUInt8 (T.char s.i) && s.i < offend - 1 then
        let c := T.char (s.i + 1)
        wordRun T offend n
          (if s.diff = 0 then ⟨s.i + 1, s.sum + 1, s.diff, c⟩
          else if s.key ≠ c then ⟨s.i + 1, s.sum + 1, s.diff + 1, c⟩
          else ⟨s.i + 1, s.sum + 1, s.diff, s.key⟩)
      else s

/-- The outer loop from `i` on; `key` has no value before a letter is met, nor is it read. -/
def wordScan (T : Pcontent) (offend : Int) : Nat → Int → UInt8 → Int
  | 0, _, _ => 0
  | n + 1, i, key =>
      if offend ≤ i then 0
      else
        let s := wordRun T offend (offend - i).toNat ⟨i, 0, 0, key⟩
        if 4 ≤ s.sum ∧ 2 < s.diff then s.sum + 1 + s.i else wordScan T offend n (s.i + 1) s.key

def hasWords (T : Pcontent) (offset limit : Int) : Int :=
  let (offset, offend) := defineStartAndEnd T offset limit
  wordScan T offend (offend - offset).toNat offset 0

def wordsNumber (T : Pcontent) (offset limit : Int) (fuel : Nat) : Option Nat :=
  keysNumber T (hasWords T) offset limit fuel

/-- `wordsDensity`, whose quotient is a `double`. -/
def wordsDensity (T : Pcontent) (offset limit : Int) (fuel : Nat) : Option ℚ :=
  (wordsNumber T offset limit fuel).map fun num =>
    (num : ℚ) / ((defineStartAndEnd T offset limit).2 - (defineStartAndEnd T offset limit).1 : ℤ)

/-- A run of at least six letters in the window, no two neighbours alike, which no letter of the
window continues on either side, with the character behind it still in the window. -/
def HoldsWord (T : Pcontent) (offset offend : Int) : Prop :=
  ∃ a b, offset ≤ a ∧ a + 6 ≤ b ∧ b < offend - 1 ∧
    (∀ k, a ≤ k → k < b → fitPattern 'a'.toUInt8 (T.char k) = true) ∧
    (a = offset ∨ fitPattern 'a'.toUInt8 (T.char (a - 1)) = false) ∧
    fitPattern 'a'.toUInt8 (T.char b) = false ∧
    ∀ k, a ≤ k → k + 1 < b → T.char k ≠ T.char (k + 1)

/-- Four letters in a row, in the window. -/
def HoldsLetters (T : Pcontent) (offset offend : Int) : Prop :=
  ∃ a, offset ≤ a ∧ a + 4 ≤ offend - 1 ∧
    ∀ k, a ≤ k → k < a + 4 → fitPattern 'a'.toUInt8 (T.char k) = true

/-- Words are found where there are some, and none where there are no four letters. -/
def DetectsWords (T : Pcontent) (offset limit : Int) : Prop :=
  let w := defineStartAndEnd T offset limit
  (HoldsWord T w.1 w.2 →
    hasWords T offset limit ≠ 0 ∧
      (∃ fuel num, wordsNumber T offset limit fuel = some num ∧ 0 < num) ∧
      ∃ fuel d, wordsDensity T offset limit fuel = some d ∧ 0 < d) ∧
  (¬ HoldsLetters T w.1 w.2 → hasWords T offset limit = 0)

/-- A counter that is 0 stays 0. -/
theorem wordRun_diff (T : Pcontent) (offend : Int) (n : Nat) {s : WordRun} (h : s.diff = 0) :
    (wordRun T offend n s).diff = 0 := by
  induction n generalizing s with
  | zero => exact h
  | succ n ih =>
      rw [wordRun]
      split
      · apply ih
        simpa only [if_pos h] using h
      · exact h

/-- So no run of letters is long enough and changes often enough. -/
theorem wordScan_eq_zero (T : Pcontent) (offend : Int) (n : Nat) (i : Int) (key : UInt8) :
    wordScan T offend n i key = 0 := by
  induction n generalizing i key with
  | zero => rfl
  | succ n ih =>
      rw [wordScan]
      split
      · rfl
      · have hdiff := wordRun_diff T offend (offend - i).toNat (s := ⟨i, 0, 0, key⟩) rfl
        rw [if_neg (by omega)]
        apply ih

@[simp] theorem hasWords_eq_zero (T : Pcontent) (offset limit : Int) :
    hasWords T offset limit = 0 :=
  wordScan_eq_zero T _ _ _ _

/-- Nor are any counted. -/
theorem wordsNumber_eq_zero {T : Pcontent} {offset limit : Int} {fuel num : Nat}
    (h : wordsNumber T offset limit fuel = some num) : num = 0 := by
  cases fuel with
  | zero => contradiction
  | succ fuel => simpa [wordsNumber, keysNumber, Loop.run, keyPass] using h.symm

/-- Words are detected in a window exactly when there are none to detect. -/
theorem detectsWords_iff (T : Pcontent) (offset limit : Int) :
    DetectsWords T offset limit ↔
      ¬ HoldsWord T (defineStartAndEnd T offset limit).1 (defineStartAndEnd T offset limit).2 := by
  constructor
  · rintro ⟨hword, -⟩ hholds
    exact (hword hholds).1 (hasWords_eq_zero T offset limit)
  · intro hnone
    exact ⟨fun hholds => absurd hholds hnone, fun _ => hasWords_eq_zero T offset limit⟩

/-- The window of a text that begins with a word of seven letters. -/
theorem not_detectsWords :
    HoldsWord (.ofText (bytes "planets move")) 0 12 ∧
      hasWords (.ofText (bytes "planets move")) 0 12 = 0 ∧
      (∀ fuel num, wordsNumber (.ofText (bytes "planets move")) 0 12 fuel = some num → num = 0) ∧
      ¬ DetectsWords (.ofText (bytes "planets move")) 0 12 := by
  have hword : HoldsWord (.ofText (bytes "planets move")) 0 12 := by
    refine ⟨0, 7, le_rfl, by decide, by decide, fun k h0 h7 => ?_, .inl rfl, by decide +kernel,
      fun k h0 h7 => ?_⟩
    · interval_cases k <;> decide +kernel
    · have h6 : k < 6 := by omega
      interval_cases k <;> decide +kernel
  refine ⟨hword, hasWords_eq_zero _ _ _, fun fuel num h => wordsNumber_eq_zero h, ?_⟩
  rw [detectsWords_iff]
  exact not_not.mpr hword

end CiteParser
