import CiteParser.Core.Alignment
import CiteParser.Core.Table
import CiteParser.Text.Chars
import Mathlib.Data.List.GetD
import Mathlib.Data.List.Forall2

/-!
# Edit distances

`minEditDistance.c`. Three functions fill one table, each with its own test for two
characters that match; none of them looks at the other neighbours of a match. What they
return is the least cost of an alignment, whatever the test is. The table lives in the
frame of the function, whose size is not limited here.
-/

namespace CiteParser

open Table

/-- `matrix` as the two border loops leave it. -/
def borders : Table := ⟨fun i j => if i = 0 then j else if j = 0 then i else 0⟩

/-- `matrix[i][j]` from `matrix[i][j-1]`, `matrix[i-1][j]` and `matrix[i-1][j-1]`. -/
def matrixCell (fits : UInt8 → UInt8 → Bool) (t s : List UInt8) : Cell :=
  fun i j left up diagonal =>
    distanceCell (fits (t.getD (i - 1) 0) (s.getD (j - 1) 0)) left up diagonal

/-- The table over the first `tlen` characters of `t` and the first `slen` of `s`. -/
def matrix (fits : UInt8 → UInt8 → Bool) (t : List UInt8) (tlen : Nat) (s : List UInt8)
    (slen : Nat) : Table :=
  fillRows (matrixCell fits t s) borders (fun _ => 1) (fun _ => slen) tlen

def isSame (a b : UInt8) : Bool :=
  (if a ≤ 'Z'.toUInt8 && 'A'.toUInt8 ≤ a then a + 32 else a) ==
    (if b ≤ 'Z'.toUInt8 && 'A'.toUInt8 ≤ b then b + 32 else b)

/-- The string `de` of `fitPattern`. -/
def patternDelimiters : List UInt8 :=
  ['!', '@', '#', '$', '%', '^', '&', '*', '(', ')', '\x22', '\x27', ':', ';', ',', '.', '/',
    '<', '>', '?', '~', '\x60', ' ', '\n', '\t', '\r'].map Char.toUInt8

/-- `fitPattern('a', b)`. -/
def fitAscii (b : UInt8) : Bool :=
  ('a'.toUInt8 ≤ b && b ≤ 'z'.toUInt8) || ('A'.toUInt8 ≤ b && b ≤ 'Z'.toUInt8)

/-- `fitPattern('n', b)`. -/
def fitNum (b : UInt8) : Bool :=
  ('0'.toUInt8 ≤ b && b ≤ '9'.toUInt8) || b == 'I'.toUInt8 || b == 'i'.toUInt8 ||
    b == 'l'.toUInt8 || b == 'L'.toUInt8

def fitPattern (a b : UInt8) : Bool :=
  if a == 'a'.toUInt8 || a == 'A'.toUInt8 then fitAscii b
  else if a == 'n'.toUInt8 || a == 'N'.toUInt8 then fitNum b
  else if a == 'd'.toUInt8 || a == 'D'.toUInt8 then fitAscii b || fitNum b
  else if a == 'e'.toUInt8 || a == 'E'.toUInt8 then patternDelimiters.contains b
  else if a == 's'.toUInt8 || a == 'S'.toUInt8 then b == ' '.toUInt8
  else false

def editDistance (t : List UInt8) (tlen : Nat) (s : List UInt8) (slen : Nat) : Nat :=
  (matrix (· == ·) t tlen s slen).get tlen slen

def editDistanceS (t : List UInt8) (tlen : Nat) (s : List UInt8) (slen : Nat) : Nat :=
  (matrix isSame t tlen s slen).get tlen slen

def editDistanceP (t : List UInt8) (tlen : Nat) (s : List UInt8) (slen : Nat) : Nat :=
  (matrix fitPattern t tlen s slen).get tlen slen

section Matrix

variable (fits : UInt8 → UInt8 → Bool) (t s : List UInt8) {tlen slen : Nat}

/-- The first row counts insertions. -/
theorem matrix_zero_left (j : Nat) : (matrix fits t tlen s slen).get 0 j = j := by
  rw [matrix, fillRows_row _ _ (.inl rfl)]
  rfl

/-- The first column counts deletions. -/
theorem matrix_zero_right (i : Nat) : (matrix fits t tlen s slen).get i 0 = i := by
  rw [matrix, fillRows_column _ _ (.inl Nat.one_pos)]
  cases i with
  | zero => rfl
  | succ i => rfl

/-- Every other cell is the least of its three continuations. -/
theorem matrix_succ {i j : Nat} (hi : i < tlen) (hj : j < slen) :
    (matrix fits t tlen s slen).get (i + 1) (j + 1) =
      distanceCell (fits (t.getD i 0) (s.getD j 0)) ((matrix fits t tlen s slen).get (i + 1) j)
        ((matrix fits t tlen s slen).get i (j + 1)) ((matrix fits t tlen s slen).get i j) := by
  unfold matrix
  rw [fillRows_cell _ _ (by omega) (by omega) (by omega) (by omega) (by omega)]
  rfl

/-- A longer prefix of a text. -/
theorem take_succ_getD {l : List UInt8} {i : Nat} (h : i < l.length) :
    l.take (i + 1) = l.take i ++ [l.getD i 0] := by
  rw [List.take_succ_eq_append_getElem h, List.getD_eq_getElem _ _ h]

/-- A cell of the table is the distance of the prefixes it stands for. -/
theorem isLeast_matrix (htlen : tlen ≤ t.length) (hslen : slen ≤ s.length) {i j : Nat}
    (hi : i ≤ tlen) (hj : j ≤ slen) :
    IsLeast (alignmentCosts fits (t.take i) (s.take j)) ((matrix fits t tlen s slen).get i j) := by
  induction i generalizing j with
  | zero =>
      have h := isLeast_nil_left fits (s.take j)
      rw [List.length_take_of_le (by omega)] at h
      rwa [matrix_zero_left, List.take_zero]
  | succ i ih =>
      induction j with
      | zero =>
          have h := isLeast_nil_right fits (t.take (i + 1))
          rw [List.length_take_of_le (by omega)] at h
          rwa [matrix_zero_right, List.take_zero]
      | succ j ihj =>
          have hins := ihj (by omega)
          have hdel := ih (j := j + 1) (by omega) (by omega)
          have hsub := ih (j := j) (by omega) (by omega)
          rw [take_succ_getD (by omega)] at hins hdel
          rw [matrix_succ fits t s (by omega) (by omega), take_succ_getD (l := t) (by omega),
            take_succ_getD (l := s) (by omega)]
          exact isLeast_distanceCell hins hdel hsub

/-- Over the whole of both strings the last cell is the least cost of aligning them. -/
theorem isLeast_matrix_length : IsLeast (alignmentCosts fits t s)
    ((matrix fits t t.length s s.length).get t.length s.length) := by
  have h := isLeast_matrix fits t s le_rfl le_rfl le_rfl le_rfl
  rwa [List.take_length, List.take_length] at h

end Matrix

/-- The distance of a text to a pattern is zero exactly when it fits the pattern. -/
theorem editDistanceP_eq_zero_iff (t s : List UInt8) :
    editDistanceP t t.length s s.length = 0 ↔
      List.Forall₂ (fun a b => fitPattern a b = true) t s := by
  have h := isLeast_matrix_length fitPattern t s
  rw [← zero_mem_alignmentCosts]
  constructor
  · intro hzero
    exact hzero ▸ h.1
  · intro hzero
    exact Nat.le_zero.mp (h.2 hzero)

/-- The three functions return the least cost of an alignment under their own test, and
the last is zero exactly when the text fits the pattern letter by letter. -/
theorem editDistances_minimal (t s : List UInt8) :
    IsLeast (alignmentCosts (· == ·) t s) (editDistance t t.length s s.length) ∧
    IsLeast (alignmentCosts isSame t s) (editDistanceS t t.length s s.length) ∧
    IsLeast (alignmentCosts fitPattern t s) (editDistanceP t t.length s s.length) ∧
    (editDistanceP t t.length s s.length = 0 ↔ t.length = s.length ∧
      ∀ (i : Nat) (ht : i < t.length) (hs : i < s.length), fitPattern t[i] s[i] = true) := by
  refine ⟨isLeast_matrix_length _ t s, isLeast_matrix_length _ t s,
    isLeast_matrix_length _ t s, ?_⟩
  rw [editDistanceP_eq_zero_iff, List.forall₂_iff_get]
  rfl

end CiteParser
