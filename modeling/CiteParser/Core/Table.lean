import Mathlib.Data.List.Range
import Mathlib.Tactic.Common

/-!
# Tables filled row by row

A two-dimensional array whose cells are computed from the three neighbours above and to
the left. A row is filled from one column to another in ascending order, so when the loop
has ended every cell it filled is what its neighbours, as they stand now, make of it.
-/

namespace CiteParser

/-- A two-dimensional array. -/
structure Table where
  get : Nat → Nat → Nat

namespace Table

/-- `d[i][j] = v`. -/
def put (d : Table) (i j v : Nat) : Table :=
  ⟨fun a b => if a = i ∧ b = j then v else d.get a b⟩

/-- How a cell is computed: its position and the cells to the left, above and on the
diagonal. -/
abbrev Cell := Nat → Nat → Nat → Nat → Nat → Nat

/-- What a cell is computed to be in a table. -/
def value (cell : Cell) (d : Table) (i j : Nat) : Nat :=
  cell i j (d.get i (j - 1)) (d.get (i - 1) j) (d.get (i - 1) (j - 1))

/-- One pass of the inner loop. -/
def putCell (cell : Cell) (i : Nat) (d : Table) (j : Nat) : Table := d.put i j (value cell d i j)

/-- The inner loop over `k` columns from `st` on. -/
def fillRow (cell : Cell) (d : Table) (i st k : Nat) : Table :=
  (List.range' st k).foldl (putCell cell i) d

@[simp] theorem put_self (d : Table) (i j v : Nat) : (d.put i j v).get i j = v := by
  simp only [put, and_self, ite_true]

/-- Other rows stay. -/
theorem put_row (d : Table) {i j v a b : Nat} (h : a ≠ i) : (d.put i j v).get a b = d.get a b := by
  simp only [put, h, false_and, ite_false]

/-- Other columns stay. -/
theorem put_column (d : Table) {i j v a b : Nat} (h : b ≠ j) :
    (d.put i j v).get a b = d.get a b := by
  simp only [put, h, and_false, ite_false]

/-- The last pass of the inner loop. -/
theorem fillRow_succ (cell : Cell) (d : Table) (i st k : Nat) :
    fillRow cell d i st (k + 1) = putCell cell i (fillRow cell d i st k) (st + k) := by
  rw [fillRow, List.range'_1_concat, List.foldl_append]
  rfl

/-- Filling a row leaves the other rows. -/
theorem fillRow_row (cell : Cell) (d : Table) {i st k a b : Nat} (h : a ≠ i) :
    (fillRow cell d i st k).get a b = d.get a b := by
  induction k with
  | zero => rfl
  | succ k ih => rw [fillRow_succ, putCell, put_row _ h, ih]

/-- Filling a row leaves the columns outside its range. -/
theorem fillRow_column (cell : Cell) (d : Table) {i st k a b : Nat} (h : b < st ∨ st + k ≤ b) :
    (fillRow cell d i st k).get a b = d.get a b := by
  induction k with
  | zero => rfl
  | succ k ih => rw [fillRow_succ, putCell, put_column _ (by omega), ih (by omega)]

/-- A filled cell is what its neighbours make of it. -/
theorem fillRow_cell (cell : Cell) (d : Table) {i st k j : Nat} (hi : 1 ≤ i) (hst : 1 ≤ st)
    (hlow : st ≤ j) (hhigh : j < st + k) :
    (fillRow cell d i st k).get i j = value cell (fillRow cell d i st k) i j := by
  induction k with
  | zero => omega
  | succ k ih =>
      rw [fillRow_succ, putCell]
      by_cases hj : j = st + k
      · rw [hj, put_self, value, value, put_column _ (by omega), put_row _ (by omega),
          put_row _ (by omega)]
      · rw [put_column _ hj, ih (by omega), value, value, put_column _ (by omega),
          put_row _ (by omega), put_row _ (by omega)]

/-- The outer loop over `n` rows from the first on, row `i` over `k i` columns from
`st i` on. -/
def fillRows (cell : Cell) (d : Table) (st k : Nat → Nat) (n : Nat) : Table :=
  (List.range' 1 n).foldl (fun d i => fillRow cell d i (st i) (k i)) d

section Rows

variable (cell : Cell) (d : Table) {st k : Nat → Nat}

/-- The last pass of the outer loop. -/
theorem fillRows_succ (n : Nat) : fillRows cell d st k (n + 1) =
    fillRow cell (fillRows cell d st k n) (n + 1) (st (n + 1)) (k (n + 1)) := by
  rw [fillRows, List.range'_1_concat, List.foldl_append, Nat.add_comm 1 n]
  rfl

/-- Rows not reached yet stay. -/
theorem fillRows_row {n a b : Nat} (h : a = 0 ∨ n < a) :
    (fillRows cell d st k n).get a b = d.get a b := by
  induction n with
  | zero => rfl
  | succ n ih => rw [fillRows_succ, fillRow_row _ _ (by omega), ih (by omega)]

/-- Columns outside the range of their row stay. -/
theorem fillRows_column {n a b : Nat} (h : b < st a ∨ st a + k a ≤ b) :
    (fillRows cell d st k n).get a b = d.get a b := by
  induction n with
  | zero => rfl
  | succ n ih =>
      rw [fillRows_succ]
      by_cases ha : a = n + 1
      · subst ha
        rw [fillRow_column _ _ h, ih]
      · rw [fillRow_row _ _ ha, ih]

/-- In the finished table every filled cell is what its neighbours make of it. -/
theorem fillRows_cell {n i j : Nat} (hi : 1 ≤ i) (hn : i ≤ n) (hst : 1 ≤ st i) (hlow : st i ≤ j)
    (hhigh : j < st i + k i) :
    (fillRows cell d st k n).get i j = value cell (fillRows cell d st k n) i j := by
  induction n with
  | zero => omega
  | succ n ih =>
      rw [fillRows_succ]
      by_cases hlast : i = n + 1
      · subst hlast
        exact fillRow_cell cell _ hi hst hlow hhigh
      · rw [fillRow_row _ _ hlast, ih (by omega), value, value, fillRow_row _ _ hlast,
          fillRow_row _ _ (by omega), fillRow_row _ _ (by omega)]

end Rows

end Table

end CiteParser
