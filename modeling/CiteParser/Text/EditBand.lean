import CiteParser.Core.Band
import CiteParser.Core.CString
import CiteParser.Text.EditDistance

/-!
# The banded edit distance

`editDistanceT` fills a band of a table that `memset` has zeroed, borders included, so a
path may enter the band anywhere on a border and pays nothing for what it skipped. The
variable `flag` is never initialised; its value turns out not to matter. An `int` is an
integer here, and the threshold is one the callers can mean, not negative.
-/

namespace CiteParser

open Table

/-- The assignments to `d[i][j]`. -/
def bandCell (threshold : Nat) (s1 s2 : List UInt8) : Cell := fun i j left up diagonal =>
  bandValue (s1.getD (i - 1) 0 == s2.getD (j - 1) 0) (i + 1 ≤ j + threshold)
    (j + 1 ≤ i + threshold) 500 left up diagonal

/-- The variables that the loops of `editDistanceT` change. -/
structure Banded where
  d : Table
  flag : Int

/-- A pass of the inner loop. -/
def bandPass (threshold : Nat) (s1 s2 : List UInt8) (i : Nat) (s : Banded) (j : Nat) : Banded :=
  let d := putCell (bandCell threshold s1 s2) i s.d j
  ⟨d, if d.get i j ≤ threshold then 0 else s.flag⟩

/-- `MAX2(1, i - threshold)`. -/
def bandStart (threshold i : Nat) : Nat := max 1 (i - threshold)

/-- How many columns there are up to `MIN2(s2len, i + threshold)`. -/
def bandWidth (threshold s2len i : Nat) : Nat :=
  min s2len (i + threshold) + 1 - bandStart threshold i

/-- A pass of the outer loop, `none` for the early `return -1`. -/
def bandRow (threshold : Nat) (s1 s2 : List UInt8) (s2len : Nat) (s : Banded) (i : Nat) :
    Option Banded :=
  let s := (List.range' (bandStart threshold i) (bandWidth threshold s2len i)).foldl
    (bandPass threshold s1 s2 i) s
  if s.flag ≠ 0 ∧ threshold < i then none else some s

/-- The outer loop over the first `n` rows. -/
def bandRows (threshold : Nat) (s1 s2 : List UInt8) (s2len n : Nat) (s : Banded) :
    Option Banded :=
  (List.range' 1 n).foldlM (bandRow threshold s1 s2 s2len) s

/-- `editDistanceT` with the value that `flag` happens to have. -/
def editDistanceT (flag : Int) (cs1 : List UInt8) (s1len : Nat) (cs2 : List UInt8) (s2len : Nat)
    (threshold : Nat) : Int :=
  if s2len + threshold < s1len ∨ s1len + threshold < s2len then -1
  else
    match bandRows threshold (cs1.map toLower) (cs2.map toLower) s2len s1len
        ⟨⟨fun _ _ => 0⟩, flag⟩ with
    | none => -1
    | some s => if threshold < s.d.get s1len s2len then -1 else s.d.get s1len s2len

/-- The table when the loops have run to their end. -/
def bandTable (threshold : Nat) (s1 s2 : List UInt8) (s2len n : Nat) : Table :=
  fillRows (bandCell threshold s1 s2) ⟨fun _ _ => 0⟩ (bandStart threshold)
    (bandWidth threshold s2len) n

section Loops

variable (threshold : Nat) (s1 s2 : List UInt8)

/-- The inner loop fills a row, and a flag that is still set at its end has met no small
cell. -/
theorem bandPasses (s : Banded) (i st k : Nat) :
    let s' := (List.range' st k).foldl (bandPass threshold s1 s2 i) s
    s'.d = fillRow (bandCell threshold s1 s2) s.d i st k ∧
      (s'.flag ≠ 0 → ∀ j, st ≤ j → j < st + k → threshold < s'.d.get i j) := by
  induction k with
  | zero => exact ⟨rfl, fun _ j hlow hhigh => by omega⟩
  | succ k ih =>
      rw [List.range'_1_concat, List.foldl_append, List.foldl_cons, List.foldl_nil]
      set s' := (List.range' st k).foldl (bandPass threshold s1 s2 i) s
      obtain ⟨hd, hflag⟩ := ih
      refine ⟨?_, fun hset j hlow hhigh => ?_⟩
      · rw [fillRow_succ, ← hd]
        rfl
      · simp only [bandPass] at hset ⊢
        split_ifs at hset with hsmall
        · exact absurd rfl hset
        · by_cases hj : j = st + k
          · rw [hj]
            omega
          · rw [putCell, put_column _ hj]
            exact hflag hset j hlow (by omega)

/-- The outer loop fills the table, unless some row below the first ones has no small cell. -/
theorem bandRows_cases (s2len n : Nat) (flag : Int) :
    match bandRows threshold s1 s2 s2len n ⟨⟨fun _ _ => 0⟩, flag⟩ with
    | none => ∃ i, threshold < i ∧ i ≤ n ∧ ∀ j, bandStart threshold i ≤ j →
        j < bandStart threshold i + bandWidth threshold s2len i →
        threshold < (bandTable threshold s1 s2 s2len n).get i j
    | some s => s.d = bandTable threshold s1 s2 s2len n := by
  induction n with
  | zero => rfl
  | succ n ih =>
      have hstep : bandRows threshold s1 s2 s2len (n + 1) ⟨⟨fun _ _ => 0⟩, flag⟩ =
          (bandRows threshold s1 s2 s2len n ⟨⟨fun _ _ => 0⟩, flag⟩).bind fun s =>
            bandRow threshold s1 s2 s2len s (n + 1) := by
        rw [bandRows, List.range'_1_concat, List.foldlM_append, Nat.add_comm 1 n]
        simp only [List.foldlM_cons, List.foldlM_nil, bind_pure]
        rfl
      rw [hstep]
      have hlast : bandTable threshold s1 s2 s2len (n + 1) =
          fillRow (bandCell threshold s1 s2) (bandTable threshold s1 s2 s2len n) (n + 1)
            (bandStart threshold (n + 1)) (bandWidth threshold s2len (n + 1)) :=
        fillRows_succ _ _ n
      cases hrun : bandRows threshold s1 s2 s2len n ⟨⟨fun _ _ => 0⟩, flag⟩ with
      | none =>
          rw [hrun] at ih
          obtain ⟨i, hi, hin, hrow⟩ := ih
          refine ⟨i, hi, by omega, fun j hlow hhigh => ?_⟩
          rw [hlast, fillRow_row _ _ (by omega)]
          exact hrow j hlow hhigh
      | some s =>
          rw [hrun] at ih
          obtain ⟨hd, hflag⟩ := bandPasses threshold s1 s2 s (n + 1)
            (bandStart threshold (n + 1)) (bandWidth threshold s2len (n + 1))
          have ih : s.d = bandTable threshold s1 s2 s2len n := ih
          rw [ih, ← hlast] at hd
          rw [Option.bind_some, bandRow]
          simp only [hd] at hflag ⊢
          split_ifs with hexit
          · exact ⟨n + 1, hexit.2, le_rfl, hflag hexit.1⟩
          · exact hd

/-- A cell in the band, from its neighbours. -/
theorem bandTable_succ {s2len n i j : Nat} (hi : i < n) (hj : j < s2len)
    (htop : i ≤ j + threshold) (hbottom : j ≤ i + threshold) :
    (bandTable threshold s1 s2 s2len n).get (i + 1) (j + 1) =
      bandValue (s1.getD i 0 == s2.getD j 0) (i + 1 ≤ j + threshold) (j + 1 ≤ i + threshold) 500
        ((bandTable threshold s1 s2 s2len n).get (i + 1) j)
        ((bandTable threshold s1 s2 s2len n).get i (j + 1))
        ((bandTable threshold s1 s2 s2len n).get i j) := by
  unfold bandTable
  rw [fillRows_cell _ _ (by omega) (by omega) (by unfold bandStart; omega)
    (by unfold bandStart; omega) (by unfold bandWidth bandStart; omega)]
  rw [value, bandCell, Nat.add_sub_cancel, Nat.add_sub_cancel]
  congr 1
  · exact decide_eq_decide.mpr (by omega)
  · exact decide_eq_decide.mpr (by omega)

/-- The borders are zero. -/
theorem bandTable_border {s2len n i j : Nat} (h : i = 0 ∨ j = 0) :
    (bandTable threshold s1 s2 s2len n).get i j = 0 := by
  rcases h with rfl | rfl
  · exact fillRows_row _ _ (.inl rfl)
  · exact fillRows_column _ _ (.inl (by unfold bandStart; omega))

/-- Below a row without a small cell there is none, once the band has left the border. -/
theorem bandTable_large {s2len n i : Nat} (hi : threshold < i)
    (hlen : n ≤ s2len + threshold) (hrow : ∀ j, bandStart threshold i ≤ j →
      j < bandStart threshold i + bandWidth threshold s2len i →
      threshold < (bandTable threshold s1 s2 s2len n).get i j)
    {i' j : Nat} (hle : i ≤ i') (hn : i' ≤ n) (hj : j ≤ s2len) (htop : i' ≤ j + threshold)
    (hbottom : j ≤ i' + threshold) : threshold < (bandTable threshold s1 s2 s2len n).get i' j := by
  -- the row is not empty, so its cells show that the threshold lies below the cap
  have hcap : threshold < 500 := by
    obtain ⟨i, rfl⟩ := Nat.exists_eq_add_one_of_ne_zero (Nat.ne_zero_of_lt hi)
    have hfirst := hrow (i + 1 - threshold) (by unfold bandStart; omega)
      (by unfold bandWidth bandStart; omega)
    obtain ⟨j, hj⟩ := Nat.exists_eq_add_one_of_ne_zero (show i + 1 - threshold ≠ 0 by omega)
    rw [hj, bandTable_succ threshold s1 s2 (by omega) (by omega) (by omega) (by omega)] at hfirst
    exact hfirst.trans_le (bandValue_cases _ _ _ _ _ _ _).1
  induction i', hle using Nat.le_induction generalizing j with
  | base => exact hrow j (by unfold bandStart; omega) (by unfold bandWidth bandStart; omega)
  | succ i' hle ih =>
      induction j with
      | zero => omega
      | succ j ihj =>
          rw [bandTable_succ threshold s1 s2 (by omega) hj (by omega) (by omega)]
          have hdiag := ih (j := j) (by omega) (by omega) (by omega) (by omega)
          obtain ⟨-, -, -, -, h⟩ := bandValue_cases (s1.getD i' 0 == s2.getD j 0)
            (i' + 1 ≤ j + threshold) (j + 1 ≤ i' + threshold) 500
            ((bandTable threshold s1 s2 s2len n).get (i' + 1) j)
            ((bandTable threshold s1 s2 s2len n).get i' (j + 1))
            ((bandTable threshold s1 s2 s2len n).get i' j)
          rw [decide_eq_true_eq, decide_eq_true_eq] at h
          rcases h with h | ⟨hin, h⟩ | ⟨hin, h⟩ | h
          · omega
          · have hleft := ihj (by omega) (by omega) (by omega)
            omega
          · have hup := ih (j := j + 1) (by omega) hj (by omega) (by omega)
            omega
          · omega

end Loops

/-- Lowering both characters compares them as `isSame` does. -/
theorem isSame_eq (a b : UInt8) : isSame a b = (toLower a == toLower b) := by
  rw [isSame, toLower, toLower, Bool.and_comm, Bool.and_comm ('A'.toUInt8 ≤ b)]

section Strings

variable (cs1 cs2 : List UInt8) (threshold : Nat)

/-- A cell of the band is the least cost of getting there, cut off at 500. -/
theorem isLeast_bandTable {i j : Nat} (hi : i ≤ cs1.length) (hj : j ≤ cs2.length)
    (htop : i ≤ j + threshold) (hbottom : j ≤ i + threshold) :
    IsLeast (insert 500 (lateCosts isSame threshold (cs1.take i) (cs2.take j)))
      ((bandTable threshold (cs1.map toLower) (cs2.map toLower) cs2.length
        cs1.length).get i j) := by
  induction i generalizing j with
  | zero =>
      rw [bandTable_border _ _ _ (.inl rfl), List.take_zero]
      refine ⟨.inr (zero_mem_lateCosts_nil_left _ ?_), fun _ _ => Nat.zero_le _⟩
      rw [List.length_take_of_le hj]
      omega
  | succ i ih =>
      induction j with
      | zero =>
          rw [bandTable_border _ _ _ (.inr rfl), List.take_zero]
          refine ⟨.inr (zero_mem_lateCosts_nil_right _ ?_), fun _ _ => Nat.zero_le _⟩
          rw [List.length_take_of_le hi]
          omega
      | succ j ihj =>
          have hfits : ((cs1.map toLower).getD i 0 == (cs2.map toLower).getD j 0) =
              isSame (cs1.getD i 0) (cs2.getD j 0) := by
            rw [isSame_eq, List.getD_eq_getElem _ _ (by rw [List.length_map]; omega),
              List.getD_eq_getElem _ _ (by rw [List.length_map]; omega), List.getElem_map,
              List.getElem_map, List.getD_eq_getElem, List.getD_eq_getElem]
          have hlen : (cs1.take i).length = i := List.length_take_of_le (by omega)
          have hlen' : (cs2.take j).length = j := List.length_take_of_le (by omega)
          rw [bandTable_succ _ _ _ (by omega) (by omega) (by omega) (by omega), hfits,
            take_succ_getD (l := cs1) (by omega), take_succ_getD (l := cs2) (by omega)]
          refine isLeast_bandValue ?_ ?_ ?_ ?_ ?_ (by omega) (by omega)
          · rw [decide_eq_true_eq, hlen, hlen']
          · rw [decide_eq_true_eq, hlen, hlen']
          · intro hin
            rw [← take_succ_getD (by omega)]
            exact ihj (by omega) (by simpa using hin) (by omega)
          · intro hin
            rw [← take_succ_getD (by omega)]
            exact ih (by omega) hj (by omega) (by simpa using hin)
          · exact ih (by omega) (by omega) (by omega) (by omega)

/-- `d[s1len][s2len]` when the loops have run to their end. -/
def lastCell : Nat :=
  (bandTable threshold (cs1.map toLower) (cs2.map toLower) cs2.length cs1.length).get
    cs1.length cs2.length

/-- What `editDistanceT` returns when the lengths are close is the last cell of the table,
whatever the flag was: a row that leaves it set has no small cell, and no row below it has. -/
theorem editDistanceT_eq_table (flag : Int) {s1len s2len : Nat}
    (htop : s1len ≤ s2len + threshold) (hbottom : s2len ≤ s1len + threshold) :
    editDistanceT flag cs1 s1len cs2 s2len threshold =
      let d := (bandTable threshold (cs1.map toLower) (cs2.map toLower) s2len s1len).get
        s1len s2len
      if threshold < d then -1 else (d : Int) := by
  rw [editDistanceT, if_neg (by omega)]
  have hrows := bandRows_cases threshold (cs1.map toLower) (cs2.map toLower) s2len s1len flag
  cases hrun : bandRows threshold (cs1.map toLower) (cs2.map toLower) s2len s1len
      ⟨⟨fun _ _ => 0⟩, flag⟩ with
  | none =>
      rw [hrun] at hrows
      obtain ⟨i, hi, hn, hrow⟩ := hrows
      have hlarge := bandTable_large threshold _ _ hi htop hrow hn le_rfl le_rfl htop hbottom
      exact (if_pos hlarge).symm
  | some s =>
      rw [hrun] at hrows
      have hrows : s.d = _ := hrows
      simp only [hrows]

/-- The value that `flag` happens to have before the loops never shows in the result. -/
theorem editDistanceT_flag (flag flag' : Int) (s1len s2len : Nat) :
    editDistanceT flag cs1 s1len cs2 s2len threshold =
      editDistanceT flag' cs1 s1len cs2 s2len threshold := by
  by_cases hfar : s2len + threshold < s1len ∨ s1len + threshold < s2len
  · rw [editDistanceT, editDistanceT, if_pos hfar, if_pos hfar]
  · rw [editDistanceT_eq_table cs1 cs2 threshold flag (by omega) (by omega),
      editDistanceT_eq_table cs1 cs2 threshold flag' (by omega) (by omega)]

/-- For whole strings the cell is the last one. -/
theorem editDistanceT_eq (flag : Int) (htop : cs1.length ≤ cs2.length + threshold)
    (hbottom : cs2.length ≤ cs1.length + threshold) :
    editDistanceT flag cs1 cs1.length cs2 cs2.length threshold =
      if threshold < lastCell cs1 cs2 threshold then -1
      else (lastCell cs1 cs2 threshold : Int) :=
  editDistanceT_eq_table cs1 cs2 threshold flag htop hbottom

/-- Cut off at the threshold, two distances look alike when they are equal or both too
large. -/
theorem clipped_eq_iff {d S threshold : Nat} :
    (if threshold < d then (-1 : Int) else d) = (if S ≤ threshold then (S : Int) else -1) ↔
      if S ≤ threshold then d = S else threshold < d := by
  grind

end Strings

end CiteParser
