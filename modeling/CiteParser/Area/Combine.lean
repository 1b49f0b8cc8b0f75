import CiteParser.Area.EndRecords
import CiteParser.Core.Groups
import Mathlib.Algebra.Order.BigOperators.Group.List
import Mathlib.Order.Bounds.Basic

/-!
# Combining the candidate records

The last pass of `combineOffsets` replaces neighbouring records by one. It works in place: `i`
runs over the records, `j` over the groups. What a group has summed up is put into its record
when the next group is opened, so the last group keeps the offset of its first record.
-/

namespace CiteParser

/-- A candidate record: `offset` and the `ENDLEN` marks. -/
structure EndFeatureData where
  offset : Int32
  t : Fin 28 → Int

/-- `endFeatureDataContainer`, with what lies behind its last record. -/
structure EndFeatureDataContainer where
  top : Nat
  data : Nat → EndFeatureData
  top_le : top ≤ 1024

/-- The records of a container. -/
def EndFeatureDataContainer.records (c : EndFeatureDataContainer) : List EndFeatureData :=
  (List.range c.top).map c.data

/-- `MAX2(x, y)`. -/
def max2 (x y : Int) : Int := if x > y then x else y

/-- The marks of the record `dst` after those of `src` have been merged into it. -/
def mergeMarks (src dst : Fin 28 → Int) (z : Fin 28) : Int :=
  if z = 0 then dst z else if z < 16 then max2 (src z) (dst z) else minAndNz (src z) (dst z)

/-- The variables of the pass. -/
structure Combine where
  data : Nat → EndFeatureData
  j : Nat
  lastOffset : Int32
  offNum : Int32
  sumOffset : Int32

/-- The record `i` is merged into the record `j`, or it opens the group behind it. -/
def combineStep (T : Pcontent) (s : Combine) (i : Nat) : Combine :=
  if !haveDifferneces T s.lastOffset.toInt (s.data i).offset.toInt then
    { s with
      sumOffset := s.sumOffset + (s.data i).offset
      offNum := s.offNum + 1
      data := Function.update s.data s.j
        { s.data s.j with t := mergeMarks (s.data i).t (s.data s.j).t } }
  else
    let data := Function.update s.data s.j
      { s.data s.j with offset := s.sumOffset / s.offNum }
    let j := s.j + 1
    { data := Function.update data j
        ⟨(data i).offset, fun z => if z = 0 then j + 1 else (data i).t z⟩
      j
      lastOffset := (data i).offset
      offNum := 1
      sumOffset := (data i).offset }

/-- The variables in front of the pass. -/
def combineStart (data : Nat → EndFeatureData) : Combine where
  data := Function.update data 0
    { data 0 with t := fun z => if z = 0 then 1 else (data 0).t z }
  j := 0
  lastOffset := (data 0).offset
  offNum := 1
  sumOffset := (data 0).offset

/-- The combining pass of `combineOffsets`, after which `top` is `j + 1`. -/
def combinePass (T : Pcontent) (c : EndFeatureDataContainer) : Combine :=
  (List.range' 1 (c.top - 1)).foldl (combineStep T) (combineStart c.data)

/-- Two records have something between them. -/
def differs (T : Pcontent) (x y : EndFeatureData) : Bool :=
  haveDifferneces T x.offset.toInt y.offset.toInt

/-- The sum of the offsets of a group. -/
def offsetSum (g : List EndFeatureData) : Int := (g.map fun r => r.offset.toInt).sum

/-- The least value that is not zero, or zero if there is none. -/
def IsLeastNonzero (s : Set Int) (v : Int) : Prop :=
  IsLeast {x | x ∈ s ∧ x ≠ 0} v ∨ (∀ x ∈ s, x = 0) ∧ v = 0

/-- The marks of the record of a group: its number, the greatest and the least of its members'. -/
structure MarksMerged (g : List EndFeatureData) (q : Nat) (t : Fin 28 → Int) : Prop where
  number : t 0 = q + 1
  greatest : ∀ z, z ≠ 0 → z < 16 → IsGreatest {v | ∃ r ∈ g, r.t z = v} (t z)
  least : ∀ z, z ≠ 0 → ¬ z < 16 → IsLeastNonzero {v | ∃ r ∈ g, r.t z = v} (t z)

/-- What is expected of the pass: one record for each group, with the mean of its offsets. -/
def CombinesGroups (T : Pcontent) (c : EndFeatureDataContainer) (out : Combine) : Prop :=
  ∃ groups, IsGrouping (differs T) c.records groups ∧ out.j + 1 = groups.length ∧
    ∀ q g, groups[q]? = some g → (out.data q).offset.toInt = offsetSum g / g.length ∧
      MarksMerged g q (out.data q).t

/-- The sum of a group is an `int` whose quotient is not rounded up. -/
def SumFits (g : List EndFeatureData) : Prop :=
  (-2 ^ 31 ≤ offsetSum g ∧ offsetSum g < 2 ^ 31) ∧
    (0 ≤ offsetSum g ∨ (g.length : Int) ∣ offsetSum g)

/-- There is a last group, its mean is less than one above its first offset, and the sums of the
others are as they should be. -/
def Combinable (T : Pcontent) (c : EndFeatureDataContainer) : Prop :=
  ∃ groups x m, IsGrouping (differs T) c.records (groups ++ [x :: m]) ∧
    (∀ g ∈ groups, SumFits g) ∧ offsetSum (x :: m) < (x :: m).length * (x.offset.toInt + 1)

section Marks

variable {g : List EndFeatureData} {q : Nat} {t : Fin 28 → Int}

theorem isGreatest_max2 {s : Set Int} {v : Int} (h : IsGreatest s v) (x : Int) :
    IsGreatest (insert x s) (max2 x v) := by
  have hmax : max2 x v = max x v := by
    rw [max2]
    split <;> omega
  rw [hmax]
  exact h.insert x

theorem isLeastNonzero_minAndNz {s : Set Int} {v : Int} (h : IsLeastNonzero s v) (x : Int) :
    IsLeastNonzero (insert x s) (minAndNz x v) := by
  by_cases hx : x = 0
  · have hsame : minAndNz x v = v := by simp [minAndNz, hx]
    have hset : {y | y ∈ insert x s ∧ y ≠ 0} = {y | y ∈ s ∧ y ≠ 0} := by
      ext y
      simp only [Set.mem_ofPred_eq, Set.mem_insert_iff]
      constructor
      · rintro ⟨rfl | hy, hne⟩
        · exact absurd hx hne
        · exact ⟨hy, hne⟩
      · exact fun ⟨hy, hne⟩ => ⟨.inr hy, hne⟩
    rw [hsame]
    rcases h with h | ⟨hall, hv⟩
    · exact .inl (hset ▸ h)
    · exact .inr ⟨fun y hy => hy.elim (fun h => h.trans hx) (hall y), hv⟩
  · have hset : {y | y ∈ insert x s ∧ y ≠ 0} = insert x {y | y ∈ s ∧ y ≠ 0} := by
      ext y
      simp only [Set.mem_ofPred_eq, Set.mem_insert_iff]
      constructor
      · rintro ⟨rfl | hy, hne⟩
        · exact .inl rfl
        · exact .inr ⟨hy, hne⟩
      · rintro (rfl | ⟨hy, hne⟩)
        · exact ⟨.inl rfl, hx⟩
        · exact ⟨.inr hy, hne⟩
    rw [IsLeastNonzero, hset]
    rcases h with h | ⟨hall, rfl⟩
    · have hmin : minAndNz x v = min x v := by
        have hv : v ≠ 0 := h.1.2
        rw [minAndNz, if_pos hx, if_pos hv]
        split <;> omega
      rw [hmin]
      exact .inl (h.insert x)
    · have hnone : {y | y ∈ s ∧ y ≠ 0} = ∅ := by
        ext y
        simp only [Set.mem_ofPred_eq, Set.mem_empty_iff_false, iff_false]
        exact fun ⟨hy, hne⟩ => hne (hall y hy)
      have hsame : minAndNz x 0 = x := by
        rw [minAndNz, if_pos hx, if_neg (by simp)]
      rw [hsame, hnone, insert_empty_eq]
      exact .inl isLeast_singleton

theorem marks_snoc (g : List EndFeatureData) (r : EndFeatureData) (z : Fin 28) :
    {v | ∃ r' ∈ g ++ [r], r'.t z = v} = insert (r.t z) {v | ∃ r' ∈ g, r'.t z = v} := by
  ext v
  simp only [List.mem_append, List.mem_singleton, Set.mem_ofPred_eq, Set.mem_insert_iff]
  constructor
  · rintro ⟨r', hr' | rfl, hv⟩
    · exact .inr ⟨r', hr', hv⟩
    · exact .inl hv.symm
  · rintro (rfl | ⟨r', hr', hv⟩)
    · exact ⟨r, .inr rfl, rfl⟩
    · exact ⟨r', .inl hr', hv⟩

/-- The marks of one record are merged as they are. -/
theorem marksMerged_singleton (r : EndFeatureData) (q : Nat) :
    MarksMerged [r] q fun z => if z = 0 then (q : Int) + 1 else r.t z := by
  have hset : ∀ z, {v | ∃ r' ∈ [r], r'.t z = v} = {r.t z} := fun z => by ext v; simp [eq_comm]
  constructor
  case number => simp
  case greatest =>
      intro z hz _
      rw [hset, if_neg hz]
      exact isGreatest_singleton
  case least =>
      intro z hz _
      rw [hset, if_neg hz, IsLeastNonzero]
      by_cases hzero : r.t z = 0
      · exact .inr ⟨fun x hx => hx.trans hzero, hzero⟩
      · exact .inl ⟨⟨rfl, hzero⟩, fun x hx => hx.1.ge⟩

/-- Merging the marks of one more record. -/
theorem MarksMerged.snoc (h : MarksMerged g q t) (r : EndFeatureData) :
    MarksMerged (g ++ [r]) q (mergeMarks r.t t) where
  number := h.number
  greatest z hz hlt := by
    rw [marks_snoc, mergeMarks, if_neg hz, if_pos hlt]
    exact isGreatest_max2 (h.greatest z hz hlt) (r.t z)
  least z hz hge := by
    rw [marks_snoc, mergeMarks, if_neg hz, if_neg hge]
    exact isLeastNonzero_minAndNz (h.least z hz hge) (r.t z)

end Marks

section Sums

/-- What a group has summed up, divided as `int`s are. -/
def quotient (g : List EndFeatureData) : Int := (Int.bmod (offsetSum g) (2 ^ 32)).tdiv g.length

theorem offsetSum_snoc (g : List EndFeatureData) (r : EndFeatureData) :
    offsetSum (g ++ [r]) = offsetSum g + r.offset.toInt := by simp [offsetSum]

/-- A division of `int`s gives the mean exactly if the sum is as it should be. -/
theorem quotient_eq_iff {g : List EndFeatureData} (hpos : g ≠ []) (hlen : g.length ≤ 1024) :
    quotient g = offsetSum g / g.length ↔ SumFits g := by
  have hk : 0 < (g.length : Int) := Int.natCast_pos.mpr (List.length_pos_iff.mpr hpos)
  have hk' : (g.length : Int) ≤ 1024 := by exact_mod_cast hlen
  rw [quotient, SumFits]
  generalize (g.length : Int) = k at *
  generalize offsetSum g = sum
  have hlow : -2 ^ 31 ≤ Int.bmod sum (2 ^ 32) := Int.le_bmod (by simp)
  have hhigh : Int.bmod sum (2 ^ 32) < 2 ^ 31 := Int.bmod_lt (by simp)
  constructor
  · intro h
    have hdiv := Int.mul_tdiv_add_tmod (Int.bmod sum (2 ^ 32)) k
    have hediv := Int.mul_ediv_add_emod sum k
    have hmod := Int.emod_nonneg sum hk.ne'
    have hmod' := Int.emod_lt_of_pos sum hk
    have htmod := Int.lt_tmod_of_pos (Int.bmod sum (2 ^ 32)) hk
    have htmod' := Int.tmod_lt_of_pos (Int.bmod sum (2 ^ 32)) hk
    rw [h] at hdiv
    -- both numbers are close to the same multiple of the length, so they are the same
    obtain ⟨n, hn⟩ := Int.dvd_self_sub_bmod (x := sum) (m := 2 ^ 32)
    have hsame : Int.bmod sum (2 ^ 32) = sum := by
      rw [show ((2 ^ 32 : Nat) : Int) = 4294967296 from rfl] at hn
      omega
    rw [hsame] at hlow hhigh hdiv
    refine ⟨⟨hlow, hhigh⟩, (le_or_gt 0 sum).imp_right fun hneg => ?_⟩
    have hnonneg := Int.tmod_nonneg k (Int.neg_nonneg.mpr hneg.le)
    rw [Int.neg_tmod] at hnonneg
    exact Int.dvd_of_emod_eq_zero (by omega)
  · rintro ⟨⟨hge, hlt⟩, hround⟩
    have hsame : Int.bmod sum (2 ^ 32) = sum := Int.bmod_eq_of_le hge hlt
    rw [hsame]
    rcases hround with hnonneg | hdvd
    · exact Int.tdiv_eq_ediv_of_nonneg hnonneg
    · exact Int.tdiv_eq_ediv_of_dvd hdvd

end Sums

/-- What holds in front of the pass over the record `i`: the records before are grouped, those of
the closed groups are finished and that of the last one has the marks of its members. -/
structure Combined (T : Pcontent) (c : EndFeatureDataContainer) (i : Nat)
    (groups : List (List EndFeatureData)) (x : EndFeatureData) (m : List EndFeatureData)
    (s : Combine) : Prop where
  grouping : IsGrouping (differs T) ((List.range i).map c.data) (groups ++ [x :: m])
  number : s.j = groups.length
  lastOffset : s.lastOffset = x.offset
  offNum : s.offNum.toInt = (x :: m).length
  sumOffset : s.sumOffset.toInt = Int.bmod (offsetSum (x :: m)) (2 ^ 32)
  closed : ∀ q g, groups[q]? = some g →
    (s.data q).offset.toInt = quotient g ∧ MarksMerged g q (s.data q).t
  own : (s.data s.j).offset = x.offset ∧ MarksMerged (x :: m) s.j (s.data s.j).t
  ahead : ∀ k, i ≤ k → s.data k = c.data k
  behind : s.j < i

section Run

variable {T : Pcontent} {c : EndFeatureDataContainer} {i : Nat}
  {groups : List (List EndFeatureData)} {x : EndFeatureData} {m : List EndFeatureData}
  {s : Combine}

theorem combined_start (T : Pcontent) (c : EndFeatureDataContainer) :
    Combined T c 1 [] (c.data 0) [] (combineStart c.data) where
  grouping := IsGrouping.singleton _ _
  number := rfl
  lastOffset := rfl
  offNum := rfl
  sumOffset := by simp [combineStart, offsetSum]
  closed := by simp
  own := by
    refine ⟨by simp [combineStart], ?_⟩
    have h := marksMerged_singleton (c.data 0) 0
    simpa [combineStart] using h
  ahead k hk := Function.update_of_ne (by omega) _ _
  behind := Nat.zero_lt_one

/-- The last group has no more members than there are records. -/
theorem Combined.length_le (h : Combined T c i groups x m s) : (x :: m).length ≤ i := by
  have hlen := congrArg List.length h.grouping.flatten
  simp only [List.flatten_append, List.length_append, List.length_map, List.length_range,
    List.flatten_singleton] at hlen
  omega

theorem range_succ_map (c : EndFeatureDataContainer) (i : Nat) :
    (List.range (i + 1)).map c.data = (List.range i).map c.data ++ [c.data i] := by
  rw [List.range_succ, List.map_append, List.map_singleton]

/-- The next record joins the last group. -/
theorem Combined.grow (h : Combined T c i groups x m s) (hi : i < 1024)
    (hsame : haveDifferneces T s.lastOffset.toInt (s.data i).offset.toInt = false) :
    Combined T c (i + 1) groups x (m ++ [c.data i]) (combineStep T s i) := by
  have hahead := h.ahead i le_rfl
  have hstep : combineStep T s i =
      { s with
        sumOffset := s.sumOffset + (c.data i).offset
        offNum := s.offNum + 1
        data := Function.update s.data s.j
          { s.data s.j with t := mergeMarks (c.data i).t (s.data s.j).t } } := by
    rw [combineStep, hsame, if_pos (by rfl), hahead]
  have hlen := h.length_le
  rw [hstep]
  constructor
  case grouping =>
      rw [range_succ_map]
      refine h.grouping.grow ?_
      rwa [differs, ← h.lastOffset, ← hahead]
  case number => exact h.number
  case lastOffset => exact h.lastOffset
  case offNum =>
      rw [Int32.toInt_add, h.offNum, Int32.toInt_one]
      rw [Int.bmod_eq_of_le (by simp; omega) (by simp at hlen ⊢; omega)]
      simp
  case sumOffset =>
      rw [Int32.toInt_add, h.sumOffset, Int.bmod_add_bmod, ← List.cons_append, offsetSum_snoc]
  case closed =>
      intro q g hg
      have hq : q < groups.length := (List.getElem?_eq_some_iff.mp hg).1
      dsimp only
      rw [Function.update_of_ne (by rw [h.number]; omega)]
      exact h.closed q g hg
  case own =>
      dsimp only
      rw [Function.update_self, ← List.cons_append]
      exact ⟨h.own.1, h.own.2.snoc _⟩
  case ahead =>
      intro k hk
      have hbehind := h.behind
      dsimp only
      rw [Function.update_of_ne (by omega)]
      exact h.ahead k (by omega)
  case behind => exact Nat.lt_succ_of_lt h.behind

/-- The next record opens a group, and the one before is closed. -/
theorem Combined.close (h : Combined T c i groups x m s)
    (hother : haveDifferneces T s.lastOffset.toInt (s.data i).offset.toInt = true) :
    Combined T c (i + 1) (groups ++ [x :: m]) (c.data i) [] (combineStep T s i) := by
  have hahead := h.ahead i le_rfl
  have hbehind := h.behind
  have hstep : combineStep T s i =
      { data := Function.update
          (Function.update s.data s.j { s.data s.j with offset := s.sumOffset / s.offNum })
          (s.j + 1)
          ⟨(c.data i).offset,
            fun z => if z = 0 then ((s.j + 1 : Nat) : Int) + 1 else (c.data i).t z⟩
        j := s.j + 1
        lastOffset := (c.data i).offset
        offNum := 1
        sumOffset := (c.data i).offset } := by
    rw [combineStep, hother, if_neg (by simp)]
    simp only [Function.update_of_ne hbehind.ne', hahead]
  rw [hstep]
  constructor
  case grouping =>
      rw [range_succ_map]
      refine h.grouping.close ?_
      rwa [differs, ← h.lastOffset, ← hahead]
  case number => simp [h.number]
  case lastOffset => rfl
  case offNum => rfl
  case sumOffset => simp [offsetSum]
  case closed =>
      intro q g hg
      have hq : q < (groups ++ [x :: m]).length := (List.getElem?_eq_some_iff.mp hg).1
      rw [List.length_append, List.length_singleton] at hq
      dsimp only
      rw [Function.update_of_ne (by rw [h.number]; omega)]
      rcases Nat.lt_succ_iff_lt_or_eq.mp hq with hlt | rfl
      · rw [Function.update_of_ne (by rw [h.number]; omega)]
        rw [List.getElem?_append_left hlt] at hg
        exact h.closed q g hg
      · rw [List.getElem?_append_right le_rfl, Nat.sub_self, List.getElem?_cons_zero,
          Option.some.injEq] at hg
        rw [← hg, ← h.number, Function.update_self]
        refine ⟨?_, h.own.2⟩
        have hne : s.offNum ≠ -1 := by
          intro heq
          have hpos := h.offNum
          rw [heq] at hpos
          simp at hpos
          omega
        rw [Int32.toInt_div_of_ne_right _ _ hne, h.sumOffset, h.offNum, quotient]
  case own =>
      dsimp only
      rw [Function.update_self]
      exact ⟨rfl, marksMerged_singleton (c.data i) (s.j + 1)⟩
  case ahead =>
      intro k hk
      dsimp only
      rw [Function.update_of_ne (by omega), Function.update_of_ne (by omega)]
      exact h.ahead k (by omega)
  case behind => exact Nat.succ_lt_succ hbehind

/-- The groups after a number of steps. -/
theorem combined_run (T : Pcontent) (c : EndFeatureDataContainer) (n : Nat) (hn : n + 1 ≤ 1024) :
    ∃ groups x m, Combined T c (n + 1) groups x m
      ((List.range' 1 n).foldl (combineStep T) (combineStart c.data)) := by
  induction n with
  | zero => exact ⟨[], c.data 0, [], combined_start T c⟩
  | succ n ih =>
      obtain ⟨groups, x, m, h⟩ := ih (by omega)
      rw [List.range'_1_concat, List.foldl_append, Nat.add_comm 1 n]
      rw [List.foldl_cons, List.foldl_nil]
      generalize (List.range' 1 n).foldl (combineStep T) (combineStart c.data) = s at h
      cases hd : haveDifferneces T s.lastOffset.toInt (s.data (n + 1)).offset.toInt with
      | false => exact ⟨groups, x, m ++ [c.data (n + 1)], h.grow (by omega) hd⟩
      | true => exact ⟨groups ++ [x :: m], c.data (n + 1), [], h.close hd⟩

end Run

section Means

variable {x : EndFeatureData} {m : List EndFeatureData}

/-- The first offset of a group is the mean, rounded down, if the mean is less than one above. -/
theorem first_eq_mean_iff (hfirst : ∀ r ∈ m, x.offset.toInt ≤ r.offset.toInt) :
    x.offset.toInt = offsetSum (x :: m) / (x :: m).length ↔
      offsetSum (x :: m) < (x :: m).length * (x.offset.toInt + 1) := by
  have hk : 0 < ((x :: m).length : Int) :=
    Int.natCast_pos.mpr (List.length_pos_of_mem List.mem_cons_self)
  have hsum := List.card_nsmul_le_sum ((x :: m).map fun r => r.offset.toInt) x.offset.toInt
    (by simpa using hfirst)
  rw [List.length_map, nsmul_eq_mul] at hsum
  have hle : x.offset.toInt ≤ offsetSum (x :: m) / (x :: m).length := by
    rw [Int.le_ediv_iff_mul_le hk, mul_comm]
    exact hsum
  rw [mul_comm, ← Int.ediv_lt_iff_lt_mul hk]
  omega

/-- No member of a group of sorted records comes before the first one. -/
theorem first_le {l : List EndFeatureData} {groups : List (List EndFeatureData)}
    (hsorted : l.Pairwise fun r r' => r.offset.toInt ≤ r'.offset.toInt)
    (hflatten : (groups ++ [x :: m]).flatten = l) :
    ∀ r ∈ m, x.offset.toInt ≤ r.offset.toInt := by
  have hsub : (x :: m).Sublist l := by
    rw [← hflatten]
    exact List.sublist_flatten_of_mem (List.mem_append_right _ (List.mem_singleton_self _))
  exact (List.pairwise_cons.mp (hsorted.sublist hsub)).1

/-- What the pass leaves is expected exactly if the offsets it puts down are the means. -/
theorem Combined.means_iff {T : Pcontent} {c : EndFeatureDataContainer} {groups} {s : Combine}
    (h : Combined T c c.top groups x m s) : CombinesGroups T c s ↔
      (∀ g ∈ groups, quotient g = offsetSum g / g.length) ∧
        x.offset.toInt = offsetSum (x :: m) / (x :: m).length := by
  have hgrouping : IsGrouping (differs T) c.records (groups ++ [x :: m]) := h.grouping
  constructor
  · rintro ⟨groups', hgrouping', -, hdata⟩
    cases hgrouping'.unique hgrouping
    refine ⟨fun g hg => ?_, ?_⟩
    · obtain ⟨q, hq⟩ := List.mem_iff_getElem?.mp hg
      have hlt : q < groups.length := (List.getElem?_eq_some_iff.mp hq).1
      have hmean := (hdata q g (by rw [List.getElem?_append_left hlt, hq])).1
      rwa [(h.closed q g hq).1] at hmean
    · have hmean := (hdata groups.length (x :: m) (by simp)).1
      rwa [← h.number, h.own.1] at hmean
  · rintro ⟨hmeans, hlast⟩
    refine ⟨_, hgrouping, by simp [h.number], fun q g hg => ?_⟩
    rcases Nat.lt_or_ge q groups.length with hlt | hge
    · rw [List.getElem?_append_left hlt] at hg
      obtain ⟨hoffset, hmarks⟩ := h.closed q g hg
      exact ⟨hoffset.trans (hmeans g (List.mem_of_getElem? hg)), hmarks⟩
    · rw [List.getElem?_append_right hge, List.getElem?_singleton] at hg
      split at hg
      next hq =>
          cases hg
          have hlast' : q = s.j := by
            rw [h.number]
            omega
          rw [hlast', h.own.1]
          exact ⟨hlast, h.own.2⟩
      next => exact absurd hg (by simp)

end Means

/-- For sorted records the pass does what is expected of it exactly if there is a last group
whose mean, rounded down, is its first offset, and the sums of the other groups are as they
should be. -/
theorem combinesGroups_iff (T : Pcontent) (c : EndFeatureDataContainer)
    (hsorted : ∀ i k, i ≤ k → k < c.top → (c.data i).offset.toInt ≤ (c.data k).offset.toInt) :
    CombinesGroups T c (combinePass T c) ↔ Combinable T c := by
  cases htop : c.top with
  | zero =>
      have hempty : c.records = [] := by rw [EndFeatureDataContainer.records, htop]; rfl
      refine iff_of_false ?_ ?_
      · rintro ⟨groups, hgroups, hnumber, -⟩
        rw [hgroups.eq_nil_iff.mpr hempty] at hnumber
        simp at hnumber
      · rintro ⟨groups, x, m, hgroups, -⟩
        exact absurd (hgroups.eq_nil_iff.mpr hempty) (by simp)
  | succ n =>
      have htop_le := c.top_le
      obtain ⟨groups, x, m, h⟩ := combined_run T c n (by omega)
      have hrun : combinePass T c =
          (List.range' 1 n).foldl (combineStep T) (combineStart c.data) := by
        rw [combinePass, htop, Nat.add_sub_cancel]
      rw [← hrun, ← htop] at h
      have hgrouping : IsGrouping (differs T) c.records (groups ++ [x :: m]) := h.grouping
      have hrecords : c.records.Pairwise fun r r' => r.offset.toInt ≤ r'.offset.toInt := by
        rw [EndFeatureDataContainer.records, List.pairwise_map]
        refine List.pairwise_lt_range.imp_of_mem fun _ hk hlt => ?_
        exact hsorted _ _ hlt.le (List.mem_range.mp hk)
      have hfirst := first_eq_mean_iff (first_le hrecords hgrouping.flatten)
      have hquotient : ∀ g ∈ groups, (quotient g = offsetSum g / g.length ↔ SumFits g) := by
        intro g hg
        have hmem : g ∈ groups ++ [x :: m] := List.mem_append_left _ hg
        obtain ⟨y, m', rfl, -⟩ := hgrouping.together g hmem
        have hsub := (List.sublist_flatten_of_mem hmem).length_le
        rw [hgrouping.flatten, EndFeatureDataContainer.records, List.length_map,
          List.length_range] at hsub
        exact quotient_eq_iff (by simp) (by omega)
      rw [h.means_iff, hfirst, forall₂_congr hquotient]
      constructor
      · rintro ⟨hfits, hlast⟩
        exact ⟨groups, x, m, hgrouping, hfits, hlast⟩
      · rintro ⟨groups', x', m', hgrouping', hfits, hlast⟩
        obtain ⟨rfl, hcons⟩ := List.append_inj' (hgrouping'.unique hgrouping) rfl
        cases hcons
        exact ⟨hfits, hlast⟩

/-- A container of two records without marks. -/
def twoRecords (x y : Int32) : EndFeatureDataContainer where
  top := 2
  data i := if i = 0 then ⟨x, fun _ => 0⟩ else ⟨y, fun _ => 0⟩
  top_le := by decide

theorem twoRecords_sorted {x y : Int32} (h : x.toInt ≤ y.toInt) (i k : Nat) (hik : i ≤ k) :
    ((twoRecords x y).data i).offset.toInt ≤ ((twoRecords x y).data k).offset.toInt := by
  simp only [twoRecords]
  split
  · split
    · exact le_rfl
    · exact h
  · rw [if_neg (by omega)]

/-- Two groups of one record each. -/
theorem combinesGroups_two :
    CombinesGroups (.ofText (bytes "1-9 see 1999")) (twoRecords 3 12)
      (combinePass (.ofText (bytes "1-9 see 1999")) (twoRecords 3 12)) := by
  refine (combinesGroups_iff _ _ fun i k hik _ => twoRecords_sorted (by decide) i k hik).mpr ?_
  have hfirst : IsGrouping (differs (.ofText (bytes "1-9 see 1999")))
      [(twoRecords 3 12).data 0] ([] ++ [[(twoRecords 3 12).data 0]]) :=
    IsGrouping.singleton _ _
  refine ⟨[[(twoRecords 3 12).data 0]], (twoRecords 3 12).data 1, [], hfirst.close ?_, ?_, ?_⟩
  · decide +kernel
  · simp only [List.mem_singleton, forall_eq]
    exact ⟨by decide, .inl (by decide)⟩
  · decide

/-- Nothing stands between the records, but theirs is the last group, and it keeps the offset of
the first of them. -/
theorem not_combinesGroups :
    (∀ i k, i ≤ k → k < (twoRecords 4 9).top →
      ((twoRecords 4 9).data i).offset.toInt ≤ ((twoRecords 4 9).data k).offset.toInt) ∧
      ¬ CombinesGroups (.ofText (bytes "1999 2000")) (twoRecords 4 9)
        (combinePass (.ofText (bytes "1999 2000")) (twoRecords 4 9)) := by
  refine ⟨fun i k hik _ => twoRecords_sorted (by decide) i k hik, ?_⟩
  rintro ⟨groups, hgrouping, hnumber, hdata⟩
  have hj : (combinePass (.ofText (bytes "1999 2000")) (twoRecords 4 9)).j = 0 := by
    decide +kernel
  have hoffset : ((combinePass (.ofText (bytes "1999 2000")) (twoRecords 4 9)).data 0).offset =
      4 := by decide +kernel
  rw [hj] at hnumber
  obtain ⟨g, rfl⟩ := List.length_eq_one_iff.mp hnumber.symm
  have hmean := (hdata 0 g rfl).1
  have hg : g = (twoRecords 4 9).records := by simpa using hgrouping.flatten
  rw [hoffset, hg] at hmean
  exact absurd hmean (by decide)

end CiteParser
