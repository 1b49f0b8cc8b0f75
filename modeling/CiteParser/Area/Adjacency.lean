import CiteParser.Area.Merge
import Mathlib.Order.Bounds.Basic

/-!
# Adjacent records

The double loop of `genStartSampleCtl` that gives each record the offsets next to its own. It
compares the offset of the record with itself, so what it starts with is what it leaves.
-/

namespace CiteParser

/-- A pass of the inner loop, on the offset of the record and the one it is compared with. -/
def adjacencyStep (own other : Int) (adjacencyOffset : Int × Int) : Int × Int :=
  if other < own ∧ adjacencyOffset.1 < other then (other, adjacencyOffset.2)
  else if other > own ∧ adjacencyOffset.2 > other then (adjacencyOffset.1, other)
  else adjacencyOffset

/-- The adjacency pass. The record with the index `i` is compared with itself for each `j`. -/
def adjacencyPass (pclen : Int) (data : List FeatureData) : List FeatureData :=
  data.mapIdx fun i fd =>
    { fd with
      adjacencyOffset := (List.range data.length).foldl
        (fun adj j => if i = j then adj else adjacencyStep fd.offset fd.offset adj) (0, pclen) }

/-- The greatest offset below `x`, or 0 if there is none. -/
def IsPrev (offsets : List Int) (x v : Int) : Prop :=
  IsGreatest {y | y ∈ offsets ∧ y < x} v ∨ (∀ y ∈ offsets, x ≤ y) ∧ v = 0

/-- The least offset above `x`, or the end of the text if there is none. -/
def IsNext (pclen : Int) (offsets : List Int) (x v : Int) : Prop :=
  IsLeast {y | y ∈ offsets ∧ x < y} v ∨ (∀ y ∈ offsets, y ≤ x) ∧ v = pclen

/-- Each record is given the offsets next to its own. -/
def AdjacencySet (pclen : Int) (data : List FeatureData) : Prop :=
  ∀ fd ∈ adjacencyPass pclen data,
    IsPrev (data.map FeatureData.offset) fd.offset fd.adjacencyOffset.1 ∧
      IsNext pclen (data.map FeatureData.offset) fd.offset fd.adjacencyOffset.2

@[simp] theorem adjacencyStep_self (x : Int) (adj : Int × Int) : adjacencyStep x x adj = adj := by
  simp [adjacencyStep]

/-- The pass leaves the bounds of the text with every record. -/
theorem adjacencyPass_eq (pclen : Int) (data : List FeatureData) :
    adjacencyPass pclen data = data.map fun fd => { fd with adjacencyOffset := (0, pclen) } := by
  have hfold : ∀ (i : Nat) (x : Int) (l : List Nat) (adj : Int × Int),
      l.foldl (fun adj j => if i = j then adj else adjacencyStep x x adj) adj = adj := by
    intro i x l adj
    induction l with
    | nil => rfl
    | cons j l ih => rw [List.foldl_cons, adjacencyStep_self, ite_self, ih]
  simp only [adjacencyPass, hfold]
  apply List.mapIdx_eq_iff.mpr
  simp

section Offsets

variable {pclen : Int} {offsets : List Int}

/-- The bounds of the text are the offsets next to `x` exactly if no other offset is one of
them. -/
theorem isPrev_zero_iff (hrange : ∀ y ∈ offsets, 0 ≤ y) (x : Int) :
    IsPrev offsets x 0 ↔ ∀ y ∈ offsets, y < x → y = 0 := by
  constructor
  · rintro (⟨-, hgreatest⟩ | ⟨hnone, -⟩) y hy hlt
    · exact le_antisymm (hgreatest ⟨hy, hlt⟩) (hrange y hy)
    · exact absurd hlt (not_lt.mpr (hnone y hy))
  · intro h
    by_cases hzero : 0 ∈ offsets ∧ 0 < x
    · exact .inl ⟨hzero, fun y hy => (h y hy.1 hy.2).le⟩
    · refine .inr ⟨fun y hy => not_lt.mp fun hlt => hzero ?_, rfl⟩
      cases h y hy hlt
      exact ⟨hy, hlt⟩

theorem isNext_pclen_iff (hrange : ∀ y ∈ offsets, y ≤ pclen) (x : Int) :
    IsNext pclen offsets x pclen ↔ ∀ y ∈ offsets, x < y → y = pclen := by
  constructor
  · rintro (⟨-, hleast⟩ | ⟨hnone, -⟩) y hy hlt
    · exact le_antisymm (hrange y hy) (hleast ⟨hy, hlt⟩)
    · exact absurd hlt (not_lt.mpr (hnone y hy))
  · intro h
    by_cases hend : pclen ∈ offsets ∧ x < pclen
    · exact .inl ⟨hend, fun y hy => (h y hy.1 hy.2).ge⟩
    · refine .inr ⟨fun y hy => not_lt.mp fun hlt => hend ?_, rfl⟩
      cases h y hy hlt
      exact ⟨hy, hlt⟩

/-- Among distinct offsets, of any two the lower is 0 and the upper the end of the text exactly
if there are at most these two. -/
theorem bounds_iff (hnodup : offsets.Nodup) :
    (∀ x ∈ offsets, ∀ y ∈ offsets, x < y → x = 0 ∧ y = pclen) ↔
      offsets.length ≤ 1 ∨
        offsets.length = 2 ∧ ∃ x ∈ offsets, ∃ y ∈ offsets, x < y ∧ x = 0 ∧ y = pclen := by
  match offsets, hnodup with
  | [], _ => simp
  | [a], _ => simp
  | [a, b], hnodup =>
      have hne : a ≠ b := by simpa using hnodup
      simp only [List.mem_cons, List.not_mem_nil, or_false, forall_eq_or_imp, forall_eq,
        exists_eq_or_imp, exists_eq_left, lt_irrefl, List.length_cons, List.length_nil]
      rcases hne.lt_or_gt with hlt | hlt
      · simp [hlt, hlt.le]
      · simp [hlt, hlt.le]
  | a :: b :: c :: l, hnodup =>
      refine iff_of_false (fun h => ?_) (by simp)
      have hab : a ≠ b := by rintro rfl; simp at hnodup
      have hac : a ≠ c := by rintro rfl; simp at hnodup
      have hbc : b ≠ c := by rintro rfl; simp at hnodup
      have h1 := h a (by simp) b (by simp)
      have h2 := h b (by simp) a (by simp)
      have h3 := h a (by simp) c (by simp)
      have h4 := h c (by simp) a (by simp)
      have h5 := h b (by simp) c (by simp)
      have h6 := h c (by simp) b (by simp)
      omega

end Offsets

/-- The pass gives each record its neighbours exactly if there is at most one record, or there
are two of them at the two ends of the text. -/
theorem adjacencySet_iff (pclen : Int) (data : List FeatureData)
    (hnodup : (data.map FeatureData.offset).Nodup)
    (hrange : ∀ fd ∈ data, 0 ≤ fd.offset ∧ fd.offset ≤ pclen) :
    AdjacencySet pclen data ↔ data.length ≤ 1 ∨ data.length = 2 ∧
      ∃ fd ∈ data, ∃ fd' ∈ data, fd.offset < fd'.offset ∧ fd.offset = 0 ∧ fd'.offset = pclen := by
  have hlow : ∀ y ∈ data.map FeatureData.offset, 0 ≤ y :=
    List.forall_mem_map.mpr fun fd hfd => (hrange fd hfd).1
  have hhigh : ∀ y ∈ data.map FeatureData.offset, y ≤ pclen :=
    List.forall_mem_map.mpr fun fd hfd => (hrange fd hfd).2
  have hbounds := @bounds_iff pclen _ hnodup
  simp only [List.length_map, List.mem_map, exists_exists_and_eq_and, forall_exists_index,
    and_imp, forall_apply_eq_imp_iff₂] at hbounds
  rw [← hbounds, AdjacencySet, adjacencyPass_eq]
  simp only [List.forall_mem_map, isPrev_zero_iff hlow, isNext_pclen_iff hhigh]
  constructor
  · intro h x hx y hy hlt
    exact ⟨(h y hy).1 x hx hlt, (h x hx).2 y hy hlt⟩
  · intro h x hx
    exact ⟨fun y hy hlt => (h y hy x hx hlt).1, fun y hy hlt => (h x hx y hy hlt).2⟩

/-- A single record, and two at the ends of a text, are given their neighbours. -/
theorem adjacencySet_ends :
    AdjacencySet 9 [⟨fun _ => 1, false, 9, 0⟩, ⟨fun _ => 2, false, 0, 0⟩] :=
  (adjacencySet_iff 9 [⟨fun _ => 1, false, 9, 0⟩, ⟨fun _ => 2, false, 0, 0⟩] (by simp)
    (by simp)).mpr (.inr (by simp))

/-- Two records in a text are not given each other. -/
theorem not_adjacencySet :
    (([⟨fun _ => 1, false, 3, 0⟩, ⟨fun _ => 2, false, 6, 0⟩] : List FeatureData).map
        FeatureData.offset).Nodup ∧
      ¬ AdjacencySet 9 [⟨fun _ => 1, false, 3, 0⟩, ⟨fun _ => 2, false, 6, 0⟩] := by
  refine ⟨by simp, fun h => ?_⟩
  rw [AdjacencySet, adjacencyPass_eq] at h
  have hprev := (h _ (List.mem_cons_of_mem _ (List.mem_singleton_self _))).1
  rw [isPrev_zero_iff (by simp)] at hprev
  exact absurd (hprev 3 (by simp) (by simp)) (by decide)

end CiteParser
