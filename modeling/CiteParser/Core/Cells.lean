import Mathlib.Data.List.Nodup
import Mathlib.Data.List.Perm.Basic
import Mathlib.Logic.Function.Basic

/-!
# The contents of an array with gaps

Some of the cells of an array hold something. What they hold is a list, of which only the order
depends on the cells: a cell that is filled adds its item, and one that is left loses it.
-/

namespace CiteParser.Cells

variable {α β : Type*} {n i j : Nat} {f g : Nat → Option α} {a b : α}

/-- What the first cells hold. -/
def contents (n : Nat) (f : Nat → Option α) : List α := (List.range n).filterMap f

theorem mem_contents : a ∈ contents n f ↔ ∃ i < n, f i = some a := by
  rw [contents, List.mem_filterMap]
  exact exists_congr fun i => and_congr_left' List.mem_range

theorem contents_congr (h : ∀ i < n, f i = g i) : contents n f = contents n g :=
  List.filterMap_congr fun i hi => h i (List.mem_range.mp hi)

theorem length_contents_le (n : Nat) (f : Nat → Option α) : (contents n f).length ≤ n :=
  Nat.le_trans (List.length_filterMap_le f _) (Nat.le_of_eq List.length_range)

/-- A cell more that is filled is an item more. -/
theorem contents_fill (hi : i < n) (hf : f i = none) (hg : g i = some a)
    (hother : ∀ j < n, j ≠ i → g j = f j) : (contents n g).Perm (a :: contents n f) := by
  obtain ⟨before, behind, hrange⟩ := List.append_of_mem (List.mem_range.mpr hi)
  have hnodup := @List.nodup_range n
  rw [hrange, List.nodup_middle, List.nodup_cons, List.mem_append, not_or] at hnodup
  have hlt (j : Nat) (hj : j ∈ before ∨ j ∈ behind) : j < n := by
    have hmem : j ∈ List.range n := by
      rw [hrange, List.mem_append, List.mem_cons]
      exact hj.imp_right Or.inr
    exact List.mem_range.mp hmem
  have hbefore : before.filterMap g = before.filterMap f := by
    refine List.filterMap_congr fun j hj => hother j (hlt j (.inl hj)) ?_
    rintro rfl
    exact hnodup.1.1 hj
  have hbehind : behind.filterMap g = behind.filterMap f := by
    refine List.filterMap_congr fun j hj => hother j (hlt j (.inr hj)) ?_
    rintro rfl
    exact hnodup.1.2 hj
  rw [contents, contents, hrange, List.filterMap_append, List.filterMap_append, hbefore,
    List.filterMap_cons_some hg, List.filterMap_cons_none hf, hbehind]
  exact List.perm_middle

/-- A cell that is left is an item less. -/
theorem contents_leave (hi : i < n) (hf : f i = some a) (hg : g i = none)
    (hother : ∀ j < n, j ≠ i → g j = f j) : (a :: contents n g).Perm (contents n f) :=
  (contents_fill hi hg hf fun j hj hne => (hother j hj hne).symm).symm

/-- A cell whose item is replaced. -/
theorem contents_replace (hi : i < n) (hf : f i = some a) (hg : g i = some b)
    (hother : ∀ j < n, j ≠ i → g j = f j) :
    ∃ rest, (contents n f).Perm (a :: rest) ∧ (contents n g).Perm (b :: rest) := by
  have hself : Function.update f i none i = none := Function.update_self i none f
  refine ⟨contents n (Function.update f i none), contents_fill hi hself hf fun j _ hne => ?_,
    contents_fill hi hself hg fun j hj hne => ?_⟩
  · rw [Function.update_of_ne hne]
  · rw [Function.update_of_ne hne, hother j hj hne]

/-- There is a gap if there are fewer items than cells. -/
theorem exists_gap (h : (contents n f).length < n) : ∃ i < n, f i = none := by
  by_contra hne
  have hfull : ∀ i ∈ List.range n, (f i).isSome = true := by
    intro i hi
    rw [Option.isSome_iff_ne_none]
    exact fun hnone => hne ⟨i, List.mem_range.mp hi, hnone⟩
  rw [contents, List.length_filterMap_eq_countP, List.countP_eq_length.mpr hfull,
    List.length_range] at h
  exact Nat.lt_irrefl n h

/-- More cells that hold something hold more. -/
theorem length_contents_mono {g : Nat → Option β}
    (h : ∀ i < n, (f i).isSome = true → (g i).isSome = true) :
    (contents n f).length ≤ (contents n g).length := by
  rw [contents, contents, List.length_filterMap_eq_countP, List.length_filterMap_eq_countP]
  exact List.countP_mono_left fun i hi => h i (List.mem_range.mp hi)

/-- What two cells hold differs in the keys if all the keys differ. -/
theorem eq_of_key_eq {key : α → β} (h : ((contents n f).map key).Nodup) (hi : i < n) (hj : j < n)
    (ha : f i = some a) (hb : f j = some b) (hkey : key a = key b) : i = j := by
  rw [contents, List.map_filterMap, List.Nodup, List.pairwise_filterMap,
    List.pairwise_iff_getElem] at h
  simp only [List.length_range, List.getElem_range] at h
  have ha' : (f i).map key = some (key a) := congrArg (Option.map key) ha
  have hb' : (f j).map key = some (key b) := congrArg (Option.map key) hb
  rcases Nat.lt_trichotomy i j with hlt | heq | hgt
  · exact absurd hkey (h i j hi hj hlt _ ha' _ hb')
  · exact heq
  · exact absurd hkey.symm (h j i hj hi hgt _ hb' _ ha')

end CiteParser.Cells
