import Mathlib.Algebra.GroupWithZero.Nat
import Mathlib.Data.List.Infix
import Mathlib.Order.Bounds.Basic
import Mathlib.Order.MinMax

/-!
# Alignments of two lists

An alignment writes a source above a target in columns, each with a gap on at most one
side. Its cost counts the gaps and the columns whose two entries do not fit. The cost of
a best alignment obeys the recursion of a distance table even where that takes the
diagonal without looking at its neighbours, because one entry can be taken out of the
target or the source at a price of at most one.
-/

namespace CiteParser

/-- One column of an alignment. -/
inductive Column (α β : Type*) where
  | delete (a : α) : Column α β
  | insert (b : β) : Column α β
  | align (a : α) (b : β) : Column α β

/-- An alignment, its columns from left to right. -/
abbrev Alignment (α β : Type*) := List (Column α β)

variable {α β : Type*}

namespace Column

/-- The entry a column takes from the source. -/
def source : Column α β → List α
  | delete a => [a]
  | insert _ => []
  | align a _ => [a]

/-- The entry a column takes from the target. -/
def target : Column α β → List β
  | delete _ => []
  | insert b => [b]
  | align _ b => [b]

/-- A gap costs one, two entries nothing exactly when they fit. -/
def cost (fits : α → β → Bool) : Column α β → Nat
  | delete _ => 1
  | insert _ => 1
  | align a b => if fits a b then 0 else 1

end Column

namespace Alignment

/-- The list written above. -/
def source (w : Alignment α β) : List α := w.flatMap Column.source

/-- The list written below. -/
def target (w : Alignment α β) : List β := w.flatMap Column.target

/-- What the columns cost together. -/
def cost (fits : α → β → Bool) (w : Alignment α β) : Nat := (w.map (Column.cost fits)).sum

@[simp] theorem source_nil : source ([] : Alignment α β) = [] := rfl

@[simp] theorem target_nil : target ([] : Alignment α β) = [] := rfl

@[simp] theorem cost_nil (fits : α → β → Bool) : cost fits ([] : Alignment α β) = 0 := rfl

@[simp] theorem source_concat (w : Alignment α β) (c : Column α β) :
    source (w ++ [c]) = source w ++ c.source := by
  simp only [source, List.flatMap_append, List.flatMap_singleton]

@[simp] theorem target_concat (w : Alignment α β) (c : Column α β) :
    target (w ++ [c]) = target w ++ c.target := by
  simp only [target, List.flatMap_append, List.flatMap_singleton]

@[simp] theorem cost_concat (fits : α → β → Bool) (w : Alignment α β) (c : Column α β) :
    cost fits (w ++ [c]) = cost fits w + c.cost fits := by
  simp only [cost, List.map_append, List.map_singleton, List.sum_append, List.sum_singleton]

/-- The last entry of the target can be taken out at a price of at most one. -/
theorem exists_dropTarget (fits : α → β → Bool) {w : Alignment α β} {s : List β} {b : β}
    (h : target w = s ++ [b]) :
    ∃ v, source v = source w ∧ target v = s ∧ cost fits v ≤ cost fits w + 1 := by
  induction w using List.reverseRecOn with
  | nil => exact absurd h (by simp)
  | append_singleton w c ih =>
      cases c with
      | delete a =>
          -- the entry stands further to the left
          obtain ⟨v, hsource, htarget, hcost⟩ := ih (by simpa [Column.target] using h)
          refine ⟨v ++ [.delete a], ?_, ?_, ?_⟩
          · rw [source_concat, source_concat, hsource]
          · simpa [Column.target] using htarget
          · rw [cost_concat, cost_concat]
            omega
      | insert b' =>
          rw [target_concat, Column.target] at h
          obtain ⟨htarget, -⟩ := List.append_inj' h rfl
          refine ⟨w, by simp [Column.source], htarget, ?_⟩
          rw [cost_concat]
          omega
      | align a b' =>
          rw [target_concat, Column.target] at h
          obtain ⟨htarget, -⟩ := List.append_inj' h rfl
          refine ⟨w ++ [.delete a], ?_, ?_, ?_⟩
          · rw [source_concat, source_concat, Column.source, Column.source]
          · simpa [Column.target] using htarget
          · rw [cost_concat, cost_concat, Column.cost]
            omega

/-- The last entry of the source can be taken out at a price of at most one. -/
theorem exists_dropSource (fits : α → β → Bool) {w : Alignment α β} {t : List α} {a : α}
    (h : source w = t ++ [a]) :
    ∃ v, source v = t ∧ target v = target w ∧ cost fits v ≤ cost fits w + 1 := by
  induction w using List.reverseRecOn with
  | nil => exact absurd h (by simp)
  | append_singleton w c ih =>
      cases c with
      | insert b =>
          obtain ⟨v, hsource, htarget, hcost⟩ := ih (by simpa [Column.source] using h)
          refine ⟨v ++ [.insert b], ?_, ?_, ?_⟩
          · simpa [Column.source] using hsource
          · rw [target_concat, target_concat, htarget]
          · rw [cost_concat, cost_concat]
            omega
      | delete a' =>
          rw [source_concat, Column.source] at h
          obtain ⟨hsource, -⟩ := List.append_inj' h rfl
          refine ⟨w, hsource, by simp [Column.target], ?_⟩
          rw [cost_concat]
          omega
      | align a' b =>
          rw [source_concat, Column.source] at h
          obtain ⟨hsource, -⟩ := List.append_inj' h rfl
          refine ⟨w ++ [.insert b], ?_, ?_, ?_⟩
          · simpa [Column.source] using hsource
          · rw [target_concat, target_concat, Column.target, Column.target]
          · rw [cost_concat, cost_concat, Column.cost]
            omega

end Alignment

/-- The costs of the alignments of a source and a target. -/
def alignmentCosts (fits : α → β → Bool) (t : List α) (s : List β) : Set Nat :=
  {c | ∃ w : Alignment α β, w.source = t ∧ w.target = s ∧ w.cost fits = c}

open CiteParser.Alignment in
/-- An alignment without cost has no gap, and its columns fit. -/
theorem forall₂_of_cost_eq_zero {fits : α → β → Bool} {w : Alignment α β}
    (h : cost fits w = 0) : List.Forall₂ (fun a b => fits a b = true) (source w) (target w) := by
  induction w with
  | nil => exact .nil
  | cons c w ih =>
      rw [cost, List.map_cons, List.sum_cons, Nat.add_eq_zero_iff] at h
      cases c with
      | delete a => exact absurd h.1 Nat.one_ne_zero
      | insert b => exact absurd h.1 Nat.one_ne_zero
      | align a b =>
          have hfits : fits a b = true := by
            by_contra hfits
            rw [Column.cost, if_neg hfits] at h
            exact absurd h.1 Nat.one_ne_zero
          exact .cons hfits (ih h.2)

open CiteParser.Alignment in
/-- The cost is zero for lists that fit entry by entry, and for no others. -/
theorem zero_mem_alignmentCosts {fits : α → β → Bool} {t : List α} {s : List β} :
    0 ∈ alignmentCosts fits t s ↔ List.Forall₂ (fun a b => fits a b = true) t s := by
  constructor
  · rintro ⟨w, rfl, rfl, hcost⟩
    exact forall₂_of_cost_eq_zero hcost
  · intro h
    induction h with
    | nil => exact ⟨[], rfl, rfl, rfl⟩
    | @cons a b t s hfits _ ih =>
        obtain ⟨w, hsource, htarget, hcost⟩ := ih
        refine ⟨.align a b :: w, congrArg (a :: ·) hsource, congrArg (b :: ·) htarget, ?_⟩
        rw [cost, List.map_cons, List.sum_cons, Column.cost, if_pos hfits, Nat.zero_add]
        exact hcost

open CiteParser.Alignment in
/-- With an empty source the target is inserted. -/
theorem isLeast_nil_left (fits : α → β → Bool) (s : List β) :
    IsLeast (alignmentCosts fits [] s) s.length := by
  constructor
  · induction s using List.reverseRecOn with
    | nil => exact ⟨[], rfl, rfl, rfl⟩
    | append_singleton s b ih =>
        obtain ⟨w, hsource, htarget, hcost⟩ := ih
        refine ⟨w ++ [.insert b], ?_, ?_, ?_⟩
        · rw [source_concat, hsource, Column.source, List.append_nil]
        · rw [target_concat, htarget, Column.target]
        · rw [cost_concat, hcost, Column.cost, List.length_append, List.length_singleton]
  · rintro c ⟨w, hsource, rfl, rfl⟩
    induction w using List.reverseRecOn with
    | nil => exact le_rfl
    | append_singleton w c ih =>
        cases c with
        | insert b =>
            have hw := ih (by simpa [Column.source] using hsource)
            rw [target_concat, cost_concat, List.length_append, Column.target, Column.cost,
              List.length_singleton]
            omega
        | delete a => exact absurd hsource (by simp [Column.source])
        | align a b => exact absurd hsource (by simp [Column.source])

open CiteParser.Alignment in
/-- With an empty target the source is deleted. -/
theorem isLeast_nil_right (fits : α → β → Bool) (t : List α) :
    IsLeast (alignmentCosts fits t []) t.length := by
  constructor
  · induction t using List.reverseRecOn with
    | nil => exact ⟨[], rfl, rfl, rfl⟩
    | append_singleton t a ih =>
        obtain ⟨w, hsource, htarget, hcost⟩ := ih
        refine ⟨w ++ [.delete a], ?_, ?_, ?_⟩
        · rw [source_concat, hsource, Column.source]
        · rw [target_concat, htarget, Column.target, List.append_nil]
        · rw [cost_concat, hcost, Column.cost, List.length_append, List.length_singleton]
  · rintro c ⟨w, rfl, htarget, rfl⟩
    induction w using List.reverseRecOn with
    | nil => exact le_rfl
    | append_singleton w c ih =>
        cases c with
        | delete a =>
            have hw := ih (by simpa [Column.target] using htarget)
            rw [source_concat, cost_concat, List.length_append, Column.source, Column.cost,
              List.length_singleton]
            omega
        | insert b => exact absurd htarget (by simp [Column.target])
        | align a b => exact absurd htarget (by simp [Column.target])

/-- The smallest of three, as the macro of a distance table picks it. -/
def min3 (x y z : Nat) : Nat := if x < y then if x < z then x else z else if y < z then y else z

theorem min3_eq (x y z : Nat) : min3 x y z = min x (min y z) := by
  unfold min3
  split_ifs <;> omega

/-- The value a distance table gives a pair of last entries: where they fit the diagonal
decides, elsewhere the cheapest of the three ways to end an alignment. -/
def distanceCell (fits : Bool) (insertion deletion substitution : Nat) : Nat :=
  if fits then substitution else min3 (insertion + 1) (deletion + 1) (substitution + 1)

section Concat

open CiteParser.Alignment

variable {fits : α → β → Bool} {t : List α} {s : List β} {a : α} {b : β}
  {insertion deletion substitution : Nat}
  (hins : IsLeast (alignmentCosts fits (t ++ [a]) s) insertion)
  (hdel : IsLeast (alignmentCosts fits t (s ++ [b])) deletion)
  (hsub : IsLeast (alignmentCosts fits t s) substitution)

include hins hdel hsub

/-- Some alignment costs what the table says. -/
theorem distanceCell_mem : distanceCell (fits a b) insertion deletion substitution ∈
    alignmentCosts fits (t ++ [a]) (s ++ [b]) := by
  obtain ⟨wi, hsi, hti, hci⟩ := hins.1
  obtain ⟨wd, hsd, htd, hcd⟩ := hdel.1
  obtain ⟨ws, hss, hts, hcs⟩ := hsub.1
  have halign : substitution + (if fits a b then 0 else 1) ∈
      alignmentCosts fits (t ++ [a]) (s ++ [b]) := by
    refine ⟨ws ++ [.align a b], ?_, ?_, ?_⟩
    · rw [source_concat, hss, Column.source]
    · rw [target_concat, hts, Column.target]
    · rw [cost_concat, hcs, Column.cost]
  by_cases hfits : fits a b = true
  · rw [if_pos hfits, Nat.add_zero] at halign
    rwa [distanceCell, if_pos hfits]
  · rw [if_neg hfits] at halign
    rw [distanceCell, if_neg hfits, min3_eq]
    rcases min_choice (insertion + 1) (min (deletion + 1) (substitution + 1)) with h | h
    · rw [h]
      refine ⟨wi ++ [.insert b], ?_, ?_, ?_⟩
      · rw [source_concat, hsi, Column.source, List.append_nil]
      · rw [target_concat, hti, Column.target]
      · rw [cost_concat, hci, Column.cost]
    · rw [h]
      rcases min_choice (deletion + 1) (substitution + 1) with h' | h'
      · rw [h']
        refine ⟨wd ++ [.delete a], ?_, ?_, ?_⟩
        · rw [source_concat, hsd, Column.source]
        · rw [target_concat, htd, Column.target, List.append_nil]
        · rw [cost_concat, hcd, Column.cost]
      · rwa [h']

/-- No alignment costs less than the table says. -/
theorem distanceCell_le {w : Alignment α β} (hsource : source w = t ++ [a])
    (htarget : target w = s ++ [b]) :
    distanceCell (fits a b) insertion deletion substitution ≤ cost fits w := by
  rcases List.eq_nil_or_concat' w with rfl | ⟨w, c, rfl⟩
  · exact absurd hsource (by simp)
  rw [source_concat] at hsource
  rw [target_concat] at htarget
  rw [cost_concat, distanceCell, min3_eq]
  -- the last column decides which smaller alignment this one extends
  cases c with
  | insert b' =>
      have hw : source w = t ++ [a] := by simpa [Column.source] using hsource
      obtain ⟨hs, -⟩ := List.append_inj' htarget rfl
      have hle : insertion ≤ cost fits w := hins.2 ⟨w, hw, hs, rfl⟩
      obtain ⟨v, hsv, htv, hcv⟩ := exists_dropSource fits hw
      have hdiag : substitution ≤ cost fits v := hsub.2 ⟨v, hsv, htv.trans hs, rfl⟩
      rw [Column.cost]
      split_ifs <;> omega
  | delete a' =>
      have hw : target w = s ++ [b] := by simpa [Column.target] using htarget
      obtain ⟨ht, -⟩ := List.append_inj' hsource rfl
      have hle : deletion ≤ cost fits w := hdel.2 ⟨w, ht, hw, rfl⟩
      obtain ⟨v, hsv, htv, hcv⟩ := exists_dropTarget fits hw
      have hdiag : substitution ≤ cost fits v := hsub.2 ⟨v, hsv.trans ht, htv, rfl⟩
      rw [Column.cost]
      split_ifs <;> omega
  | align a' b' =>
      obtain ⟨ht, ha⟩ := List.append_inj' hsource rfl
      obtain ⟨hs, hb⟩ := List.append_inj' htarget rfl
      cases ha
      cases hb
      have hle : substitution ≤ cost fits w := hsub.2 ⟨w, ht, hs, rfl⟩
      rw [Column.cost]
      split_ifs <;> omega

/-- The recursion of a distance table computes the least cost. -/
theorem isLeast_distanceCell : IsLeast (alignmentCosts fits (t ++ [a]) (s ++ [b]))
    (distanceCell (fits a b) insertion deletion substitution) := by
  refine ⟨distanceCell_mem hins hdel hsub, ?_⟩
  rintro c ⟨w, hsource, htarget, rfl⟩
  exact distanceCell_le hins hdel hsub hsource htarget

end Concat

end CiteParser
