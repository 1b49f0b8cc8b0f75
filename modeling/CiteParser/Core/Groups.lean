import Mathlib.Data.List.Chain
import Mathlib.Data.List.TakeWhile
import Mathlib.Tactic.Common

/-!
# Groups around their first members

A list is cut, in order, into groups no member of which differs from the first one, each as long
as it can be. The relation need not be transitive, so it matters that the first member is the one
compared with. There is one such grouping, and it grows with the list at its last group.
-/

namespace CiteParser

/-- The groups make up the list, no member of a group differs from its first one, and the first
member of the group behind it does. -/
structure IsGrouping {α : Type*} (differs : α → α → Bool) (l : List α)
    (groups : List (List α)) : Prop where
  flatten : groups.flatten = l
  together : ∀ g ∈ groups, ∃ x m, g = x :: m ∧ ∀ y ∈ m, differs x y = false
  apart : groups.IsChain fun g g' => ∀ x ∈ g.head?, ∀ y ∈ g'.head?, differs x y = true

namespace IsGrouping

variable {α : Type*} {differs : α → α → Bool} {l : List α} {groups : List (List α)}

theorem singleton (differs : α → α → Bool) (x : α) : IsGrouping differs [x] [[x]] where
  flatten := rfl
  together g hg := ⟨x, [], List.mem_singleton.mp hg, by simp⟩
  apart := List.isChain_singleton _

/-- A member that does not differ from the first one joins the last group. -/
theorem grow {x y : α} {m : List α} (h : IsGrouping differs l (groups ++ [x :: m]))
    (hxy : differs x y = false) :
    IsGrouping differs (l ++ [y]) (groups ++ [x :: (m ++ [y])]) where
  flatten := by
    rw [← h.flatten]
    simp
  together g hg := by
    rcases List.mem_append.mp hg with hg | hg
    · exact h.together g (List.mem_append_left _ hg)
    · obtain ⟨x', m', heq, hm⟩ :=
        h.together (x :: m) (List.mem_append_right _ (List.mem_singleton_self _))
      cases heq
      refine ⟨x, m ++ [y], List.mem_singleton.mp hg, fun z hz => ?_⟩
      rcases List.mem_append.mp hz with hz | hz
      · exact hm z hz
      · rwa [List.mem_singleton.mp hz]
  apart := by
    have hchain := h.apart
    rw [List.isChain_append] at hchain ⊢
    exact ⟨hchain.1, List.isChain_singleton _, by simpa using hchain.2.2⟩

/-- A member that differs from the first one opens a group. -/
theorem close {x y : α} {m : List α} (h : IsGrouping differs l (groups ++ [x :: m]))
    (hxy : differs x y = true) :
    IsGrouping differs (l ++ [y]) (groups ++ [x :: m] ++ [[y]]) where
  flatten := by
    rw [List.flatten_append, h.flatten]
    simp
  together g hg := by
    rcases List.mem_append.mp hg with hg | hg
    · exact h.together g hg
    · exact ⟨y, [], List.mem_singleton.mp hg, by simp⟩
  apart := by
    rw [List.isChain_append]
    exact ⟨h.apart, List.isChain_singleton _, by simpa using hxy⟩

/-- The first group is as long as it can be, and the others group what is behind it. -/
theorem cons_inv {g : List α} (h : IsGrouping differs l (g :: groups)) :
    ∃ x rest, l = x :: rest ∧ g = x :: rest.takeWhile (fun y => !differs x y) ∧
      IsGrouping differs (rest.dropWhile fun y => !differs x y) groups := by
  obtain ⟨x, m, rfl, hm⟩ := h.together g List.mem_cons_self
  have hpos : ∀ y ∈ m, (!differs x y) = true := fun y hy => by rw [hm y hy]; rfl
  have hbehind : groups.flatten.takeWhile (fun y => !differs x y) = [] ∧
      groups.flatten.dropWhile (fun y => !differs x y) = groups.flatten := by
    cases groups with
    | nil => exact ⟨rfl, rfl⟩
    | cons g' groups =>
        obtain ⟨y, m', rfl, -⟩ := h.together g' (List.mem_cons_of_mem _ List.mem_cons_self)
        have hxy : differs x y = true :=
          (List.isChain_cons_cons.mp h.apart).1 x rfl y rfl
        simp [hxy]
  refine ⟨x, m ++ groups.flatten, by rw [← h.flatten]; rfl, ?_, ?_, ?_, ?_⟩
  · rw [List.takeWhile_append_of_pos hpos, hbehind.1, List.append_nil]
  · rw [List.dropWhile_append_of_pos hpos, hbehind.2]
  · exact fun g hg => h.together g (List.mem_cons_of_mem _ hg)
  · exact h.apart.of_cons

/-- Only the empty list is cut into no groups. -/
theorem eq_nil_iff (h : IsGrouping differs l groups) : groups = [] ↔ l = [] := by
  constructor
  · rintro rfl
    exact h.flatten.symm
  · rintro rfl
    cases groups with
    | nil => rfl
    | cons g groups =>
        obtain ⟨x, rest, hnil, -⟩ := h.cons_inv
        exact absurd hnil (by simp)

/-- There is one grouping. -/
theorem unique {groups' : List (List α)} (h : IsGrouping differs l groups)
    (h' : IsGrouping differs l groups') : groups = groups' := by
  induction groups generalizing l groups' with
  | nil => exact (h'.eq_nil_iff.mpr (h.eq_nil_iff.mp rfl)).symm
  | cons g groups ih =>
      obtain ⟨x, rest, rfl, rfl, hrest⟩ := h.cons_inv
      cases groups' with
      | nil => exact absurd (h'.eq_nil_iff.mp rfl) (by simp)
      | cons g' groups' =>
          obtain ⟨x', rest', heq, rfl, hrest'⟩ := h'.cons_inv
          cases heq
          rw [ih hrest hrest']

end IsGrouping

end CiteParser
