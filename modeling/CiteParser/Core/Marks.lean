import Mathlib.Data.List.Induction
import Mathlib.Tactic.Common

/-!
# Variables that list elements set

Folds over a list in which an element may set a variable. One kind of variable is set to a
level that does not fall along the list, another kind to one value for good. When is such a
variable the same with one more element at the end of the list? If that element sets nothing,
or an element before it has set the variable to the same value.
-/

namespace CiteParser

section Marks

variable {α : Type*} (V : List α → Nat)

/-- An element of a longer list is an element of the list, or the one added. -/
theorem exists_split_concat {P : List α → α → Prop} {l : List α} {u : α} :
    (∃ l₁ t l₂, l ++ [u] = l₁ ++ t :: l₂ ∧ P l₁ t) ↔
      (∃ l₁ t l₂, l = l₁ ++ t :: l₂ ∧ P l₁ t) ∨ P l u := by
  constructor
  · rintro ⟨l₁, t, l₂, hl, hP⟩
    rcases List.eq_nil_or_concat l₂ with rfl | ⟨l₂, v, rfl⟩
    · obtain ⟨rfl, hu⟩ := List.append_inj' hl rfl
      rw [List.cons.injEq] at hu
      exact .inr (hu.1 ▸ hP)
    · rw [List.concat_eq_append, ← List.cons_append, ← List.append_assoc] at hl
      exact .inl ⟨l₁, t, l₂, (List.append_inj' hl rfl).1, hP⟩
  · rintro (⟨l₁, t, l₂, rfl, hP⟩ | hP)
    · exact ⟨l₁, t, l₂ ++ [u], by simp, hP⟩
    · exact ⟨l, u, [], rfl, hP⟩

section Graded

variable {p : List α → α → Bool} {level : List α → α → Nat} {base bound : Nat}

/-- A variable is at a level that no element goes beyond exactly when some element has set it
to that level. -/
theorem graded_eq_iff
    (hstep : ∀ l t, V (l ++ [t]) =
      if p l t = true ∧ level l t < bound then base + level l t else V l)
    (hmono : ∀ l₁ u l₂ t, level l₁ u ≤ level (l₁ ++ u :: l₂) t) (hstart : V [] < base)
    {l : List α} {k : Nat} (hk : k < bound)
    (hbelow : ∀ l₁ u l₂, l = l₁ ++ u :: l₂ → level l₁ u ≤ k) :
    V l = base + k ↔ ∃ l₁ u l₂, l = l₁ ++ u :: l₂ ∧ p l₁ u = true ∧ level l₁ u = k := by
  induction l using List.reverseRecOn with
  | nil => simpa using (show V [] ≠ base + k by omega)
  | append_singleton l t ih =>
      have hl := ih fun l₁ u l₂ h => hbelow l₁ u (l₂ ++ [t]) (by simp [h])
      have ht := hbelow l t [] rfl
      rw [hstep, exists_split_concat, ← hl]
      split_ifs with hset
      · rw [Nat.add_left_cancel_iff, hl]
        constructor
        · exact fun h => .inr ⟨hset.1, h⟩
        · rintro (⟨l₁, u, l₂, rfl, -, hu⟩ | ⟨-, h⟩)
          · have hrise := hmono l₁ u l₂ t
            omega
          · exact h
      · refine (or_iff_left ?_).symm
        rintro ⟨htest, hlevel⟩
        exact hset ⟨htest, by omega⟩

/-- A variable set by levels is the same with one more element exactly if that element sets
nothing, or an element before it has set the variable to the same level. -/
theorem graded_concat_iff
    (hstep : ∀ l t, V (l ++ [t]) =
      if p l t = true ∧ level l t < bound then base + level l t else V l)
    (hmono : ∀ l₁ u l₂ t, level l₁ u ≤ level (l₁ ++ u :: l₂) t) (hstart : V [] < base)
    (l : List α) (t : α) :
    V l = V (l ++ [t]) ↔ (p l t = true → level l t < bound →
      ∃ l₁ u l₂, l = l₁ ++ u :: l₂ ∧ p l₁ u = true ∧ level l₁ u = level l t) := by
  rw [hstep]
  split_ifs with hset
  · rw [graded_eq_iff V hstep hmono hstart hset.2 fun l₁ u l₂ hl => by rw [hl]; exact hmono _ _ _ _]
    simp [hset.1, hset.2]
  · exact iff_of_true rfl fun htest hlevel => absurd ⟨htest, hlevel⟩ hset

end Graded

section Sticky

variable {g : List α → Bool} {r : α → Bool} {c : Nat}

/-- A variable set for good, while the list so far is of some kind, is set exactly when it was
so from the start or an element sets it. -/
theorem sticky_eq_iff
    (hstep : ∀ l t, V (l ++ [t]) = if g (l ++ [t]) = true ∧ r t = true then c else V l)
    (hdown : ∀ l t, g (l ++ [t]) = true → g l = true) {l : List α} (hl : g l = true) :
    V l = c ↔ V [] = c ∨ ∃ u ∈ l, r u = true := by
  induction l using List.reverseRecOn with
  | nil => simp
  | append_singleton l t ih =>
      have hrest := ih (hdown l t hl)
      rw [hstep]
      cases ht : r t with
      | true => simp [hl, ht]
      | false => simp [ht, hrest]

/-- A variable set for good is the same with one more element exactly if that element does not
set it, or it has been set before. -/
theorem sticky_concat_iff
    (hstep : ∀ l t, V (l ++ [t]) = if g (l ++ [t]) = true ∧ r t = true then c else V l)
    (hdown : ∀ l t, g (l ++ [t]) = true → g l = true) (l : List α) (t : α) :
    V l = V (l ++ [t]) ↔ (r t = true → g (l ++ [t]) = true → V [] = c ∨ ∃ u ∈ l, r u = true) := by
  rw [hstep]
  split_ifs with hset
  · rw [sticky_eq_iff V hstep hdown (hdown l t hset.1)]
    simp [hset.1, hset.2]
  · exact iff_of_true rfl fun hr hg => absurd ⟨hg, hr⟩ hset

end Sticky

end Marks

end CiteParser
