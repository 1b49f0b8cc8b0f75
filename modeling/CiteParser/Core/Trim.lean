import Mathlib.Data.List.DropRight
import Mathlib.Tactic.Common

/-!
# Trimming

A list without the elements of a kind that stand at its ends.
-/

namespace CiteParser

variable {α : Type*} {p : α → Bool} {a b l t : List α}

/-- Elements of the kind are taken away at the end, and then at the beginning. -/
def trim (p : α → Bool) (l : List α) : List α := (l.rdropWhile p).dropWhile p

/-- There is nothing to take away. -/
structure Trimmed (p : α → Bool) (t : List α) : Prop where
  head : ∀ x ∈ t.head?, p x = false
  last : ∀ x ∈ t.getLast?, p x = false

theorem rdropWhile_append_of_all (hb : ∀ x ∈ b, p x = true) (a : List α) :
    (a ++ b).rdropWhile p = a.rdropWhile p := by
  induction b using List.reverseRecOn with
  | nil => rw [List.append_nil]
  | append_singleton b x ih =>
      rw [List.forall_mem_append] at hb
      rw [← List.append_assoc, List.rdropWhile_concat_pos _ _ _ (hb.2 x List.mem_cons_self),
        ih hb.1]

theorem rdropWhile_append_cons {x : α} (hx : p x = false) (a b : List α) :
    (a ++ x :: b).rdropWhile p = a ++ x :: b.rdropWhile p := by
  induction b using List.reverseRecOn with
  | nil => rw [List.rdropWhile_nil, List.rdropWhile_concat_neg _ _ _ (by simp [hx])]
  | append_singleton b y ih =>
      rw [← List.cons_append, ← List.append_assoc, List.rdropWhile_concat,
        List.rdropWhile_concat]
      split
      · exact ih
      · simp

theorem dropWhile_eq_self (hl : ∀ x ∈ l.head?, p x = false) : l.dropWhile p = l := by
  cases l with
  | nil => rfl
  | cons x l =>
      have hx := hl x rfl
      rw [List.dropWhile_cons_of_neg (by simp [hx])]

namespace Trimmed

theorem nil : Trimmed p [] := ⟨by simp, by simp⟩

theorem rdropWhile_eq (h : Trimmed p t) : t.rdropWhile p = t := by
  rw [List.rdropWhile_eq_self_iff]
  intro hne hlast
  have hfalse := h.last _ (List.getLast_mem_getLast? hne)
  rw [hlast] at hfalse
  contradiction

/-- What stands in front goes away as long as it is of the kind. -/
theorem dropWhile_append (h : Trimmed p t) (hne : t ≠ []) (ha : ∀ x ∈ a, p x = true) (b : List α) :
    (a ++ (t ++ b)).dropWhile p = t ++ b := by
  rw [List.dropWhile_append_of_pos ha]
  refine dropWhile_eq_self fun x hx => h.head x ?_
  rwa [List.head?_append_of_ne_nil _ hne] at hx

end Trimmed

theorem getLast?_rdropWhile (p : α → Bool) (l : List α) :
    ∀ x ∈ (l.rdropWhile p).getLast?, p x = false := by
  intro x hx
  obtain ⟨hne, rfl⟩ := List.mem_getLast?_eq_getLast hx
  simpa using List.rdropWhile_last_not p l hne

theorem head?_dropWhile (p : α → Bool) (l : List α) :
    ∀ x ∈ (l.dropWhile p).head?, p x = false := by
  intro x hx
  have hnot := List.head?_dropWhile_not p l
  rw [Option.mem_def.mp hx] at hnot
  exact hnot

theorem exists_rdropWhile (p : α → Bool) (l : List α) :
    ∃ b, l = l.rdropWhile p ++ b ∧ ∀ x ∈ b, p x = true :=
  ⟨l.rtakeWhile p, (List.rdropWhile_append_rtakeWhile ..).symm, fun _ => List.mem_rtakeWhile_imp⟩

theorem exists_dropWhile (p : α → Bool) (l : List α) :
    ∃ a, l = a ++ l.dropWhile p ∧ ∀ x ∈ a, p x = true :=
  ⟨l.takeWhile p, List.takeWhile_append_dropWhile.symm, fun _ => List.mem_takeWhile_imp⟩

theorem trimmed_trim (p : α → Bool) (l : List α) : Trimmed p (trim p l) := by
  refine ⟨head?_dropWhile p _, ?_⟩
  obtain ⟨a, ha, -⟩ := exists_dropWhile p (l.rdropWhile p)
  intro x hx
  refine getLast?_rdropWhile p l x ?_
  rw [ha, List.getLast?_append]
  rw [trim] at hx
  rw [hx]
  rfl

/-- Nothing but elements of the kind is taken away. -/
theorem exists_trim (p : α → Bool) (l : List α) :
    ∃ a b, l = a ++ trim p l ++ b ∧ (∀ x ∈ a, p x = true) ∧ ∀ x ∈ b, p x = true := by
  obtain ⟨b, hb, hball⟩ := exists_rdropWhile p l
  obtain ⟨a, ha, haall⟩ := exists_dropWhile p (l.rdropWhile p)
  exact ⟨a, b, by rw [trim, ← ha, ← hb], haall, hball⟩

/-- All of them are. -/
theorem Trimmed.trim_append (h : Trimmed p t) (ha : ∀ x ∈ a, p x = true)
    (hb : ∀ x ∈ b, p x = true) : trim p (a ++ t ++ b) = t := by
  rw [trim, rdropWhile_append_of_all hb]
  by_cases hne : t = []
  · subst hne
    rw [List.append_nil, List.rdropWhile_eq_nil_iff.mpr ha, List.dropWhile_nil]
  · obtain ⟨t', x, rfl⟩ := (List.eq_nil_or_concat t).resolve_left hne
    have hx := h.last x (by simp)
    rw [List.concat_eq_append, ← List.append_assoc, rdropWhile_append_cons hx, List.rdropWhile_nil,
      List.append_assoc, ← List.append_nil (t' ++ [x])]
    rw [List.concat_eq_append] at h
    exact h.dropWhile_append (by simp) ha []

end CiteParser
