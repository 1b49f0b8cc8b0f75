import Mathlib.Data.List.Destutter
import Mathlib.Order.Basic

/-!
# Thinning a list

`List.destutter` keeps the first entry of a list and each one that the relation puts far enough
behind the last one kept. It can be built up from the left, as a loop does that remembers the
entry it has kept last. Over an ascending list and a relation that an earlier first entry only
helps, no other choice of entries far enough apart is longer.
-/

namespace CiteParser

variable {α : Type*} {R : α → α → Prop} [DecidableRel R] {a b : α} {l m : List α}

section Build

/-- Where the relation holds from some entry of an ascending list on, those entries are thinned
by themselves. -/
theorem destutter'_eq_filter [Preorder α] (hup : ∀ x y, x ≤ y → R a x → R a y)
    (hsorted : l.Pairwise (· ≤ ·)) :
    l.destutter' R a = a :: (l.filter (R a ·)).destutter R := by
  induction l with
  | nil => rfl
  | cons x l ih =>
      obtain ⟨hx, hl⟩ := List.pairwise_cons.mp hsorted
      by_cases h : R a x
      · rw [List.filter_eq_self.mpr, List.destutter'_cons_pos _ h, List.destutter_cons']
        intro y hy
        rw [decide_eq_true_eq]
        rcases List.mem_cons.mp hy with rfl | hy
        · exact h
        · exact hup x y (hx y hy) h
      · rw [List.destutter'_cons_neg _ h, ih hl, List.filter_cons_of_neg (by simpa using h)]

/-- One more entry is kept if it is far enough behind the last one. -/
theorem destutter'_concat (a : α) (l : List α) (x : α) :
    (l ++ [x]).destutter' R a =
      l.destutter' R a ++
        if ∀ y ∈ (l.destutter' R a).getLast?, R y x then [x] else [] := by
  induction l generalizing a with
  | nil => by_cases h : R a x <;> simp [h]
  | cons b l ih =>
      by_cases h : R a b
      · have hne : l.destutter' R b ≠ [] := List.destutter'_ne_nil l R
        rw [List.cons_append, List.destutter'_cons_pos _ h, List.destutter'_cons_pos _ h, ih,
          List.getLast?_cons_of_ne_nil hne]
        rfl
      · rw [List.cons_append, List.destutter'_cons_neg _ h, List.destutter'_cons_neg _ h, ih]

/-- The same from the beginning, where the first entry is kept. -/
theorem destutter_concat (l : List α) (x : α) :
    (l ++ [x]).destutter R =
      l.destutter R ++ if ∀ y ∈ (l.destutter R).getLast?, R y x then [x] else [] := by
  cases l with
  | nil => simp
  | cons a l => exact destutter'_concat a l x

/-- What is kept of a beginning is kept of the whole list. -/
theorem destutter_prefix (l m : List α) : l.destutter R <+: (l ++ m).destutter R := by
  induction m using List.reverseRecOn with
  | nil => simp
  | append_singleton m x ih =>
      rw [← List.append_assoc, destutter_concat]
      exact ih.trans (List.prefix_append _ _)

end Build

section Longest

variable [Preorder α]

/-- From a first entry that lies before the one of another choice, thinning stays ahead of it. -/
theorem length_le_length_destutter' (hR : ∀ x y z, x ≤ y → R y z → R x z)
    (hsorted : l.Pairwise (· ≤ ·)) (hab : a ≤ b) (hsub : m.Sublist l)
    (hchain : (b :: m).IsChain R) : (b :: m).length ≤ (l.destutter' R a).length := by
  induction l generalizing a b m with
  | nil =>
      rw [List.sublist_nil.mp hsub]
      exact le_rfl
  | cons c l ih =>
      obtain ⟨hc, hl⟩ := List.pairwise_cons.mp hsorted
      by_cases hac : R a c
      · rw [List.destutter'_cons_pos _ hac, List.length_cons, List.length_cons,
          Nat.add_le_add_iff_right]
        cases m with
        | nil => exact Nat.zero_le _
        | cons d m =>
            -- the second entry of the other choice is no earlier than the one kept here
            have hlater := (List.isChain_cons_cons.mp hchain).2
            rcases List.cons_sublist_cons'.mp hsub with hrest | ⟨rfl, hrest⟩
            · exact ih hl (hc d (hrest.subset List.mem_cons_self))
                (List.sublist_of_cons_sublist hrest) hlater
            · exact ih hl le_rfl hrest hlater
      · rw [List.destutter'_cons_neg _ hac]
        refine ih hl hab ?_ hchain
        cases m with
        | nil => exact List.nil_sublist l
        | cons d m =>
            rcases List.cons_sublist_cons'.mp hsub with hsub | ⟨rfl, -⟩
            · exact hsub
            · exact absurd (hR a b d hab (List.isChain_cons_cons.mp hchain).1) hac

/-- No other choice of entries far enough apart is longer. -/
theorem length_le_length_destutter (hR : ∀ x y z, x ≤ y → R y z → R x z)
    (hsorted : l.Pairwise (· ≤ ·)) (hsub : m.Sublist l) (hchain : m.IsChain R) :
    m.length ≤ (l.destutter R).length := by
  cases m with
  | nil => exact Nat.zero_le _
  | cons b m =>
      cases l with
      | nil => cases hsub
      | cons a l =>
          obtain ⟨ha, hl⟩ := List.pairwise_cons.mp hsorted
          rw [List.destutter_cons']
          rcases List.cons_sublist_cons'.mp hsub with hrest | ⟨rfl, hrest⟩
          · exact length_le_length_destutter' hR hl (ha b (hrest.subset List.mem_cons_self))
              (List.sublist_of_cons_sublist hrest) hchain
          · exact length_le_length_destutter' hR hl le_rfl hrest hchain

/-- Of more entries at least as many are kept. -/
theorem length_destutter_mono (hR : ∀ x y z, x ≤ y → R y z → R x z)
    (hsorted : l.Pairwise (· ≤ ·)) (hsub : m.Sublist l) :
    (m.destutter R).length ≤ (l.destutter R).length :=
  length_le_length_destutter hR hsorted ((List.destutter_sublist R m).trans hsub)
    (List.isChain_destutter R m)

end Longest

end CiteParser
