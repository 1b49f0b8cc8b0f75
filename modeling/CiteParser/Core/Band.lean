import CiteParser.Core.Alignment

/-!
# Alignments inside a band

Alignments that may skip the beginning of one side for free and must then stay within a
given distance of the diagonal. They are what a table with zero borders measures when it
is filled in a band only, each cell cut off at some cap.
-/

namespace CiteParser

variable {α β : Type*}

open CiteParser.Alignment

/-- From the starts `a` and `b` on, no prefix of the alignment leaves the band. -/
def InBand (width a b : Nat) (w : Alignment α β) : Prop :=
  ∀ v, v <+: w → a + (source v).length ≤ b + (target v).length + width ∧
    b + (target v).length ≤ a + (source v).length + width

/-- The costs of the alignments that skip the beginning of one side and stay in the band. -/
def lateCosts (fits : α → β → Bool) (width : Nat) (t : List α) (s : List β) : Set Nat :=
  {c | ∃ (a b : Nat) (w : Alignment α β), (a = 0 ∨ b = 0) ∧ a ≤ t.length ∧ b ≤ s.length ∧
    source w = t.drop a ∧ target w = s.drop b ∧ InBand width a b w ∧ cost fits w = c}

/-- A band is left at one column or not at all. -/
theorem inBand_concat {width a b : Nat} {w : Alignment α β} {c : Column α β} :
    InBand width a b (w ++ [c]) ↔ InBand width a b w ∧
      a + (source (w ++ [c])).length ≤ b + (target (w ++ [c])).length + width ∧
      b + (target (w ++ [c])).length ≤ a + (source (w ++ [c])).length + width := by
  constructor
  · intro h
    exact ⟨fun v hv => h v (hv.trans (List.prefix_append w [c])), h _ List.prefix_rfl⟩
  · rintro ⟨h, hend⟩ v hv
    rcases List.prefix_concat_iff.mp hv with rfl | hv
    · exact hend
    · exact h v hv

/-- The two sides of an alignment differ in length by at most its cost. -/
theorem length_le_add_cost (fits : α → β → Bool) (w : Alignment α β) :
    (source w).length ≤ (target w).length + cost fits w ∧
      (target w).length ≤ (source w).length + cost fits w := by
  induction w using List.reverseRecOn with
  | nil => exact ⟨le_rfl, le_rfl⟩
  | append_singleton w c ih =>
      rw [source_concat, target_concat, cost_concat, List.length_append, List.length_append]
      cases c with
      | delete a =>
          rw [Column.source, Column.target, Column.cost, List.length_singleton, List.length_nil]
          omega
      | insert b =>
          rw [Column.source, Column.target, Column.cost, List.length_singleton, List.length_nil]
          omega
      | align a b =>
          rw [Column.source, Column.target, List.length_singleton, List.length_singleton]
          omega

/-- An alignment no dearer than the band is wide stays inside. -/
theorem inBand_of_cost_le {fits : α → β → Bool} {width : Nat} {w : Alignment α β}
    (h : cost fits w ≤ width) : InBand width 0 0 w := by
  rintro v ⟨u, rfl⟩
  have hle : cost fits v ≤ cost fits (v ++ u) := by
    rw [cost, cost, List.map_append, List.sum_append]
    exact Nat.le_add_right _ _
  have hlen := length_le_add_cost fits v
  omega

/-- An alignment no dearer than the band is wide is one that skips nothing. -/
theorem mem_lateCosts_of_le {fits : α → β → Bool} {width c : Nat} {t : List α} {s : List β}
    (hc : c ∈ alignmentCosts fits t s) (hle : c ≤ width) : c ∈ lateCosts fits width t s := by
  obtain ⟨w, rfl, rfl, rfl⟩ := hc
  exact ⟨0, 0, w, .inl rfl, Nat.zero_le _, Nat.zero_le _, rfl, rfl, inBand_of_cost_le hle, rfl⟩

/-- Skipping the whole source costs nothing. -/
theorem zero_mem_lateCosts_nil_right (fits : α → β → Bool) {width : Nat} {t : List α}
    (h : t.length ≤ width) : 0 ∈ lateCosts fits width t [] := by
  refine ⟨t.length, 0, [], .inr rfl, le_rfl, le_rfl, List.drop_length.symm, rfl, ?_, rfl⟩
  intro v hv
  rw [List.prefix_nil.mp hv, source_nil, target_nil, List.length_nil, List.length_nil]
  omega

/-- Skipping the whole target costs nothing. -/
theorem zero_mem_lateCosts_nil_left (fits : α → β → Bool) {width : Nat} {s : List β}
    (h : s.length ≤ width) : 0 ∈ lateCosts fits width [] s := by
  refine ⟨0, s.length, [], .inl rfl, le_rfl, le_rfl, rfl, List.drop_length.symm, ?_, rfl⟩
  intro v hv
  rw [List.prefix_nil.mp hv, source_nil, target_nil, List.length_nil, List.length_nil]
  omega

/-- What is left of a list that grew by one entry ends with that entry. -/
theorem drop_concat_eq_concat {γ : Type*} {l u : List γ} {x y : γ} {k : Nat}
    (h : (l ++ [x]).drop k = u ++ [y]) : k ≤ l.length ∧ u = l.drop k ∧ y = x := by
  rcases Nat.lt_or_ge l.length k with hk | hk
  · rw [List.drop_eq_nil_of_le (by rw [List.length_append, List.length_singleton]; omega)] at h
    exact absurd h.symm (by simp)
  · rw [List.drop_append_of_le_length hk] at h
    obtain ⟨hu, hy⟩ := List.append_inj' h rfl
    exact ⟨hk, hu.symm, (List.singleton_inj.mp hy).symm⟩

/-- One more column, which does not leave the band. -/
theorem lateCosts_append {fits : α → β → Bool} {width c : Nat} {t : List α} {s : List β}
    (hc : c ∈ lateCosts fits width t s) (col : Column α β)
    (htop : (t ++ col.source).length ≤ (s ++ col.target).length + width)
    (hbottom : (s ++ col.target).length ≤ (t ++ col.source).length + width) :
    c + col.cost fits ∈ lateCosts fits width (t ++ col.source) (s ++ col.target) := by
  obtain ⟨a, b, w, hzero, ha, hb, hsource, htarget, hband, rfl⟩ := hc
  have hs : source (w ++ [col]) = (t ++ col.source).drop a := by
    rw [source_concat, hsource, List.drop_append_of_le_length ha]
  have ht : target (w ++ [col]) = (s ++ col.target).drop b := by
    rw [target_concat, htarget, List.drop_append_of_le_length hb]
  rw [List.length_append, List.length_append] at htop hbottom
  refine ⟨a, b, w ++ [col], hzero, ?_, ?_, hs, ht, inBand_concat.mpr ⟨hband, ?_⟩,
    cost_concat fits w col⟩
  · rw [List.length_append]
    omega
  · rw [List.length_append]
    omega
  · rw [hs, ht, List.length_drop, List.length_drop, List.length_append, List.length_append]
    omega

/-- What an alignment of two lists in the band extends. -/
theorem lateCosts_concat {fits : α → β → Bool} {width c : Nat} {t : List α} {s : List β} {x : α}
    {y : β} (hc : c ∈ lateCosts fits width (t ++ [x]) (s ++ [y])) :
    (∃ c' ∈ lateCosts fits width (t ++ [x]) s, t.length + 1 ≤ s.length + width ∧ c = c' + 1) ∨
    (∃ c' ∈ lateCosts fits width t (s ++ [y]), s.length + 1 ≤ t.length + width ∧ c = c' + 1) ∨
    ∃ c' ∈ lateCosts fits width t s, c = c' + if fits x y then 0 else 1 := by
  obtain ⟨a, b, w, hzero, ha, hb, hsource, htarget, hband, rfl⟩ := hc
  rw [List.length_append, List.length_singleton] at ha hb
  rcases List.eq_nil_or_concat' w with rfl | ⟨w, col, rfl⟩
  · -- an empty alignment would have skipped something on both sides
    have hlen := congrArg List.length hsource
    have hlen' := congrArg List.length htarget
    rw [source_nil, List.length_nil, List.length_drop, List.length_append,
      List.length_singleton] at hlen
    rw [target_nil, List.length_nil, List.length_drop, List.length_append,
      List.length_singleton] at hlen'
    omega
  have hprefix := (inBand_concat.mp hband).1
  have hend := hprefix w List.prefix_rfl
  rw [source_concat] at hsource
  rw [target_concat] at htarget
  cases col with
  | insert y' =>
      rw [Column.source, List.append_nil] at hsource
      obtain ⟨hb', ht, -⟩ := drop_concat_eq_concat htarget.symm
      refine .inl ⟨_, ⟨a, b, w, hzero, ?_, hb', hsource, ht, hprefix, rfl⟩, ?_, ?_⟩
      · rwa [List.length_append, List.length_singleton]
      · rw [hsource, ht, List.length_drop, List.length_drop, List.length_append,
          List.length_singleton] at hend
        omega
      · rw [cost_concat, Column.cost]
  | delete x' =>
      rw [Column.target, List.append_nil] at htarget
      obtain ⟨ha', hs, -⟩ := drop_concat_eq_concat hsource.symm
      refine .inr (.inl ⟨_, ⟨a, b, w, hzero, ha', ?_, hs, htarget, hprefix, rfl⟩, ?_, ?_⟩)
      · rwa [List.length_append, List.length_singleton]
      · rw [hs, htarget, List.length_drop, List.length_drop, List.length_append,
          List.length_singleton] at hend
        omega
      · rw [cost_concat, Column.cost]
  | align x' y' =>
      obtain ⟨ha', hs, rfl⟩ := drop_concat_eq_concat hsource.symm
      obtain ⟨hb', ht, rfl⟩ := drop_concat_eq_concat htarget.symm
      refine .inr (.inr ⟨_, ⟨a, b, w, hzero, ha', hb', hs, ht, hprefix, rfl⟩, ?_⟩)
      rw [cost_concat, Column.cost]

/-- The value of a cell in the band, cut off at `cap`; `left` and `up` say whether those
neighbours are in the band as well. -/
def bandValue (fits left up : Bool) (cap insertion deletion substitution : Nat) : Nat :=
  let v := if up ∧ deletion + 1 < cap then deletion + 1 else cap
  let v := if left ∧ insertion + 1 < v then insertion + 1 else v
  min v (substitution + if fits then 0 else 1)

/-- A cell is the cap or one more than a neighbour in the band. -/
theorem bandValue_cases (fits left up : Bool) (cap insertion deletion substitution : Nat) :
    let v := bandValue fits left up cap insertion deletion substitution
    v ≤ cap ∧ (left = true → v ≤ insertion + 1) ∧ (up = true → v ≤ deletion + 1) ∧
      v ≤ substitution + (if fits then 0 else 1) ∧
      (v = cap ∨ left = true ∧ v = insertion + 1 ∨ up = true ∧ v = deletion + 1 ∨
        v = substitution + if fits then 0 else 1) := by
  cases left <;> cases up <;> simp only [bandValue, Bool.false_eq_true, false_and, true_and,
    if_false, false_or, false_imp_iff, forall_const] <;> split_ifs <;> omega

section Concat

variable {fits : α → β → Bool} {width cap insertion deletion substitution : Nat} {t : List α}
  {s : List β} {x : α} {y : β} {left up : Bool}
  (hleft : left = true ↔ t.length + 1 ≤ s.length + width)
  (hup : up = true ↔ s.length + 1 ≤ t.length + width)
  (hins : left = true → IsLeast (insert cap (lateCosts fits width (t ++ [x]) s)) insertion)
  (hdel : up = true → IsLeast (insert cap (lateCosts fits width t (s ++ [y]))) deletion)
  (hsub : IsLeast (insert cap (lateCosts fits width t s)) substitution)

include hleft hup hins hdel hsub

/-- The recursion in the band computes the least cost, cut off at the cap. -/
theorem isLeast_bandValue (htop : t.length ≤ s.length + width)
    (hbottom : s.length ≤ t.length + width) :
    IsLeast (insert cap (lateCosts fits width (t ++ [x]) (s ++ [y])))
      (bandValue (fits x y) left up cap insertion deletion substitution) := by
  obtain ⟨hcap, hvl, hvu, hvd, hv⟩ :=
    bandValue_cases (fits x y) left up cap insertion deletion substitution
  set v := bandValue (fits x y) left up cap insertion deletion substitution
  have hstay (col : Column α β) (t' : List α) (s' : List β) (ht : t' ++ col.source = t ++ [x])
      (hs : s' ++ col.target = s ++ [y]) {c : Nat} (hc : c ∈ lateCosts fits width t' s') :
      c + col.cost fits ∈ lateCosts fits width (t ++ [x]) (s ++ [y]) := by
    have h := lateCosts_append hc col
    rw [ht, hs, List.length_append, List.length_append, List.length_singleton,
      List.length_singleton] at h
    exact h (by omega) (by omega)
  constructor
  · rcases hv with h | ⟨hl, h⟩ | ⟨hu, h⟩ | h
    · exact .inl h
    · rcases (hins hl).1 with hi | hi
      · exact .inl (by omega)
      · refine .inr (h ▸ hstay (.insert y) _ _ ?_ ?_ hi)
        · rw [Column.source, List.append_nil]
        · rw [Column.target]
    · rcases (hdel hu).1 with hd | hd
      · exact .inl (by omega)
      · refine .inr (h ▸ hstay (.delete x) _ _ ?_ ?_ hd)
        · rw [Column.source]
        · rw [Column.target, List.append_nil]
    · rcases hsub.1 with hd | hd
      · refine .inl ?_
        omega
      · exact .inr (h ▸ hstay (.align x y) _ _ rfl rfl hd)
  · rintro c (rfl | hc)
    · exact hcap
    · rcases lateCosts_concat hc with ⟨c', hc', hin, rfl⟩ | ⟨c', hc', hin, rfl⟩ | ⟨c', hc', rfl⟩
      · have hle := (hins (hleft.mpr hin)).2 (.inr hc')
        exact (hvl (hleft.mpr hin)).trans (by omega)
      · have hle := (hdel (hup.mpr hin)).2 (.inr hc')
        exact (hvu (hup.mpr hin)).trans (by omega)
      · have hle := hsub.2 (.inr hc')
        omega

end Concat

end CiteParser
