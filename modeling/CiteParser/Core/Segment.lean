import Mathlib.Tactic.Common

/-!
# Segments of an indexed memory

A memory is a function of the index; the segment between two indices is the list of
its cells. A scanner that only ever moves its index forward splits one segment into
consecutive pieces, which is what the concatenation rules below are for.
-/

namespace CiteParser

variable {α : Type*}

/-- The cells of `src` from index `a` up to, not including, index `b`. -/
def segment (src : Nat → α) (a b : Nat) : List α := (List.range' a (b - a)).map src

@[simp] theorem length_segment (src : Nat → α) (a b : Nat) :
    (segment src a b).length = b - a := by
  simp only [segment, List.length_map, List.length_range']

/-- Nothing lies between an index and a smaller one. -/
theorem segment_eq_nil {src : Nat → α} {a b : Nat} (h : b ≤ a) : segment src a b = [] := by
  rw [segment, Nat.sub_eq_zero_of_le h]
  rfl

@[simp] theorem segment_self (src : Nat → α) (a : Nat) : segment src a a = [] :=
  segment_eq_nil (Nat.le_refl a)

/-- Consecutive segments join at their common index. -/
theorem segment_append (src : Nat → α) {a b c : Nat} (hab : a ≤ b) (hbc : b ≤ c) :
    segment src a b ++ segment src b c = segment src a c := by
  have hcut : List.range' a (b - a) ++ List.range' b (c - b) = List.range' a (c - a) := by
    have hb : b = a + 1 * (b - a) := by omega
    rw [show c - a = (b - a) + (c - b) by omega, ← List.range'_append]
    exact congrArg (List.range' a (b - a) ++ ·) (by rw [← hb])
  simp only [segment, ← List.map_append, hcut]

/-- The first cell of a non-empty segment. -/
theorem segment_cons (src : Nat → α) {a b : Nat} (h : a < b) :
    segment src a b = src a :: segment src (a + 1) b := by
  rw [segment, show b - a = (b - (a + 1)) + 1 by omega, List.range'_succ]
  rfl

/-- The last cell of a segment that ends after its start. -/
theorem segment_succ (src : Nat → α) {a b : Nat} (h : a ≤ b) :
    segment src a (b + 1) = segment src a b ++ [src b] := by
  rw [← segment_append src h (Nat.le_succ b), segment_cons src (Nat.lt_succ_self b),
    segment_self]

/-- A cell of a segment is read at an index of the segment. -/
theorem mem_segment {src : Nat → α} {a b : Nat} {x : α} :
    x ∈ segment src a b ↔ ∃ i, a ≤ i ∧ i < b ∧ src i = x := by
  simp only [segment, List.mem_map, List.mem_range'_1]
  constructor
  · rintro ⟨i, hi, rfl⟩
    exact ⟨i, hi.1, by omega, rfl⟩
  · rintro ⟨i, ha, hb, rfl⟩
    exact ⟨i, by omega, rfl⟩

/-- Moving the base pointer shifts both ends of a segment. -/
theorem segment_shift (src : Nat → α) (base a b : Nat) :
    segment (fun i => src (base + i)) a b = segment src (base + a) (base + b) := by
  simp only [segment, Nat.add_sub_add_left, List.range'_eq_map_range, List.map_map]
  refine List.map_congr_left fun i _ => ?_
  simp only [Function.comp_apply, Nat.add_assoc]

/-- A test that rejects every cell of a segment keeps none of it. -/
theorem filter_segment_eq_nil {src : Nat → α} {p : α → Bool} {a b : Nat}
    (h : ∀ i, a ≤ i → i < b → p (src i) = false) : (segment src a b).filter p = [] := by
  rw [List.filter_eq_nil_iff]
  intro x hx
  obtain ⟨i, ha, hb, rfl⟩ := mem_segment.mp hx
  simp only [h i ha hb, Bool.false_eq_true, not_false_eq_true]

/-- The segments between each two cuts that follow each other. -/
def segments (src : Nat → α) : List Nat → List (List α)
  | a :: b :: cuts => segment src a b :: segments src (b :: cuts)
  | _ => []

/-- The segments between ascending cuts join to the one from the first cut to the last. -/
theorem flatten_segments (src : Nat → α) {a b : Nat} {cuts : List Nat}
    (h : (a :: cuts ++ [b]).Pairwise (· ≤ ·)) :
    (segments src (a :: cuts ++ [b])).flatten = segment src a b := by
  induction cuts generalizing a with
  | nil => exact List.append_nil _
  | cons c cuts ih =>
      obtain ⟨hfirst, hrest⟩ := List.pairwise_cons.mp h
      have hac : a ≤ c := hfirst c List.mem_cons_self
      have hcb : c ≤ b := (List.pairwise_cons.mp hrest).1 b
        (List.mem_append_right _ (List.mem_singleton.mpr rfl))
      rw [List.cons_append, List.cons_append, segments, List.flatten_cons, ← List.cons_append,
        ih hrest, segment_append src hac hcb]

/-- The word stands in the memory from index `i` on. -/
def StandsAt (src : Nat → α) (i : Nat) (w : List α) : Prop := segment src i (i + w.length) = w

/-- A word stands where its first letter is followed by the others. -/
theorem standsAt_cons {src : Nat → α} {i : Nat} {c : α} {w : List α} :
    StandsAt src i (c :: w) ↔ src i = c ∧ StandsAt src (i + 1) w := by
  rw [StandsAt, List.length_cons, segment_cons src (by omega), List.cons_eq_cons, StandsAt,
    Nat.add_right_comm, Nat.add_assoc i]

/-- Two words that follow each other stand one after the other. -/
theorem standsAt_append {src : Nat → α} {i : Nat} {u v : List α} :
    StandsAt src i (u ++ v) ↔ StandsAt src i u ∧ StandsAt src (i + u.length) v := by
  rw [StandsAt, List.length_append, ← Nat.add_assoc,
    ← segment_append src (Nat.le_add_right i u.length) (Nat.le_add_right _ v.length)]
  constructor
  · intro h
    exact List.append_inj h (by rw [length_segment, Nat.add_sub_cancel_left])
  · rintro ⟨hu, hv⟩
    rw [hu, hv]

end CiteParser
