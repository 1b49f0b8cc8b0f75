import Mathlib.Data.List.Induction
import Mathlib.Logic.Function.Basic
import Mathlib.Order.Lattice
import Mathlib.Order.Monotone.Defs
import Mathlib.Order.Nat
import Mathlib.Tactic.Common

/-!
# Best paths through layers

A path chooses a label in every layer, and its score is computed from layer to layer. The score need
not be a sum: it is enough that a better score is never worth less behind the next step, which also
holds of sums that are rounded. The best scores of the labels of a layer then come from those of the
layer before, and a best path is found by going back from its end.
-/

namespace CiteParser.Trellis

/-! ## Running maxima -/

section Maxima

variable {α β : Type*} [LinearOrder α]

/-- Keep the greater value with its note; an equal one does not count. -/
def keepGreater (s : α × Option β) (d : α) (b : β) : α × Option β :=
  if s.1 < d then (d, some b) else s

/-- Whether other notes are taken makes no difference to the scan. -/
theorem foldl_keepGreater_map {γ : Type*} (f : β → α) (g : β → γ) (l : List β)
    (s : α × Option β) :
    l.foldl (fun s x => keepGreater s (f x) (g x)) (s.1, s.2.map g) =
      ((l.foldl (fun s x => keepGreater s (f x) x) s).1,
        (l.foldl (fun s x => keepGreater s (f x) x) s).2.map g) := by
  induction l generalizing s with
  | nil => rfl
  | cons x l ih =>
      have hpass : keepGreater (s.1, s.2.map g) (f x) (g x) =
          ((keepGreater s (f x) x).1, (keepGreater s (f x) x).2.map g) := by
        rw [keepGreater, keepGreater]
        split <;> rfl
      rw [List.foldl_cons, List.foldl_cons, hpass]
      exact ih _

/-- A scan keeps what it starts from, or ends with a greatest value. -/
theorem foldl_keepGreater_cases (f : β → α) (l : List β) (floor : α) :
    (l.foldl (fun s x => keepGreater s (f x) x) (floor, none) = (floor, none) ∧
      ∀ y ∈ l, f y ≤ floor) ∨
    ∃ x ∈ l, l.foldl (fun s x => keepGreater s (f x) x) (floor, none) = (f x, some x) ∧
      ∀ y ∈ l, f y ≤ f x := by
  have hconcat {l : List β} {z : β} {c : α} (hall : ∀ y ∈ l, f y ≤ c) (hz : f z ≤ c) :
      ∀ y ∈ l ++ [z], f y ≤ c := by
    rw [List.forall_mem_append, List.forall_mem_singleton]
    exact ⟨hall, hz⟩
  induction l using List.reverseRecOn with
  | nil => exact .inl ⟨rfl, fun y hy => absurd hy List.not_mem_nil⟩
  | append_singleton l z ih =>
      rw [List.foldl_append, List.foldl_cons, List.foldl_nil]
      rcases ih with ⟨heq, hall⟩ | ⟨x, hx, heq, hall⟩
      · rw [heq, keepGreater]
        split
        next hlt =>
          exact .inr ⟨z, List.mem_concat_self, rfl,
            hconcat (fun y hy => (hall y hy).trans (le_of_lt hlt)) le_rfl⟩
        next hle => exact .inl ⟨rfl, hconcat hall (not_lt.mp hle)⟩
      · rw [heq, keepGreater]
        split
        next hlt =>
          exact .inr ⟨z, List.mem_concat_self, rfl,
            hconcat (fun y hy => (hall y hy).trans (le_of_lt hlt)) le_rfl⟩
        next hle =>
          exact .inr ⟨x, List.mem_append_left _ hx, rfl, hconcat hall (not_lt.mp hle)⟩

/-- A scan over values of which one is greater than what it starts from. -/
theorem foldl_keepGreater (f : β → α) (l : List β) (floor : α) (h : ∃ x ∈ l, floor < f x) :
    ∃ x ∈ l, l.foldl (fun s x => keepGreater s (f x) x) (floor, none) = (f x, some x) ∧
      ∀ y ∈ l, f y ≤ f x := by
  obtain ⟨x, hx, hlt⟩ := h
  exact (foldl_keepGreater_cases f l floor).resolve_left fun hnone =>
    absurd hlt (not_lt.mpr (hnone.2 x hx))

end Maxima

/-! ## Scores -/

/-- How paths are scored: the score of a first label, and that of a label behind another one. -/
structure Layers (α : Type*) where
  start : Nat → α
  extend : Nat → α → Nat → Nat → α

namespace Layers

section Scores

variable {α : Type*} {layers : Layers α} {y y' : Nat → Nat}

/-- The score of a path up to a layer. -/
def score (layers : Layers α) (y : Nat → Nat) : Nat → α
  | 0 => layers.start (y 0)
  | i + 1 => layers.extend i (layers.score y i) (y i) (y (i + 1))

theorem score_congr {i : Nat} (h : ∀ k ≤ i, y k = y' k) : layers.score y i = layers.score y' i := by
  induction i with
  | zero => rw [score, score, h 0 le_rfl]
  | succ i ih =>
      rw [score, score, ih fun k hk => h k (Nat.le_succ_of_le hk), h i (Nat.le_succ i),
        h (i + 1) le_rfl]

end Scores

variable {α : Type*} [LinearOrder α] {layers : Layers α} {width n : Nat} {y : Nat → Nat}

/-- A better score is worth no less behind the next label. -/
def Keeps (layers : Layers α) : Prop := ∀ i j k, Monotone fun a => layers.extend i a j k

/-- The scores of a table are those of the best paths to its labels, and each is made from that of
the label before it. -/
structure Best (layers : Layers α) (width n : Nat) (best : Nat → Nat → α) (prev : Nat → Nat → Nat) :
    Prop where
  start : ∀ k < width, best 0 k = layers.start k
  prev_lt : ∀ i, i + 1 < n → ∀ k < width, prev (i + 1) k < width
  attained : ∀ i, i + 1 < n → ∀ k < width,
    best (i + 1) k = layers.extend i (best i (prev (i + 1) k)) (prev (i + 1) k) k
  greatest : ∀ i, i + 1 < n → ∀ k < width, ∀ j < width,
    layers.extend i (best i j) j k ≤ best (i + 1) k

/-- The labels met when the path is followed back from its last one. -/
def back (prev : Nat → Nat → Nat) : Nat → Nat → Nat → Nat
  | 0, k => fun _ => k
  | i + 1, k => Function.update (back prev i (prev (i + 1) k)) (i + 1) k

variable {best : Nat → Nat → α} {prev : Nat → Nat → Nat}

/-- No path is better than the table says. -/
theorem Best.score_le (h : Best layers width n best prev) (hkeeps : layers.Keeps) {i : Nat}
    (hi : i < n) (hy : ∀ k ≤ i, y k < width) : layers.score y i ≤ best i (y i) := by
  induction i with
  | zero => exact (h.start (y 0) (hy 0 le_rfl)).ge
  | succ i ih =>
      have hlast := ih (Nat.lt_of_succ_lt hi) fun k hk => hy k (Nat.le_succ_of_le hk)
      exact (hkeeps i (y i) (y (i + 1)) hlast).trans
        (h.greatest i hi _ (hy (i + 1) le_rfl) _ (hy i (Nat.le_succ i)))

theorem back_self (prev : Nat → Nat → Nat) (i k : Nat) : back prev i k i = k := by
  cases i with
  | zero => rfl
  | succ i => exact Function.update_self _ _ _

theorem Best.back_lt (h : Best layers width n best prev) {i k : Nat} (hi : i < n) (hk : k < width) :
    ∀ j ≤ i, back prev i k j < width := by
  induction i generalizing k with
  | zero => exact fun _ _ => hk
  | succ i ih =>
      intro j hj
      rw [back]
      by_cases heq : j = i + 1
      · rwa [heq, Function.update_self]
      · rw [Function.update_of_ne heq]
        exact ih (Nat.lt_of_succ_lt hi) (h.prev_lt i hi k hk) j (by omega)

/-- The path that is followed back has the score of the table. -/
theorem Best.score_back (h : Best layers width n best prev) {i k : Nat} (hi : i < n)
    (hk : k < width) : layers.score (back prev i k) i = best i k := by
  induction i generalizing k with
  | zero => exact (h.start k hk).symm
  | succ i ih =>
      have hsame : layers.score (back prev (i + 1) k) i = best i (prev (i + 1) k) := by
        rw [← ih (Nat.lt_of_succ_lt hi) (h.prev_lt i hi k hk)]
        exact score_congr fun j hj => Function.update_of_ne (by omega) _ _
      have hbefore : back prev (i + 1) k i = prev (i + 1) k := by
        rw [back, Function.update_of_ne (Nat.lt_succ_self i).ne, back_self]
      rw [score, hsame, hbefore, back_self, ← h.attained i hi k hk]

/-- The path that is followed back from a best end is a best path. -/
theorem Best.score_le_back (h : Best layers width n best prev) (hkeeps : layers.Keeps) {i k : Nat}
    (hi : i < n) (hk : k < width) (hmax : ∀ j < width, best i j ≤ best i k)
    (hy : ∀ j ≤ i, y j < width) : layers.score y i ≤ layers.score (back prev i k) i := by
  rw [h.score_back hi hk]
  exact (h.score_le hkeeps hi hy).trans (hmax _ (hy i le_rfl))

/-- The best path to a label, as a path that has a label in every layer. -/
theorem Best.exists_score_eq (h : Best layers width n best prev) {i k : Nat} (hi : i < n)
    (hk : k < width) : ∃ y, (∀ l, y l < width) ∧ y i = k ∧ layers.score y i = best i k := by
  refine ⟨fun l => if l ≤ i then back prev i k l else k, fun l => ?_, ?_, ?_⟩
  · dsimp only
    split
    next hl => exact h.back_lt hi hk l hl
    next => exact hk
  · dsimp only
    rw [if_pos le_rfl, back_self]
  · rw [← h.score_back hi hk]
    exact score_congr fun l hl => if_pos hl

/-- A label behind the best path to another one is a path. -/
theorem Best.exists_score_extend (h : Best layers width n best prev) {i j k : Nat} (hi : i < n)
    (hj : j < width) (hk : k < width) :
    ∃ y, (∀ l, y l < width) ∧ layers.score y (i + 1) = layers.extend i (best i j) j k := by
  obtain ⟨y, hy, hlast, hscore⟩ := h.exists_score_eq hi hj
  refine ⟨Function.update y (i + 1) k, fun l => ?_, ?_⟩
  · by_cases hl : l = i + 1
    · rwa [hl, Function.update_self]
    · rw [Function.update_of_ne hl]
      exact hy l
  · have hsame : layers.score (Function.update y (i + 1) k) i = best i j := by
      rw [← hscore]
      exact score_congr fun l hl => Function.update_of_ne (by omega) _ _
    rw [score, hsame, Function.update_self, Function.update_of_ne (by omega), hlast]

/-- Tables that are filled by scanning the labels before each label, if no path is as bad as what
the scans start from. -/
theorem Best.of_scans (floor : α) (hwidth : 0 < width)
    (hstart : ∀ k < width, best 0 k = layers.start k)
    (hscan : ∀ i, i + 1 < n → ∀ k < width,
      (∃ j ∈ List.range width, floor < layers.extend i (best i j) j k) →
      (List.range width).foldl (fun s j => keepGreater s (layers.extend i (best i j) j k) j)
        (floor, none) = (best (i + 1) k, some (prev (i + 1) k)))
    (hfloor : ∀ y : Nat → Nat, (∀ l, y l < width) → ∀ i < n, floor < layers.score y i) :
    Best layers width n best prev := by
  induction n with
  | zero =>
      exact ⟨hstart, fun i hi => absurd hi (Nat.not_lt_zero _),
        fun i hi => absurd hi (Nat.not_lt_zero _), fun i hi => absurd hi (Nat.not_lt_zero _)⟩
  | succ n ih =>
      have hbefore := ih (fun i hi => hscan i (Nat.lt_succ_of_lt hi))
        fun y hy i hi => hfloor y hy i (Nat.lt_succ_of_lt hi)
      have hlast : ∀ i, i + 1 = n → ∀ k < width, ∃ j < width, prev (i + 1) k = j ∧
          best (i + 1) k = layers.extend i (best i j) j k ∧
          ∀ j' < width, layers.extend i (best i j') j' k ≤ best (i + 1) k := by
        intro i hi k hk
        have habove : ∃ j ∈ List.range width, floor < layers.extend i (best i j) j k := by
          obtain ⟨y, hy, hscore⟩ := hbefore.exists_score_extend (show i < n by omega) hwidth hk
          exact ⟨0, List.mem_range.mpr hwidth, hscore ▸ hfloor y hy (i + 1) (by omega)⟩
        obtain ⟨j, hj, heq, hall⟩ := foldl_keepGreater
          (fun j => layers.extend i (best i j) j k) (List.range width) floor habove
        rw [hscan i (by omega) k hk habove, Prod.mk.injEq, Option.some.injEq] at heq
        refine ⟨j, List.mem_range.mp hj, heq.2, heq.1, fun j' hj' => ?_⟩
        rw [heq.1]
        exact hall j' (List.mem_range.mpr hj')
      refine ⟨hstart, fun i hi k hk => ?_, fun i hi k hk => ?_, fun i hi k hk => ?_⟩
      all_goals rcases Nat.lt_succ_iff_lt_or_eq.mp hi with hi | hi
      · exact hbefore.prev_lt i hi k hk
      · obtain ⟨j, hj, hprev, -⟩ := hlast i hi k hk
        rwa [hprev]
      · exact hbefore.attained i hi k hk
      · obtain ⟨j, -, rfl, heq, -⟩ := hlast i hi k hk
        exact heq
      · exact hbefore.greatest i hi k hk
      · obtain ⟨j, -, -, -, hall⟩ := hlast i hi k hk
        exact hall

end Layers

end CiteParser.Trellis
