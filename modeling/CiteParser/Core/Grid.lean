import Mathlib.Data.List.Range
import Mathlib.Logic.Function.Basic
import Mathlib.Tactic.Common

/-!
# Grids visited layer by layer

Nested loops visit the cells of a grid and store a new value in each. A cell is visited once, so
at the end it holds what its visit has made of the grid at that time: the layers before it were
finished by then, and it held what it had held at first.
-/

namespace CiteParser

/-- A cell for each place of each layer. -/
abbrev Grid (α : Type*) := Nat → Nat → α

namespace Grid

variable {α : Type*}

/-- `grid[i][j] = v`. -/
def set (T : Grid α) (i j : Nat) (v : α) : Grid α :=
  Function.update T i (Function.update (T i) j v)

@[simp] theorem set_self (T : Grid α) (i j : Nat) (v : α) : T.set i j v i j = v := by
  rw [set, Function.update_self, Function.update_self]

/-- Other layers stay. -/
theorem set_layer (T : Grid α) {i k : Nat} (h : k ≠ i) (j : Nat) (v : α) : T.set i j v k = T k :=
  Function.update_of_ne h _ _

/-- Other places of the layer stay. -/
theorem set_place (T : Grid α) (i : Nat) {j k : Nat} (h : k ≠ j) (v : α) :
    T.set i j v i k = T i k := by
  rw [set, Function.update_self, Function.update_of_ne h]

variable (visit : Grid α → Nat → Nat → α)

/-- The inner loop over the places of a layer. -/
def sweep (i width : Nat) (T : Grid α) : Grid α :=
  (List.range width).foldl (fun T j => T.set i j (visit T i j)) T

/-- The outer loop over some layers. -/
def sweeps (layers : List Nat) (width : Nat) (T : Grid α) : Grid α :=
  layers.foldl (fun T i => sweep visit i width T) T

/-- The last pass of the inner loop. -/
theorem sweep_succ (i width : Nat) (T : Grid α) : sweep visit i (width + 1) T =
    (sweep visit i width T).set i width (visit (sweep visit i width T) i width) := by
  rw [sweep, List.range_succ, List.foldl_append]
  rfl

/-- The inner loop leaves other layers. -/
theorem sweep_layer (T : Grid α) {i k : Nat} (h : k ≠ i) (width : Nat) :
    sweep visit i width T k = T k := by
  induction width with
  | zero => rfl
  | succ width ih => rw [sweep_succ, set_layer _ h, ih]

/-- The inner loop leaves places that it has not reached. -/
theorem sweep_place (T : Grid α) (i : Nat) {width k : Nat} (h : width ≤ k) :
    sweep visit i width T i k = T i k := by
  induction width with
  | zero => rfl
  | succ width ih => rw [sweep_succ, set_place _ i (by omega), ih (by omega)]

/-- What the inner loop leaves in a cell. -/
theorem sweep_cell (T : Grid α) (i : Nat) {width j : Nat} (h : j < width) :
    ∃ S : Grid α, (∀ k ≠ i, S k = T k) ∧ S i j = T i j ∧
      sweep visit i width T i j = visit S i j := by
  induction width with
  | zero => omega
  | succ width ih =>
      rw [sweep_succ]
      by_cases hlast : j = width
      · subst hlast
        exact ⟨sweep visit i j T, fun k hk => sweep_layer visit T hk j,
          sweep_place visit T i le_rfl, set_self _ i j _⟩
      · obtain ⟨S, hother, hown, hcell⟩ := ih (by omega)
        exact ⟨S, hother, hown, (set_place _ i hlast _).trans hcell⟩

/-- The outer loop leaves layers that it does not come to. -/
theorem sweeps_layer (T : Grid α) {layers : List Nat} {k : Nat} (h : k ∉ layers) (width : Nat) :
    sweeps visit layers width T k = T k := by
  induction layers generalizing T with
  | nil => rfl
  | cons i layers ih =>
      rw [List.mem_cons, not_or] at h
      rw [sweeps, List.foldl_cons, ← sweeps, ih _ h.2, sweep_layer visit T h.1]

/-- What the loops leave in a cell whose layer they come to once: the layers before it are
finished when it is visited. -/
theorem sweeps_cell (T : Grid α) (first n : Nat) {i : Nat} (hfirst : first ≤ i)
    (hi : i < first + n) {width j : Nat} (hj : j < width) :
    ∃ S : Grid α, (∀ k < i, S k = sweeps visit (List.range' first n) width T k) ∧
      S i j = T i j ∧ sweeps visit (List.range' first n) width T i j = visit S i j := by
  induction n with
  | zero => omega
  | succ n ih =>
      have hsplit : sweeps visit (List.range' first (n + 1)) width T =
          sweep visit (first + n) width (sweeps visit (List.range' first n) width T) := by
        rw [sweeps, List.range'_1_concat, List.foldl_append]
        rfl
      rw [hsplit]
      by_cases hlast : i = first + n
      · subst hlast
        obtain ⟨S, hother, hown, hcell⟩ :=
          sweep_cell visit (sweeps visit (List.range' first n) width T) (first + n) hj
        refine ⟨S, fun k hk => ?_, ?_, hcell⟩
        · rw [hother k hk.ne, sweep_layer visit _ hk.ne]
        · rw [hown, sweeps_layer visit T]
          rw [List.mem_range'_1]
          omega
      · obtain ⟨S, hbefore, hown, hcell⟩ := ih (by omega)
        refine ⟨S, fun k hk => ?_, hown, ?_⟩
        · rw [sweep_layer visit _ (by omega), hbefore k hk]
        · rw [sweep_layer visit _ hlast, hcell]

/-- What the inner loop leaves where a visit only looks at its own cell. -/
theorem sweep_own (visit : Nat → Nat → α → α) (T : Grid α) (i width j : Nat) :
    sweep (fun T i j => visit i j (T i j)) i width T i j =
      if j < width then visit i j (T i j) else T i j := by
  split
  next hj =>
    obtain ⟨S, -, hown, hcell⟩ := sweep_cell (fun T i j => visit i j (T i j)) T i hj
    rw [hcell, hown]
  next hj => exact sweep_place _ T i (not_lt.mp hj)

/-- A loop over layers that makes of each what the layer itself says. -/
theorem foldl_layers {pass : Grid α → Nat → Grid α} {make : Nat → (Nat → α) → Nat → α}
    (hother : ∀ T i k, k ≠ i → pass T i k = T k) (hown : ∀ T i, pass T i i = make i (T i))
    (T : Grid α) (first n k : Nat) :
    (List.range' first n).foldl pass T k =
      if first ≤ k ∧ k < first + n then make k (T k) else T k := by
  induction n with
  | zero => rw [if_neg (by omega)]; rfl
  | succ n ih =>
      rw [List.range'_1_concat, List.foldl_append, List.foldl_cons, List.foldl_nil]
      by_cases hk : k = first + n
      · subst hk
        rw [if_neg (by omega)] at ih
        rw [hown, ih, if_pos (by omega)]
      · rw [hother _ _ _ hk, ih]
        split
        next h => rw [if_pos (by omega)]
        next h => rw [if_neg (by omega)]

end Grid

end CiteParser
