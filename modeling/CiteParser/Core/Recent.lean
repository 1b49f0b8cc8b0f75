import Mathlib.Data.List.Basic
import Mathlib.Data.Nat.ModEq
import Mathlib.Logic.Function.Basic

/-!
# The most recent entries

Entries that are stored one after the other into the slots of an array, counted modulo its size,
overwrite the oldest ones. The array keeps the most recent ones, in order from the slot that would
be the next one.
-/

namespace CiteParser

variable {α : Type*} {size : Nat} {slots : Nat → α} {entries : List α}

/-- The slots hold those of the entries that have not been overwritten. -/
def KeepsRecent (size : Nat) (slots : Nat → α) (entries : List α) : Prop :=
  ∀ k (hk : k < entries.length), entries.length ≤ k + size → slots (k % size) = entries[k]

namespace KeepsRecent

theorem start (size : Nat) (slots : Nat → α) : KeepsRecent size slots [] :=
  fun _ hk => absurd hk (Nat.not_lt_zero _)

/-- One more entry takes the slot of the oldest one. -/
theorem push (h : KeepsRecent size slots entries) (x : α) :
    KeepsRecent size (Function.update slots (entries.length % size) x) (entries ++ [x]) := by
  intro k hk hrecent
  rw [List.length_append, List.length_singleton] at hk hrecent
  rcases Nat.lt_succ_iff_lt_or_eq.mp hk with hlt | rfl
  · rw [Function.update_of_ne, h k hlt (by omega), List.getElem_append_left hlt]
    -- two entries share a slot only if a whole round lies between them
    intro hslot
    have hdvd : size ∣ entries.length - k :=
      (Nat.modEq_iff_dvd' hlt.le).mp hslot
    have hle := Nat.le_of_dvd (by omega) hdvd
    omega
  · rw [Function.update_self, List.getElem_concat_length rfl]

/-- The last entry stands in the slot before the next one. -/
theorem last (h : KeepsRecent size slots entries) (hsize : 0 < size) (hne : entries ≠ []) :
    entries.getLast? = some (slots ((entries.length - 1) % size)) := by
  have hpos := List.length_pos_of_ne_nil hne
  rw [h (entries.length - 1) (by omega) (by omega), List.getLast?_eq_getElem?,
    List.getElem?_eq_getElem]

/-- From the oldest slot on stand the entries that are kept. -/
theorem recent (h : KeepsRecent size slots entries) :
    ((List.range (min entries.length size)).map fun j =>
      slots (((if size < entries.length then entries.length % size else 0) + j) % size)) =
        entries.drop (entries.length - size) := by
  apply List.ext_getElem
  · rw [List.length_map, List.length_range, List.length_drop]
    omega
  · intro j hj _
    rw [List.length_map, List.length_range] at hj
    rw [List.getElem_map, List.getElem_range, List.getElem_drop,
      ← h (entries.length - size + j) (by omega) (by omega)]
    apply congrArg slots
    split
    · rw [Nat.mod_add_mod, ← Nat.add_mod_right (entries.length - size + j)]
      apply congrArg (· % size)
      omega
    · rw [Nat.zero_add, Nat.sub_eq_zero_of_le (by omega), Nat.zero_add]

end KeepsRecent

end CiteParser
