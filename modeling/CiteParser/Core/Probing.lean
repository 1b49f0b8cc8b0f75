import CiteParser.Core.Cells
import Mathlib.Data.Finset.Card
import Mathlib.Data.Nat.Find
import Mathlib.Data.Nat.ModEq

/-!
# Probing

Tables in which a key is looked for in one cell after the other, in an order of its own that goes
through all of them, up to the first empty one. A key that was put where its search led is found
as long as no cell becomes empty again: one that is given up is only marked as deleted.
-/

namespace CiteParser.Probing

open Cells

/-! ## Steps of one length round a table -/

section Steps

variable {n inc i t : Nat}

/-- One step round `n` cells. -/
def step (n inc i : Nat) : Nat := if n ≤ i + inc then i + inc - n else i + inc

/-- The cell that so many steps lead to. -/
def probe (n inc start t : Nat) : Nat := (start + t * inc) % n

theorem probe_zero (start : Nat) : probe n inc start 0 = start % n := by
  rw [probe, Nat.zero_mul, Nat.add_zero]

theorem step_probe {start : Nat} (hn : 0 < n) (hinc : inc ≤ n) :
    step n inc (probe n inc start t) = probe n inc start (t + 1) := by
  have hlt : probe n inc start t < n := Nat.mod_lt _ hn
  have hnext : probe n inc start (t + 1) = (probe n inc start t + inc) % n := by
    rw [probe, probe, Nat.mod_add_mod, Nat.succ_mul, Nat.add_assoc]
  rw [hnext, step]
  split
  next hle => rw [Nat.mod_eq_sub_mod hle, Nat.mod_eq_of_lt (by omega)]
  next hlt => rw [Nat.mod_eq_of_lt (by omega)]

/-- An order in which cells are gone through: each of them comes once. -/
structure Sweeps (n : Nat) (seq : Nat → Nat) : Prop where
  lt : ∀ t, seq t < n
  inj : ∀ t < n, ∀ t' < n, seq t = seq t' → t = t'
  surj : ∀ i < n, ∃ t < n, seq t = i

/-- What some cell has is come to for a first time. -/
theorem Sweeps.exists_first {seq : Nat → Nat} (hseq : Sweeps n seq) {p : Nat → Prop}
    (h : ∃ i < n, p i) : ∃ t < n, p (seq t) ∧ ∀ s < t, ¬ p (seq s) := by
  classical
  obtain ⟨i, hi, hp⟩ := h
  obtain ⟨t, ht, rfl⟩ := hseq.surj i hi
  have hex : ∃ t, p (seq t) := ⟨t, hp⟩
  exact ⟨Nat.find hex, (Nat.find_min' hex hp).trans_lt ht, Nat.find_spec hex,
    fun s hs => Nat.find_min hex hs⟩

/-- Steps of a length prime to the number of the cells go through all of them. -/
theorem sweeps_probe (start : Nat) (hn : 0 < n) (h : Nat.Coprime inc n) :
    Sweeps n (probe n inc start) := by
  have hlt : ∀ t, probe n inc start t < n := fun t => Nat.mod_lt _ hn
  have hinj : ∀ t < n, ∀ t' < n, probe n inc start t = probe n inc start t' → t = t' := by
    intro t ht t' ht' heq
    have hmul : t * inc ≡ t' * inc [MOD n] := Nat.ModEq.add_left_cancel' start heq
    have hmod : t ≡ t' [MOD n] := hmul.cancel_right_of_coprime (Nat.coprime_comm.mp h)
    rwa [Nat.ModEq, Nat.mod_eq_of_lt ht, Nat.mod_eq_of_lt ht'] at hmod
  refine ⟨hlt, hinj, fun i hi => ?_⟩
  have hsurj := Finset.surjOn_of_injOn_of_card_le (s := Finset.range n) (t := Finset.range n)
    (probe n inc start) (fun t _ => Finset.mem_coe.mpr (Finset.mem_range.mpr (hlt t)))
    (fun t ht t' ht' => hinj t (Finset.mem_range.mp ht) t' (Finset.mem_range.mp ht')) le_rfl
  obtain ⟨t, ht, heq⟩ := hsurj (Finset.mem_coe.mpr (Finset.mem_range.mpr hi))
  exact ⟨t, Finset.mem_range.mp ht, heq⟩

end Steps

/-! ## Cells with keys -/

/-- What can be found in a cell. -/
inductive Cell (α : Type*) where
  | empty
  | deleted
  | live (a : α)

namespace Cell

variable {α : Type*}

/-- What the table has in the cell. -/
def content : Cell α → Option α
  | live a => some a
  | _ => none

/-- Cells that a search goes on behind, or may. -/
def used : Cell α → Option Unit
  | empty => none
  | _ => some ()

theorem content_eq_some_iff {c : Cell α} {a : α} : c.content = some a ↔ c = live a := by
  cases c <;> simp [content]

theorem used_eq_none_iff {c : Cell α} : c.used = none ↔ c = empty := by
  cases c <;> simp [used]

theorem used_of_content {c : Cell α} (h : c.content.isSome = true) : c.used.isSome = true := by
  cases c with
  | empty => exact h
  | deleted => rfl
  | live a => rfl

end Cell

variable {K V : Type*} {n : Nat} {seq : K → Nat → Nat} {cell cell' : Nat → Cell (K × V)}

/-- The entries of a table. -/
def entries (n : Nat) (cell : Nat → Cell (K × V)) : List (K × V) :=
  contents n fun i => (cell i).content

/-- The number of the cells that are not empty. -/
def occupied (n : Nat) (cell : Nat → Cell (K × V)) : Nat :=
  (contents n fun i => (cell i).used).length

theorem mem_entries {e : K × V} : e ∈ entries n cell ↔ ∃ i < n, cell i = .live e := by
  rw [entries, mem_contents]
  exact exists_congr fun i => and_congr_right' Cell.content_eq_some_iff

theorem length_entries_le_occupied : (entries n cell).length ≤ occupied n cell :=
  length_contents_mono fun _ _ h => Cell.used_of_content h

/-- All cells in use have an entry if none is marked as deleted. -/
theorem occupied_eq_length (h : ∀ i < n, cell i ≠ .deleted) :
    occupied n cell = (entries n cell).length := by
  refine le_antisymm (length_contents_mono fun i hi hused => ?_) length_entries_le_occupied
  cases hcell : cell i with
  | empty =>
      rw [hcell] at hused
      contradiction
  | deleted => exact absurd hcell (h i hi)
  | live a => rfl

theorem exists_empty (h : occupied n cell < n) : ∃ i < n, cell i = .empty := by
  obtain ⟨i, hi, hnone⟩ := exists_gap h
  exact ⟨i, hi, Cell.used_eq_none_iff.mp hnone⟩

/-- Every entry is where the search for its key leads, before any empty cell. -/
def Placed (seq : K → Nat → Nat) (n : Nat) (cell : Nat → Cell (K × V)) : Prop :=
  ∀ i < n, ∀ e, cell i = .live e → ∃ t < n, seq e.1 t = i ∧ ∀ s < t, cell (seq e.1 s) ≠ .empty

/-- Cells that the search for a key does not go on behind. -/
def Stops (cell : Nat → Cell (K × V)) (key : K) (i : Nat) : Prop :=
  cell i = .empty ∨ ∃ v, cell i = .live (key, v)

/-- So many cells are gone through to where the search for a key ends. -/
structure EndsAt (seq : K → Nat → Nat) (n : Nat) (cell : Nat → Cell (K × V)) (key : K) (t : Nat) :
    Prop where
  lt : t < n
  stops : Stops cell key (seq key t)
  goesOn : ∀ s < t, ¬ Stops cell key (seq key s)

/-- The search for a key ends if there is an empty cell. -/
theorem exists_endsAt (hseq : ∀ key, Sweeps n (seq key)) (h : ∃ i < n, cell i = .empty) (key : K) :
    ∃ t, EndsAt seq n cell key t := by
  obtain ⟨i, hi, hempty⟩ := h
  obtain ⟨t, ht, hstops, hbefore⟩ :=
    (hseq key).exists_first (p := Stops cell key) ⟨i, hi, .inl hempty⟩
  exact ⟨t, ht, hstops, hbefore⟩

/-- The search for the key of an entry ends where it is. -/
theorem EndsAt.live_of_mem {key : K} {v : V} {t : Nat} (hseq : ∀ key, Sweeps n (seq key))
    (hplaced : Placed seq n cell) (hnodup : ((entries n cell).map Prod.fst).Nodup)
    (h : EndsAt seq n cell key t) (hmem : (key, v) ∈ entries n cell) :
    cell (seq key t) = .live (key, v) := by
  obtain ⟨i, hi, hlive⟩ := mem_entries.mp hmem
  obtain ⟨u, hu, rfl, hbefore⟩ := hplaced i hi _ hlive
  have hle : t ≤ u := by
    by_contra hlt
    exact h.goesOn u (not_le.mp hlt) (.inr ⟨v, hlive⟩)
  rcases h.stops with hempty | ⟨w, hw⟩
  · rcases hle.eq_or_lt with rfl | hlt
    · exact hlive
    · exact absurd hempty (hbefore t hlt)
  · have heq : seq key t = seq key u :=
      eq_of_key_eq hnodup ((hseq key).lt t) hi (Cell.content_eq_some_iff.mpr hw)
        (Cell.content_eq_some_iff.mpr hlive) rfl
    rw [heq, hlive]

/-- A table stays in order if no cell becomes empty again, and every entry is where it was or where
the search for its key leads. -/
theorem Placed.mono (h : Placed seq n cell) (hne : ∀ j, cell j ≠ .empty → cell' j ≠ .empty)
    (hlive : ∀ i < n, ∀ e, cell' i = .live e → (∃ v, cell i = .live (e.1, v)) ∨
      ∃ t < n, seq e.1 t = i ∧ ∀ s < t, cell (seq e.1 s) ≠ .empty) : Placed seq n cell' := by
  intro i hi e he
  have hold : ∃ t < n, seq e.1 t = i ∧ ∀ s < t, cell (seq e.1 s) ≠ .empty := by
    rcases hlive i hi e he with ⟨v, hv⟩ | hnew
    · exact h i hi (e.1, v) hv
    · exact hnew
  obtain ⟨t, ht, hat, hbefore⟩ := hold
  exact ⟨t, ht, hat, fun s hs => hne _ (hbefore s hs)⟩

/-- Cells that were not empty are not, when one of the others is not. -/
theorem ne_empty_of_other {i : Nat} (hi : cell' i ≠ .empty)
    (hother : ∀ j, j ≠ i → cell' j = cell j) (j : Nat) (hj : cell j ≠ .empty) :
    cell' j ≠ .empty := by
  by_cases heq : j = i
  · rwa [heq]
  · rwa [hother j heq]

/-- A table stays in order when an entry comes to where the search for its key leads, and no other
cell is changed. -/
theorem Placed.insert {e : K × V} {t : Nat} (h : Placed seq n cell) (ht : t < n)
    (hbefore : ∀ s < t, cell (seq e.1 s) ≠ .empty) (hlive : cell' (seq e.1 t) = .live e)
    (hother : ∀ j, j ≠ seq e.1 t → cell' j = cell j) : Placed seq n cell' := by
  refine h.mono (ne_empty_of_other (fun hempty => ?_) hother) fun i _ f hf => ?_
  · rw [hlive] at hempty
    contradiction
  · by_cases heq : i = seq e.1 t
    · rw [heq, hlive] at hf
      cases hf
      exact .inr ⟨t, ht, heq.symm, hbefore⟩
    · exact .inl ⟨f.2, (hother i heq).symm.trans hf⟩

/-- A table stays in order when an entry is marked as deleted. -/
theorem Placed.delete {i : Nat} (h : Placed seq n cell) (hdel : cell' i = .deleted)
    (hother : ∀ j, j ≠ i → cell' j = cell j) : Placed seq n cell' := by
  refine h.mono (ne_empty_of_other (fun hempty => ?_) hother) fun j _ f hf => ?_
  · rw [hdel] at hempty
    contradiction
  · by_cases heq : j = i
    · rw [heq, hdel] at hf
      contradiction
    · exact .inl ⟨f.2, (hother j heq).symm.trans hf⟩

/-- A table stays in order when an entry gets another value. -/
theorem Placed.assign {i : Nat} {key : K} {v w : V} (h : Placed seq n cell)
    (hold : cell i = .live (key, v)) (hnew : cell' i = .live (key, w))
    (hother : ∀ j, j ≠ i → cell' j = cell j) : Placed seq n cell' := by
  refine h.mono (ne_empty_of_other (fun hempty => ?_) hother) fun j _ f hf => ?_
  · rw [hnew] at hempty
    contradiction
  · by_cases heq : j = i
    · rw [heq, hnew] at hf
      cases hf
      exact .inl ⟨v, heq ▸ hold⟩
    · exact .inl ⟨f.2, (hother j heq).symm.trans hf⟩

end CiteParser.Probing
