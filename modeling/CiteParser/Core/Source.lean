import Mathlib.Data.Nat.Init
import Mathlib.Tactic.Common

/-!
# Sources of items

A source yields an item and moves on, or has none left. A bound that every item lowers
makes the list of all its items well defined; `induct` is the induction along a source,
and the batch list `items` is what any consumer of the source is compared with.
-/

namespace CiteParser

/-- A deterministic supply of items of type `α` that runs dry from every state. -/
structure Source (σ α : Type*) where
  next : σ → Option (α × σ)
  bound : σ → Nat
  /-- Every item taken lowers the bound. -/
  bound_lt : ∀ {s a s'}, next s = some (a, s') → bound s' < bound s

namespace Source

variable {σ α β : Type*} (S : Source σ α)

/-- At most `fuel` items, in the order in which they are taken. -/
def take : Nat → σ → List α
  | 0, _ => []
  | fuel + 1, s =>
      match S.next s with
      | none => []
      | some (a, s') => a :: take fuel s'

/-- All items from a state on. -/
def items (s : σ) : List α := S.take (S.bound s + 1) s

/-- The states met, the last being the one with no item left. -/
def walk : Nat → σ → List σ
  | 0, s => [s]
  | fuel + 1, s =>
      s :: match S.next s with
        | none => []
        | some (_, s') => walk fuel s'

/-- All states from a state on. -/
def path (s : σ) : List σ := S.walk (S.bound s) s

/-- Induction along a source: from the state with no item left backwards. -/
theorem induct {P : σ → Prop} (hnone : ∀ s, S.next s = none → P s)
    (hsome : ∀ s a s', S.next s = some (a, s') → P s' → P s) (s : σ) : P s := by
  generalize hn : S.bound s = n
  induction n using Nat.strong_induction_on generalizing s with
  | _ n ih =>
      cases h : S.next s with
      | none => exact hnone s h
      | some p => exact hsome s p.1 p.2 h (ih _ (hn ▸ S.bound_lt h) p.2 rfl)

theorem take_none {s : σ} (h : S.next s = none) (fuel : Nat) : S.take fuel s = [] := by
  cases fuel <;> simp only [take, h]

/-- A bound on the state is enough fuel; more changes nothing. -/
theorem take_eq_items {s : σ} {fuel : Nat} (hf : S.bound s < fuel) : S.take fuel s = S.items s := by
  induction s using S.induct generalizing fuel with
  | hnone s h => rw [items, S.take_none h, S.take_none h]
  | hsome s a s' h ih =>
      have hlt := S.bound_lt h
      obtain ⟨fuel, rfl⟩ : ∃ k, fuel = k + 1 := ⟨fuel - 1, by omega⟩
      simp only [items, take, h, ih (show S.bound s' < fuel by omega),
        ih (show S.bound s' < S.bound s by omega)]

/-- No item is left exactly at the end of a source. -/
theorem items_none {s : σ} (h : S.next s = none) : S.items s = [] := S.take_none h _

/-- The items from a state are its own item and those from the next state. -/
theorem items_some {s s' : σ} {a : α} (h : S.next s = some (a, s')) :
    S.items s = a :: S.items s' := by
  have hlt := S.bound_lt h
  rw [items, take]
  simp only [h, S.take_eq_items hlt]

theorem walk_eq_path {s : σ} {fuel : Nat} (hf : S.bound s ≤ fuel) : S.walk fuel s = S.path s := by
  induction s using S.induct generalizing fuel with
  | hnone s h =>
      rw [path]
      cases fuel <;> cases S.bound s <;> simp only [walk, h]
  | hsome s a s' h ih =>
      have hlt := S.bound_lt h
      obtain ⟨fuel, rfl⟩ : ∃ k, fuel = k + 1 := ⟨fuel - 1, by omega⟩
      obtain ⟨b, hb⟩ : ∃ k, S.bound s = k + 1 := ⟨S.bound s - 1, by omega⟩
      simp only [path, hb, walk, h, ih (show S.bound s' ≤ fuel by omega),
        ih (show S.bound s' ≤ b by omega)]

theorem path_none {s : σ} (h : S.next s = none) : S.path s = [s] := by
  rw [path]
  cases S.bound s <;> simp only [walk, h]

theorem path_some {s s' : σ} {a : α} (h : S.next s = some (a, s')) :
    S.path s = s :: S.path s' := by
  have hlt := S.bound_lt h
  obtain ⟨b, hb⟩ : ∃ k, S.bound s = k + 1 := ⟨S.bound s - 1, by omega⟩
  rw [path, hb, walk]
  simp only [h, S.walk_eq_path (show S.bound s' ≤ b by omega)]

/-- A path begins where it starts. -/
theorem start_mem_path (s : σ) : s ∈ S.path s := by
  cases h : S.next s with
  | none => rw [S.path_none h, List.mem_singleton]
  | some p =>
      rw [S.path_some h]
      exact List.mem_cons_self

/-- Two sources that agree on every state met have the same items. -/
theorem items_congr (T : Source σ α) (s : σ) (h : ∀ v ∈ S.path s, S.next v = T.next v) :
    S.items s = T.items s ∧ S.path s = T.path s := by
  induction s using S.induct with
  | hnone s hs =>
      have ht : T.next s = none := by
        rw [← h s (by rw [S.path_none hs]; exact List.mem_singleton.mpr rfl), hs]
      exact ⟨by rw [S.items_none hs, T.items_none ht], by rw [S.path_none hs, T.path_none ht]⟩
  | hsome s a s' hs ih =>
      rw [S.path_some hs] at h
      have ht : T.next s = some (a, s') := by rw [← h s List.mem_cons_self, hs]
      obtain ⟨hi, hp⟩ := ih fun v hv => h v (List.mem_cons_of_mem _ hv)
      exact ⟨by rw [S.items_some hs, T.items_some ht, hi],
        by rw [S.path_some hs, T.path_some ht, hp]⟩

/-- A source that yields the images of another one's items. -/
theorem items_map (T : Source σ β) (f : α → β)
    (h : ∀ s, T.next s = (S.next s).map fun p => (f p.1, p.2)) (s : σ) :
    T.items s = (S.items s).map f := by
  induction s using S.induct with
  | hnone s hs =>
      rw [S.items_none hs, T.items_none (by rw [h, hs]; rfl)]
      rfl
  | hsome s a s' hs ih =>
      have ht : T.next s = some (f a, s') := by rw [h, hs]; rfl
      rw [S.items_some hs, T.items_some ht, List.map_cons, ih]

end Source

end CiteParser
