import CiteParser.Core.Source

/-!
# Sliding windows over a source

A consumer that looks ahead keeps the next `cap` elements at hand and fetches one more
each time it takes one; a consumer that looks back keeps the last `cap` elements it has
taken. Both windows are functions of the batch list, whatever the fetching did.
-/

namespace CiteParser

variable {σ α : Type*}

/-- The elements at hand are the first `cap` of `all`, the elements still to come. -/
structure Prefetched (S : Source σ α) (cap : Nat) (all w : List α) (s : σ) : Prop where
  split : all = w ++ S.items s
  window : w = all.take cap

namespace Prefetched

variable {S : Source σ α} {cap : Nat} {all w : List α} {s s' : σ} {a b : α}

/-- Fetching moves one element from the source to the elements at hand. -/
theorem fetch (h : all = w ++ S.items s) (hn : S.next s = some (b, s')) :
    all = (w ++ [b]) ++ S.items s' := by
  rw [h, S.items_some hn, List.append_assoc, List.singleton_append]

/-- Fetching may stop once the window is full. -/
theorem of_full (h : all = w ++ S.items s) (hw : w.length = cap) : Prefetched S cap all w s :=
  ⟨h, by rw [h, ← hw, List.take_left]⟩

/-- Fetching may stop once the source has run dry. -/
theorem of_dry (h : all = w ++ S.items s) (hw : w.length ≤ cap) (hn : S.next s = none) :
    Prefetched S cap all w s :=
  ⟨h, by rw [h, S.items_none hn, List.append_nil, List.take_of_length_le hw]⟩

theorem length_le (h : Prefetched S cap all w s) : w.length ≤ cap := by
  rw [h.window]
  exact List.length_take_le cap all

/-- Something is at hand as long as something is still to come. -/
theorem eq_nil_iff (h : Prefetched S cap all w s) (hcap : 0 < cap) : w = [] ↔ all = [] := by
  rw [h.window, List.take_eq_nil_iff]
  exact ⟨fun h => h.resolve_left (Nat.pos_iff_ne_zero.mp hcap), Or.inr⟩

/-- Taking an element when the source has run dry. -/
theorem pop_dry (h : Prefetched S cap (a :: all) (a :: w) s) (hn : S.next s = none) :
    Prefetched S cap all w s := by
  have hlen := h.length_le
  rw [List.length_cons] at hlen
  refine of_dry ?_ (Nat.le_of_succ_le hlen) hn
  exact (List.cons.inj h.split).2

/-- Taking an element and fetching another. -/
theorem pop_fetch (h : Prefetched S cap (a :: all) (a :: w) s)
    (hn : S.next s = some (b, s')) : Prefetched S cap all (w ++ [b]) s' := by
  have hsplit : all = w ++ S.items s := (List.cons.inj h.split).2
  refine of_full (fetch hsplit hn) ?_
  have hwindow := congrArg List.length h.window
  rw [hsplit, S.items_some hn] at hwindow
  simp only [List.length_cons, List.length_take, List.length_append] at hwindow
  rw [List.length_append, List.length_singleton]
  omega

end Prefetched

/-- The last `cap` elements of a list. -/
def recent (cap : Nat) (l : List α) : List α := l.drop (l.length - cap)

@[simp] theorem recent_nil (cap : Nat) : recent cap ([] : List α) = [] := List.drop_nil

theorem map_recent {β : Type*} (f : α → β) (cap : Nat) (l : List α) :
    (recent cap l).map f = recent cap (l.map f) := by
  rw [recent, recent, List.map_drop, List.length_map]

/-- The element taken last is the last one kept. -/
theorem getLast?_recent_append (cap : Nat) (hcap : 0 < cap) (l : List α) (a : α) :
    (recent cap (l ++ [a])).getLast? = some a := by
  rw [recent, List.drop_append_of_le_length, List.getLast?_append, List.getLast?_singleton]
  · rfl
  · rw [List.length_append, List.length_singleton]
    omega

/-- Taking one more element keeps the last `cap` of those kept so far and it. -/
theorem recent_append (cap : Nat) (hcap : 0 < cap) (l : List α) (a : α) :
    (recent cap l ++ [a]).drop ((recent cap l).length + 1 - cap) = recent cap (l ++ [a]) := by
  simp only [recent, List.length_append, List.length_singleton, List.length_drop]
  by_cases h : l.length < cap
  · rw [show l.length - cap = 0 by omega, show l.length - 0 + 1 - cap = 0 by omega,
      show l.length + 1 - cap = 0 by omega]
    rfl
  · rw [← List.drop_append_of_le_length (by omega), List.drop_drop]
    congr 1
    omega

end CiteParser
