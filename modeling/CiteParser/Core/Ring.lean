import Mathlib.Tactic.Common

/-!
# Ring buffers

A ring of `size` slots holds at most `size - 1` elements, from the slot behind `front`
up to the slot `rear`. The list of its elements is the abstract queue; each operation is
stated by what it does to that list. A dequeued slot keeps its value until the ring
comes round to it, which is what a caller that holds on to the slot relies on.
-/

namespace CiteParser

/-- The slots, the index before the oldest element and the index of the newest. -/
structure Ring (size : Nat) (α : Type*) where
  data : Nat → α
  front : Nat
  rear : Nat
  front_lt : front < size
  rear_lt : rear < size

namespace Ring

variable {size : Nat} {α : Type*}

/-- An index that has gone at most once round the ring. -/
theorem mod_wrap {i : Nat} (h : i < 2 * size) :
    i % size = if i < size then i else i - size := by
  split
  · exact Nat.mod_eq_of_lt ‹_›
  · rw [Nat.mod_eq_sub_mod (by omega), Nat.mod_eq_of_lt (by omega)]

/-- The number of elements. -/
def count (r : Ring size α) : Nat := (r.rear + size - r.front) % size

/-- The elements, oldest first. -/
def elems (r : Ring size α) : List α :=
  (List.range r.count).map fun i => r.data ((r.front + (i + 1)) % size)

/-- An empty ring over whatever its slots held before. -/
def clear (data : Nat → α) (h : 0 < size) : Ring size α := ⟨data, 0, 0, h, h⟩

/-- No slot is left for another element. -/
def isFull (r : Ring size α) : Bool := (r.rear + 1) % size == r.front

/-- Store behind the newest element, unless the ring is full. -/
def push (r : Ring size α) (e : α) : Ring size α :=
  if r.isFull then r
  else
    { r with
      data := fun i => if i = (r.rear + 1) % size then e else r.data i
      rear := (r.rear + 1) % size
      rear_lt := Nat.mod_lt _ (Nat.zero_lt_of_lt r.rear_lt) }

/-- Take the oldest element out: its slot, which still holds it, and the ring without it. -/
def pop (r : Ring size α) : Option (Nat × Ring size α) :=
  if r.front = r.rear then none
  else
    some ((r.front + 1) % size,
      { r with
        front := (r.front + 1) % size
        front_lt := Nat.mod_lt _ (Nat.zero_lt_of_lt r.front_lt) })

/-- Overwrite a slot. -/
def set (r : Ring size α) (i : Nat) (e : α) : Ring size α :=
  { r with data := fun j => if j = i then e else r.data j }

/-- Store behind the newest element, dropping the oldest from a full ring. -/
def pushDrop (r : Ring size α) (e : α) : Ring size α :=
  if r.isFull then
    match r.pop with
    | none => r.push e
    | some p => p.2.push e
  else r.push e

/-- The `n`-th element counted from the oldest, which is the first. -/
def next (r : Ring size α) (n : Nat) : Option α :=
  if r.count < n ∨ n < 1 then none else some (r.data ((r.front + n) % size))

/-- The `n`-th element counted from the newest, which is the first. -/
def past (r : Ring size α) (n : Nat) : Option α :=
  if r.count < n ∨ n < 1 then none else some (r.data ((r.rear + size - n + 1) % size))

/-! ## The abstract queue -/

@[simp] theorem length_elems (r : Ring size α) : r.elems.length = r.count := by
  simp only [elems, List.length_map, List.length_range]

/-- The element count without a remainder. -/
theorem count_eq (r : Ring size α) :
    r.count = if r.front ≤ r.rear then r.rear - r.front else r.rear + size - r.front := by
  have hf := r.front_lt
  have hr := r.rear_lt
  rw [count, mod_wrap (by omega)]
  split <;> split <;> omega

theorem count_lt (r : Ring size α) : r.count < size := by
  have hf := r.front_lt
  have hr := r.rear_lt
  rw [count_eq]
  split <;> omega

/-- A ring is full when it holds one element fewer than it has slots. -/
theorem isFull_iff (r : Ring size α) : r.isFull = true ↔ r.elems.length + 1 = size := by
  have hf := r.front_lt
  have hr := r.rear_lt
  rw [isFull, beq_iff_eq, length_elems, count_eq, mod_wrap (by omega)]
  split <;> split <;> omega

@[simp] theorem elems_clear (data : Nat → α) (h : 0 < size) : (clear data h).elems = [] := by
  simp only [elems, count, clear, Nat.zero_add, Nat.sub_zero, Nat.mod_self, List.range_zero,
    List.map_nil]

/-- Element `i` stands in the slot `i + 1` places behind the front. -/
theorem getElem?_elems (r : Ring size α) (i : Nat) :
    r.elems[i]? = if i < r.count then some (r.data ((r.front + (i + 1)) % size)) else none := by
  rw [elems, List.getElem?_map]
  split
  · rw [List.getElem?_range ‹_›]
    rfl
  · rw [List.getElem?_eq_none (by rw [List.length_range]; omega)]
    rfl

/-- Storing into a ring with room appends to the queue. -/
theorem elems_push {r : Ring size α} (h : r.isFull = false) (e : α) :
    (r.push e).elems = r.elems ++ [e] := by
  have hf := r.front_lt
  have hr := r.rear_lt
  have hroom : ¬ r.elems.length + 1 = size := by rw [← isFull_iff, h]; decide
  have hpush : r.push e =
      { r with
        data := fun i => if i = (r.rear + 1) % size then e else r.data i
        rear := (r.rear + 1) % size
        rear_lt := Nat.mod_lt _ (Nat.zero_lt_of_lt r.rear_lt) } := by
    rw [push, if_neg (by rw [h]; decide)]
  have hcount : (r.push e).count = r.count + 1 := by
    rw [length_elems] at hroom
    rw [count_eq] at hroom ⊢
    rw [count_eq, hpush]
    simp only [mod_wrap (show r.rear + 1 < 2 * size by omega)] at hroom ⊢
    split at hroom <;> split <;> split <;> omega
  refine List.ext_getElem? fun i => ?_
  rw [length_elems] at hroom
  have hlt := r.count_lt
  rw [getElem?_elems, hcount]
  rcases Nat.lt_trichotomy i r.count with hi | rfl | hi
  · have hslot : (r.front + (i + 1)) % size ≠ (r.rear + 1) % size := by
      rw [mod_wrap (by omega), mod_wrap (by omega)]
      rw [count_eq] at hi hroom
      split <;> split <;> split at hi <;> omega
    rw [if_pos (by omega), List.getElem?_append_left (by rw [length_elems]; exact hi),
      getElem?_elems, if_pos hi, hpush]
    simp only [if_neg hslot]
  · have hslot : (r.front + (r.count + 1)) % size = (r.rear + 1) % size := by
      rw [mod_wrap (by omega), mod_wrap (by omega), count_eq]
      split <;> split <;> split <;> omega
    rw [if_pos (by omega), List.getElem?_append_right (Nat.le_of_eq r.length_elems), length_elems,
      Nat.sub_self, hpush]
    simp only [hslot, ite_true, List.getElem?_cons_zero]
  · rw [if_neg (by omega), List.getElem?_eq_none]
    rw [List.length_append, length_elems, List.length_singleton]
    omega

/-- Storing leaves the slot in front of the oldest element alone. -/
theorem push_data_front {r : Ring size α} (e : α) : (r.push e).data r.front = r.data r.front := by
  rw [push]
  split
  · rfl
  · rename_i h
    rw [isFull, beq_iff_eq] at h
    exact if_neg fun he => h he.symm

/-- Nothing can be taken out of an empty ring only. -/
theorem pop_none {r : Ring size α} : r.pop = none ↔ r.elems = [] := by
  have hf := r.front_lt
  have hr := r.rear_lt
  rw [← List.length_eq_zero_iff, length_elems, count_eq, pop]
  split
  · simp only [true_iff]
    split <;> omega
  · simp only [reduceCtorEq, false_iff]
    split <;> omega

/-- Taking out removes the oldest element, whose slot is the new front and holds it. -/
theorem pop_some {r q : Ring size α} {p : Nat} (h : r.pop = some (p, q)) :
    r.elems = r.data p :: q.elems ∧ p = q.front ∧ q.data = r.data := by
  have hf := r.front_lt
  have hr := r.rear_lt
  rw [pop] at h
  split at h
  · contradiction
  · rename_i hne
    obtain ⟨rfl, rfl⟩ := Prod.mk.inj (Option.some.inj h)
    refine ⟨List.ext_getElem? fun i => ?_, rfl, rfl⟩
    have hlt := r.count_lt
    have hcount : r.count = Ring.count { r with
        front := (r.front + 1) % size
        front_lt := Nat.mod_lt _ (Nat.zero_lt_of_lt r.front_lt) } + 1 := by
      rw [count_eq, count_eq]
      simp only [mod_wrap (show r.front + 1 < 2 * size by omega)]
      split <;> split <;> split <;> omega
    rw [getElem?_elems, hcount]
    cases i with
    | zero => rw [if_pos (by omega), List.getElem?_cons_zero]
    | succ i =>
        rw [List.getElem?_cons_succ, getElem?_elems]
        simp only [Nat.add_lt_add_iff_right]
        split
        · have hslot : (r.front + (i + 1 + 1)) % size =
              ((r.front + 1) % size + (i + 1)) % size := by
            rw [Nat.mod_add_mod]
            congr 1
            omega
          rw [hslot]
        · rfl

/-- The slot just taken out is not part of the queue, so writing to it changes nothing. -/
theorem elems_set_front (r : Ring size α) (e : α) : (r.set r.front e).elems = r.elems := by
  have hf := r.front_lt
  refine List.ext_getElem? fun i => ?_
  rw [getElem?_elems, getElem?_elems]
  have hcount : (r.set r.front e).count = r.count := rfl
  rw [hcount]
  split
  · rename_i hi
    have hlt := r.count_lt
    have hslot : (r.front + (i + 1)) % size ≠ r.front := by
      rw [mod_wrap (by omega)]
      split <;> omega
    simp only [set, if_neg hslot]
  · rfl

@[simp] theorem set_data_self (r : Ring size α) (i : Nat) (e : α) : (r.set i e).data i = e :=
  if_pos rfl

/-- Counting from the oldest is indexing the queue. -/
theorem next_succ (r : Ring size α) (n : Nat) : r.next (n + 1) = r.elems[n]? := by
  rw [next, getElem?_elems]
  split <;> split <;> first | rfl | omega

/-- Counting from the newest is indexing the reversed queue. -/
theorem past_succ (r : Ring size α) (n : Nat) : r.past (n + 1) = r.elems.reverse[n]? := by
  have hf := r.front_lt
  have hr := r.rear_lt
  have hlt := r.count_lt
  rw [past]
  split
  · rw [List.getElem?_eq_none (by rw [List.length_reverse, length_elems]; omega)]
  · rename_i h
    have hn : n < r.count := by omega
    rw [List.getElem?_reverse (by rw [length_elems]; exact hn), length_elems, getElem?_elems,
      if_pos (by omega)]
    have hslot : (r.rear + size - (n + 1) + 1) % size =
        (r.front + (r.count - 1 - n + 1)) % size := by
      have hc := r.count_eq
      rw [mod_wrap (by omega), mod_wrap (by omega)]
      split at hc <;> split <;> split <;> omega
    rw [hslot]

/-- Storing with dropping keeps the newest elements that fit. -/
theorem elems_pushDrop (r : Ring size α) (h : 1 < size) (e : α) :
    (r.pushDrop e).elems = (r.elems ++ [e]).drop (r.elems.length + 1 - (size - 1)) := by
  have hlt := r.count_lt
  rw [← length_elems] at hlt
  rw [pushDrop]
  cases hfull : r.isFull with
  | false =>
      have hroom : ¬ r.elems.length + 1 = size := by rw [← isFull_iff, hfull]; decide
      rw [if_neg (by decide), elems_push hfull,
        show r.elems.length + 1 - (size - 1) = 0 by omega, List.drop_zero]
  | true =>
      have hlen := r.isFull_iff.mp hfull
      rw [if_pos rfl]
      cases hp : r.pop with
      | none =>
          have hnil := pop_none.mp hp
          rw [hnil, List.length_nil] at hlen
          omega
      | some p =>
          obtain ⟨hcons, -, -⟩ := pop_some hp
          have hroom : p.2.isFull = false := by
            rw [← Bool.not_eq_true, isFull_iff]
            rw [hcons, List.length_cons] at hlen
            omega
          rw [show r.elems.length + 1 - (size - 1) = 1 by omega, hcons]
          simp only [elems_push hroom, List.cons_append, List.drop_succ_cons, List.drop_zero]

end Ring

end CiteParser
