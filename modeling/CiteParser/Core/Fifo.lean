import CiteParser.Core.Machine
import CiteParser.Core.Ring
import Mathlib.Data.List.GetD

/-!
# Bounded queues

The queue a ring buffer stands for: a list, oldest element first, that takes one more element
while it is below its capacity. A ring refines the queue of one element fewer than it has
slots, over every sequence of calls.
-/

namespace CiteParser

namespace Fifo

variable {α : Type*} {size : Nat}

/-- The calls that change a queue. -/
inductive Call (α : Type*) where
  | clear
  | push (e : α)
  | pushDrop (e : α)
  | pop

/-- What a call hands back: nothing, whether the element was taken, or the element removed. -/
inductive Reply (α : Type*) where
  | done
  | accepted (ok : Bool)
  | removed (e : Option α)

/-- A queue of at most `capacity` elements, oldest first. -/
def step (capacity : Nat) : Machine (List α) (Call α) (Reply α)
  | _, .clear => ([], .done)
  | l, .push e =>
      if l.length < capacity then (l ++ [e], .accepted true) else (l, .accepted false)
  | l, .pushDrop e =>
      if l.length < capacity then (l ++ [e], .accepted true)
      else (l.tail ++ [e], .accepted true)
  | l, .pop => (l.tail, .removed l.head?)

/-- A queue never grows past a capacity that is not 0. -/
theorem length_step_le {capacity : Nat} (hcap : 0 < capacity) {l : List α}
    (h : l.length ≤ capacity) (c : Call α) : (step capacity l c).1.length ≤ capacity := by
  cases c with
  | clear => exact Nat.zero_le _
  | push e =>
      rw [step]
      split
      · simp only [List.length_append, List.length_singleton]
        omega
      · exact h
  | pushDrop e =>
      rw [step]
      split <;> simp only [List.length_append, List.length_tail, List.length_singleton] <;> omega
  | pop =>
      rw [step, List.length_tail]
      omega

end Fifo

namespace Ring

variable {α : Type*} {size : Nat}

/-- The calls on a ring. What is removed is read in the slot that the call points at. -/
def step (r : Ring size α) : Fifo.Call α → Ring size α × Fifo.Reply α
  | .clear => (clear r.data (Nat.zero_lt_of_lt r.front_lt), .done)
  | .push e => (r.push e, .accepted !r.isFull)
  | .pushDrop e => (r.pushDrop e, .accepted true)
  | .pop =>
      match r.pop with
      | none => (r, .removed none)
      | some (p, q) => (q, .removed (some (q.data p)))

/-- A ring has room while it holds less than one element fewer than it has slots. -/
theorem isFull_eq_false_iff (r : Ring size α) :
    r.isFull = false ↔ r.elems.length < size - 1 := by
  have hlt := r.count_lt
  rw [← length_elems] at hlt
  rw [← Bool.not_eq_true, isFull_iff]
  omega

/-- A full ring refuses an element and stays as it is. -/
theorem push_of_isFull {r : Ring size α} (h : r.isFull = true) (e : α) : r.push e = r :=
  if_pos h

/-- A ring is the bounded queue of its elements: one call. -/
theorem refines_step (hsize : 1 < size) :
    Machine.Refines (step : Machine (Ring size α) (Fifo.Call α) (Fifo.Reply α))
      (Fifo.step (size - 1)) fun r l => r.elems = l := by
  have main : ∀ (r : Ring size α) (c : Fifo.Call α),
      (r.step c).1.elems = (Fifo.step (size - 1) r.elems c).1 ∧
        (r.step c).2 = (Fifo.step (size - 1) r.elems c).2 := by
    intro r c
    have hlt := r.count_lt
    rw [← length_elems] at hlt
    cases c with
    | clear => exact ⟨elems_clear _ _, rfl⟩
    | push e =>
        rw [step, Fifo.step]
        cases hfull : r.isFull with
        | false =>
            rw [if_pos (r.isFull_eq_false_iff.mp hfull)]
            exact ⟨elems_push hfull e, rfl⟩
        | true =>
            have hlen := r.isFull_iff.mp hfull
            rw [if_neg (by omega)]
            exact ⟨by rw [push_of_isFull hfull], rfl⟩
    | pushDrop e =>
        rw [step, Fifo.step, elems_pushDrop r hsize]
        split
        · rw [show r.elems.length + 1 - (size - 1) = 0 by omega, List.drop_zero]
          exact ⟨rfl, rfl⟩
        · rw [show r.elems.length + 1 - (size - 1) = 1 by omega, List.drop_one,
            List.tail_append_of_ne_nil (by rw [← List.length_pos_iff]; omega)]
          exact ⟨rfl, rfl⟩
    | pop =>
        rw [step, Fifo.step]
        cases hp : r.pop with
        | none =>
            rw [pop_none] at hp
            rw [hp]
            exact ⟨rfl, rfl⟩
        | some p =>
            obtain ⟨hcons, hp1, hdata⟩ := pop_some hp
            rw [hcons]
            exact ⟨rfl, congrArg (fun data => Fifo.Reply.removed (some (data p.1))) hdata⟩
  constructor
  · rintro r l c rfl
    exact (main r c).1
  · rintro r l c rfl
    exact (main r c).2

/-- Storing keeps the front where it is. -/
@[simp] theorem front_push (r : Ring size α) (e : α) : (r.push e).front = r.front := by
  rw [push]
  split <;> rfl

/-- No amount of storing touches the slot taken out last. -/
theorem data_front_foldl_push (r : Ring size α) (es : List α) :
    (es.foldl push r).data r.front = r.data r.front := by
  induction es generalizing r with
  | nil => rfl
  | cons e es ih =>
      rw [List.foldl_cons]
      calc
        (es.foldl push (r.push e)).data r.front
          = (es.foldl push (r.push e)).data (r.push e).front := by rw [front_push]
        _ = (r.push e).data r.front := by rw [ih, front_push]
        _ = r.data r.front := push_data_front e

end Ring

end CiteParser
