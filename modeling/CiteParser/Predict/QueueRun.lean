import CiteParser.Core.Fifo
import CiteParser.Predict.Queue

/-!
# Runs of queue operations

Every sequence of calls on a `CNSQ` is answered as the bounded list of twelve tokens answers
it. The slot that `deQueue` points at is its caller's until the next `deQueue`, whatever is
enqueued meanwhile.
-/

namespace CiteParser

/-- A call of `queue.c` that changes the queue, and its answer: what `enQueue` and
`enQueueWithDrop` return, what stands in the slot `deQueue` points at, `none` for NULL. -/
def callQueue : Machine CNSQ (Fifo.Call CrfNodeSnapshot) (Fifo.Reply CrfNodeSnapshot)
  | Q, .clear => (clearQueue Q.data, .done)
  | Q, .push e => if isFullQueue Q then (Q, .accepted false) else (enQueue Q e, .accepted true)
  | Q, .pushDrop e => (enQueueWithDrop Q e, .accepted true)
  | Q, .pop =>
      match ftDeQueue Q with
      | none => (Q, .removed none)
      | some (p, Q') => (Q', .removed (some (Q'.data p)))

/-- The calls of `queue.c` are those of a ring. -/
theorem callQueue_eq : callQueue = Ring.step := by
  funext Q c
  cases c with
  | clear => rfl
  | push e =>
      rw [callQueue, Ring.step, isFullQueue]
      cases hfull : Q.isFull with
      | false => rfl
      | true =>
          rw [if_pos rfl, Ring.push_of_isFull hfull]
          rfl
  | pushDrop e => rfl
  | pop =>
      rw [callQueue, Ring.step, ftDeQueue]
      cases Q.pop <;> rfl

/-- The twelve tokens a queue has room for, as a list. -/
def listQueue : Machine (List CrfNodeSnapshot) (Fifo.Call CrfNodeSnapshot)
    (Fifo.Reply CrfNodeSnapshot) := Fifo.step 12

/-- A run of a cleared queue and of the empty list: same answers, and the list held. -/
theorem run_callQueue (junk : Nat → CrfNodeSnapshot) (calls : List (Fifo.Call CrfNodeSnapshot)) :
    (callQueue.run (clearQueue junk) calls).1.elems = (listQueue.run [] calls).1 ∧
      (callQueue.run (clearQueue junk) calls).2 = (listQueue.run [] calls).2 := by
  rw [callQueue_eq]
  exact (Ring.refines_step (by decide)).run (Ring.elems_clear _ _) calls

/-- Counting from the oldest, with the index an `int`. -/
theorem nextNElem_toNat (Q : CNSQ) (N : Int) :
    nextNElem Q N.toNat = if 1 ≤ N then Q.elems[N.toNat - 1]? else none := by
  split
  · obtain ⟨n, hn⟩ : ∃ n : Nat, N.toNat = n + 1 := ⟨N.toNat - 1, by omega⟩
    rw [hn, nextNElem, Ring.next_succ, Nat.add_sub_cancel]
  · rw [nextNElem, Ring.next, if_pos (by omega)]

/-- Counting from the newest, with the index an `int`. -/
theorem pastNElem_toNat (Q : CNSQ) (N : Int) :
    pastNElem Q N.toNat = if 1 ≤ N then Q.elems.reverse[N.toNat - 1]? else none := by
  split
  · obtain ⟨n, hn⟩ : ∃ n : Nat, N.toNat = n + 1 := ⟨N.toNat - 1, by omega⟩
    rw [hn, pastNElem, Ring.past_succ, Nat.add_sub_cancel]
  · rw [pastNElem, Ring.past, if_pos (by omega)]

/-- Enqueuing only, the slot `deQueue` points at keeps what it holds. -/
theorem data_deQueued {Q Q' : CNSQ} {p : Nat} (h : ftDeQueue Q = some (p, Q'))
    (es : List CrfNodeSnapshot) :
    (callQueue.run Q' (es.map .push)).1.data p = Q.data p ∧ Q.elems.head? = some (Q.data p) := by
  obtain ⟨hcons, rfl, hdata⟩ := Ring.pop_some h
  have hrun : ∀ R : CNSQ, (callQueue.run R (es.map .push)).1 = es.foldl Ring.push R := by
    rw [callQueue_eq]
    induction es with
    | nil => exact fun _ => rfl
    | cons e es ih => exact fun R => ih (R.push e)
  rw [hrun, Ring.data_front_foldl_push, hdata, hcons]
  exact ⟨rfl, rfl⟩

/-- The queue is a bounded list: same answers over every run, its elements, its size and both
ways of indexing it, and the slot that `deQueue` hands out is left alone by `enQueue`. -/
theorem queue_refines_list (junk : Nat → CrfNodeSnapshot)
    (calls : List (Fifo.Call CrfNodeSnapshot)) :
    let Q := (callQueue.run (clearQueue junk) calls).1
    let held := (listQueue.run [] calls).1
    (callQueue.run (clearQueue junk) calls).2 = (listQueue.run [] calls).2 ∧
      Q.elems = held ∧ held.length ≤ 12 ∧ sizeQueue Q = held.length ∧
      (∀ N : Int, nextNElem Q N.toNat = if 1 ≤ N then held[N.toNat - 1]? else none) ∧
      (∀ N : Int, pastNElem Q N.toNat = if 1 ≤ N then held.reverse[N.toNat - 1]? else none) ∧
      ∀ p Q', ftDeQueue Q = some (p, Q') → ∀ es : List CrfNodeSnapshot,
        (callQueue.run Q' (es.map .push)).1.data p = Q.data p ∧
          held.head? = some (Q.data p) := by
  obtain ⟨helems, hreplies⟩ := run_callQueue junk calls
  have hcap : (listQueue.run [] calls).1.length ≤ 12 := by
    apply Machine.run_invariant (P := fun l : List CrfNodeSnapshot => l.length ≤ 12)
    · exact Nat.zero_le _
    · exact fun l c _ hl => Fifo.length_step_le (by decide) hl c
  refine ⟨hreplies, helems, hcap, ?_, fun N => ?_, fun N => ?_, fun p Q' hpop es => ?_⟩
  · rw [sizeQueue, ← Ring.length_elems, helems]
  · rw [nextNElem_toNat, helems]
  · rw [pastNElem_toNat, helems]
  · rw [← helems]
    exact data_deQueued hpop es

end CiteParser
