import CiteParser.Core.Loop
import CiteParser.Core.Prefetch
import CiteParser.Core.Ring
import CiteParser.Features.Snapshot

/-!
# The two token queues

`queue.c` at its own size, and the enqueuing of the next token on top of it. A pointer
into a queue is the slot it points at: `deQueue` hands out the slot just left, which the
main loop reads and writes until it has copied it away.
-/

namespace CiteParser

open Loop

def CNSQSIZE : Nat := 13

/-- `CNSQ` of `queue.h`. -/
abbrev CNSQ := Ring CNSQSIZE CrfNodeSnapshot

/-- A queue on the stack after `clearQueue`: the slots hold whatever was there. -/
def clearQueue (junk : Nat → CrfNodeSnapshot) : CNSQ := Ring.clear junk (by decide)

def isFullQueue (Q : CNSQ) : Bool := Q.isFull

def sizeQueue (Q : CNSQ) : Nat := Q.count

def enQueue (Q : CNSQ) (e : CrfNodeSnapshot) : CNSQ := Q.push e

def enQueueWithDrop (Q : CNSQ) (e : CrfNodeSnapshot) : CNSQ := Q.pushDrop e

/-- `ftDeQueue`: `none` is NULL. -/
def ftDeQueue (Q : CNSQ) : Option (Nat × CNSQ) := Q.pop

def nextNElem (Q : CNSQ) (n : Nat) : Option CrfNodeSnapshot := Q.next n

def pastNElem (Q : CNSQ) (n : Nat) : Option CrfNodeSnapshot := Q.past n

/-- What an enqueuing call works on: the queue, `*currentOffset` and `*mpredeli`. -/
structure Feed where
  queue : CNSQ
  currentOffset : Nat
  mpredeli : UInt8

/-- The body that `predftEnQueue` and `ftEnQueue` share, and what it returns. -/
def enQueueNext (ref : Reference) (f : Feed) : Feed × Bool :=
  if isFullQueue f.queue then (f, false)
  else
    match ref.next (f.currentOffset, f.mpredeli) with
    | none => (f, false)
    | some (t, cur, mpredeli) => (⟨enQueue f.queue t, cur, mpredeli⟩, true)

/-- The offset and the delimiter from which the next token is taken. -/
def Feed.at (f : Feed) : Nat × UInt8 := (f.currentOffset, f.mpredeli)

/-- The three ways an enqueuing call ends. -/
theorem enQueueNext_cases (ref : Reference) (f : Feed) :
    (isFullQueue f.queue = true ∧ enQueueNext ref f = (f, false)) ∨
    (isFullQueue f.queue = false ∧ ref.snapshots.next f.at = none ∧
      enQueueNext ref f = (f, false)) ∨
    ∃ t s, isFullQueue f.queue = false ∧ ref.snapshots.next f.at = some (t, s) ∧
      enQueueNext ref f = (⟨enQueue f.queue t, s.1, s.2⟩, true) := by
  cases hfull : isFullQueue f.queue with
  | true => exact Or.inl ⟨rfl, by rw [enQueueNext, if_pos hfull]⟩
  | false =>
      refine Or.inr ?_
      have hcall : enQueueNext ref f =
          match ref.next (f.currentOffset, f.mpredeli) with
          | none => (f, false)
          | some (t, cur, mpredeli) => (⟨enQueue f.queue t, cur, mpredeli⟩, true) := by
        rw [enQueueNext, if_neg (by rw [hfull]; decide)]
      cases hn : ref.next (f.currentOffset, f.mpredeli) with
      | none => exact Or.inl ⟨rfl, hn, by rw [hcall, hn]⟩
      | some p => exact Or.inr ⟨p.1, p.2, rfl, hn, by rw [hcall, hn]⟩

/-- Storing a token leaves it behind the others, and the queue within its size. -/
theorem elems_enQueue {Q : CNSQ} (h : isFullQueue Q = false) (t : CrfNodeSnapshot) :
    (enQueue Q t).elems = Q.elems ++ [t] ∧ Q.elems.length < 12 := by
  have hpush : (enQueue Q t).elems = Q.elems ++ [t] := Ring.elems_push h t
  have hlt : (enQueue Q t).count < 13 := (enQueue Q t).count_lt
  rw [← Ring.length_elems, hpush, List.length_append, List.length_singleton] at hlt
  exact ⟨hpush, by omega⟩

/-- A full queue holds twelve tokens. -/
theorem length_of_isFullQueue {Q : CNSQ} (h : isFullQueue Q = true) : Q.elems.length = 12 := by
  have hlen : Q.elems.length + 1 = 13 := (Ring.isFull_iff Q).mp h
  omega

/-- A pass of the filling loop. -/
def fillStep (ref : Reference) (f : Feed) : Outcome Feed Feed :=
  if (enQueueNext ref f).2 then .next (enQueueNext ref f).1 else .exit (enQueueNext ref f).1

/-- `while(predftEnQueue(...));`, which at most fills the queue. -/
def fillQueue (ref : Reference) (f : Feed) : Feed :=
  (run (fillStep ref) CNSQSIZE f).getD f

/-- A pass that goes round has moved one token from the text to the queue. -/
theorem fillStep_next {ref : Reference} {f g : Feed} {all : List CrfNodeSnapshot}
    (hf : all = f.queue.elems ++ ref.snapshots.items f.at) (h : fillStep ref f = .next g) :
    all = g.queue.elems ++ ref.snapshots.items g.at ∧
      12 - g.queue.elems.length < 12 - f.queue.elems.length := by
  rcases enQueueNext_cases ref f with ⟨_, he⟩ | ⟨_, _, he⟩ | ⟨t, s, hroom, hn, he⟩
  · simp only [fillStep, he, Bool.false_eq_true, ite_false, reduceCtorEq] at h
  · simp only [fillStep, he, Bool.false_eq_true, ite_false, reduceCtorEq] at h
  · simp only [fillStep, he, ite_true, Outcome.next.injEq] at h
    subst h
    obtain ⟨hpush, hlt⟩ := elems_enQueue hroom t
    simp only [hpush, List.length_append, List.length_singleton]
    exact ⟨Prefetched.fetch hf hn, by omega⟩

/-- The loop is left with a full queue or at the end of the text. -/
theorem fillStep_exit {ref : Reference} {f g : Feed} {all : List CrfNodeSnapshot}
    (hf : all = f.queue.elems ++ ref.snapshots.items f.at) (h : fillStep ref f = .exit g) :
    Prefetched ref.snapshots 12 all g.queue.elems g.at := by
  have hlt : f.queue.count < 13 := f.queue.count_lt
  rw [← Ring.length_elems] at hlt
  rcases enQueueNext_cases ref f with ⟨hfull, he⟩ | ⟨_, hn, he⟩ | ⟨t, s, _, _, he⟩
  · simp only [fillStep, he, Bool.false_eq_true, ite_false, Outcome.exit.injEq] at h
    subst h
    exact .of_full hf (length_of_isFullQueue hfull)
  · simp only [fillStep, he, Bool.false_eq_true, ite_false, Outcome.exit.injEq] at h
    subst h
    exact .of_dry hf (by omega) hn
  · simp only [fillStep, he, ite_true, reduceCtorEq] at h

/-- Filling leaves the first tokens at hand: as many as fit, or all there are. -/
theorem prefetched_fillQueue (ref : Reference) (f : Feed) {all : List CrfNodeSnapshot}
    (h : all = f.queue.elems ++ ref.snapshots.items f.at) :
    Prefetched ref.snapshots 12 all (fillQueue ref f).queue.elems (fillQueue ref f).at := by
  obtain ⟨b, hrun, hb⟩ := run_rule (fillStep ref) CNSQSIZE f
    (fun g => all = g.queue.elems ++ ref.snapshots.items g.at)
    (fun g => 12 - g.queue.elems.length)
    (fun g => Prefetched ref.snapshots 12 all g.queue.elems g.at)
    (fun _ _ hf hnext => fillStep_next hf hnext) (fun _ _ hf hexit => fillStep_exit hf hexit)
    h (Nat.lt_succ_of_le (Nat.sub_le _ _))
  rw [fillQueue, hrun]
  exact hb

/-- Taking a token and enqueuing the next keeps the first tokens at hand. -/
theorem Prefetched.refill {ref : Reference} {f : Feed} (a : CrfNodeSnapshot)
    {all : List CrfNodeSnapshot}
    (h : Prefetched ref.snapshots 12 (a :: all) (a :: f.queue.elems) f.at) :
    Prefetched ref.snapshots 12 all (enQueueNext ref f).1.queue.elems
      (enQueueNext ref f).1.at := by
  rcases enQueueNext_cases ref f with ⟨hfull, he⟩ | ⟨_, hn, he⟩ | ⟨t, s, hroom, hn, he⟩
  · -- a queue that has just given up an element is not full
    have hlen := length_of_isFullQueue hfull
    have hle := h.length_le
    rw [List.length_cons] at hle
    omega
  · rw [he]
    exact h.pop_dry hn
  · obtain ⟨hpush, -⟩ := elems_enQueue hroom t
    rw [he]
    simp only [hpush]
    exact h.pop_fetch hn

end CiteParser
