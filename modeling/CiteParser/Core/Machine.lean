import Mathlib.Tactic.Common

/-!
# Machines that answer calls

A machine takes a call, answers it and moves on. Two machines whose states are related give
the same answers to every sequence of calls if one call keeps the relation and is answered
alike; an invariant of one call is one of every run.
-/

namespace CiteParser

/-- What each call does to the state and what it answers. -/
abbrev Machine (σ ω ρ : Type*) := σ → ω → σ × ρ

namespace Machine

variable {σ τ ω ρ : Type*}

/-- The state after a sequence of calls, and the answers in their order. -/
def run (m : Machine σ ω ρ) : σ → List ω → σ × List ρ
  | s, [] => (s, [])
  | s, c :: calls => ((run m (m s c).1 calls).1, (m s c).2 :: (run m (m s c).1 calls).2)

@[simp] theorem run_nil (m : Machine σ ω ρ) (s : σ) : m.run s [] = (s, []) := rfl

@[simp] theorem run_cons (m : Machine σ ω ρ) (s : σ) (c : ω) (calls : List ω) :
    m.run s (c :: calls) =
      ((m.run (m s c).1 calls).1, (m s c).2 :: (m.run (m s c).1 calls).2) := rfl

/-- One machine refines another along a relation that every call keeps. -/
structure Refines (m : Machine σ ω ρ) (spec : Machine τ ω ρ) (R : σ → τ → Prop) : Prop where
  keeps : ∀ s t c, R s t → R (m s c).1 (spec t c).1
  answers : ∀ s t c, R s t → (m s c).2 = (spec t c).2

/-- Related states stay related over every run, which is answered alike. -/
theorem Refines.run {m : Machine σ ω ρ} {spec : Machine τ ω ρ} {R : σ → τ → Prop}
    (h : Refines m spec R) {s : σ} {t : τ} (hst : R s t) (calls : List ω) :
    R (m.run s calls).1 (spec.run t calls).1 ∧ (m.run s calls).2 = (spec.run t calls).2 := by
  induction calls generalizing s t with
  | nil => exact ⟨hst, rfl⟩
  | cons c calls ih =>
      obtain ⟨hrel, hans⟩ := ih (h.keeps s t c hst)
      simp only [run_cons, h.answers s t c hst, hans, and_true]
      exact hrel

/-- What no call of a run breaks holds after the run. -/
theorem run_invariant {m : Machine σ ω ρ} {P : σ → Prop} {calls : List ω} {s : σ} (hs : P s)
    (h : ∀ s, ∀ c ∈ calls, P s → P (m s c).1) : P (m.run s calls).1 := by
  induction calls generalizing s with
  | nil => exact hs
  | cons c calls ih =>
      rw [run_cons]
      apply ih
      · exact h s c List.mem_cons_self hs
      · exact fun s c hc => h s c (List.mem_cons_of_mem _ hc)

end Machine

end CiteParser
