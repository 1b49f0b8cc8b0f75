import Mathlib.Tactic.Common

/-!
# Bounded execution of imperative loops

A loop body maps a state either to the next state or to the value with which the
loop is left. Running is structural in an explicit bound, so every run evaluates;
the rules below turn an invariant and a decreasing measure into a statement about
the value with which the unbounded loop is left.
-/

namespace CiteParser.Loop

variable {σ β : Type*}

/-- One pass through a loop body: go round again, or leave with a result. -/
inductive Outcome (σ β : Type*) where
  | next (s : σ) : Outcome σ β
  | exit (b : β) : Outcome σ β

/-- What holds of the state gone on with, or of the value that the loop is left with. -/
def Outcome.Satisfies (I : σ → Prop) (Q : β → Prop) : Outcome σ β → Prop
  | next s => I s
  | exit b => Q b

/-- Run a body at most `fuel` times; `none` means the bound was reached first. -/
def run (body : σ → Outcome σ β) : Nat → σ → Option β
  | 0, _ => none
  | fuel + 1, s =>
      match body s with
      | .next s' => run body fuel s'
      | .exit b => some b

/-- The states at the head of the loop, in the order of the passes. -/
def visited (body : σ → Outcome σ β) : Nat → σ → List σ
  | 0, _ => []
  | fuel + 1, s =>
      s :: match body s with
        | .next s' => visited body fuel s'
        | .exit _ => []

/-- A pass that leaves the loop decides the run. -/
theorem run_exit {body : σ → Outcome σ β} {s : σ} {b : β} (h : body s = .exit b)
    (fuel : Nat) : run body (fuel + 1) s = some b := by
  simp only [run, h]

/-- A pass that goes round consumes one unit of the bound. -/
theorem run_next {body : σ → Outcome σ β} {s s' : σ} (h : body s = .next s')
    (fuel : Nat) : run body (fuel + 1) s = run body fuel s' := by
  simp only [run, h]

/-- The loop rule: an invariant kept by every pass and a measure each pass lowers
give a result, and that result satisfies what every exit establishes. -/
theorem run_rule (body : σ → Outcome σ β) (fuel : Nat) (s : σ) (I : σ → Prop) (μ : σ → Nat)
    (Q : β → Prop) (hnext : ∀ s s', I s → body s = .next s' → I s' ∧ μ s' < μ s)
    (hexit : ∀ s b, I s → body s = .exit b → Q b)
    (hs : I s) (hf : μ s < fuel) : ∃ b, run body fuel s = some b ∧ Q b := by
  induction fuel generalizing s with
  | zero => omega
  | succ fuel ih =>
      cases hb : body s with
      | next s' =>
          obtain ⟨hs', hlt⟩ := hnext s s' hs hb
          rw [run_next hb]
          exact ih s' hs' (by omega)
      | exit b => exact ⟨b, run_exit hb fuel, hexit s b hs hb⟩

/-- What each pass establishes between its two states holds of any two states that the loop
meets one after the other, if it is transitive. -/
theorem visited_pairwise {body : σ → Outcome σ β} (I : σ → Prop) (R : σ → σ → Prop)
    (htrans : ∀ s t u, R s t → R t u → R s u)
    (hnext : ∀ s s', I s → body s = .next s' → I s' ∧ R s s') (fuel : Nat) {s : σ} (hs : I s) :
    (visited body fuel s).Pairwise R := by
  induction fuel generalizing s with
  | zero => exact .nil
  | succ fuel ih =>
      cases hb : body s with
      | exit b =>
          rw [visited, hb]
          exact List.pairwise_singleton R s
      | next s' =>
          obtain ⟨hs', hR⟩ := hnext s s' hs hb
          have hpair := ih hs'
          rw [visited, hb]
          refine .cons (fun v hv => ?_) hpair
          cases fuel with
          | zero => exact absurd hv List.not_mem_nil
          | succ fuel =>
              rcases List.mem_cons.mp hv with rfl | hv
              · exact hR
              · exact htrans s s' v hR (List.rel_of_pairwise_cons hpair hv)

/-- Two bodies that agree on every state met leave their loops alike. -/
theorem run_congr {body body' : σ → Outcome σ β} {fuel : Nat} {s : σ}
    (h : ∀ v ∈ visited body fuel s, body v = body' v) : run body fuel s = run body' fuel s := by
  induction fuel generalizing s with
  | zero => rfl
  | succ fuel ih =>
      have hs := h s List.mem_cons_self
      cases hb : body s with
      | next s' =>
          rw [run_next hb, run_next (hs ▸ hb)]
          refine ih fun v hv => h v (List.mem_cons_of_mem s ?_)
          rw [hb]
          exact hv
      | exit b => rw [run_exit hb, run_exit (hs ▸ hb)]

/-- So many passes, none of which leaves the loop, lead from one state to another. -/
def Passes (body : σ → Outcome σ β) : Nat → σ → σ → Prop
  | 0, s, s' => s = s'
  | n + 1, s, s' => ∃ t, body s = .next t ∧ Passes body n t s'

/-- A pass that goes round, followed by others. -/
theorem Passes.cons {body : σ → Outcome σ β} {n : Nat} {s t s' : σ} (h : body s = .next t)
    (ht : Passes body n t s') : Passes body (n + 1) s s' :=
  ⟨t, h, ht⟩

/-- Passes followed by passes. -/
theorem Passes.append {body : σ → Outcome σ β} {n m : Nat} {s t s' : σ} (h : Passes body n s t)
    (ht : Passes body m t s') : Passes body (n + m) s s' := by
  induction n generalizing s with
  | zero =>
      cases h
      rwa [Nat.zero_add]
  | succ n ih =>
      obtain ⟨u, hu, h⟩ := h
      rw [Nat.succ_add]
      exact .cons hu (ih h)

/-- A run goes on from where its passes lead. -/
theorem Passes.run_eq {body : σ → Outcome σ β} {n : Nat} {s s' : σ} (h : Passes body n s s')
    (fuel : Nat) : run body (fuel + n) s = run body fuel s' := by
  induction n generalizing s with
  | zero =>
      cases h
      rfl
  | succ n ih =>
      obtain ⟨t, ht, h⟩ := h
      rw [← Nat.add_assoc, run_next ht, ih h]

/-- A sequence of states, each of which leads to the next one. -/
theorem Passes.along {body : σ → Outcome σ β} {f : Nat → σ} {n : Nat}
    (h : ∀ k < n, body (f k) = .next (f (k + 1))) : Passes body n (f 0) (f n) := by
  induction n with
  | zero => rfl
  | succ n ih =>
      exact (ih fun k hk => h k (Nat.lt_succ_of_lt hk)).append
        (.cons (h n (Nat.lt_succ_self n)) rfl)

/-- A sequence of states that ends with one in which the loop is left. -/
theorem run_along {body : σ → Outcome σ β} {f : Nat → σ} {n fuel : Nat} {b : β}
    (h : ∀ k < n, body (f k) = .next (f (k + 1))) (hexit : body (f n) = .exit b)
    (hfuel : n < fuel) : run body fuel (f 0) = some b := by
  obtain ⟨rest, rfl⟩ := Nat.exists_eq_add_of_lt hfuel
  rw [show n + rest + 1 = rest + 1 + n by omega, (Passes.along h).run_eq]
  exact run_exit hexit rest

/-- The states a loop has met lead up to the one it has reached. -/
theorem Passes.visited_append {body : σ → Outcome σ β} {n : Nat} {s t : σ}
    (h : Passes body n s t) (fuel : Nat) :
    ∃ before, visited body (n + fuel) s = before ++ visited body fuel t := by
  induction n generalizing s with
  | zero =>
      cases h
      exact ⟨[], by rw [Nat.zero_add, List.nil_append]⟩
  | succ n ih =>
      obtain ⟨u, hu, h⟩ := h
      obtain ⟨before, heq⟩ := ih h
      refine ⟨s :: before, ?_⟩
      rw [Nat.succ_add, visited, hu]
      simp [heq]

/-- From the state on the loop is left with `b`, whatever bound that takes. -/
def Exits (body : σ → Outcome σ β) (s : σ) (b : β) : Prop := ∃ fuel, run body fuel s = some b

/-- What a pass that goes round leaves to the rest of the loop. -/
theorem Exits.next {body : σ → Outcome σ β} {s t : σ} {b : β} (hs : Exits body s b)
    (h : body s = .next t) : Exits body t b := by
  obtain ⟨fuel, hrun⟩ := hs
  cases fuel with
  | zero => contradiction
  | succ fuel => exact ⟨fuel, by rwa [run_next h] at hrun⟩

/-- A pass that leaves the loop decides its value. -/
theorem Exits.exit {body : σ → Outcome σ β} {s : σ} {b b' : β} (hs : Exits body s b)
    (h : body s = .exit b') : b' = b := by
  obtain ⟨fuel, hrun⟩ := hs
  cases fuel with
  | zero => contradiction
  | succ fuel => exact Option.some.inj ((run_exit h fuel).symm.trans hrun)

/-- A pass that leaves the loop is a run of its own. -/
theorem Exits.of_exit {body : σ → Outcome σ β} {s : σ} {b : β} (h : body s = .exit b) :
    Exits body s b :=
  ⟨1, run_exit h 0⟩

/-- A pass that goes round leaves what the loop leaves behind it. -/
theorem Exits.of_next {body : σ → Outcome σ β} {s t : σ} {b : β} (h : body s = .next t)
    (ht : Exits body t b) : Exits body s b := by
  obtain ⟨fuel, hrun⟩ := ht
  exact ⟨fuel + 1, by rwa [run_next h]⟩

/-- States with the same pass leave the loop alike. -/
theorem Exits.congr {body : σ → Outcome σ β} {s s' : σ} {b : β} (hs : Exits body s b)
    (h : body s = body s') : Exits body s' b := by
  obtain ⟨fuel, hrun⟩ := hs
  cases fuel with
  | zero => contradiction
  | succ fuel => exact ⟨fuel + 1, by rwa [run, h] at hrun⟩

/-- A loop is left with one value only. -/
theorem Exits.unique {body : σ → Outcome σ β} {s : σ} {b b' : β} (hs : Exits body s b)
    (hs' : Exits body s b') : b = b' := by
  obtain ⟨fuel, hrun⟩ := hs
  induction fuel generalizing s with
  | zero => contradiction
  | succ fuel ih =>
      cases hpass : body s with
      | next t =>
          rw [run_next hpass] at hrun
          exact ih (hs'.next hpass) hrun
      | exit c =>
          rw [run_exit hpass, Option.some.injEq] at hrun
          rw [← hrun, hs'.exit hpass]

/-- What passes leave to the rest of the loop. -/
theorem Exits.passes {body : σ → Outcome σ β} {n : Nat} {s t : σ} {b : β} (hs : Exits body s b)
    (h : Passes body n s t) : Exits body t b := by
  induction n generalizing s with
  | zero => exact h ▸ hs
  | succ n ih =>
      obtain ⟨u, hu, h⟩ := h
      exact ih (hs.next hu) h

/-- A loop that counts up: what each pass carries over to the next count holds at the end. -/
theorem foldlM_range {f : σ → Nat → Option σ} {I : Nat → σ → Prop} {n : Nat} {s : σ} (hs : I 0 s)
    (hstep : ∀ k < n, ∀ s, I k s → ∃ s', f s k = some s' ∧ I (k + 1) s') :
    ∃ s', (List.range n).foldlM f s = some s' ∧ I n s' := by
  induction n with
  | zero => exact ⟨s, rfl, hs⟩
  | succ n ih =>
      obtain ⟨t, hrun, ht⟩ := ih fun k hk => hstep k (Nat.lt_succ_of_lt hk)
      obtain ⟨u, hpass, hu⟩ := hstep n (Nat.lt_succ_self n) t ht
      refine ⟨u, ?_, hu⟩
      rw [List.range_succ, List.foldlM_append, hrun]
      simp [hpass]

end CiteParser.Loop
