import CiteParser.Core.Loop
import Mathlib.Control.Monad.Writer

/-!
# Computations that tell what they read

A computation in the writer monad over the indices it has read, in their order. Nothing is
known of an index before it is read, so no index is left out. A loop of such passes is *safe*
from a state if it is left there and reads only what may be read; one equation for a pass, an
invariant and a measure decide from which states that is so.
-/

namespace CiteParser

universe u

/-- A value and the indices read for it. -/
abbrev Traced (ι : Type u) := Writer (List ι)

namespace Traced

open Loop

variable {ι α β σ : Type u}

def val (p : Traced ι α) : α := (WriterT.run p).1

def reads (p : Traced ι α) : List ι := (WriterT.run p).2

/-- Reading one index of a memory. -/
def read (mem : ι → α) (i : ι) : Traced ι α := WriterT.mk (mem i, [i])

/-- Every index read is one that may be. -/
def Within (P : ι → Prop) (p : Traced ι α) : Prop := ∀ i ∈ p.reads, P i

section Rules

variable {P : ι → Prop}

@[simp] theorem val_pure (a : α) : (pure a : Traced ι α).val = a := rfl

@[simp] theorem val_bind (p : Traced ι α) (f : α → Traced ι β) :
    (p >>= f).val = (f p.val).val := rfl

@[simp] theorem val_read (mem : ι → α) (i : ι) : (read mem i).val = mem i := rfl

@[simp] theorem within_pure (a : α) : Within P (pure a : Traced ι α) :=
  fun _ hi => absurd hi List.not_mem_nil

@[simp] theorem within_read (mem : ι → α) (i : ι) : Within P (read mem i) ↔ P i := by
  simp [Within, read, reads]

/-- What is read one after the other. -/
@[simp] theorem within_bind (p : Traced ι α) (f : α → Traced ι β) :
    Within P (p >>= f) ↔ Within P p ∧ Within P (f p.val) :=
  List.forall_mem_append

end Rules

section Loops

variable {P : ι → Prop} {body : σ → Traced ι (Outcome σ β)} {s s' : σ} {b : β}

/-- A loop of such passes, at most `fuel` of them. -/
def runTraced (body : σ → Traced ι (Outcome σ β)) : Nat → σ → Traced ι (Option β)
  | 0, _ => pure none
  | fuel + 1, s => do
      match ← body s with
      | .next s' => runTraced body fuel s'
      | .exit b => pure (some b)

/-- The value of a loop is that of the loop of the values. -/
theorem val_runTraced (body : σ → Traced ι (Outcome σ β)) (fuel : Nat) (s : σ) :
    (runTraced body fuel s).val = run (fun s => (body s).val) fuel s := by
  induction fuel generalizing s with
  | zero => rfl
  | succ fuel ih =>
      rw [runTraced, val_bind, run]
      cases (body s).val with
      | next s' => exact ih s'
      | exit b => rfl

/-- From the state on the loop is left, and it reads only what may be read. -/
def Safe (P : ι → Prop) (body : σ → Traced ι (Outcome σ β)) (s : σ) : Prop :=
  ∃ fuel, (runTraced body fuel s).val.isSome = true ∧ Within P (runTraced body fuel s)

/-- The first pass of a loop, and the others. -/
theorem safe_iff : Safe P body s ↔
    Within P (body s) ∧ ∀ s', (body s).val = .next s' → Safe P body s' := by
  constructor
  · rintro ⟨fuel, hsome, hwithin⟩
    cases fuel with
    | zero => contradiction
    | succ fuel =>
        rw [runTraced, within_bind] at hwithin
        rw [runTraced, val_bind] at hsome
        refine ⟨hwithin.1, fun s' hnext => ⟨fuel, ?_, ?_⟩⟩
        · rwa [hnext] at hsome
        · simpa only [hnext] using hwithin.2
  · rintro ⟨hwithin, hrest⟩
    cases hpass : (body s).val with
    | exit b =>
        refine ⟨1, ?_, ?_⟩
        · rw [runTraced, val_bind, hpass]
          rfl
        · rw [runTraced, within_bind, hpass]
          exact ⟨hwithin, within_pure _⟩
    | next s' =>
        obtain ⟨fuel, hsome, hwithin'⟩ := hrest s' hpass
        refine ⟨fuel + 1, ?_, ?_⟩
        · rwa [runTraced, val_bind, hpass]
        · rw [runTraced, within_bind, hpass]
          exact ⟨hwithin, hwithin'⟩

/-- What is to be shown of the states of a loop: an invariant, for which of them the loop is
safe, and a measure that each pass lowers. -/
structure Verdict (σ : Type u) where
  inv : σ → Prop
  safe : σ → Prop
  measure : σ → Nat

/-- A pass from a state reads what may be read if the state is safe; and if it does, the state
is safe if the pass leaves the loop, and exactly if the next one is where it goes on. -/
def Verdict.Decides (V : Verdict σ) (P : ι → Prop) (s : σ) (p : Traced ι (Outcome σ β)) : Prop :=
  (V.safe s → Within P p) ∧ (Within P p →
    match p.val with
    | .exit _ => V.safe s
    | .next s' => V.inv s' ∧ V.measure s' < V.measure s ∧ (V.safe s' ↔ V.safe s))

variable {V : Verdict σ}

@[simp] theorem Verdict.decides_exit :
    V.Decides P s (pure (.exit b) : Traced ι (Outcome σ β)) ↔ V.safe s := by
  simp [Decides]

@[simp] theorem Verdict.decides_next :
    V.Decides P s (pure (.next s') : Traced ι (Outcome σ β)) ↔
      V.inv s' ∧ V.measure s' < V.measure s ∧ (V.safe s' ↔ V.safe s) := by
  simp [Decides]

/-- The part of a pass that is read first. -/
theorem Verdict.decides_bind {p : Traced ι α} {f : α → Traced ι (Outcome σ β)} :
    V.Decides P s (p >>= f) ↔
      (V.safe s → Within P p) ∧ (Within P p → V.Decides P s (f p.val)) := by
  rw [Decides, within_bind, val_bind, Decides]
  tauto

theorem Verdict.decides_read {mem : ι → α} {i : ι} {f : α → Traced ι (Outcome σ β)} :
    V.Decides P s (read mem i >>= f) ↔
      (V.safe s → P i) ∧ (P i → V.Decides P s (f (mem i))) := by
  rw [decides_bind, within_read, val_read]

/-- A loop is safe from the states of the invariant that are said to be. -/
theorem Verdict.safe_iff (hbody : ∀ s, V.inv s → V.Decides P s (body s)) (hs : V.inv s) :
    Safe P body s ↔ V.safe s := by
  induction hm : V.measure s using Nat.strongRecOn generalizing s with
  | ind m ih =>
      subst hm
      obtain ⟨hreads, hpass⟩ := hbody s hs
      rw [Traced.safe_iff]
      constructor
      · rintro ⟨hwithin, hrest⟩
        have hpass := hpass hwithin
        cases hval : (body s).val with
        | exit b => simpa only [hval] using hpass
        | next s' =>
            rw [hval] at hpass
            obtain ⟨hs', hlt, hiff⟩ := hpass
            exact hiff.mp ((ih _ hlt hs' rfl).mp (hrest s' hval))
      · intro hsafe
        refine ⟨hreads hsafe, fun s' hval => ?_⟩
        have hpass := hpass (hreads hsafe)
        rw [hval] at hpass
        obtain ⟨hs', hlt, hiff⟩ := hpass
        exact (ih _ hlt hs' rfl).mpr (hiff.mpr hsafe)

/-- From a safe state the loop is left within its measure, and with what its passes establish
from states of one more invariant. -/
theorem Verdict.run_ensures (hbody : ∀ s, V.inv s → V.Decides P s (body s)) {I : σ → Prop}
    {Q : β → Prop} (hpass : ∀ s, V.inv s → I s → (body s).val.Satisfies I Q) (hs : V.inv s)
    (hsafe : V.safe s) (hI : I s) {fuel : Nat} (hfuel : V.measure s < fuel) :
    ∃ b, (runTraced body fuel s).val = some b ∧ Q b := by
  rw [val_runTraced]
  refine run_rule _ fuel s (fun s => V.inv s ∧ V.safe s ∧ I s) V.measure Q ?_ ?_
    ⟨hs, hsafe, hI⟩ hfuel
  · rintro s s' ⟨hs, hsafe, hI⟩ hval
    obtain ⟨hreads, hnext⟩ := hbody s hs
    have hnext := hnext (hreads hsafe)
    have hI' := hpass s hs hI
    rw [hval] at hnext hI'
    obtain ⟨hs', hlt, hiff⟩ := hnext
    exact ⟨⟨hs', hiff.mpr hsafe, hI'⟩, hlt⟩
  · rintro s b ⟨hs, -, hI⟩ hval
    have hQ := hpass s hs hI
    rwa [hval] at hQ

end Loops

end Traced

end CiteParser
