import Mathlib.Data.List.Perm.Subperm
import Mathlib.Tactic.Common

/-!
# A ledger of heap buffers

Every allocation is a buffer of its own, named by the number of allocations before it.
A module is safe while the buffers it may still release are apart from each other and
from those it has released; dropping a pointer without a release keeps that.
-/

namespace CiteParser

/-- How many buffers were allocated, and which have been released, the last one first. -/
structure Ledger where
  next : Nat
  released : List Nat

namespace Ledger

/-- The ledger after an allocation; the buffer is number `l.next`. -/
def calloc (l : Ledger) : Ledger := { l with next := l.next + 1 }

/-- `free`, which does nothing with a null pointer. -/
def free (l : Ledger) (p : Option Nat) : Ledger := { l with released := p.toList ++ l.released }

/-- Each of the buffers held may be released once more, and all of them exist. -/
structure Owns (l : Ledger) (held : List Nat) : Prop where
  nodup : (held ++ l.released).Nodup
  fresh : ∀ b ∈ held ++ l.released, b < l.next

variable {l : Ledger} {held : List Nat}

/-- Before the first allocation there is nothing to hold. -/
theorem owns_start : Owns ⟨0, []⟩ [] :=
  ⟨List.nodup_nil, fun _ h => absurd h List.not_mem_nil⟩

/-- An allocation adds a buffer. -/
theorem Owns.calloc (h : Owns l held) : Owns l.calloc (l.next :: held) := by
  constructor
  · refine List.nodup_cons.mpr ⟨fun hmem => ?_, h.nodup⟩
    exact absurd (h.fresh _ hmem) (Nat.lt_irrefl _)
  · intro b hb
    rcases List.mem_cons.mp hb with rfl | hb
    · exact Nat.lt_succ_self _
    · exact Nat.lt_succ_of_lt (h.fresh b hb)

/-- A release takes a buffer out of those held. -/
theorem Owns.free (p : Option Nat) (h : Owns l (p.toList ++ held)) : Owns (l.free p) held := by
  have hperm : (p.toList ++ held ++ l.released).Perm (held ++ (p.toList ++ l.released)) := by
    rw [← List.append_assoc held]
    exact List.perm_append_comm.append_right _
  exact ⟨hperm.nodup_iff.mp h.nodup, fun b hb => h.fresh b (hperm.mem_iff.mpr hb)⟩

/-- Buffers may be dropped and listed in another order. -/
theorem Owns.mono {held' : List Nat} (h : Owns l held) (hsub : held'.Subperm held) :
    Owns l held' := by
  obtain ⟨u, hperm, hsublist⟩ := (List.subperm_append_right l.released).mpr hsub
  refine ⟨hperm.nodup_iff.mp (h.nodup.sublist hsublist), fun b hb => h.fresh b ?_⟩
  exact hsublist.subset (hperm.mem_iff.mpr hb)

/-- What is held has not been released. -/
theorem Owns.not_mem_released (h : Owns l held) {b : Nat} (hb : b ∈ held) : b ∉ l.released :=
  fun hrel => (List.nodup_append.mp h.nodup).2.2 b hb b hrel rfl

/-- Nothing has been released twice. -/
theorem Owns.nodup_released (h : Owns l held) : l.released.Nodup :=
  (List.nodup_append.mp h.nodup).2.1

end Ledger

end CiteParser
