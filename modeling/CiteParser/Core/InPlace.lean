import Mathlib.Data.List.TakeWhile
import Mathlib.Tactic.Common

/-!
# Rewriting a buffer in place

One index reads a buffer from the left and another one writes to it. As long as the second one
is not ahead, what is still to be read is what stood there at the beginning, and what has been
written stands before the second index.
-/

namespace CiteParser

variable {α : Type*}

/-- The buffer holds what has been written before one index, and from the other one on what is
still to be read. -/
structure InPlace (buf : List α) (i j : Nat) (out rest : List α) : Prop where
  written : buf.take j = out
  unread : buf.drop i = rest
  behind : j ≤ i
  inside : i ≤ buf.length

namespace InPlace

variable {buf : List α} {i j : Nat} {out rest : List α} {c : α}

/-- Nothing has been read at the beginning. -/
theorem start (buf : List α) : InPlace buf 0 0 [] buf :=
  ⟨List.take_zero, List.drop_zero, Nat.le_refl 0, Nat.zero_le _⟩

/-- The unread characters, by their distance. -/
theorem getElem? (h : InPlace buf i j out rest) (k : Nat) : buf[i + k]? = rest[k]? := by
  rw [← h.unread, List.getElem?_drop]

/-- A character that is only read. -/
theorem skip (h : InPlace buf i j out (c :: rest)) : InPlace buf (i + 1) j out rest where
  written := h.written
  unread := by rw [← List.tail_drop, h.unread, List.tail_cons]
  behind := Nat.le_succ_of_le h.behind
  inside := by
    have hlen := congrArg List.length h.unread
    rw [List.length_drop, List.length_cons] at hlen
    omega

/-- A character that is read and written. -/
theorem copy (h : InPlace buf i j out (c :: rest)) (d : α) :
    InPlace (buf.set j d) (i + 1) (j + 1) (out ++ [d]) rest where
  written := by
    have hj : j < buf.length := by
      have hlen := congrArg List.length h.unread
      have hbehind := h.behind
      rw [List.length_drop, List.length_cons] at hlen
      omega
    rw [List.take_add_one, List.getElem?_set_self hj, List.take_set, h.written,
      List.set_eq_of_length_le]
    · rfl
    · rw [← h.written]
      exact List.length_take_le j buf
  unread := by
    rw [List.drop_set_of_lt (Nat.lt_succ_of_le h.behind)]
    exact h.skip.unread
  behind := Nat.succ_le_succ h.behind
  inside := by
    rw [List.length_set]
    exact h.skip.inside

end InPlace

end CiteParser
