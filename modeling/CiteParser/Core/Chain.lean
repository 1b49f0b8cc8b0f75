import CiteParser.Core.Loop

/-!
# Linked lists

Following the `next` pointers of a heap from a given pointer visits a list of nodes and
ends at null. A node is linked behind the last one without touching the others, and a
loop that follows the pointers does its work at every node once, in the order of the list.
-/

namespace CiteParser

open Loop

variable {ν σ : Type*}

/-- From the pointer on, the nodes of the list follow each other, and behind the last one
is null. -/
inductive Path (next : ν → Option ν) : Option ν → List ν → Prop
  | nil : Path next none []
  | cons {q : ν} {L : List ν} : Path next (next q) L → Path next (some q) (q :: L)

variable {next next' : ν → Option ν} {p : Option ν} {L : List ν}

/-- Only the pointers of the nodes visited matter. -/
theorem Path.congr (h : Path next p L) (hsame : ∀ q ∈ L, next' q = next q) :
    Path next' p L := by
  induction h with
  | nil => exact .nil
  | @cons q L _ ih =>
      refine .cons ?_
      rw [hsame q List.mem_cons_self]
      exact ih fun q' hq' => hsame q' (List.mem_cons_of_mem _ hq')

/-- A list of one node. -/
theorem Path.singleton {q : ν} (h : next q = none) : Path next (some q) [q] := by
  refine .cons ?_
  rw [h]
  exact .nil

/-- Behind the last node is null. -/
theorem Path.next_last {q : ν} (h : Path next p (L ++ [q])) : next q = none := by
  induction L generalizing p with
  | nil =>
      cases h with
      | cons h =>
          generalize hn : next q = r at h
          cases h
          rfl
  | cons a L ih =>
      cases h with
      | cons h => exact ih h

/-- A node is linked behind the last one. -/
theorem Path.concat {q n : ν} (h : Path next p (L ++ [q])) (hkeep : ∀ x ∈ L, next' x = next x)
    (hlink : next' q = some n) (hend : next' n = none) : Path next' p (L ++ [q] ++ [n]) := by
  induction L generalizing p with
  | nil =>
      cases h with
      | cons _ =>
          refine .cons ?_
          rw [hlink]
          exact .singleton hend
  | cons a L ih =>
      cases h with
      | cons h =>
          refine .cons ?_
          rw [hkeep a List.mem_cons_self]
          exact ih h fun x hx => hkeep x (List.mem_cons_of_mem _ hx)

/-- A pass of `while (p != NULL) { p = next of p; ... }`, with what is done at a node. -/
def walkPass (next : ν → Option ν) (visit : σ → ν → σ) (s : Option ν × σ) :
    Outcome (Option ν × σ) σ :=
  match s.1 with
  | none => .exit s.2
  | some q => .next (next q, visit s.2 q)

/-- The loop visits the nodes in the order of the list. -/
theorem Path.run_walk (h : Path next p L) (visit : σ → ν → σ) {fuel : Nat}
    (hfuel : L.length < fuel) (s : σ) :
    run (walkPass next visit) fuel (p, s) = some (L.foldl visit s) := by
  induction h generalizing fuel s with
  | nil =>
      obtain ⟨fuel, rfl⟩ := Nat.exists_eq_add_one_of_ne_zero (Nat.ne_zero_of_lt hfuel)
      exact run_exit rfl fuel
  | @cons q L _ ih =>
      obtain ⟨fuel, rfl⟩ := Nat.exists_eq_add_one_of_ne_zero (Nat.ne_zero_of_lt hfuel)
      rw [List.length_cons] at hfuel
      have hpass : walkPass next visit (some q, s) = .next (next q, visit s q) := rfl
      rw [run_next hpass, ih (by omega), List.foldl_cons]

end CiteParser
