import Mathlib.Tactic.Common
import Mathlib.Data.List.Induction
import Mathlib.Order.Nat

/-!
# Running minima

A scan that keeps the least value met so far and what it has noted with it, and gives way to
smaller values only. It ends with the first element of the list that attains the least value,
if any value is below the one it starts from.
-/

namespace CiteParser

variable {α β : Type*}

/-- Keep the smaller value with its note; an equal one does not count. -/
def keepLess (s : Nat × β) (d : Nat) (b : β) : Nat × β := if d < s.1 then (d, b) else s

/-- `x` is the first element with the least value of the list. -/
def FirstLeast (f : α → Nat) (l : List α) (x : α) : Prop :=
  ∃ before after, l = before ++ x :: after ∧ (∀ y ∈ before, f x < f y) ∧ ∀ y ∈ after, f x ≤ f y

namespace FirstLeast

variable {f : α → Nat} {l : List α} {x : α}

theorem mem (h : FirstLeast f l x) : x ∈ l := by
  obtain ⟨before, after, rfl, -, -⟩ := h
  exact List.mem_append_right _ List.mem_cons_self

theorem le (h : FirstLeast f l x) {y : α} (hy : y ∈ l) : f x ≤ f y := by
  obtain ⟨before, after, rfl, hbefore, hafter⟩ := h
  rcases List.mem_append.mp hy with hy | hy
  · exact (hbefore y hy).le
  · rcases List.mem_cons.mp hy with rfl | hy
    · exact le_rfl
    · exact hafter y hy

/-- An element that is no smaller leaves the first least one as it is. -/
theorem concat (h : FirstLeast f l x) {y : α} (hy : f x ≤ f y) : FirstLeast f (l ++ [y]) x := by
  obtain ⟨before, after, rfl, hbefore, hafter⟩ := h
  refine ⟨before, after ++ [y], by simp, hbefore, fun z hz => ?_⟩
  rcases List.mem_append.mp hz with hz | hz
  · exact hafter z hz
  · rwa [List.mem_singleton.mp hz]

/-- An element that is smaller than all before it is the first least one. -/
theorem of_lt {y : α} (h : ∀ z ∈ l, f y < f z) : FirstLeast f (l ++ [y]) y :=
  ⟨l, [], rfl, h, fun _ hz => absurd hz List.not_mem_nil⟩

end FirstLeast

/-- A scan keeps what it starts from, or ends with the first least element. -/
theorem foldl_keepLess (f : α → Nat) (g : α → β) (l : List α) (s : Nat × β) :
    (l.foldl (fun s x => keepLess s (f x) (g x)) s = s ∧ ∀ x ∈ l, s.1 ≤ f x) ∨
    ∃ x, FirstLeast f l x ∧ f x < s.1 ∧
      l.foldl (fun s x => keepLess s (f x) (g x)) s = (f x, g x) := by
  induction l using List.reverseRecOn with
  | nil => exact .inl ⟨rfl, fun x hx => absurd hx List.not_mem_nil⟩
  | append_singleton l y ih =>
      rw [List.foldl_append, List.foldl_cons, List.foldl_nil]
      rcases ih with ⟨heq, hall⟩ | ⟨x, hx, hlt, heq⟩
      · rw [heq, keepLess]
        split
        · rename_i hy
          exact .inr ⟨y, .of_lt fun z hz => hy.trans_le (hall z hz), hy, rfl⟩
        · refine .inl ⟨rfl, fun z hz => ?_⟩
          rcases List.mem_append.mp hz with hz | hz
          · exact hall z hz
          · rw [List.mem_singleton.mp hz]
            omega
      · rw [heq, keepLess]
        split
        · rename_i hy
          refine .inr ⟨y, .of_lt fun z hz => hy.trans_le (hx.le hz), hy.trans hlt, rfl⟩
        · exact .inr ⟨x, hx.concat (by simp only at *; omega), hlt, rfl⟩

end CiteParser
