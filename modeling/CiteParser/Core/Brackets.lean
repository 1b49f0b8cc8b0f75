import Mathlib.Tactic.Common

/-!
# Brackets of one kind

A text some of whose letters open a bracket and some of which close one. Matching is last
opened, first closed; a letter that closes with nothing open is a surplus one. A text leaves
its unclosed letters and its surplus ones behind, and how it acts on what is open before it
depends on these two numbers only.
-/

namespace CiteParser

section Brackets

variable {α : Type*} (opens closes : α → Bool)

/-- The letters still open after one more letter, the last opened first. -/
def stackStep (stack : List α) (t : α) : List α :=
  if opens t then t :: stack else if closes t then stack.tail else stack

/-- The letters of a text that open a bracket which no later letter closes. -/
def unclosed (text : List α) : List α := text.foldl (stackStep opens closes) []

/-- How many letters close with nothing open, behind letters that are open. -/
def surplusFrom : List α → List α → Nat
  | _, [] => 0
  | stack, t :: text =>
      (if !opens t && closes t && stack.isEmpty then 1 else 0) +
        surplusFrom (stackStep opens closes stack t) text

/-- The surplus letters of a text. -/
def surplus (text : List α) : Nat := surplusFrom opens closes [] text

/-- The letters that close before anything has been opened. -/
def leading (text : List α) : Nat := (text.takeWhile fun t => !opens t).countP closes

/-- The surplus letters behind the first one that opens. -/
def surplusBehind (text : List α) : Nat :=
  surplus opens closes (text.dropWhile fun t => !opens t)

/-- A scan from the end of a text to its front: a letter that opens counts, less the letters
that close met since the last one counted. -/
def backStep (c : Int × Int) (t : α) : Int × Int :=
  let cache := if closes t then c.2 + 1 else c.2
  if opens t then (c.1 + 1 - cache, 0) else (c.1, cache)

variable {opens closes}

/-- What is open before a text is closed by its surplus letters. -/
theorem length_foldl_stackStep (stack text : List α) :
    (text.foldl (stackStep opens closes) stack).length =
        (unclosed opens closes text).length + (stack.length - surplus opens closes text) ∧
      surplusFrom opens closes stack text = surplus opens closes text - stack.length := by
  induction text generalizing stack with
  | nil => simp [unclosed, surplus, surplusFrom]
  | cons t text ih =>
      have hunclosed : (unclosed opens closes (t :: text)).length =
          (unclosed opens closes text).length +
            ((stackStep opens closes [] t).length - surplus opens closes text) := (ih _).1
      have hsurplus : surplus opens closes (t :: text) =
          (if !opens t && closes t then 1 else 0) +
            (surplus opens closes text - (stackStep opens closes [] t).length) := by
        rw [surplus, surplusFrom, (ih _).2, List.isEmpty_nil, Bool.and_true]
      rw [List.foldl_cons, surplusFrom, (ih _).1, (ih _).2, hunclosed, hsurplus]
      cases hopen : opens t with
      | true =>
          simp [stackStep, hopen]
          omega
      | false =>
          cases hclose : closes t with
          | true =>
              cases stack <;> simp [stackStep, hopen, hclose]
              omega
          | false => simp [stackStep, hopen, hclose]

/-- A letter that opens in front of a text is closed by the first surplus letter. -/
theorem unclosed_cons_open {t : α} (ht : opens t = true) (text : List α) :
    (unclosed opens closes (t :: text)).length =
        (unclosed opens closes text).length + (1 - surplus opens closes text) ∧
      surplus opens closes (t :: text) = surplus opens closes text - 1 := by
  obtain ⟨hlen, hsur⟩ := @length_foldl_stackStep α opens closes [t] text
  constructor
  · rw [unclosed, List.foldl_cons, stackStep, if_pos ht]
    exact hlen
  · rw [surplus, surplusFrom, stackStep, if_pos ht, hsur, ht]
    simp

/-- Any other letter in front of a text opens nothing, and is a surplus one if it closes. -/
theorem unclosed_cons_other {t : α} (ht : opens t = false) (text : List α) :
    unclosed opens closes (t :: text) = unclosed opens closes text ∧
      surplus opens closes (t :: text) =
        (if closes t then 1 else 0) + surplus opens closes text := by
  have hstack : stackStep opens closes [] t = [] := by
    rw [stackStep, ht]
    cases closes t <;> rfl
  constructor
  · rw [unclosed, List.foldl_cons, hstack]
    rfl
  · rw [surplus, surplusFrom, hstack, ht]
    simp [surplus]

/-- The surplus letters are those before the first letter that opens, and those behind it. -/
theorem surplus_eq (text : List α) :
    surplus opens closes text = leading opens closes text + surplusBehind opens closes text := by
  induction text with
  | nil => rfl
  | cons t text ih =>
      rw [leading, surplusBehind]
      cases ht : opens t with
      | true => simp [ht]
      | false =>
          rw [(unclosed_cons_other ht text).2, ih, leading, surplusBehind]
          simp only [List.takeWhile_cons, List.dropWhile_cons, ht, Bool.not_false, if_true,
            List.countP_cons]
          omega

/-! ## Scanning backwards -/

theorem leading_cons_open {t : α} (ht : opens t = true) (text : List α) :
    leading opens closes (t :: text) = 0 := by
  simp [leading, ht]

theorem leading_cons_other {t : α} (ht : opens t = false) (text : List α) :
    leading opens closes (t :: text) = (if closes t then 1 else 0) + leading opens closes text := by
  simp only [leading, List.takeWhile_cons, ht, Bool.not_false, if_true, List.countP_cons]
  omega

/-- A letter leaves the scan as it is if it is no bracket, or opens and closes one while no
other closing one is kept. -/
theorem backStep_eq_iff (c : Int × Int) (t : α) : c = backStep opens closes c t ↔
    opens t = false ∧ closes t = false ∨ opens t = true ∧ closes t = true ∧ c.2 = 0 := by
  obtain ⟨total, cache⟩ := c
  rw [backStep]
  cases opens t <;> cases closes t <;> simp <;> omega

/-- The scan keeps the number of letters that close before anything is opened. -/
theorem foldl_backStep_snd (text : List α) :
    (text.reverse.foldl (backStep opens closes) (0, 0)).2 = leading opens closes text := by
  induction text with
  | nil => rfl
  | cons t text ih =>
      rw [List.reverse_cons, List.foldl_append, List.foldl_cons, List.foldl_nil, backStep, ih]
      cases ht : opens t with
      | true => simp [leading_cons_open ht]
      | false =>
          rw [leading_cons_other ht]
          cases closes t with
          | true =>
              simp
              omega
          | false => simp

/-- The scan counts the unclosed letters less the surplus ones behind the first letter that
opens: it cannot tell which closed which. -/
theorem foldl_backStep_fst {text : List α}
    (hone : ∀ t ∈ text, opens t = false ∨ closes t = false) :
    (text.reverse.foldl (backStep opens closes) (0, 0)).1 =
      (unclosed opens closes text).length - (surplusBehind opens closes text : Int) := by
  induction text with
  | nil => rfl
  | cons t text ih =>
      rw [List.reverse_cons, List.foldl_append, List.foldl_cons, List.foldl_nil, backStep,
        ih fun u hu => hone u (List.mem_cons_of_mem t hu), foldl_backStep_snd]
      have hsplit := @surplus_eq α opens closes text
      cases ht : opens t with
      | true =>
          have hclose := (hone t List.mem_cons_self).resolve_left (by rw [ht]; decide)
          obtain ⟨hlen, hsur⟩ := @unclosed_cons_open α opens closes t ht text
          have hbehind : surplusBehind opens closes (t :: text) =
              surplus opens closes (t :: text) := by
            simp [surplusBehind, ht]
          rw [hbehind, hlen, hsur]
          simp only [hclose, Bool.false_eq_true, if_false, if_true]
          omega
      | false =>
          have hbehind : surplusBehind opens closes (t :: text) =
              surplusBehind opens closes text := by
            simp [surplusBehind, ht]
          rw [(unclosed_cons_other ht text).1, hbehind]
          simp

end Brackets

end CiteParser
