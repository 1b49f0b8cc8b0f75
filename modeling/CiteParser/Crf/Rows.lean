import CiteParser.Core.CString
import Mathlib.Tactic.Common

/-!
# The rows of the tagger

`TaggerImpl::add` of `tagger.cpp` and `tokenize2` of `common.h`: a line is cut at blanks and tabs,
and what is not empty is a column. A line with fewer columns than the model uses is not added.
-/

namespace CiteParser.Crf

/-- `tokenize2`: the words between delimiters, as far as there is room for them. -/
def tokenize2 (del : List UInt8) (max : Nat) (str : List UInt8) : List (List UInt8) :=
  match max with
  | 0 => []
  | max + 1 =>
      let word := str.takeWhile (· ∉ del)
      match h : str.dropWhile (· ∉ del) with
      | [] => if word = [] then [] else [word]
      | _ :: rest =>
          have hlength : rest.length < str.length := by
            have hle := (List.dropWhile_suffix (l := str) (· ∉ del)).length_le
            rw [h, List.length_cons] at hle
            omega
          if word = [] then tokenize2 del (max + 1) rest else word :: tokenize2 del max rest
termination_by str.length

/-- What the tagger has been given: the columns of each token, and how many of them the model
uses. -/
structure Rows where
  xsize : Nat
  x : List (List (List UInt8))
  deriving DecidableEq, Repr

namespace Rows

/-- `add2`, when it is not training: whether the columns of a token are taken. -/
def add2 (rows : Rows) (column : List (List UInt8)) : Rows × Bool :=
  if column.length < rows.xsize then (rows, false)
  else ({ rows with x := rows.x ++ [column] }, true)

/-- `add`, of a line. -/
def add (rows : Rows) (line : List UInt8) : Rows × Bool :=
  rows.add2 (tokenize2 ['\t'.toUInt8, ' '.toUInt8] 8192 (cstr line))

/-- Every token has the columns that the model uses. -/
def Wide (rows : Rows) : Prop := ∀ row ∈ rows.x, rows.xsize ≤ row.length

/-- Adding keeps to what the model uses. -/
theorem Wide.add2 {rows : Rows} (h : rows.Wide) (column : List (List UInt8)) :
    (rows.add2 column).1.Wide := by
  rw [Rows.add2]
  split
  · exact h
  next hlength =>
    intro row hrow
    rcases List.mem_append.mp hrow with hrow | hrow
    · exact h row hrow
    · rw [List.mem_singleton.mp hrow]
      exact not_lt.mp hlength

end Rows

/-! ## Words -/

section Words

variable {del : List UInt8}

/-- The words are the pieces between delimiters that are not empty. -/
theorem tokenize2_eq (del : List UInt8) (max : Nat) (str : List UInt8) :
    tokenize2 del max str = ((str.splitOnP (· ∈ del)).filter (· ≠ [])).take max := by
  induction hn : str.length using Nat.strong_induction_on generalizing max str with
  | _ n ih =>
      subst hn
      cases max with
      | zero => rw [tokenize2, List.take_zero]
      | succ max =>
          have hword : ∀ c ∈ str.takeWhile (· ∉ del), decide (c ∈ del) = false := by
            intro c hc
            simpa using List.mem_takeWhile_imp hc
          have hjoin := (List.takeWhile_append_dropWhile (p := (· ∉ del)) (l := str)).symm
          rw [tokenize2]
          dsimp only
          split
          next hend =>
            rw [hend, List.append_nil] at hjoin
            rw [← hjoin] at hword ⊢
            rw [List.splitOnP_eq_singleton hword]
            by_cases hnil : str = []
            · rw [if_pos hnil, hnil]
              rfl
            · rw [if_neg hnil, List.filter_cons_of_pos (by simpa using hnil), List.take_succ_cons,
                List.filter_nil, List.take_nil]
          next d rest hrest =>
            have hd : decide (d ∈ del) = true := by
              have hhead := List.head?_dropWhile_not (· ∉ del) str
              rw [hrest, List.head?_cons] at hhead
              simpa using hhead
            have hlength : rest.length < str.length := by
              have hle := (List.dropWhile_suffix (l := str) (· ∉ del)).length_le
              rw [hrest, List.length_cons] at hle
              omega
            have hsplit : str.splitOnP (· ∈ del) =
                str.takeWhile (· ∉ del) :: rest.splitOnP (· ∈ del) := by
              conv_lhs => rw [hjoin, hrest]
              rw [List.splitOnP_append_cons_of_forall_mem hword d hd]
            rw [hsplit]
            by_cases hnil : str.takeWhile (· ∉ del) = []
            · rw [if_pos hnil, List.filter_cons_of_neg (by simpa using hnil)]
              exact ih _ hlength (max + 1) rest rfl
            · rw [if_neg hnil, List.filter_cons_of_pos (by simpa using hnil), List.take_succ_cons,
                ih _ hlength max rest rfl]

/-- Columns that are printed with a delimiter behind each are read back, but for empty ones. -/
theorem tokenize2_columns {cols : List (List UInt8)} (sep : UInt8)
    (hcols : ∀ col ∈ cols, ∀ c ∈ col, c ∉ del) (hsep : sep ∈ del) (max : Nat) :
    tokenize2 del max (cols.flatMap fun col => col ++ [sep]) =
      (cols.filter (· ≠ [])).take max := by
  have hsplit : (cols.flatMap fun col => col ++ [sep]).splitOnP (· ∈ del) = cols ++ [[]] := by
    induction cols with
    | nil => rfl
    | cons col cols ih =>
        rw [List.forall_mem_cons] at hcols
        rw [List.flatMap_cons, List.append_assoc, List.singleton_append,
          List.splitOnP_append_cons_of_forall_mem (by simpa using hcols.1) sep
            (by simpa using hsep), ih hcols.2]
        rfl
  rw [tokenize2_eq, hsplit, List.filter_append]
  simp

end Words

end CiteParser.Crf
