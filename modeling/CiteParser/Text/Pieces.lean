import CiteParser.Core.Memory
import CiteParser.Text.Split

/-!
# The pieces of a token

`spilitStr` lists where the class of the characters changes, a capital and what follows it
counting as one class. Its callers read the list in pairs, `flg[k]` and `flg[k+1]`, and take the
characters in between for a piece.
-/

namespace CiteParser

/-- The boundaries that are listed cut the token into its pieces. -/
structure PartitionsToken (str : List UInt8) (flg : List Nat) : Prop where
  /-- There is a piece. -/
  flen : 1 ≤ flg.length - 1
  first : flg.head? = some 0
  last : flg.getLast? = some str.length
  increasing : flg.Pairwise (· < ·)
  boundary : ∀ i, 1 ≤ i → i < str.length →
    (i ∈ flg ↔ charType (memory str i) ≠ charType (memory str (i - 1)) ∧
      isUppercaseCode (memory str (i - 1)) = false)
  pieces : (segments (memory str) flg).flatten = str

/-- A piece starts at the first character, and where the class changes behind another one than a
capital. -/
def startsPiece (str : List UInt8) (i : Nat) : Bool :=
  i == 0 || charType (memory str i) != charType (memory str (i - 1)) &&
    !isUppercaseCode (memory str (i - 1))

/-- The class of capitals. -/
theorem charType_eq_one_iff (c : UInt8) : charType c = 1 ↔ isUppercaseCode c = true := by
  rw [charType]
  split
  · rename_i hupper
    exact iff_of_true rfl hupper
  · rename_i hupper
    refine iff_of_false ?_ hupper
    split_ifs <;> decide

/-- What is tested behind a token at the next character. -/
theorem startsPiece_length (str : List UInt8) (c : UInt8) :
    startsPiece (str ++ [c]) str.length = true ↔
      some (charType c) ≠ (str.getLast?).map charType ∧
        (str.getLast?).map charType ≠ some 1 := by
  rcases List.eq_nil_or_concat' str with rfl | ⟨str, d, rfl⟩
  · exact iff_of_true rfl ⟨by simp, by simp⟩
  · have hthis : memory (str ++ [d] ++ [c]) (str ++ [d]).length = c := by
      rw [memory, List.getD_append_right _ _ _ _ le_rfl, Nat.sub_self]
      rfl
    have hbefore : memory (str ++ [d] ++ [c]) ((str ++ [d]).length - 1) = d := by
      rw [memory, List.getD_append _ _ _ _ (by simp), List.length_append, List.length_singleton,
        Nat.add_sub_cancel, List.getD_append_right _ _ _ _ le_rfl, Nat.sub_self]
      rfl
    rw [startsPiece, hthis, hbefore, List.getLast?_concat, Option.map_some]
    simp [charType_eq_one_iff]

/-- What the loop has stored behind a token, the class it remembers and its position. -/
theorem foldl_spilitStr (str : List UInt8) :
    str.foldl (fun (acc : List Nat × Option Nat × Nat) (c : UInt8) =>
        (if some (charType c) ≠ acc.2.1 ∧ acc.2.1 ≠ some 1 then acc.1 ++ [acc.2.2] else acc.1,
          some (charType c), acc.2.2 + 1)) ([], none, 0) =
      ((List.range str.length).filter (startsPiece str),
        (str.getLast?).map charType, str.length) := by
  induction str using List.reverseRecOn with
  | nil => rfl
  | append_singleton str c ih =>
      have hbefore : (List.range str.length).filter (startsPiece (str ++ [c])) =
          (List.range str.length).filter (startsPiece str) := by
        apply List.filter_congr
        intro i hi
        rw [List.mem_range] at hi
        simp only [startsPiece, memory]
        rw [List.getD_append _ _ _ _ hi, List.getD_append _ _ _ _ (by omega)]
      rw [List.foldl_append, ih, List.foldl_cons, List.foldl_nil, List.length_append,
        List.length_singleton, List.range_succ, List.filter_append, hbefore,
        List.getLast?_concat, Option.map_some, List.filter_singleton]
      by_cases hstarts : startsPiece (str ++ [c]) str.length = true
      · rw [if_pos ((startsPiece_length str c).mp hstarts), hstarts]
        rfl
      · rw [if_neg (mt (startsPiece_length str c).mpr hstarts), eq_false_of_ne_true hstarts]
        simp

/-- The list that `spilitStr` leaves. -/
theorem spilitStr_eq (str : List UInt8) :
    spilitStr str = (List.range str.length).filter (startsPiece str) ++ [str.length] := by
  rw [spilitStr, foldl_spilitStr]

/-- The starts of the pieces behind the first one. -/
theorem filter_startsPiece {str : List UInt8} (h : str ≠ []) :
    (List.range str.length).filter (startsPiece str) =
      0 :: (List.range' 1 (str.length - 1)).filter (startsPiece str) := by
  obtain ⟨n, hn⟩ := Nat.exists_eq_add_one_of_ne_zero (List.length_pos_of_ne_nil h).ne'
  rw [hn, List.range_eq_range', List.range'_succ, List.filter_cons_of_pos (by rfl),
    Nat.add_sub_cancel]

/-- `spilitStr` cuts every token that is not empty into its pieces. -/
theorem spilitStr_partitions {str : List UInt8} (h : str ≠ []) :
    PartitionsToken str (spilitStr str) := by
  have hincreasing : (spilitStr str).Pairwise (· < ·) := by
    rw [spilitStr_eq, List.pairwise_append]
    refine ⟨List.pairwise_lt_range.filter _, List.pairwise_singleton _ _, ?_⟩
    intro i hi j hj
    rw [List.mem_singleton.mp hj]
    exact List.mem_range.mp (List.mem_of_mem_filter hi)
  have hcons : spilitStr str = 0 :: (List.range' 1 (str.length - 1)).filter (startsPiece str) ++
      [str.length] := by
    rw [spilitStr_eq, filter_startsPiece h]
  refine ⟨?_, ?_, ?_, hincreasing, fun i hi hlen => ?_, ?_⟩
  · rw [hcons]
    simp
  · rw [hcons]
    rfl
  · rw [hcons, List.getLast?_concat]
  · rw [spilitStr_eq, List.mem_append, List.mem_filter, List.mem_range, List.mem_singleton]
    simp [startsPiece, hlen, hlen.ne, show i ≠ 0 by omega]
  · rw [hcons] at hincreasing ⊢
    rw [flatten_segments _ (hincreasing.imp Nat.le_of_lt), segment_memory (Nat.zero_le _) le_rfl,
      List.drop_zero, Nat.sub_zero, List.take_length]

/-- A capital stays with the letters behind it. -/
theorem spilitStr_partitions_word : PartitionsToken (bytes "Vol12") [0, 3, 5] :=
  @spilitStr_partitions (bytes "Vol12") (by decide)

end CiteParser
