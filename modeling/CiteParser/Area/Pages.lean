import CiteParser.Area.Window
import CiteParser.Core.CString
import CiteParser.Core.Segment

/-!
# Page ranges

`isPageNumber` tries seven shapes of a page range, the longest first. The letters that scanned
text confuses with a 1 have no value of their own there, and one shape is reported with the
length of another.
-/

namespace CiteParser

/-- `ch2int`: what the test for `I` and `l` assigns is overwritten by the test behind it. -/
def ch2int (ch : UInt8) : Nat :=
  let val : Int := if ch = 'o'.toUInt8 ∨ ch = 'O'.toUInt8 then 0 else ch.toNat - '0'.toNat
  if 9 < val ∨ val < 0 then 0 else val.toNat

/-- A case of the `switch`: the digits of either number and what is returned. -/
structure PageShape where
  left : Nat
  right : Nat
  ret : Nat
  deriving DecidableEq

/-- The cases in their order. -/
def pageShapes : List PageShape :=
  [⟨4, 4, 9⟩, ⟨3, 4, 8⟩, ⟨3, 3, 7⟩, ⟨2, 3, 7⟩, ⟨2, 2, 5⟩, ⟨1, 2, 4⟩, ⟨1, 1, 3⟩]

namespace PageShape

/-- The characters the shape covers, which is the label of its case. -/
def length (s : PageShape) : Nat := s.left + 1 + s.right

/-- The pattern of the case: digits, a delimiter and digits. -/
def pattern (s : PageShape) : List UInt8 :=
  List.replicate s.left 'n'.toUInt8 ++ 'e'.toUInt8 :: List.replicate s.right 'n'.toUInt8

/-- The first test of a case. The two shortest ones ask for a hyphen, character by character. -/
def fits (s : PageShape) (content : Nat → UInt8) : Bool :=
  if 5 ≤ s.length then
    editDistanceP s.pattern s.length (segment content 0 s.length) s.length ≤ 0
  else
    fitPattern 'n'.toUInt8 (content 0) && content 1 == '-'.toUInt8 &&
      (segment content 2 (2 + s.right)).all (fitPattern 'n'.toUInt8)

/-- The two numbers, each character counted as `value` says. -/
def numbers (s : PageShape) (value : UInt8 → Nat) (content : Nat → UInt8) : Nat × Nat :=
  let number := fun l : List UInt8 => l.foldl (fun v c => v * 10 + value c) 0
  (number (segment content 0 s.left), number (segment content (s.left + 1) s.length))

/-- A case that returns. -/
def accepts (s : PageShape) (content : Nat → UInt8) : Bool :=
  s.fits content && (s.numbers ch2int content).1 < (s.numbers ch2int content).2 &&
    content s.left != ' '.toUInt8

end PageShape

/-- `isPageNumber(content, limit)`: the `switch` starts at the limit, which is at most 9, and
falls through to the shorter shapes. -/
def isPageNumber (content : Nat → UInt8) (limit : Int) : Nat :=
  if limit < 3 then 0
  else
    let limit := if 9 < limit then 9 else limit
    match pageShapes.find? fun s => (s.length : Int) ≤ limit && s.accepts content with
    | some s => s.ret
    | none => 0

/-- The loop of `hasPPafterTheOffset`. -/
def pageProbe (T : Pcontent) (offend i : Int) : Probe :=
  if fitPattern 'n'.toUInt8 (T.char i) then
    let pageOffset := isPageNumber (fun k => T.char (i + k)) (offend - i)
    if pageOffset ≠ 0 then .found (i + pageOffset + 1) else .pass
  else .pass

def hasPPafterTheOffset (T : Pcontent) (offset limit : Int) : Int :=
  let (offset, offend) := defineStartAndEnd T offset limit
  scanWindow (pageProbe T offend) (offend - offset).toNat offset

/-- A digit, with the letters that are confused with a 1 read as one. -/
def readDigit (c : UInt8) : Nat :=
  if c = 'I'.toUInt8 ∨ c = 'i'.toUInt8 ∨ c = 'l'.toUInt8 ∨ c = 'L'.toUInt8 then 1
  else c.toNat - '0'.toNat

/-- The first `n` characters are a page range: a number, a character other than a blank that
separates, and a larger number, with the digits of one of the shapes. -/
def IsPageRange (content : Nat → UInt8) (n : Nat) : Prop :=
  ∃ s ∈ pageShapes, n = s.length ∧
    (∀ k < s.left, fitPattern 'n'.toUInt8 (content k) = true) ∧
    (fitPattern 'e'.toUInt8 (content s.left) = true ∨ content s.left = '-'.toUInt8) ∧
    content s.left ≠ ' '.toUInt8 ∧
    (∀ k < s.right, fitPattern 'n'.toUInt8 (content (s.left + 1 + k)) = true) ∧
    (s.numbers readDigit content).1 < (s.numbers readDigit content).2

/-- A length that is returned is within the limit and that of a page range. -/
def RecognisesPages (content : Nat → UInt8) (limit : Int) : Prop :=
  0 < isPageNumber content limit →
    (isPageNumber content limit : Int) ≤ limit ∧ IsPageRange content (isPageNumber content limit)

/-- The first shape that accepts the text is the one of two and three digits, or its two numbers
are no longer in order when the letters in them count as 1. -/
def Misread (content : Nat → UInt8) (limit : Int) : Prop :=
  ∃ s ∈ pageShapes, (s.length : Int) ≤ limit ∧ s.accepts content = true ∧
    (∀ t ∈ pageShapes, s.length < t.length → (t.length : Int) ≤ limit →
      t.accepts content = false) ∧
    ((s.left = 2 ∧ s.right = 3) ∨
      ¬ (s.numbers readDigit content).1 < (s.numbers readDigit content).2)

section Shapes

variable {content : Nat → UInt8} {limit : Int} {s t : PageShape}

/-- What every case has in common. -/
theorem pageShapes_spec : ∀ s ∈ pageShapes, 0 < s.left ∧ s.left ≤ 4 ∧ 3 ≤ s.length ∧
    s.length ≤ 9 ∧ 0 < s.ret ∧ (s.length < 5 → s.left = 1) := by decide

/-- A shape is determined by its length, and only one is reported with another one's. -/
theorem eq_of_ret_eq_length : ∀ s ∈ pageShapes, ∀ t ∈ pageShapes, s.ret = t.length →
    (s = ⟨2, 3, 7⟩ ∧ t = ⟨3, 3, 7⟩) ∨ s = t := by decide

theorem eq_of_length : ∀ s ∈ pageShapes, ∀ t ∈ pageShapes, s.length = t.length → s = t := by
  decide

/-- No character is both a digit and a delimiter. -/
theorem not_fitNum_of_delimiter : ∀ c : UInt8,
    fitPattern 'e'.toUInt8 c = true ∨ c = '-'.toUInt8 → fitPattern 'n'.toUInt8 c = false := by
  decide +kernel

/-- The pattern, character by character. -/
theorem PageShape.pattern_eq (s : PageShape) : s.pattern =
    segment (fun k => if k = s.left then 'e'.toUInt8 else 'n'.toUInt8) 0 s.length := by
  have hdigits : ∀ a b, (∀ k, a ≤ k → k < b → k ≠ s.left) →
      segment (fun k => if k = s.left then 'e'.toUInt8 else 'n'.toUInt8) a b =
        List.replicate (b - a) 'n'.toUInt8 := by
    intro a b h
    rw [List.eq_replicate_iff]
    refine ⟨length_segment _ a b, fun x hx => ?_⟩
    obtain ⟨k, ha, hb, rfl⟩ := mem_segment.mp hx
    exact if_neg (h k ha hb)
  have hlen : s.length = s.left + 1 + s.right := rfl
  rw [← segment_append _ (Nat.zero_le s.left) (show s.left ≤ s.length by omega),
    segment_cons _ (show s.left < s.length by omega), hdigits 0 s.left (by omega),
    hdigits (s.left + 1) s.length (by omega), hlen, Nat.add_sub_cancel_left, if_pos rfl]
  rfl

/-- The longer shapes fit where each character fits its own in the pattern. -/
theorem PageShape.fits_iff_of_long (hlong : 5 ≤ s.length) :
    s.fits content = true ↔
      (∀ k < s.left, fitPattern 'n'.toUInt8 (content k) = true) ∧
      fitPattern 'e'.toUInt8 (content s.left) = true ∧
      ∀ k < s.right, fitPattern 'n'.toUInt8 (content (s.left + 1 + k)) = true := by
  have hlen : s.length = s.left + 1 + s.right := rfl
  have hchar : s.fits content = true ↔ ∀ k < s.length,
      fitPattern (if k = s.left then 'e'.toUInt8 else 'n'.toUInt8) (content k) = true := by
    have hzero := editDistanceP_eq_zero_iff s.pattern (segment content 0 s.length)
    rw [pattern_eq, length_segment, length_segment, Nat.sub_zero, ← pattern_eq] at hzero
    rw [fits, if_pos hlong, decide_eq_true_eq, Nat.le_zero, hzero, pattern_eq, segment, segment,
      List.forall₂_map_left_iff, List.forall₂_map_right_iff, List.forall₂_same]
    simp [List.mem_range'_1]
  rw [hchar]
  constructor
  · intro h
    refine ⟨fun k hk => ?_, ?_, fun k hk => ?_⟩
    · simpa [hk.ne] using h k (by omega)
    · simpa using h s.left (by omega)
    · simpa [show s.left + 1 + k ≠ s.left by omega] using h (s.left + 1 + k) (by omega)
  · rintro ⟨hleft, hsep, hright⟩ k hk
    rcases lt_trichotomy k s.left with hlt | rfl | hlt
    · rw [if_neg hlt.ne]
      exact hleft k hlt
    · rwa [if_pos rfl]
    · obtain ⟨j, rfl⟩ := Nat.exists_eq_add_of_le hlt
      rw [if_neg (by omega)]
      exact hright j (by omega)

/-- What a shape that fits covers. -/
theorem PageShape.fits_spec (hs : s ∈ pageShapes) (h : s.fits content = true) :
    (∀ k < s.left, fitPattern 'n'.toUInt8 (content k) = true) ∧
    (fitPattern 'e'.toUInt8 (content s.left) = true ∨ content s.left = '-'.toUInt8) ∧
    ∀ k < s.right, fitPattern 'n'.toUInt8 (content (s.left + 1 + k)) = true := by
  by_cases hlong : 5 ≤ s.length
  · obtain ⟨hleft, hsep, hright⟩ := (fits_iff_of_long hlong).mp h
    exact ⟨hleft, .inl hsep, hright⟩
  · rw [fits, if_neg hlong] at h
    have hleft := (pageShapes_spec s hs).2.2.2.2.2 (by omega)
    rw [Bool.and_eq_true, Bool.and_eq_true, beq_iff_eq, List.all_eq_true] at h
    obtain ⟨⟨hfirst, hhyphen⟩, hrest⟩ := h
    refine ⟨fun k hk => ?_, .inr (by rw [hleft, hhyphen]), fun k hk => ?_⟩
    · rwa [show k = 0 by omega]
    · apply hrest
      rw [mem_segment]
      exact ⟨s.left + 1 + k, by omega, by omega, rfl⟩

/-- What a case that returns has tested. -/
theorem PageShape.accepts_iff : s.accepts content = true ↔
    s.fits content = true ∧ (s.numbers ch2int content).1 < (s.numbers ch2int content).2 ∧
      content s.left ≠ ' '.toUInt8 := by
  rw [accepts, Bool.and_eq_true, Bool.and_eq_true, bne_iff_ne, decide_eq_true_eq, and_assoc]

/-- The separator of the two shortest shapes. -/
theorem PageShape.hyphen_of_fits (hshort : s.length < 5) (h : s.fits content = true) :
    content 1 = '-'.toUInt8 := by
  rw [fits, if_neg (by omega), Bool.and_eq_true, Bool.and_eq_true, beq_iff_eq] at h
  exact h.1.2

/-- A page range that another digit follows is one of the shape with a digit more. -/
theorem PageShape.accepts_succ (hlong : 5 ≤ s.length) (hleft : t.left = s.left)
    (hright : t.right = s.right + 1) (h : s.accepts content = true)
    (hdigit : fitPattern 'n'.toUInt8 (content s.length) = true) : t.accepts content = true := by
  have hlen : t.length = s.length + 1 := by
    rw [length, length, hleft, hright]
    rfl
  rw [accepts_iff, fits_iff_of_long hlong] at h
  obtain ⟨⟨hdigits, hsep, hdigits'⟩, horder, hblank⟩ := h
  rw [accepts_iff, fits_iff_of_long (by omega), hleft, hright]
  refine ⟨⟨hdigits, hsep, fun k hk => ?_⟩, ?_, hblank⟩
  · rcases Nat.lt_succ_iff_lt_or_eq.mp hk with hlt | rfl
    · exact hdigits' k hlt
    · exact hdigit
  · -- one digit more makes the second number larger
    simp only [numbers] at horder ⊢
    rw [hleft, hlen, segment_succ content (by rw [length]; omega), List.foldl_append]
    apply horder.trans_le
    simp only [List.foldl_cons, List.foldl_nil]
    omega

/-- The shapes stand in the list by their length, the longest first. -/
theorem pageShapes_sorted : pageShapes.Pairwise fun s t => t.length < s.length := by decide

/-- What `isPageNumber` returns: 0 if no shape accepts the text, else what the longest one that
does returns. -/
theorem isPageNumber_cases (content : Nat → UInt8) (limit : Int) :
    (isPageNumber content limit = 0 ∧
      ∀ s ∈ pageShapes, (s.length : Int) ≤ limit → s.accepts content = false) ∨
    ∃ s ∈ pageShapes, (s.length : Int) ≤ limit ∧ s.accepts content = true ∧
      (∀ t ∈ pageShapes, s.length < t.length → (t.length : Int) ≤ limit →
        t.accepts content = false) ∧ isPageNumber content limit = s.ret := by
  have hcut : ∀ s ∈ pageShapes,
      ((s.length : Int) ≤ (if 9 < limit then 9 else limit) ↔ (s.length : Int) ≤ limit) := by
    intro s hs
    have hlen := (pageShapes_spec s hs).2.2.2.1
    split <;> omega
  rw [isPageNumber]
  split
  · refine .inl ⟨rfl, fun s hs hle => ?_⟩
    have hlen := (pageShapes_spec s hs).2.2.1
    omega
  · dsimp only
    cases hfind : pageShapes.find? fun s =>
        (s.length : Int) ≤ (if 9 < limit then 9 else limit) && s.accepts content with
    | none =>
        refine .inl ⟨rfl, fun s hs hle => ?_⟩
        have hno := List.find?_eq_none.mp hfind s hs
        rw [Bool.and_eq_true, decide_eq_true_eq, hcut s hs, not_and, Bool.not_eq_true] at hno
        exact hno hle
    | some s =>
        obtain ⟨hs, before, after, hsplit, hbefore⟩ := List.find?_eq_some_iff_append.mp hfind
        have hmem : s ∈ pageShapes := List.mem_of_find?_eq_some hfind
        rw [Bool.and_eq_true, decide_eq_true_eq, hcut s hmem] at hs
        refine .inr ⟨s, hmem, hs.1, hs.2, fun t ht hlt hle => ?_, rfl⟩
        have hsorted := pageShapes_sorted
        rw [hsplit, List.pairwise_append, List.pairwise_cons] at hsorted
        have hin := ht
        rw [hsplit, List.mem_append, List.mem_cons] at hin
        rcases hin with hin | rfl | hin
        · have hno := hbefore t hin
          rw [Bool.not_eq_true', Bool.and_eq_false_iff] at hno
          exact hno.resolve_left (by rw [decide_eq_false_iff_not, hcut t ht, not_not]; exact hle)
        · exact absurd hlt (lt_irrefl _)
        · exact absurd (hsorted.2.1.1 t hin) (by omega)

/-- `isPageNumber` finds something exactly when a shape within the limit accepts the text. -/
theorem isPageNumber_ne_zero_iff : isPageNumber content limit ≠ 0 ↔
    ∃ s ∈ pageShapes, (s.length : Int) ≤ limit ∧ s.accepts content = true := by
  rcases isPageNumber_cases content limit with ⟨hzero, hnone⟩ | ⟨s, hs, hle, haccepts, -, hret⟩
  · refine iff_of_false (not_not.mpr hzero) ?_
    rintro ⟨s, hs, hle, haccepts⟩
    rw [hnone s hs hle] at haccepts
    contradiction
  · refine iff_of_true ?_ ⟨s, hs, hle, haccepts⟩
    rw [hret]
    exact (pageShapes_spec s hs).2.2.2.2.1.ne'

/-- A text is one page range of a given length at most. -/
theorem IsPageRange.of_accepts (hs : s ∈ pageShapes) (h : s.accepts content = true)
    (horder : (s.numbers readDigit content).1 < (s.numbers readDigit content).2) :
    IsPageRange content s.length := by
  rw [PageShape.accepts, Bool.and_eq_true, Bool.and_eq_true, bne_iff_ne] at h
  obtain ⟨hleft, hsep, hright⟩ := PageShape.fits_spec hs h.1.1
  exact ⟨s, hs, rfl, hleft, hsep, h.2, hright, horder⟩

/-- What is returned is the length of a page range unless the shape that accepts is misread. -/
theorem recognisesPages_iff (content : Nat → UInt8) (limit : Int) :
    RecognisesPages content limit ↔ ¬ Misread content limit := by
  rcases isPageNumber_cases content limit with
    ⟨hzero, hnone⟩ | ⟨s, hs, hle, haccepts, hfirst, hret⟩
  · refine iff_of_true (fun hpos => by omega) ?_
    rintro ⟨s, hs, hle, haccepts, -⟩
    rw [hnone s hs hle] at haccepts
    contradiction
  · have hpos := (pageShapes_spec s hs).2.2.2.2.1
    rw [RecognisesPages, hret]
    constructor
    · intro hrange ⟨s', hs', hle', haccepts', hfirst', hwrong⟩
      obtain ⟨-, t, ht, hlen, hleft, -, -, -, horder⟩ := hrange hpos
      have hlengths : s'.length = s.length := by
        rcases lt_trichotomy s'.length s.length with hlt | heq | hlt
        · exact absurd haccepts (by rw [hfirst' s hs hlt hle]; exact Bool.false_ne_true)
        · exact heq
        · exact absurd haccepts' (by rw [hfirst s' hs' hlt hle']; exact Bool.false_ne_true)
      obtain rfl := eq_of_length s' hs' s hs hlengths
      rcases eq_of_ret_eq_length s' hs t ht hlen with ⟨rfl, rfl⟩ | rfl
      · -- the separator of the one shape is a digit of the other
        rw [PageShape.accepts, Bool.and_eq_true, Bool.and_eq_true] at haccepts
        have hsep := (PageShape.fits_spec hs haccepts.1.1).2.1
        have hdigit := hleft 2 (by decide)
        rw [not_fitNum_of_delimiter _ hsep] at hdigit
        contradiction
      · rcases hwrong with ⟨h2, h3⟩ | hwrong
        · have hself : ∀ s ∈ pageShapes, s.ret = s.length → ¬ (s.left = 2 ∧ s.right = 3) := by
            decide
          exact hself s' hs hlen ⟨h2, h3⟩
        · exact hwrong horder
    · intro hgood _
      have hshape : ¬ (s.left = 2 ∧ s.right = 3) := fun h =>
        hgood ⟨s, hs, hle, haccepts, hfirst, .inl h⟩
      have horder : (s.numbers readDigit content).1 < (s.numbers readDigit content).2 := by
        by_contra hwrong
        exact hgood ⟨s, hs, hle, haccepts, hfirst, .inr hwrong⟩
      have hself : ∀ s ∈ pageShapes, ¬ (s.left = 2 ∧ s.right = 3) → s.ret = s.length := by decide
      rw [hself s hs hshape]
      exact ⟨hle, .of_accepts hs haccepts horder⟩

/-- A range of a two-digit and a three-digit number is reported with a length of 7, which its
limit does not allow; and a letter counts as 0 on the left where it counts as 1. -/
theorem not_recognisesPages :
    isPageNumber (memory (bytes "12/345")) 6 = 7 ∧
      ¬ RecognisesPages (memory (bytes "12/345")) 6 ∧
      isPageNumber (memory (bytes "l-1")) 3 = 3 ∧ ¬ RecognisesPages (memory (bytes "l-1")) 3 := by
  have hlong : isPageNumber (memory (bytes "12/345")) 6 = 7 := by decide +kernel
  have hletter : isPageNumber (memory (bytes "l-1")) 3 = 3 := by decide +kernel
  refine ⟨hlong, fun h => ?_, hletter, fun h => ?_⟩
  · rw [RecognisesPages, hlong] at h
    exact absurd (h (by decide)).1 (by decide)
  · rw [recognisesPages_iff] at h
    exact h ⟨⟨1, 1, 3⟩, by decide, by decide, by decide +kernel, by decide +kernel,
      .inr (by decide +kernel)⟩

end Shapes

end CiteParser
