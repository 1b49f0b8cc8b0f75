import CiteParser.Area.EndRecords
import CiteParser.Core.Thinning
import Mathlib.Data.List.Sort

/-!
# Close and distant offsets

The tests of `common.c` move two offsets into the text, put them in order, ask whether they are
some characters apart, and look for something between them. That is symmetric, and what stands
between two offsets stands between two others around them. Only `haveDiffernecesE` counts: the
pairs it takes are those that thinning keeps, and no other choice of pairs is longer.
-/

namespace CiteParser

def haveDiffernecesD (T : Pcontent) (dest src : Int) : Bool :=
  let src := insideText T src
  let dest := insideText T dest
  if absDiff dest src ≤ 4 then false
  else
    let (src, dest) := if dest < src then (dest, src) else (src, dest)
    (List.range (dest - 1 - src).toNat).any fun k : Nat =>
      fitPattern 'a'.toUInt8 (T.char (src + k)) && fitPattern 'a'.toUInt8 (T.char (src + k + 1))

/-- The tests of `common.c`. -/
inductive ClosenessTest where
  | plain
  | d
  | e
  | h

def ClosenessTest.differ : ClosenessTest → Pcontent → Int → Int → Bool
  | plain => haveDifferneces
  | d => haveDiffernecesD
  | e => haveDiffernecesE
  | h => haveDiffernecesH

/-- The order of the offsets does not matter, and no two offsets are close that lie around two
distant ones. -/
structure TellsDistance (differ : Int → Int → Bool) : Prop where
  symm : ∀ x y, differ x y = differ y x
  mono : ∀ a b c d, a ≤ b → b ≤ c → c ≤ d → differ b c = true → differ a d = true

section Distance

/-- What is looked for between two offsets is also found between two others around them. -/
def Widens (found : Int → Int → Prop) : Prop :=
  ∀ lo lo' hi hi', lo' ≤ lo → hi ≤ hi' → found lo hi → found lo' hi'

/-- Two offsets are distant that are, inside the text, some characters apart with something
between them. -/
def TellsApart (T : Pcontent) (gap : Int) (found : Int → Int → Prop) (differ : Int → Int → Bool) :
    Prop :=
  ∀ x y, differ x y = true ↔
    gap < max (insideText T x) (insideText T y) - min (insideText T x) (insideText T y) ∧
      found (min (insideText T x) (insideText T y)) (max (insideText T x) (insideText T y))

variable {T : Pcontent} {gap : Int} {found : Int → Int → Prop} {differ : Int → Int → Bool}

theorem insideText_mono (T : Pcontent) {x y : Int} (h : x ≤ y) :
    insideText T x ≤ insideText T y := by
  rw [insideText, insideText]
  split_ifs <;> omega

theorem TellsApart.tellsDistance (h : TellsApart T gap found differ) (hfound : Widens found) :
    TellsDistance differ := by
  refine ⟨fun x y => ?_, fun a b c d hab hbc hcd hdiffer => ?_⟩
  · rw [Bool.eq_iff_iff, h, h, max_comm, min_comm]
  · have hab := insideText_mono T hab
    have hbc := insideText_mono T hbc
    have hcd := insideText_mono T hcd
    obtain ⟨hgap, hbetween⟩ := (h b c).mp hdiffer
    rw [max_eq_right hbc, min_eq_left hbc] at hgap hbetween
    rw [h a d, max_eq_right (by omega), min_eq_left (by omega)]
    exact ⟨by omega, hfound _ _ _ _ hab hcd hbetween⟩

/-- Two offsets in the order in which the tests put them. -/
theorem ordered_eq (x y : Int) :
    (if x < y then (x, y) else (y, x)) = (min x y, max x y) := by
  split
  · rw [min_eq_left (by omega), max_eq_right (by omega)]
  · rw [min_eq_right (by omega), max_eq_left (by omega)]

theorem absDiff_eq_max_sub_min (x y : Int) : absDiff x y = max x y - min x y := by
  rw [absDiff]
  split
  · rw [max_eq_left (by omega), min_eq_right (by omega)]
  · rw [max_eq_right (by omega), min_eq_left (by omega)]

/-- A loop over the offsets between two others. -/
theorem any_range_iff (p : Int → Bool) (lo hi : Int) :
    ((List.range (hi - lo).toNat).any fun k : Nat => p (lo + k)) = true ↔
      ∃ i, lo ≤ i ∧ i < hi ∧ p i = true := by
  rw [List.any_eq_true]
  constructor
  · rintro ⟨k, hk, hp⟩
    rw [List.mem_range] at hk
    exact ⟨lo + k, by omega, by omega, hp⟩
  · rintro ⟨i, hlo, hhi, hp⟩
    refine ⟨(i - lo).toNat, List.mem_range.mpr (by omega), ?_⟩
    rwa [show lo + ((i - lo).toNat : Int) = i by omega]

/-- Some offset between two others that passes a test. -/
theorem widens_exists (p : Int → Prop) : Widens fun lo hi => ∃ i, lo ≤ i ∧ i < hi ∧ p i := by
  rintro lo lo' hi hi' hlo hhi ⟨i, hli, hih, hp⟩
  exact ⟨i, by omega, by omega, hp⟩

end Distance

section Letters

variable (T : Pcontent)

/-- Two letters stand next to each other between two offsets. -/
def LettersBetween (lo hi : Int) : Prop :=
  ∃ i, lo ≤ i ∧ i < hi - 1 ∧ (fitPattern 'a'.toUInt8 (T.char i) &&
    fitPattern 'a'.toUInt8 (T.char (i + 1))) = true

theorem widens_lettersBetween : Widens (LettersBetween T) :=
  fun lo lo' hi hi' hlo hhi =>
    widens_exists (fun i => (fitPattern 'a'.toUInt8 (T.char i) &&
      fitPattern 'a'.toUInt8 (T.char (i + 1))) = true) lo lo' (hi - 1) (hi' - 1) hlo (by omega)

/-- The tests that look for two letters differ in what they take for close. -/
theorem tellsApart_letters (gap : Int) :
    TellsApart T gap (LettersBetween T) fun dest src =>
      if absDiff (insideText T dest) (insideText T src) ≤ gap then false
      else
        let (src, dest) := if insideText T dest < insideText T src then
          (insideText T dest, insideText T src) else (insideText T src, insideText T dest)
        (List.range (dest - 1 - src).toNat).any fun k : Nat =>
          fitPattern 'a'.toUInt8 (T.char (src + k)) &&
            fitPattern 'a'.toUInt8 (T.char (src + k + 1)) := by
  intro x y
  dsimp only
  rw [absDiff_eq_max_sub_min, ordered_eq]
  generalize min (insideText T x) (insideText T y) = lo
  generalize max (insideText T x) (insideText T y) = hi
  split
  · exact iff_of_false Bool.false_ne_true fun h => by omega
  · rw [any_range_iff (fun i => fitPattern 'a'.toUInt8 (T.char i) &&
      fitPattern 'a'.toUInt8 (T.char (i + 1)))]
    exact ⟨fun h => ⟨by omega, h⟩, fun h => h.2⟩

/-- Something other than white space stands between two offsets. -/
def TextBetween (lo hi : Int) : Prop :=
  ∃ i, lo ≤ i ∧ i < hi ∧ (T.char i != ' '.toUInt8 && T.char i != '\r'.toUInt8 &&
    T.char i != '\n'.toUInt8 && T.char i != '\t'.toUInt8) = true

/-- In a text that is not empty `haveDiffernecesH` moves both offsets alike. -/
theorem tellsApart_text (hlen : 1 ≤ T.pclen) :
    TellsApart T 2 (TextBetween T) (haveDiffernecesH T) := by
  intro x y
  have hinside : (if (if T.pclen ≤ y then T.pclen - 1 else y) < 0 then 0
      else if T.pclen ≤ y then T.pclen - 1 else y) = insideText T y := by
    rw [insideText]
    split_ifs <;> omega
  unfold haveDiffernecesH
  dsimp only
  rw [hinside, ordered_eq]
  generalize min (insideText T x) (insideText T y) = lo
  generalize max (insideText T x) (insideText T y) = hi
  dsimp only
  split
  · exact iff_of_false Bool.false_ne_true fun h => by omega
  · rw [any_range_iff (fun i => T.char i != ' '.toUInt8 && T.char i != '\r'.toUInt8 &&
      T.char i != '\n'.toUInt8 && T.char i != '\t'.toUInt8)]
    exact ⟨fun h => ⟨by omega, h⟩, fun h => h.2⟩

end Letters

section Pairs

variable (T : Pcontent)

/-- Two letters or digits next to each other. -/
def isPair (i : Int) : Bool :=
  fitPattern 'd'.toUInt8 (T.char i) && fitPattern 'd'.toUInt8 (T.char (i + 1))

/-- The pairs that end in front of an offset, from another one on. -/
def pairsBetween (lo hi : Int) : List Int :=
  ((List.range (hi - 1 - lo).toNat).map fun k : Nat => lo + k).filter (isPair T)

/-- How many pairs are taken by a loop that goes on three characters behind each. -/
def pairCount (lo hi : Int) : Nat :=
  ((pairsBetween T lo hi).destutter fun i j => i + 2 < j).length

variable {T} {lo hi i : Int}

theorem mem_pairsBetween :
    i ∈ pairsBetween T lo hi ↔ lo ≤ i ∧ i < hi - 1 ∧ isPair T i = true := by
  rw [pairsBetween, List.mem_filter, List.mem_map]
  constructor
  · rintro ⟨⟨k, hk, rfl⟩, hpair⟩
    rw [List.mem_range] at hk
    exact ⟨by omega, by omega, hpair⟩
  · rintro ⟨hlo, hhi, hpair⟩
    exact ⟨⟨(i - lo).toNat, List.mem_range.mpr (by omega), by omega⟩, hpair⟩

theorem pairsBetween_ascending (T : Pcontent) (lo hi : Int) :
    (pairsBetween T lo hi).Pairwise (· < ·) := by
  apply List.Pairwise.filter
  rw [List.pairwise_map]
  exact List.pairwise_lt_range.imp fun h => by omega

/-- The first pair, and the others. -/
theorem pairsBetween_cons (hlt : lo < hi - 1) (hpair : isPair T lo = true) :
    pairsBetween T lo hi = lo :: pairsBetween T (lo + 1) hi := by
  refine (pairsBetween_ascending T lo hi).eq_of_mem_iff ?_ fun i => ?_
  · rw [List.pairwise_cons]
    refine ⟨fun i hi => ?_, pairsBetween_ascending T _ _⟩
    have hlo := (mem_pairsBetween.mp hi).1
    omega
  · rw [List.mem_cons, mem_pairsBetween, mem_pairsBetween]
    constructor
    · rintro ⟨hlo, hhi, hp⟩
      by_cases heq : i = lo
      · exact .inl heq
      · exact .inr ⟨by omega, hhi, hp⟩
    · rintro (rfl | ⟨hlo, hhi, hp⟩)
      · exact ⟨le_rfl, hlt, hpair⟩
      · exact ⟨by omega, hhi, hp⟩

/-- Where no pair is, the next offset has the same pairs before it. -/
theorem pairsBetween_succ (hpair : isPair T lo = false) :
    pairsBetween T lo hi = pairsBetween T (lo + 1) hi := by
  refine (pairsBetween_ascending T lo hi).eq_of_mem_iff (pairsBetween_ascending T _ _) fun i => ?_
  rw [mem_pairsBetween, mem_pairsBetween]
  constructor
  · rintro ⟨hlo, hhi, hp⟩
    have hne : i ≠ lo := by
      rintro rfl
      rw [hpair] at hp
      contradiction
    exact ⟨by omega, hhi, hp⟩
  · rintro ⟨hlo, hhi, hp⟩
    exact ⟨by omega, hhi, hp⟩

/-- The pairs that do not overlap with one at an offset are those three characters on. -/
theorem filter_pairsBetween (T : Pcontent) (lo hi : Int) :
    (pairsBetween T (lo + 1) hi).filter (fun j => lo + 2 < j) = pairsBetween T (lo + 3) hi := by
  refine ((pairsBetween_ascending T _ _).filter _).eq_of_mem_iff
    (pairsBetween_ascending T _ _) fun i => ?_
  rw [List.mem_filter, mem_pairsBetween, mem_pairsBetween, decide_eq_true_eq]
  constructor
  · rintro ⟨⟨hlo, hhi, hp⟩, hlt⟩
    exact ⟨by omega, hhi, hp⟩
  · rintro ⟨hlo, hhi, hp⟩
    exact ⟨⟨by omega, hhi, hp⟩, by omega⟩

/-- A pair is taken, and then those three characters on. -/
theorem pairCount_cons (hlt : lo < hi - 1) (hpair : isPair T lo = true) :
    pairCount T lo hi = pairCount T (lo + 3) hi + 1 := by
  have hsorted := (pairsBetween_ascending T (lo + 1) hi).imp fun h => le_of_lt h
  rw [pairCount, pairsBetween_cons hlt hpair, List.destutter_cons',
    destutter'_eq_filter (fun x y hxy hx => by omega) hsorted, filter_pairsBetween,
    List.length_cons, pairCount]

/-- The loop of `haveDiffernecesE` asks whether four pairs are taken. -/
theorem fourPairs_iff {n th : Nat} (hn : (hi - lo).toNat ≤ n) (hth : th ≤ 3) :
    fourPairs T hi n lo th = true ↔ 4 ≤ th + pairCount T lo hi := by
  induction n generalizing lo th with
  | zero =>
      have hnone : pairCount T lo hi = 0 := by
        rw [pairCount, pairsBetween, Int.toNat_of_nonpos (by omega)]
        rfl
      rw [fourPairs, hnone]
      exact iff_of_false Bool.false_ne_true (by omega)
  | succ n ih =>
      rw [fourPairs, ← isPair]
      by_cases hlt : lo < hi - 1
      · rw [if_pos hlt]
        by_cases hpair : isPair T lo = true
        · rw [pairCount_cons hlt hpair, if_pos hpair]
          split
          · exact iff_of_true rfl (by omega)
          · rw [ih (by omega) (by omega)]
            omega
        · rw [pairCount, pairsBetween_succ (eq_false_of_ne_true hpair), if_neg hpair,
            ih (by omega) hth, pairCount]
      · have hnone : pairCount T lo hi = 0 := by
          rw [pairCount, pairsBetween, Int.toNat_of_nonpos (by omega)]
          rfl
        rw [if_neg hlt, hnone]
        exact iff_of_false Bool.false_ne_true (by omega)

/-- Between offsets further apart no fewer pairs are taken. -/
theorem pairCount_mono (T : Pcontent) {lo' hi' : Int} (hlo : lo' ≤ lo) (hhi : hi ≤ hi') :
    pairCount T lo hi ≤ pairCount T lo' hi' := by
  refine length_destutter_mono (fun x y z hxy hyz => by omega)
    ((pairsBetween_ascending T _ _).imp fun h => le_of_lt h) ?_
  refine List.sublist_of_subperm_of_pairwise (List.subperm_of_subset ?_ fun i hi => ?_)
    (pairsBetween_ascending T _ _) (pairsBetween_ascending T _ _)
  · exact (pairsBetween_ascending T _ _).imp fun h => h.ne
  · obtain ⟨hlo', hhi', hp⟩ := mem_pairsBetween.mp hi
    exact mem_pairsBetween.mpr ⟨by omega, by omega, hp⟩

theorem tellsApart_pairs (T : Pcontent) :
    TellsApart T 4 (fun lo hi => 4 ≤ pairCount T lo hi) (haveDiffernecesE T) := by
  intro x y
  unfold haveDiffernecesE
  dsimp only
  rw [absDiff_eq_max_sub_min, ordered_eq]
  generalize min (insideText T x) (insideText T y) = lo
  generalize max (insideText T x) (insideText T y) = hi
  dsimp only
  split
  · exact iff_of_false Bool.false_ne_true fun h => by omega
  · rw [fourPairs_iff le_rfl (Nat.zero_le 3), Nat.zero_add]
    exact ⟨fun h => ⟨by omega, h⟩, fun h => h.2⟩

end Pairs

/-- Each of the tests tells a distance, in every text that is not empty. -/
theorem differ_tellsDistance {T : Pcontent} (hlen : 1 ≤ T.pclen) (test : ClosenessTest) :
    TellsDistance (test.differ T) := by
  cases test with
  | plain => exact (tellsApart_letters T 2).tellsDistance (widens_lettersBetween T)
  | d => exact (tellsApart_letters T 4).tellsDistance (widens_lettersBetween T)
  | e =>
      exact (tellsApart_pairs T).tellsDistance fun lo lo' hi hi' hlo hhi h =>
        h.trans (pairCount_mono T hlo hhi)
  | h => exact (tellsApart_text T hlen).tellsDistance (widens_exists _)

/-- The text of an entry is not empty. -/
theorem differ_tellsDistance_entry :
    TellsDistance (haveDiffernecesE (.ofText (bytes "pages 12 to 34, Springer 1999"))) :=
  @differ_tellsDistance (.ofText (bytes "pages 12 to 34, Springer 1999")) (by decide) .e

end CiteParser
