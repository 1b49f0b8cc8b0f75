import CiteParser.Features.Snapshot

/-!
# Stops and abbreviations

A full stop or a comma right behind a short word belongs to an abbreviation. The scan keeps how
far back the last word began. The branch that forgets a word that has ended is never taken,
since every character passes the test in front of it, so the scan goes by the distance alone.
-/

namespace CiteParser

section Words

variable (content : Nat → UInt8) (cur : Nat)

/-- A word begins at `k`: a letter that is the first character scanned, or that stands behind
no letter and no digit. -/
def startsWord (k : Nat) : Bool :=
  isAsciiCode (content k) && (k == cur || !isAsciiOrDigit (content (k - 1)))

/-- The last word begun before `p` begins at `k`. -/
structure LastStart (p k : Nat) : Prop where
  le : cur ≤ k
  lt : k < p
  starts : startsWord content cur k = true
  last : ∀ i, k < i → i < p → startsWord content cur i = false

/-- The letters from `k` on are a word that ends right before `p`. -/
structure WordBefore (p k : Nat) : Prop where
  le : cur ≤ k
  lt : k < p
  starts : startsWord content cur k = true
  letters : ∀ i, k ≤ i → i < p → isAsciiCode (content i) = true

/-- What begins at `k` is short enough at `p` for an abbreviation. -/
def ShortAt (p k : Nat) : Prop :=
  p - 1 - k < 6 ∧ isUppercaseCode (content k) = true ∨ p - 1 - k < 3

/-- A mark at `p` belongs to an abbreviation: a short word ends right before it. -/
def AbbreviationAt (p : Nat) : Prop := ∃ k, WordBefore content cur p k ∧ ShortAt content p k

/-- The last word begun before `p` is short enough at `p`, but something else than a letter
stands between them. -/
def LapsedAt (p : Nat) : Prop :=
  ∃ k, LastStart content cur p k ∧ ShortAt content p k ∧
    ∃ i, k < i ∧ i < p ∧ isAsciiCode (content i) = false

variable {content cur}

/-- No word begins inside another one. -/
theorem WordBefore.lastStart {p k : Nat} (h : WordBefore content cur p k) :
    LastStart content cur p k := by
  refine ⟨h.le, h.lt, h.starts, fun i hki hip => ?_⟩
  have hbefore := h.letters (i - 1) (by omega) (by omega)
  have hle := h.le
  have hfirst : (i == cur) = false := beq_false_of_ne (by omega)
  rw [startsWord, isAsciiOrDigit, hbefore, hfirst]
  simp

/-- There is one last word. -/
theorem LastStart.unique {p k k' : Nat} (h : LastStart content cur p k)
    (h' : LastStart content cur p k') : k = k' := by
  have hstarts := h.starts
  have hstarts' := h'.starts
  rcases Nat.lt_trichotomy k k' with hlt | heq | hgt
  · rw [h.last k' hlt h'.lt] at hstarts'
    contradiction
  · exact heq
  · rw [h'.last k hgt h.lt] at hstarts
    contradiction

/-- The last word is the one that ends right before `p`, unless it has lapsed. -/
theorem lastStart_short_iff (p : Nat) :
    ((∃ k, LastStart content cur p k ∧ ShortAt content p k) ↔ AbbreviationAt content cur p) ↔
      ¬ LapsedAt content cur p := by
  constructor
  · rintro hiff ⟨k, hlast, hshort, i, hki, hip, hletter⟩
    obtain ⟨k', hword, -⟩ := hiff.mp ⟨k, hlast, hshort⟩
    obtain rfl := hlast.unique hword.lastStart
    rw [hword.letters i hki.le hip] at hletter
    contradiction
  · intro hkept
    constructor
    · rintro ⟨k, hlast, hshort⟩
      refine ⟨k, ⟨hlast.le, hlast.lt, hlast.starts, fun i hki hip => ?_⟩, hshort⟩
      by_contra hletter
      rw [Bool.not_eq_true] at hletter
      rcases hki.eq_or_lt with rfl | hlt
      · have hstarts := hlast.starts
        rw [startsWord, hletter] at hstarts
        contradiction
      · exact hkept ⟨k, hlast, hshort, i, hlt, hip, hletter⟩
    · rintro ⟨k, hword, hshort⟩
      exact ⟨k, hword.lastStart, hshort⟩

end Words

/-! ## What the scan remembers -/

/-- In front of `p` the scan knows where the last word began and whether in upper case. -/
inductive Remembers (content : Nat → UInt8) (cur p : Nat) (s : ScanState) : Prop where
  | word (k : Nat) (hlast : LastStart content cur p k) (hc : s.abbrc = true)
      (hl : s.abbrl = p - 1 - k) (hs : s.abbrs = isUppercaseCode (content k))
  | none (hnone : ∀ i, cur ≤ i → i < p → startsWord content cur i = false) (hc : s.abbrc = false)

section Scan

variable {content : Nat → UInt8} {cur p : Nat} {s : ScanState}

/-- Only the variables of the test matter. -/
theorem Remembers.congr {s' : ScanState} (h : Remembers content cur p s)
    (hc : s'.abbrc = s.abbrc) (hl : s'.abbrl = s.abbrl) (hs : s'.abbrs = s.abbrs) :
    Remembers content cur p s' := by
  cases h with
  | word k hlast hc' hl' hs' => exact .word k hlast (hc.trans hc') (hl.trans hl') (hs.trans hs')
  | none hnone hc' => exact .none hnone (hc.trans hc')

/-- What is remembered decides the test. -/
theorem Remembers.abbreviated_iff (h : Remembers content cur p s) :
    s.abbreviated = true ↔ ∃ k, LastStart content cur p k ∧ ShortAt content p k := by
  cases h with
  | word k hlast hc hl hs =>
      have htest : s.abbreviated = true ↔ ShortAt content p k := by
        simp [ScanState.abbreviated, ShortAt, hc, hl, hs]
      rw [htest]
      constructor
      · exact fun hshort => ⟨k, hlast, hshort⟩
      · rintro ⟨k', hlast', hshort⟩
        rwa [hlast.unique hlast']
  | none hnone hc =>
      refine iff_of_false (by simp [ScanState.abbreviated, hc]) ?_
      rintro ⟨k, hlast, -⟩
      have hstarts := hlast.starts
      rw [hnone k hlast.le hlast.lt] at hstarts
      contradiction

/-- A character at which no word begins leaves the last word where it was. -/
theorem LastStart.succ {k : Nat} (h : LastStart content cur p k)
    (hp : startsWord content cur p = false) : LastStart content cur (p + 1) k := by
  refine ⟨h.le, Nat.lt_succ_of_lt h.lt, h.starts, fun i hki hip => ?_⟩
  rcases (Nat.le_of_lt_succ hip).eq_or_lt with rfl | hlt
  · exact hp
  · exact h.last i hki hlt

/-- The test of a character brings what is remembered up to the next one. -/
theorem Remembers.scanAbbr (h : Remembers content cur p s) (hp : cur ≤ p) :
    Remembers content cur (p + 1)
      (scanAbbr (p == cur) (content (p - 1)) (content p) s) := by
  cases hstarts : startsWord content cur p with
  | true =>
      -- both branches that begin a word set the same variables
      have hstart : CiteParser.scanAbbr (p == cur) (content (p - 1)) (content p) s =
          { s with abbrl := 0, abbrc := true, abbrs := isUppercaseCode (content p) } := by
        rw [startsWord, Bool.and_eq_true, Bool.or_eq_true] at hstarts
        obtain ⟨hletter, hfirst | hbehind⟩ := hstarts
        · simp [CiteParser.scanAbbr, hletter, hfirst]
        · simp only [CiteParser.scanAbbr, hletter, hbehind, Bool.and_self, if_true, ite_self]
      rw [hstart]
      refine .word p ⟨hp, Nat.lt_succ_self p, hstarts, fun i hpi hip => ?_⟩ rfl ?_ rfl
      · omega
      · exact (Nat.sub_self p).symm
  | false =>
      rw [startsWord] at hstarts
      cases hfirst : p == cur with
      | true =>
          obtain rfl := eq_of_beq hfirst
          rw [hfirst, Bool.true_or, Bool.and_true] at hstarts
          rw [CiteParser.scanAbbr, if_pos rfl, hstarts, if_neg (by decide)]
          cases h with
          | word k hlast _ _ _ => exact absurd hlast.lt (by have := hlast.le; omega)
          | none _ hc =>
              refine .none (fun i hi hip => ?_) hc
              obtain rfl : i = p := by omega
              rw [startsWord, hstarts, Bool.false_and]
      | false =>
          have hp' : startsWord content cur p = false := hstarts
          rw [hfirst, Bool.false_or, Bool.and_comm] at hstarts
          rw [CiteParser.scanAbbr, if_neg (by decide), hstarts, if_neg (by decide)]
          cases h with
          | word k hlast hc hl hs =>
              rw [if_pos hc]
              refine .word k (hlast.succ hp') hc ?_ hs
              have hlt := hlast.lt
              change s.abbrl + 1 = p + 1 - 1 - k
              omega
          | none hnone hc =>
              rw [if_neg (by rw [hc]; decide)]
              refine .none (fun i hi hip => ?_) rfl
              rcases (Nat.le_of_lt_succ hip).eq_or_lt with rfl | hlt
              · exact hp'
              · exact hnone i hi hlt

/-- Before the test the scan of a character sets other variables. -/
theorem scanStep_abbr (dict : Dict) (content : Nat → UInt8) (cur : Nat) (s : ScanState) (i : Nat) :
    ∃ s' : ScanState, scanStep dict content cur s i =
        scanAbbr (i == cur) (content (i - 1)) (content i)
          (scanSwitch (content i) (content (i + 1)) s') ∧
      s'.abbrc = s.abbrc ∧ s'.abbrl = s.abbrl ∧ s'.abbrs = s.abbrs ∧
        s'.stopflag = s.stopflag := by
  refine ⟨_, rfl, ?_⟩
  rw [scanDigits]
  split_ifs <;> exact ⟨rfl, rfl, rfl, rfl⟩

/-- A pass of the scan. -/
theorem Remembers.scanStep (dict : Dict) (h : Remembers content cur p s) (hp : cur ≤ p) :
    Remembers content cur (p + 1) (scanStep dict content cur s p) := by
  obtain ⟨s', hstep, hc, hl, hs, -⟩ := scanStep_abbr dict content cur s p
  have hsame := scanSwitch_sameWords (content p) (content (p + 1)) s'
  rw [hstep]
  exact (h.congr (hsame.abbrc.trans hc) (hsame.abbrl.trans hl) (hsame.abbrs.trans hs)).scanAbbr hp

/-- The scan over some characters. -/
theorem remembers_foldl (dict : Dict) (content : Nat → UInt8) (cur n : Nat) :
    Remembers content cur (cur + n)
      ((List.range' cur n).foldl (CiteParser.scanStep dict content cur) .init) := by
  induction n with
  | zero => exact .none (fun i hi hip => by omega) rfl
  | succ n ih =>
      rw [List.range'_1_concat, List.foldl_append]
      exact ih.scanStep dict (Nat.le_add_right cur n)

end Scan

/-! ## Full stops and commas -/

/-- The mark at `p` does not raise the stop flag; `s` is the state of the scan in front of it. -/
def LeavesStop (dict : Dict) (content : Nat → UInt8) (cur : Nat) (s : ScanState) (p : Nat) : Prop :=
  (scanStep dict content cur { s with stopflag := 0 } p).stopflag = 0

theorem scanAbbr_stopflag (first : Bool) (before c : UInt8) (s : ScanState) :
    (scanAbbr first before c s).stopflag = s.stopflag := by
  unfold scanAbbr
  split_ifs <;> rfl

/-- The `switch` at a full stop or a comma that the test does not let off raises the flag. -/
theorem scanSwitch_mark {c : UInt8} (hmark : c = ','.toUInt8 ∨ c = '.'.toUInt8) (ahead : UInt8)
    (s : ScanState) :
    scanSwitch c ahead s = if s.abbreviated = true then s
      else { s with stopflag := if c = ','.toUInt8 ∧ s.stopflag ≠ 2 then 1 else 2 } := by
  rcases hmark with rfl | rfl
  · by_cases hfull : s.stopflag = 2 <;> simp +decide [scanSwitch, hfull]
  · simp +decide [scanSwitch]

/-- A full stop or a comma does not raise the flag exactly when the test says so. -/
theorem leavesStop_iff_abbreviated (dict : Dict) {content : Nat → UInt8} {cur p : Nat}
    (hmark : content p = ','.toUInt8 ∨ content p = '.'.toUInt8) (s : ScanState) :
    LeavesStop dict content cur s p ↔ s.abbreviated = true := by
  obtain ⟨s', hstep, hc, hl, hs, hstop⟩ :=
    scanStep_abbr dict content cur { s with stopflag := 0 } p
  have habbr : s'.abbreviated = s.abbreviated := by
    rw [ScanState.abbreviated, hc, hl, hs]
    rfl
  rw [LeavesStop, hstep, scanAbbr_stopflag, scanSwitch_mark hmark, ← habbr]
  split_ifs with htest
  · exact iff_of_true hstop htest
  all_goals simpa using htest

/-- A full stop or a comma is taken for part of an abbreviation exactly where one ends, as long
as the last word begun has not lapsed. -/
theorem leavesStop_iff (dict : Dict) (content : Nat → UInt8) (refAreaEnd cur offset : Nat)
    {before behind : List Nat} {p : Nat}
    (hscan : scanRange cur offset refAreaEnd = before ++ p :: behind)
    (hmark : content p = ','.toUInt8 ∨ content p = '.'.toUInt8) :
    (LeavesStop dict content cur (before.foldl (scanStep dict content cur) .init) p ↔
        AbbreviationAt content cur p) ↔
      ¬ LapsedAt content cur p := by
  obtain ⟨n, -, rfl, hrest⟩ := List.range'_eq_append_iff.mp hscan
  obtain rfl : p = cur + n := by
    have hhead := congrArg List.head? hrest
    rw [List.head?_cons, List.head?_range'] at hhead
    split_ifs at hhead
    rw [Nat.mul_one] at hhead
    exact Option.some.inj hhead
  rw [leavesStop_iff_abbreviated dict hmark, (remembers_foldl dict content cur n).abbreviated_iff,
    lastStart_short_iff]

/-- The full stop behind the initial of "A. b". -/
theorem leavesStop_iff_initial :
    LeavesStop (fun _ _ => none) (memory (bytes "A. b")) 0
        ([0].foldl (scanStep (fun _ _ => none) (memory (bytes "A. b")) 0) .init) 1 ↔
      AbbreviationAt (memory (bytes "A. b")) 0 1 := by
  have hscan : scanRange 0 ((plainReference (bytes "A. b")).token 0).ret 4 =
      [0] ++ 1 :: [2, 3] := by decide +kernel
  refine (leavesStop_iff (fun _ _ => none) _ 4 0 _ hscan (.inr (by decide))).mpr ?_
  rintro ⟨k, -, -, i, hki, hip, -⟩
  omega

/-- In "A.. b" no word ends right before the second full stop, which is taken for part of an
abbreviation all the same. -/
theorem leavesStop_not_abbreviation : ¬ ∀ (ref : Reference) (cur : Nat) (before behind : List Nat)
    (p : Nat), scanRange cur (ref.token cur).ret ref.refAreaEnd = before ++ p :: behind →
      ref.content p = ','.toUInt8 ∨ ref.content p = '.'.toUInt8 →
        (LeavesStop ref.dict ref.content cur
            (before.foldl (scanStep ref.dict ref.content cur) .init) p ↔
          AbbreviationAt ref.content cur p) := by
  intro h
  have hmark := h (plainReference (bytes "A.. b")) 0 [0, 1] [3, 4] 2 (by decide +kernel)
    (.inr (by decide))
  obtain ⟨k, hword, -⟩ := hmark.mp (by unfold LeavesStop; decide +kernel)
  have hletter := hword.letters 1 (Nat.le_of_lt_succ hword.lt) (Nat.lt_succ_self 1)
  revert hletter
  decide

end CiteParser
