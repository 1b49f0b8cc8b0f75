import CiteParser.Area.Pages
import Mathlib.Order.Bounds.Basic

/-!
# The last match

The finders of years and of pages that `basicFilter` iterates. `getLastYearOffset` and its two
siblings call one of them from where it has ended before, each time with the same length, and
return where it has ended last.
-/

namespace CiteParser

open Loop

/-- The four characters of a year. -/
def isYear (T : Pcontent) (i : Int) : Bool :=
  ((T.char i == '1'.toUInt8 && T.char (i + 1) == '9'.toUInt8) ||
    (T.char i == '2'.toUInt8 && T.char (i + 1) == '0'.toUInt8) ||
    (T.char i == '~'.toUInt8 && T.char (i + 1) == '9'.toUInt8)) &&
  (fitPattern 'n'.toUInt8 (T.char (i + 2)) && fitPattern 'n'.toUInt8 (T.char (i + 3)))

def hasYearafterTheOffset (T : Pcontent) (offset limit : Int) : Int :=
  let (offset, offend) := defineStartAndEnd T offset limit
  scanWindow (fun i => if isYear T i then .found (i + 4) else .pass)
    (offend - 3 - offset).toNat offset

/-- The loop over `j` of `hasPPafterTheOffset2`: the first digit from `i + j` on, `none` for the
`return 0` at the end of the window. It is left before `n` passes are made. -/
def seekDigit (T : Pcontent) (offend i : Int) : Nat → Int → Option Int
  | 0, _ => none
  | n + 1, j =>
      if fitPattern 'n'.toUInt8 (T.char (i + j)) then some j
      else if offend - 2 < i + j then none
      else seekDigit T offend i n (j + 1)

/-- The digits behind a `pp.` or a `page` at `i`, which takes `j` characters at least; what is
returned behind a page range differs by `extra`. -/
def pageDigits (T : Pcontent) (offend i j extra : Int) : Probe :=
  match seekDigit T offend i ((offend - i).toNat + 1) j with
  | none => .stop
  | some j =>
      let pageOffset := isPageNumber (fun k => T.char (i + j + k)) (offend - i - j)
      .found (if pageOffset ≠ 0 then i + j + pageOffset + extra else i + j + 1)

/-- The body of the loop of `hasPPafterTheOffset2`. -/
def page2Probe (T : Pcontent) (offend i : Int) : Probe :=
  if T.char i = 'p'.toUInt8 ∨ T.char i = 'P'.toUInt8 then
    if T.char (i + 1) = 'p'.toUInt8 ∨ T.char (i + 1) = 'P'.toUInt8 ∨
        T.char (i + 1) = '.'.toUInt8 then pageDigits T offend i 3 0
    else if editDistanceS (bytes "page") 4 (T.window i 4) 4 ≤ 1 then pageDigits T offend i 4 1
    else .pass
  else .pass

def hasPPafterTheOffset2 (T : Pcontent) (offset limit : Int) : Int :=
  let (offset, offend) := defineStartAndEnd T offset limit
  scanWindow (page2Probe T offend) (offend - offset).toNat offset

/-- A pass of the loop of `getLastYearOffset`: the start and `offset`. -/
def lastPass (find : Int → Int → Int) (limit : Int) (s : Int × Int) : Outcome (Int × Int) Int :=
  let startOffset := find s.1 limit
  if startOffset ≠ 0 then .next (startOffset, startOffset) else .exit s.2

/-- The loop; a match takes at least one character, which bounds its passes. -/
def getLast (T : Pcontent) (find : Int → Int → Int) (startOffset limit : Int) : Option Int :=
  run (lastPass find limit) ((T.pclen + 1 - startOffset).toNat + 1) (startOffset, 0)

def getLastYearOffset (T : Pcontent) : Int → Int → Option Int :=
  getLast T (hasYearafterTheOffset T)

def getLastPageOffset (T : Pcontent) : Int → Int → Option Int :=
  getLast T (hasPPafterTheOffset T)

def getLastPage2Offset (T : Pcontent) : Int → Int → Option Int :=
  getLast T (hasPPafterTheOffset2 T)

/-- What a finder returns lies behind the start of its window, which is not empty. -/
def Advances (T : Pcontent) (find : Int → Int → Int) : Prop :=
  ∀ o l, find o l ≠ 0 → (defineStartAndEnd T o l).1 < find o l ∧
    (defineStartAndEnd T o l).1 < (defineStartAndEnd T o l).2

/-- Where the years between two offsets end. -/
def yearEnds (T : Pcontent) (start finish : Int) : Set Int :=
  {e | ∃ i, start ≤ i ∧ isYear T i = true ∧ e = i + 4 ∧ e ≤ finish}

/-- Where the page ranges between two offsets end. -/
def pageEnds (T : Pcontent) (start finish : Int) : Set Int :=
  {e | ∃ i, ∃ s ∈ pageShapes, start ≤ i ∧ s.accepts (fun k => T.char (i + k)) = true ∧
    e = i + s.length ∧ e ≤ finish}

/-- The last of the ends, or 0 if there is none. -/
def LastEnd (ends : Set Int) (v : Int) : Prop :=
  IsGreatest ends v ∨ ends = ∅ ∧ v = 0

section Finders

variable {T : Pcontent} {offend i j : Int} {n : Nat}

/-- A digit that is found lies ahead. -/
theorem seekDigit_le {k : Int} (h : seekDigit T offend i n j = some k) : j ≤ k := by
  induction n generalizing j with
  | zero => contradiction
  | succ n ih =>
      rw [seekDigit] at h
      split_ifs at h
      · cases h
        exact le_rfl
      · exact (Int.le_add_one le_rfl).trans (ih h)

theorem pageDigits_found {extra ret : Int} (hj : 0 < j) (hextra : 0 ≤ extra)
    (h : pageDigits T offend i j extra = .found ret) : i < ret := by
  rw [pageDigits] at h
  split at h
  · contradiction
  · rename_i k hk
    have hle := seekDigit_le hk
    cases h
    split <;> omega

theorem page2Probe_found {ret : Int} (h : page2Probe T offend i = .found ret) : i < ret := by
  rw [page2Probe] at h
  split_ifs at h
  · exact pageDigits_found (by decide) le_rfl h
  · exact pageDigits_found (by decide) (by decide) h

theorem pageProbe_found {ret : Int} (h : pageProbe T offend i = .found ret) :
    isPageNumber (fun k => T.char (i + k)) (offend - i) ≠ 0 ∧
      ret = i + isPageNumber (fun k => T.char (i + k)) (offend - i) + 1 := by
  rw [pageProbe] at h
  split at h
  · dsimp only at h
    split at h
    · cases h
      exact ⟨‹_›, rfl⟩
    · contradiction
  · contradiction

/-- A finder whose probes return what lies ahead advances. -/
theorem advances_of_probe {find : Int → Int → Int} (probe : Int → Int → Probe) {cut : Int}
    (hcut : 0 ≤ cut)
    (hfind : ∀ o l, find o l = scanWindow (probe (defineStartAndEnd T o l).2)
      ((defineStartAndEnd T o l).2 - cut - (defineStartAndEnd T o l).1).toNat
      (defineStartAndEnd T o l).1)
    (hahead : ∀ e i r, probe e i = .found r → i < r) : Advances T find := by
  intro o l hne
  rw [hfind] at hne ⊢
  obtain ⟨i, hi, hlt, hfound⟩ := scanWindow_found hne
  have hir := hahead _ _ _ hfound
  constructor <;> omega

theorem hasYearafterTheOffset_advances (T : Pcontent) : Advances T (hasYearafterTheOffset T) := by
  apply advances_of_probe (fun _ i => if isYear T i then .found (i + 4) else .pass)
    (show (0 : Int) ≤ 3 by decide) (fun _ _ => rfl)
  intro e i r h
  split at h
  · cases h
    omega
  · contradiction

theorem hasPPafterTheOffset_advances (T : Pcontent) : Advances T (hasPPafterTheOffset T) := by
  apply advances_of_probe (pageProbe T) (le_refl 0)
  · intro o l
    rw [sub_zero]
    rfl
  · intro e i r h
    obtain ⟨-, rfl⟩ := pageProbe_found h
    omega

theorem hasPPafterTheOffset2_advances (T : Pcontent) : Advances T (hasPPafterTheOffset2 T) := by
  apply advances_of_probe (page2Probe T) (le_refl 0)
  · intro o l
    rw [sub_zero]
    rfl
  · exact fun _ _ _ => page2Probe_found

end Finders

section Iteration

variable {T : Pcontent} {find : Int → Int → Int} {startOffset limit : Int}

/-- A window that is not made backwards begins at its offset or behind it. -/
theorem le_start_of_window {o l : Int} (h : 0 ≤ l ∨ o < 0 ∨ T.pclen < 0)
    (hwindow : (defineStartAndEnd T o l).1 < (defineStartAndEnd T o l).2) :
    o ≤ (defineStartAndEnd T o l).1 ∧ 0 ≤ l := by
  unfold defineStartAndEnd at *
  dsimp only at *
  split_ifs at hwindow ⊢ <;> omega

/-- The loop is left with 0 if nothing is found, and else with what one of its calls has
found. -/
theorem getLast_spec (hfind : Advances T find)
    (h : 0 ≤ limit ∨ startOffset < 0 ∨ T.pclen < 0) :
    ∃ v, getLast T find startOffset limit = some v ∧
      (v = 0 ∧ find startOffset limit = 0 ∨
        v ≠ 0 ∧ find startOffset limit ≠ 0 ∧ ∃ o, startOffset ≤ o ∧ find o limit = v) := by
  refine run_rule (lastPass find limit) _ (startOffset, 0)
    (fun s => s = (startOffset, 0) ∨
      s.2 ≠ 0 ∧ 0 ≤ limit ∧ find startOffset limit ≠ 0 ∧ startOffset ≤ s.1 ∧
        ∃ o, startOffset ≤ o ∧ find o limit = s.2)
    (fun s => (T.pclen + 1 - s.1).toNat) _ ?_ ?_ (.inl rfl) (Nat.lt_succ_self _)
  · intro s s' hs hpass
    rw [lastPass] at hpass
    split at hpass
    · rename_i hne
      cases hpass
      have hstart : startOffset ≤ s.1 ∧ (0 ≤ limit ∨ s.1 < 0 ∨ T.pclen < 0) := by
        rcases hs with rfl | ⟨-, hlimit, -, hle, -⟩
        · exact ⟨le_rfl, h⟩
        · exact ⟨hle, .inl hlimit⟩
      have hfirst : find startOffset limit ≠ 0 := by
        rcases hs with rfl | ⟨-, -, hfirst, -⟩
        · exact hne
        · exact hfirst
      obtain ⟨hahead, hwindow⟩ := hfind _ _ hne
      have hle := le_start_of_window hstart.2 hwindow
      have hend := (defineStartAndEnd_bounds T s.1 limit).2
      exact ⟨.inr ⟨hne, hle.2, hfirst, by omega, s.1, hstart.1, rfl⟩, by omega⟩
    · contradiction
  · intro s v hs hpass
    rw [lastPass] at hpass
    split at hpass
    · contradiction
    · rename_i hzero
      cases hpass
      rcases hs with rfl | ⟨hne, -, hfirst, -, hfound⟩
      · exact .inl ⟨rfl, not_not.mp hzero⟩
      · exact .inr ⟨hne, hfirst, hfound⟩

end Iteration

section Ends

variable {T : Pcontent} {startOffset a limit : Int} {s t : PageShape}

/-- A window that is made forwards. -/
theorem defineStartAndEnd_forward (h0 : 0 ≤ startOffset) (ha : 0 ≤ a) :
    defineStartAndEnd T startOffset a = (startOffset, min (startOffset + a) T.pclen) := by
  unfold defineStartAndEnd
  dsimp only
  ext
  · split_ifs <;> omega
  · split_ifs <;> omega

/-- Nothing is found from the start on exactly when no page range ends in the window. -/
theorem hasPPafterTheOffset_eq_zero_iff (h0 : 0 ≤ startOffset) (ha : 0 ≤ a) :
    hasPPafterTheOffset T startOffset a = 0 ↔
      pageEnds T startOffset (min (startOffset + a) T.pclen) = ∅ := by
  unfold hasPPafterTheOffset
  rw [defineStartAndEnd_forward h0 ha]
  dsimp only
  generalize min (startOffset + a) T.pclen = offend
  rw [← not_iff_not, ← ne_eq, ← ne_eq, ← Set.nonempty_iff_ne_empty]
  constructor
  · intro hne
    obtain ⟨i, hi, -, hfound⟩ := scanWindow_found hne
    obtain ⟨hpage, -⟩ := pageProbe_found hfound
    obtain ⟨s, hs, hle, haccepts⟩ := isPageNumber_ne_zero_iff.mp hpage
    exact ⟨i + s.length, i, s, hs, hi, haccepts, rfl, by omega⟩
  · rintro ⟨e, i, s, hs, hi, haccepts, rfl, hle⟩ hzero
    have hspec := pageShapes_spec s hs
    have hpage : isPageNumber (fun k => T.char (i + k)) (offend - i) ≠ 0 :=
      isPageNumber_ne_zero_iff.mpr ⟨s, hs, by omega, haccepts⟩
    have hdigit : fitPattern 'n'.toUInt8 (T.char i) = true := by
      have hfirst := (PageShape.fits_spec hs (PageShape.accepts_iff.mp haccepts).1).1 0 hspec.1
      simpa using hfirst
    have hprobe : pageProbe T offend i =
        .found (i + isPageNumber (fun k => T.char (i + k)) (offend - i) + 1) := by
      rw [pageProbe, if_pos hdigit]
      exact if_pos hpage
    obtain ⟨k, hk, -, hfound, -⟩ := scanWindow_first (n := (offend - startOffset).toNat)
      (fun k => by
        rw [pageProbe]
        dsimp only
        split_ifs <;> simp) hi (by omega) hprobe
    rw [hzero] at hfound
    obtain ⟨-, hret⟩ := pageProbe_found hfound
    omega

/-- The characters of a page range at `i`: digits, one that is none, and digits. -/
theorem accepts_chars {i : Int} (hs : s ∈ pageShapes)
    (h : s.accepts (fun k => T.char (i + k)) = true) :
    (∀ x, i ≤ x → x < i + s.left → fitPattern 'n'.toUInt8 (T.char x) = true) ∧
      fitPattern 'n'.toUInt8 (T.char (i + s.left)) = false ∧
      ∀ x, i + s.left < x → x < i + s.length → fitPattern 'n'.toUInt8 (T.char x) = true := by
  obtain ⟨hleft, hsep, hright⟩ := PageShape.fits_spec hs (PageShape.accepts_iff.mp h).1
  refine ⟨fun x hx hlt => ?_, not_fitNum_of_delimiter _ hsep, fun x hx hlt => ?_⟩
  · have hdigit := hleft (x - i).toNat (by omega)
    rwa [show i + ((x - i).toNat : Int) = x by omega] at hdigit
  · rw [PageShape.length] at hlt
    have hdigit := hright (x - i - s.left - 1).toNat (by omega)
    rwa [show i + ((s.left + 1 + (x - i - s.left - 1).toNat : Nat) : Int) = x by omega] at hdigit

/-- What a year does not hold, and what it holds. -/
theorem isYear_spec {i : Int} (h : isYear T i = true) :
    T.char i ≠ '-'.toUInt8 ∧ T.char (i + 1) ≠ '-'.toUInt8 ∧
      fitPattern 'n'.toUInt8 (T.char (i + 2)) = true := by
  rw [isYear] at h
  simp only [Bool.and_eq_true, Bool.or_eq_true, beq_iff_eq] at h
  obtain ⟨(⟨hfirst, hsecond⟩ | ⟨hfirst, hsecond⟩) | ⟨hfirst, hsecond⟩, hthird, -⟩ := h <;>
    rw [hfirst, hsecond] <;>
    exact ⟨by decide, by decide, hthird⟩

/-- The digits on the right. -/
theorem pageShapes_right : ∀ s ∈ pageShapes, 1 ≤ s.right ∧ s.right ≤ 4 := by decide

/-- A page range that ends one character behind another has the same separator and one digit
more. -/
theorem right_of_next_end {i i' : Int} (hs : s ∈ pageShapes) (hs' : t ∈ pageShapes)
    (haccepts : s.accepts (fun k => T.char (i + k)) = true)
    (haccepts' : t.accepts (fun k => T.char (i' + k)) = true)
    (hend : i + s.length + 1 = i' + t.length) :
    t.right = s.right + 1 ∧ fitPattern 'n'.toUInt8 (T.char (i + s.length)) = true := by
  obtain ⟨-, hsep, hright⟩ := accepts_chars hs haccepts
  obtain ⟨-, hsep', hright'⟩ := accepts_chars hs' haccepts'
  have hbound := pageShapes_right t hs'
  have hlen : t.length = t.left + 1 + t.right := rfl
  have hslen : s.length = s.left + 1 + s.right := rfl
  refine ⟨?_, hright' _ (by omega) (by omega)⟩
  -- otherwise the one separator is a digit of the other range
  rcases lt_trichotomy t.right (s.right + 1) with hlt | heq | hlt
  · rw [hright _ (by omega) (by omega)] at hsep'
    contradiction
  · exact heq
  · rw [hright' _ (by omega) (by omega)] at hsep
    contradiction

/-- Behind the page range that a finder has found no year and no page range end together: the
separator of the latter would be a digit, the range found would be longer, or the year would
hold a hyphen. -/
theorem not_end_of_both {i i' v : Int} (hs : s ∈ pageShapes) (hs' : t ∈ pageShapes)
    (haccepts : s.accepts (fun k => T.char (i + k)) = true)
    (hfirst : ∀ t ∈ pageShapes, s.length < t.length → (t.length : Int) ≤ limit →
      t.accepts (fun k => T.char (i + k)) = false)
    (hv : v = i + s.ret + 1) (hlimit : v ≤ i + limit) (hyear : isYear T (v - 4) = true)
    (haccepts' : t.accepts (fun k => T.char (i' + k)) = true) : v ≠ i' + t.length := by
  intro hv'
  obtain ⟨hfour, hthree, htwo⟩ := isYear_spec hyear
  have hbound := pageShapes_right t hs'
  by_cases hself : s.ret = s.length
  · obtain ⟨hsucc, hlast⟩ := right_of_next_end hs hs' haccepts haccepts' (by omega)
    have hcases : ∀ s ∈ pageShapes, s.ret = s.length → s.right ≤ 3 →
        (5 ≤ s.length ∧ ∃ t ∈ pageShapes, t.left = s.left ∧ t.right = s.right + 1) ∨
          s = ⟨1, 2, 4⟩ ∨ s = ⟨1, 1, 3⟩ := by decide
    rcases hcases s hs hself (by omega) with ⟨hlong, t', ht', hleft, hlonger⟩ | hshort
    · have hlen' : t'.length = s.length + 1 := by
        rw [PageShape.length, hleft, hlonger]
        rfl
      have hno := hfirst t' ht' (by omega) (by omega)
      rw [PageShape.accepts_succ hlong hleft hlonger haccepts hlast] at hno
      contradiction
    · -- one of the first two characters of the year is the hyphen
      have hhyphen := PageShape.hyphen_of_fits (by rcases hshort with rfl | rfl <;> decide)
        (PageShape.accepts_iff.mp haccepts).1
      rcases hshort with rfl | rfl
      · rw [show i + ((1 : Nat) : Int) = v - 4 by dsimp only at hv; omega] at hhyphen
        exact hfour hhyphen
      · rw [show i + ((1 : Nat) : Int) = v - 4 + 1 by dsimp only at hv; omega] at hhyphen
        exact hthree hhyphen
  · have hodd : ∀ s ∈ pageShapes, s.ret ≠ s.length → s = ⟨2, 3, 7⟩ := by decide
    obtain rfl := hodd s hs hself
    obtain ⟨-, -, hright⟩ := accepts_chars hs haccepts
    obtain ⟨-, hsep', -⟩ := accepts_chars hs' haccepts'
    dsimp only [PageShape.length] at *
    rcases (show i' + t.left = v - 2 ∨ i' + t.left < v - 2 by omega) with heq | hlt
    · rw [heq, show v - 2 = v - 4 + 2 by omega, htwo] at hsep'
      contradiction
    · rw [hright _ (by omega) (by omega)] at hsep'
      contradiction

/-- The last page range that is found ends where the last year and the last page range before
`a` end only if there is none of them, and no page range in the first window. -/
theorem getLastPageOffset_ends_iff (h0 : 0 ≤ startOffset) (ha : 0 ≤ a) (hlen : a ≤ T.pclen)
    {v : Int} (hv : getLastPageOffset T startOffset a = some v) :
    (LastEnd (yearEnds T startOffset a) v ∧ LastEnd (pageEnds T startOffset a) v ∧ v ≤ a) ↔
      yearEnds T startOffset a = ∅ ∧
        pageEnds T startOffset (min (startOffset + a) T.pclen) = ∅ := by
  obtain ⟨v', hv', hspec⟩ := @getLast_spec T (hasPPafterTheOffset T) startOffset a
    (hasPPafterTheOffset_advances T) (.inl ha)
  obtain rfl : v = v' := Option.some.inj (hv.symm.trans hv')
  have hwide := hasPPafterTheOffset_eq_zero_iff (T := T) h0 ha
  rcases hspec with ⟨rfl, hzero⟩ | ⟨hne, hfirst, o, ho, hfound⟩
  · rw [← hwide]
    constructor
    · rintro ⟨hyear, -⟩
      refine ⟨hyear.resolve_left ?_ |>.1, hzero⟩
      rintro ⟨⟨i, hi, -, hend, -⟩, -⟩
      omega
    · rintro ⟨hyear, -⟩
      refine ⟨.inr ⟨hyear, rfl⟩, .inr ⟨Set.eq_empty_of_subset_empty ?_, rfl⟩, ha⟩
      rw [← hwide.mp hzero]
      rintro e ⟨i, s, hs, hi, haccepts, hend, hle⟩
      exact ⟨i, s, hs, hi, haccepts, hend, by omega⟩
  · refine iff_of_false ?_ fun h => hfirst (hwide.mpr h.2)
    rintro ⟨hyear, hpage, hle⟩
    obtain ⟨j, -, hj, rfl, -⟩ := (hyear.resolve_right fun h => hne h.2).1
    obtain ⟨i', t, ht, -, haccepts', hend, -⟩ := (hpage.resolve_right fun h => hne h.2).1
    unfold hasPPafterTheOffset at hfound
    rw [defineStartAndEnd_forward (h0.trans ho) ha] at hfound
    dsimp only at hfound
    obtain ⟨i, hi, -, hprobe⟩ := scanWindow_found (hfound.trans_ne hne)
    obtain ⟨hpagenumber, hret⟩ := pageProbe_found hprobe
    rcases isPageNumber_cases (fun k => T.char (i + k)) (min (o + a) T.pclen - i) with
      ⟨hzero, -⟩ | ⟨s, hs, -, haccepts, hlongest, heq⟩
    · exact hpagenumber hzero
    · refine not_end_of_both hs ht haccepts hlongest (v := j + 4) ?_ (by omega) ?_ haccepts' hend
      · rw [← hfound, hret, heq]
      · rwa [add_sub_cancel_right]

end Ends

end CiteParser
