import CiteParser.Area.Overruns

/-!
# What the scanners return

The scanners that earlier modules give as functions of the text: a call that ends returns what
these do, whether or not it has left the text on its way.
-/

namespace CiteParser

open Loop Traced

section Pages

variable {T : Pcontent} {i : Int}

/-- A part of the text behind `i` as a window of its own. -/
theorem segment_eq_window (T : Pcontent) (i : Int) (a n : Nat) :
    segment (fun k => T.char (i + k)) a (a + n) = T.window (i + a) n := by
  rw [segment, Nat.add_sub_cancel_left, Pcontent.window, List.range_eq_range',
    List.range'_eq_map_range, List.map_map, ← List.range_eq_range']
  apply List.map_congr_left
  intro k _
  apply congrArg T.char
  push_cast
  omega

theorem PageShape.val_readFits (s : PageShape) (T : Pcontent) (i : Int) :
    (s.readFits T i).val = s.fits fun k => T.char (i + k) := by
  rw [readFits, fits]
  split
  · have hwindow := segment_eq_window T i 0 s.length
    rw [Nat.zero_add, Nat.cast_zero, add_zero] at hwindow
    rw [val_bind, val_readWindow, hwindow]
    rfl
  · have hwindow := segment_eq_window T i 2 s.right
    rw [Nat.cast_ofNat] at hwindow
    rw [val_bind, val_read, hwindow]
    simp only [Nat.cast_zero, add_zero, Nat.cast_one]
    cases fitPattern 'n'.toUInt8 (T.char i) with
    | false => rfl
    | true =>
        rw [if_pos rfl, val_bind, val_read]
        split
        · rename_i hhyphen
          simp [hhyphen]
        · rename_i hhyphen
          simp [hhyphen]

theorem PageShape.val_readAccepts (s : PageShape) (T : Pcontent) (i : Int) :
    (s.readAccepts T i).val = s.accepts fun k => T.char (i + k) := by
  have hleft := segment_eq_window T i 0 s.left
  rw [Nat.zero_add, Nat.cast_zero, add_zero] at hleft
  have hright := segment_eq_window T i (s.left + 1) s.right
  rw [readAccepts, accepts, val_bind, val_readFits]
  cases s.fits fun k => T.char (i + k) with
  | false => rfl
  | true =>
      rw [if_pos rfl, val_bind, val_bind, val_readWindow, val_readWindow, numbers, length, hleft,
        hright]
      push_cast
      rw [← add_assoc]
      split
      · rename_i hlt
        simp [hlt]
      · rename_i hlt
        simp [hlt]

theorem val_readShapes (T : Pcontent) (i limit : Int) (shapes : List PageShape) :
    (readShapes T i limit shapes).val =
      match shapes.find? fun s => (s.length : Int) ≤ limit &&
        s.accepts fun k => T.char (i + k) with
      | some s => s.ret
      | none => 0 := by
  induction shapes with
  | nil => rfl
  | cons s shapes ih =>
      rw [readShapes, List.find?_cons]
      by_cases hle : (s.length : Int) ≤ limit
      · rw [if_pos hle, val_bind, PageShape.val_readAccepts, decide_eq_true hle, Bool.true_and]
        cases s.accepts fun k => T.char (i + k) with
        | true => rfl
        | false => exact ih
      · rw [if_neg hle, decide_eq_false hle, Bool.false_and]
        exact ih

@[simp] theorem val_readPageNumber (T : Pcontent) (i limit : Int) :
    (readPageNumber T i limit).val = isPageNumber (fun k => T.char (i + k)) limit := by
  rw [readPageNumber, isPageNumber]
  split
  · rfl
  · exact val_readShapes T i _ pageShapes

@[simp] theorem val_readYear (T : Pcontent) (i : Int) : (readYear T i).val = isYear T i := by
  rw [readYear, isYear, val_bind, val_read]
  split
  · rw [val_bind, val_read]
    split
    · rename_i hyear
      rw [hyear, Bool.true_and, val_bind, val_read]
      cases fitPattern 'n'.toUInt8 (T.char (i + 2)) with
      | true => rfl
      | false => rfl
    · rename_i hyear
      rw [Bool.not_eq_true] at hyear
      rw [hyear, Bool.false_and]
      rfl
  · rename_i hfirst
    rw [not_or, not_or] at hfirst
    simp [hfirst]

end Pages

section Loops

variable {T : Pcontent} {offend i v : Int} {fuel : Nat}

/-- What a probe of an offset makes of the loop. -/
def Probe.outcome (i : Int) : Probe → Outcome Int Int
  | found ret => .exit ret
  | stop => .exit 0
  | pass => .next (i + 1)

/-- A loop whose passes do what the probes of a window say. -/
theorem run_probe {body : Int → Outcome Int Int} {probe : Int → Probe}
    (hbody : ∀ i, body i = if i < offend then (probe i).outcome i else .exit 0)
    (h : run body fuel i = some v) : v = scanWindow probe (offend - i).toNat i := by
  induction fuel generalizing i with
  | zero => contradiction
  | succ fuel ih =>
      rw [run, hbody] at h
      by_cases hlt : i < offend
      · rw [if_pos hlt] at h
        rw [show (offend - i).toNat = (offend - (i + 1)).toNat + 1 by omega, scanWindow]
        cases hp : probe i with
        | found ret =>
            rw [hp] at h
            exact (Option.some.inj h).symm
        | stop =>
            rw [hp] at h
            exact (Option.some.inj h).symm
        | pass =>
            rw [hp] at h
            exact ih h
      · rw [if_neg hlt] at h
        rw [show (offend - i).toNat = 0 by omega]
        exact (Option.some.inj h).symm

theorem val_pagePass (T : Pcontent) (offend i : Int) : (pagePass T offend i).val =
    if i < offend then (pageProbe T offend i).outcome i else .exit 0 := by
  rw [pagePass]
  split
  · rw [val_bind, val_read, pageProbe]
    split
    · rw [val_bind, val_readPageNumber]
      dsimp only
      split
      · rfl
      · rfl
    · rfl
  · rfl

theorem val_yearPass (T : Pcontent) (offend i : Int) : (yearPass T offend i).val =
    if i < offend - 3 then (if isYear T i then Probe.found (i + 4) else .pass).outcome i
    else .exit 0 := by
  rw [yearPass]
  split
  · rw [val_bind, val_readYear]
    split
    · rfl
    · rfl
  · rfl

theorem val_specialPass (T : Pcontent) (offend i : Int) : (specialPass T offend i).val =
    if i < offend then (specialProbe T offend i).outcome i else .exit 0 := by
  rw [specialPass]
  split
  · rw [val_bind, val_read, specialProbe]
    split
    · rw [val_bind, val_readFirstKey]
      cases firstKey specialKeyWords T i with
      | some ret => rfl
      | none =>
          rw [val_readVolume]
          cases volume T offend i with
          | found ret => rfl
          | stop => rfl
          | pass => rfl
    · rfl
  · rfl

/-- The search for a digit ends where the function that models it says. -/
theorem run_seek {j extra : Int} {n : Nat} (hn : offend - 1 < i + j + n) (hpos : 0 < n)
    (h : run (fun s => (page2Pass T offend s).val) fuel (.seek i j extra) = some v) :
    v = match seekDigit T offend i n j with
      | none => 0
      | some j =>
          let pageOffset := isPageNumber (fun k => T.char (i + j + k)) (offend - i - j)
          if pageOffset ≠ 0 then i + j + pageOffset + extra else i + j + 1 := by
  induction n generalizing j fuel with
  | zero => omega
  | succ n ih =>
      cases fuel with
      | zero => contradiction
      | succ fuel =>
          rw [run, page2Pass, val_bind, val_read] at h
          rw [seekDigit]
          by_cases hdigit : fitPattern 'n'.toUInt8 (T.char (i + j)) = true
          · rw [if_pos hdigit, val_bind, val_readPageNumber] at h
            rw [if_pos hdigit]
            exact (Option.some.inj h).symm
          · rw [if_neg hdigit] at h ⊢
            by_cases hend : offend - 2 < i + j
            · rw [if_pos hend] at h ⊢
              exact (Option.some.inj h).symm
            · rw [if_neg hend] at h ⊢
              exact ih (by omega) (by omega) h

/-- From the head of the loop on the second finder of pages returns what its probes find. -/
theorem run_page2 (h : run (fun s => (page2Pass T offend s).val) fuel (.head i) = some v) :
    v = scanWindow (page2Probe T offend) (offend - i).toNat i := by
  induction fuel generalizing i with
  | zero => contradiction
  | succ fuel ih =>
      rw [run, page2Pass] at h
      by_cases hlt : i < offend
      · have hseek : ∀ j extra, 3 ≤ j → run (fun s => (page2Pass T offend s).val) fuel
            (.seek i j extra) = some v → v = match pageDigits T offend i j extra with
              | .found ret => ret
              | .stop => 0
              | .pass => scanWindow (page2Probe T offend) (offend - (i + 1)).toNat (i + 1) := by
          intro j extra hj hrun
          have hval := run_seek (n := (offend - i).toNat + 1) (by omega) (by omega) hrun
          rw [pageDigits]
          cases hdigit : seekDigit T offend i ((offend - i).toNat + 1) j with
          | none =>
              rw [hdigit] at hval
              exact hval
          | some k =>
              rw [hdigit] at hval
              exact hval
        rw [if_pos hlt, val_bind, val_read] at h
        rw [show (offend - i).toNat = (offend - (i + 1)).toNat + 1 by omega, scanWindow,
          page2Probe]
        by_cases hp : T.char i = 'p'.toUInt8 ∨ T.char i = 'P'.toUInt8
        · rw [if_pos hp, val_bind, val_read] at h
          rw [if_pos hp]
          by_cases hsecond : T.char (i + 1) = 'p'.toUInt8 ∨ T.char (i + 1) = 'P'.toUInt8 ∨
              T.char (i + 1) = '.'.toUInt8
          · rw [if_pos hsecond] at h ⊢
            exact hseek 3 0 le_rfl h
          · rw [if_neg hsecond, val_bind, val_readWindow] at h
            rw [if_neg hsecond]
            by_cases hpage : editDistanceS (bytes "page") 4 (T.window i 4) 4 ≤ 1
            · rw [if_pos hpage] at h ⊢
              exact hseek 4 1 (by decide) h
            · rw [if_neg hpage] at h ⊢
              exact ih h
        · rw [if_neg hp] at h ⊢
          exact ih h
      · rw [if_neg hlt] at h
        rw [show (offend - i).toNat = 0 by omega]
        exact (Option.some.inj h).symm

/-- No run of letters is long enough for `hasWords`, whose counter stays 0. -/
theorem run_words {s : WordPoint} (hs : ∀ r, s = .letters r → r.diff = 0)
    (h : run (fun s => (wordPass T offend s).val) fuel s = some v) : v = 0 := by
  induction fuel generalizing s with
  | zero => contradiction
  | succ fuel ih =>
      rw [run] at h
      cases s with
      | head i key =>
          rw [wordPass] at h
          by_cases hlt : i < offend
          · rw [if_pos hlt] at h
            refine ih (fun r hr => ?_) h
            cases hr
            rfl
          · rw [if_neg hlt] at h
            exact (Option.some.inj h).symm
      | letters r =>
          have hdiff := hs r rfl
          rw [wordPass, val_bind, val_read] at h
          by_cases hletter : (fitPattern 'a'.toUInt8 (T.char r.i) && r.i < offend - 1) = true
          · rw [if_pos hletter, val_bind, if_pos hdiff] at h
            refine ih (fun r' hr => ?_) h
            cases hr
            exact hdiff
          · rw [if_neg hletter, if_neg (by omega)] at h
            exact ih (fun r' hr => by contradiction) h

end Loops

section Calls

variable {T : Pcontent} {offset limit v : Int} {fuel : Nat}

theorem Scanner.val_hasPPafterTheOffset
    (h : (Scanner.hasPPafterTheOffset T offset limit fuel).val = some v) :
    v = CiteParser.hasPPafterTheOffset T offset limit := by
  rw [Scanner.hasPPafterTheOffset, scan, val_runTraced] at h
  exact run_probe (val_pagePass T _) h

theorem Scanner.val_hasPPafterTheOffset2
    (h : (Scanner.hasPPafterTheOffset2 T offset limit fuel).val = some v) :
    v = CiteParser.hasPPafterTheOffset2 T offset limit := by
  rw [Scanner.hasPPafterTheOffset2, scan, val_runTraced] at h
  exact run_page2 h

theorem Scanner.val_hasYearafterTheOffset
    (h : (Scanner.hasYearafterTheOffset T offset limit fuel).val = some v) :
    v = CiteParser.hasYearafterTheOffset T offset limit := by
  rw [Scanner.hasYearafterTheOffset, scan, val_runTraced] at h
  exact run_probe (val_yearPass T _) h

theorem Scanner.val_hasSpecialKeyWords
    (h : (Scanner.hasSpecialKeyWords T offset limit fuel).val = some v) :
    v = CiteParser.hasSpecialKeyWords T offset limit := by
  rw [Scanner.hasSpecialKeyWords, scan, val_runTraced] at h
  exact run_probe (val_specialPass T _) h

theorem Scanner.val_hasWords (h : (Scanner.hasWords T offset limit fuel).val = some v) :
    v = CiteParser.hasWords T offset limit := by
  rw [Scanner.hasWords, scan, val_runTraced] at h
  rw [hasWords_eq_zero]
  exact run_words (fun r hr => by contradiction) h

end Calls

end CiteParser
