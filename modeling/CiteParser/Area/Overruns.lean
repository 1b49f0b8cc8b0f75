import CiteParser.Area.ScannerReads

/-!
# Tests too close to the end

`hasPPafterTheOffset2` compares four characters with the word page and skips three or four
before it looks for a digit, and `hasSpecialKeyWords` compares as many characters as a keyword
has, and looks at the one before. Both leave the text if they get to an offset that is too close
to one of its ends.
-/

namespace CiteParser

open Loop Traced

/-- Among the offsets from `i` on there is one of a kind, and none of another kind before it. -/
def Reaches (bad mark : Int → Prop) (offend i : Int) : Prop :=
  ∃ j, i ≤ j ∧ j < offend ∧ bad j ∧ ∀ k, i ≤ k → k < j → ¬ mark k

section Reaches

variable {bad mark : Int → Prop} {offend i : Int}

theorem not_reaches (h : offend ≤ i) : ¬ Reaches bad mark offend i := by
  rintro ⟨j, hij, hj, -⟩
  omega

/-- Where the search ends at the first offset, that one decides. -/
theorem reaches_of_mark (hi : i < offend) (hmark : mark i) :
    Reaches bad mark offend i ↔ bad i := by
  constructor
  · rintro ⟨j, hij, -, hbad, hnone⟩
    rcases eq_or_lt_of_le hij with rfl | hlt
    · exact hbad
    · exact absurd hmark (hnone i le_rfl hlt)
  · intro hbad
    exact ⟨i, le_rfl, hi, hbad, fun k hk hlt => by omega⟩

/-- An offset of neither kind is passed over. -/
theorem reaches_succ (hmark : ¬ mark i) (hbad : ¬ bad i) :
    Reaches bad mark offend (i + 1) ↔ Reaches bad mark offend i := by
  constructor
  · rintro ⟨j, hij, hj, hbadj, hnone⟩
    refine ⟨j, by omega, hj, hbadj, fun k hk hlt => ?_⟩
    rcases eq_or_lt_of_le hk with rfl | hk
    · exact hmark
    · exact hnone k hk hlt
  · rintro ⟨j, hij, hj, hbadj, hnone⟩
    have hne : i ≠ j := by
      rintro rfl
      exact hbad hbadj
    exact ⟨j, by omega, hj, hbadj, fun k hk hlt => hnone k (by omega) hlt⟩

/-- The first offset is not of the kind that is not reached. -/
theorem not_bad_of_not_reaches (hi : i < offend) (h : ¬ Reaches bad mark offend i) : ¬ bad i :=
  fun hbad => h ⟨i, le_rfl, hi, hbad, fun k hk hlt => by omega⟩

end Reaches

/-! ## Pages behind a mark -/

/-- The first two characters of `pp`, in either case, or of `p.`, or about the word `page`. -/
def PageMark (T : Pcontent) (i : Int) : Prop :=
  (T.char i = 'p'.toUInt8 ∨ T.char i = 'P'.toUInt8) ∧
    ((T.char (i + 1) = 'p'.toUInt8 ∨ T.char (i + 1) = 'P'.toUInt8 ∨
        T.char (i + 1) = '.'.toUInt8) ∨
      editDistanceS (bytes "page") 4 (T.window i 4) 4 ≤ 1)

/-- One of the last two characters, or the third last if `pag` ends the text, is a `p`. -/
def PageOverrun (T : Pcontent) (i : Int) : Prop :=
  (T.char i = 'p'.toUInt8 ∨ T.char i = 'P'.toUInt8) ∧
    (T.pclen - 2 ≤ i ∨
      i = T.pclen - 3 ∧
        ¬ (T.char (i + 1) = 'p'.toUInt8 ∨ T.char (i + 1) = 'P'.toUInt8 ∨
          T.char (i + 1) = '.'.toUInt8) ∧
        editDistanceS (bytes "page") 4 (T.window i 4) 4 ≤ 1)

/-- Digits are sought from within the text where no `p` that is met stands too close to its
end. -/
def page2Verdict (T : Pcontent) (offend : Int) : Verdict Page2Point where
  inv
    | .head i => 0 ≤ i
    | .seek i j _ => 0 ≤ i + j
  safe
    | .head i => ¬ Reaches (PageOverrun T) (PageMark T) offend i
    | .seek i j _ => i + j ≤ T.pclen
  measure
    | .head i => (offend - i).toNat
    | .seek i j _ => (offend - (i + j)).toNat

section Pages2

variable {T : Pcontent} {offend i : Int}

/-- An offset of neither kind is passed over. -/
theorem page2_next (h0 : 0 ≤ i) (hlt : i < offend) (hmark : ¬ PageMark T i)
    (hbad : ¬ PageOverrun T i) : (page2Verdict T offend).Decides T.Holds (.head i)
      (pure (.next (.head (i + 1))) : Traced Int (Outcome _ Int)) :=
  Verdict.decides_next.mpr ⟨by dsimp only [page2Verdict]; omega,
    by dsimp only [page2Verdict]; omega, not_congr (reaches_succ hmark hbad)⟩

/-- A mark ends the search, and digits are sought behind it. -/
theorem page2_seek (h0 : 0 ≤ i) (hlt : i < offend) (hmark : PageMark T i) {j extra : Int}
    (hj : 0 < j) (hiff : i + j ≤ T.pclen ↔ ¬ PageOverrun T i) :
    (page2Verdict T offend).Decides T.Holds (.head i)
      (pure (.next (.seek i j extra)) : Traced Int (Outcome _ Int)) :=
  Verdict.decides_next.mpr ⟨by dsimp only [page2Verdict]; omega,
    by dsimp only [page2Verdict]; omega,
    hiff.trans (not_congr (reaches_of_mark hlt hmark).symm)⟩

/-- The comparison with the word page. -/
theorem page2_window (h0 : 0 ≤ i) (hlt : i < offend)
    (hp : T.char i = 'p'.toUInt8 ∨ T.char i = 'P'.toUInt8)
    (hsecond : ¬ (T.char (i + 1) = 'p'.toUInt8 ∨ T.char (i + 1) = 'P'.toUInt8 ∨
      T.char (i + 1) = '.'.toUInt8)) :
    (page2Verdict T offend).Decides T.Holds (.head i) (do
      let content ← T.readWindow 4 i
      pure (.next (if editDistanceS (bytes "page") 4 content 4 ≤ 1 then .seek i 4 1
        else .head (i + 1))) : Traced Int (Outcome _ Int)) := by
  rw [Verdict.decides_bind, within_readWindow, val_readWindow]
  constructor
  · intro hsafe k hk
    have hfar : ¬ T.pclen - 2 ≤ i := fun hclose =>
      not_bad_of_not_reaches hlt hsafe ⟨hp, .inl hclose⟩
    exact ⟨by omega, by omega⟩
  · intro hwithin
    have hlast := (hwithin 3 (by decide)).2
    split
    · rename_i hpage
      refine page2_seek h0 hlt ⟨hp, .inr hpage⟩ (by decide) ?_
      simp only [PageOverrun, hp, hsecond, hpage, true_and, not_false_eq_true, and_true]
      omega
    · rename_i hpage
      refine page2_next h0 hlt (fun hmark => ?_) (fun hbad => ?_)
      · exact hmark.2.elim hsecond hpage
      · rcases hbad.2 with hclose | ⟨-, -, hword⟩
        · omega
        · exact hpage hword

theorem page2Pass_head (hend : offend ≤ T.pclen) (h0 : 0 ≤ i) :
    (page2Verdict T offend).Decides T.Holds (.head i) (page2Pass T offend (.head i)) := by
  rw [page2Pass]
  split
  · rename_i hlt
    rw [Pcontent.decides_read]
    refine ⟨fun _ => ⟨h0, by omega⟩, fun _ => ?_⟩
    split
    · rename_i hp
      rw [Pcontent.decides_read]
      refine ⟨fun _ => ⟨by omega, by omega⟩, fun _ => ?_⟩
      split
      · rename_i hsecond
        refine page2_seek h0 hlt ⟨hp, .inl hsecond⟩ (by decide) ?_
        simp only [PageOverrun, hp, hsecond, true_and, not_true, false_and, and_false, or_false]
        omega
      · rename_i hsecond
        exact page2_window h0 hlt hp hsecond
    · rename_i hp
      exact page2_next h0 hlt (fun hmark => hp hmark.1) (fun hbad => hp hbad.1)
  · rename_i hlt
    exact Verdict.decides_exit.mpr (not_reaches (not_lt.mp hlt))

theorem page2Pass_seek (hend : offend ≤ T.pclen) {j extra : Int} (h0 : 0 ≤ i + j) :
    (page2Verdict T offend).Decides T.Holds (.seek i j extra)
      (page2Pass T offend (.seek i j extra)) := by
  rw [page2Pass, Pcontent.decides_read]
  refine ⟨fun hle => ⟨h0, hle⟩, fun hholds => ?_⟩
  have hle : i + j ≤ T.pclen := hholds.2
  split
  · rw [Verdict.decides_bind]
    refine ⟨fun _ => within_readPageNumber h0 (by omega), fun _ => ?_⟩
    exact Verdict.decides_exit.mpr hle
  · split
    · exact Verdict.decides_exit.mpr hle
    · refine Verdict.decides_next.mpr ⟨by dsimp only [page2Verdict]; omega,
        by dsimp only [page2Verdict]; omega, ?_⟩
      dsimp only [page2Verdict]
      omega

/-- `hasPPafterTheOffset2` leaves the text from the first `p` it meets too close to the end. -/
theorem safe_page2Pass_iff (hend : offend ≤ T.pclen) (hi : 0 ≤ i) :
    Safe T.Holds (page2Pass T offend) (.head i) ↔
      ¬ Reaches (PageOverrun T) (PageMark T) offend i := by
  have hstart : (page2Verdict T offend).inv (.head i) := hi
  refine Verdict.safe_iff (fun s hs => ?_) hstart
  cases s with
  | head i => exact page2Pass_head hend hs
  | seek i j extra => exact page2Pass_seek hend hs

end Pages2

/-! ## Keywords behind a blank -/

/-- A word whose letters are compared in any case runs beyond the terminator, and no word of the
list before it stands at `i`. -/
def WordOverrun (tests : List KeyTest) (T : Pcontent) (i : Int) : Prop :=
  ∃ before t after, tests = before ++ t :: after ∧ t.exactly = false ∧
    T.pclen + 1 < i + t.word.length ∧ ∀ u ∈ before, u.fits T i = false

/-- The first offset of the text, which none stands before, or one behind a blank that is too
close to the end for a word that is tried. -/
def KeyOverrun (T : Pcontent) (i : Int) : Prop :=
  i = 0 ∨ T.char (i - 1) = ' '.toUInt8 ∧ WordOverrun specialKeyWords T i

/-- Behind a blank stands a keyword or a volume, or at most digits up to the end of the window:
there the search ends. -/
def KeyMark (T : Pcontent) (offend i : Int) : Prop :=
  T.char (i - 1) = ' '.toUInt8 ∧
    ((∃ t ∈ specialKeyWords, t.fits T i = true) ∨ volume T offend i ≠ .pass)

section KeyWords

variable {T : Pcontent} {offend i : Int} {t : KeyTest} {tests : List KeyTest}

@[simp] theorem KeyTest.val_readFits (t : KeyTest) (T : Pcontent) (i : Int) :
    (t.readFits T i).val = t.fits T i := by
  rw [readFits, fits]
  split
  · exact val_readWord T t.word i
  · rw [val_bind, val_readWindow]
    rfl

/-- Which tests stay in the text. -/
theorem KeyTest.within_readFits (hterm : T.char T.pclen = 0) (hword : 0 ∉ t.word)
    (hi : T.Holds i) : Within T.Holds (t.readFits T i) ↔
      (t.exactly = false → i + t.word.length ≤ T.pclen + 1) := by
  rw [readFits]
  cases t.exactly with
  | true => simpa using within_readWord hterm hword hi
  | false =>
      obtain ⟨h0, hle⟩ := hi
      rw [if_neg Bool.false_ne_true, within_bind, within_readWindow]
      constructor
      · rintro ⟨hall, -⟩ -
        by_contra hover
        have hlast := (hall (t.word.length - 1) (by omega)).2
        omega
      · intro hlen
        have hend := hlen rfl
        exact ⟨fun k hk => ⟨by omega, by omega⟩, within_pure _⟩

@[simp] theorem val_readFirstKey (T : Pcontent) (i : Int) (tests : List KeyTest) :
    (readFirstKey T i tests).val = firstKey tests T i := by
  induction tests with
  | nil => rfl
  | cons t tests ih =>
      rw [readFirstKey, val_bind, KeyTest.val_readFits, firstKey, List.find?_cons]
      cases t.fits T i with
      | true => rfl
      | false => exact ih

/-- The tests are made until one succeeds or runs beyond the terminator. -/
theorem within_readFirstKey (hterm : T.char T.pclen = 0)
    (hwords : ∀ t ∈ tests, 0 ∉ t.word) (hi : T.Holds i) :
    Within T.Holds (readFirstKey T i tests) ↔ ¬ WordOverrun tests T i := by
  induction tests with
  | nil =>
      refine iff_of_true (within_pure _) ?_
      rintro ⟨before, t, after, h, -⟩
      exact absurd h (by simp)
  | cons t tests ih =>
      have hrest := ih fun u hu => hwords u (List.mem_cons_of_mem t hu)
      rw [readFirstKey, within_bind, KeyTest.within_readFits hterm
        (hwords t List.mem_cons_self) hi, KeyTest.val_readFits]
      constructor
      · rintro ⟨hlen, hlater⟩ ⟨before, u, after, heq, hexact, hover, hnone⟩
        cases before with
        | nil =>
            cases heq
            have hle := hlen hexact
            omega
        | cons v before =>
            cases heq
            rw [hnone t List.mem_cons_self, if_neg Bool.false_ne_true, hrest] at hlater
            exact hlater ⟨before, u, after, rfl, hexact, hover,
              fun w hw => hnone w (List.mem_cons_of_mem t hw)⟩
      · intro hnone
        refine ⟨fun hexact => ?_, ?_⟩
        · by_contra hover
          exact hnone ⟨[], t, tests, rfl, hexact, by omega, by simp⟩
        · split
          · exact within_pure _
          · rename_i hfits
            rw [hrest]
            rintro ⟨before, u, after, rfl, hexact, hover, hbefore⟩
            refine hnone ⟨t :: before, u, after, rfl, hexact, hover, ?_⟩
            exact List.forall_mem_cons.mpr ⟨by simpa using hfits, hbefore⟩

@[simp] theorem val_readVolumeDigits (T : Pcontent) (offend tmp : Int) (more : Int → Bool)
    (n : Nat) (z : Int) : (readVolumeDigits T offend tmp more n z).val =
      volumeDigits T offend tmp more n z := by
  induction n generalizing z with
  | zero => rfl
  | succ n ih =>
      rw [readVolumeDigits, volumeDigits, val_bind, val_read]
      split
      · split
        · rfl
        · exact ih (z + 1)
      · rfl

/-- The digits of a volume are looked at in front of the end of the window. -/
theorem within_readVolumeDigits {tmp z : Int} {more : Int → Bool} {n : Nat}
    (hend : offend ≤ T.pclen) (h0 : 0 ≤ z) (hz : z < offend) :
    Within T.Holds (readVolumeDigits T offend tmp more n z) := by
  induction n generalizing z with
  | zero => exact within_pure _
  | succ n ih =>
      rw [readVolumeDigits, within_bind, within_read]
      refine ⟨⟨h0, by omega⟩, ?_⟩
      split
      · split
        · exact within_pure _
        · exact ih (by omega) (by omega)
      · exact within_pure _

theorem val_readVolume (T : Pcontent) (offend i : Int) : (readVolume T offend i).val =
    match volume T offend i with
    | .found ret => .exit ret
    | .stop => .exit 0
    | .pass => .next (i + 1) := by
  rw [readVolume, volume, val_bind, val_readVolumeDigits]
  dsimp only
  split
  · rfl
  · rw [val_bind, val_read]
    split
    · rw [val_bind, val_readVolumeDigits]
      split
      · rfl
      · rw [val_bind, val_read]
        split
        · rfl
        · rfl
    · rfl

theorem within_readVolume (hend : offend ≤ T.pclen) (h0 : 0 ≤ i) (hi : i < offend) :
    Within T.Holds (readVolume T offend i) := by
  rw [readVolume, within_bind, val_readVolumeDigits]
  refine ⟨within_readVolumeDigits hend h0 hi, ?_⟩
  have hz := (volumeDigits_spec T offend i (fun z => z < offend - 2) 3 i).1
  generalize volumeDigits T offend i (fun z => z < offend - 2) 3 i = z at hz ⊢
  split
  · exact within_pure _
  · rw [within_bind, within_read]
    refine ⟨⟨by omega, by omega⟩, ?_⟩
    split
    · rw [within_bind, val_readVolumeDigits]
      refine ⟨within_readVolumeDigits hend (by omega) (by omega), ?_⟩
      have hz' := (volumeDigits_spec T offend (z + 1) (fun _ => true) 3 (z + 1)).1
      generalize volumeDigits T offend (z + 1) (fun _ => true) 3 (z + 1) = z' at hz' ⊢
      split
      · exact within_pure _
      · rw [within_bind, within_read]
        refine ⟨⟨by omega, by omega⟩, ?_⟩
        split
        · exact within_pure _
        · exact within_pure _
    · exact within_pure _

/-- No keyword holds a zero byte. -/
theorem specialKeyWords_zero : ∀ t ∈ specialKeyWords, 0 ∉ t.word := by
  decide +kernel

/-- The text is not left where the search ends before an offset from which it would be. -/
def keyVerdict (T : Pcontent) (offend : Int) : Verdict Int where
  inv i := 0 ≤ i
  safe i := ¬ Reaches (KeyOverrun T) (KeyMark T offend) offend i
  measure i := (offend - i).toNat

theorem specialPass_decides (hterm : T.char T.pclen = 0) (hend : offend ≤ T.pclen) (i : Int)
    (h0 : 0 ≤ i) : (keyVerdict T offend).Decides T.Holds i (specialPass T offend i) := by
  rw [specialPass]
  split
  · rename_i hlt
    have hleave : ¬ KeyOverrun T i → KeyMark T offend i → (keyVerdict T offend).safe i :=
      fun hbad hmark hreach => hbad ((reaches_of_mark hlt hmark).mp hreach)
    have hnext : ¬ KeyMark T offend i → ¬ KeyOverrun T i → (keyVerdict T offend).Decides
        T.Holds i (pure (.next (i + 1)) : Traced Int (Outcome Int Int)) :=
      fun hmark hbad => Verdict.decides_next.mpr
        ⟨by dsimp only [keyVerdict]; omega, by dsimp only [keyVerdict]; omega,
          not_congr (reaches_succ hmark hbad)⟩
    rw [Pcontent.decides_read]
    constructor
    · intro hsafe
      have hbad := not_bad_of_not_reaches hlt hsafe
      have hne : i ≠ 0 := fun heq => hbad (.inl heq)
      exact ⟨by omega, by omega⟩
    · rintro ⟨hbefore, -⟩
      have hne : i ≠ 0 := by omega
      split
      · rename_i hblank
        rw [Verdict.decides_bind, val_readFirstKey,
          within_readFirstKey hterm specialKeyWords_zero ⟨h0, by omega⟩]
        refine ⟨fun hsafe hword => not_bad_of_not_reaches hlt hsafe (.inr ⟨hblank, hword⟩),
          fun hword => ?_⟩
        have hbad : ¬ KeyOverrun T i := fun hover => hover.elim hne fun h => hword h.2
        cases hkey : firstKey specialKeyWords T i with
        | some ret =>
            obtain ⟨t, ht, hfits, -⟩ := firstKey_some hkey
            exact Verdict.decides_exit.mpr (hleave hbad ⟨hblank, .inl ⟨t, ht, hfits⟩⟩)
        | none =>
            refine ⟨fun _ => within_readVolume hend h0 hlt, fun _ => ?_⟩
            rw [val_readVolume]
            cases hvolume : volume T offend i with
            | found ret => exact hleave hbad ⟨hblank, .inr (by simp [hvolume])⟩
            | stop => exact hleave hbad ⟨hblank, .inr (by simp [hvolume])⟩
            | pass =>
                refine (Verdict.decides_next.mp (hnext ?_ hbad))
                rintro ⟨-, ⟨t, ht, hfits⟩ | hleft⟩
                · obtain ⟨ret, hsome⟩ := firstKey_isSome ht hfits
                  rw [hkey] at hsome
                  contradiction
                · exact hleft hvolume
      · rename_i hblank
        exact hnext (fun hmark => hblank hmark.1)
          (fun hbad => hbad.elim hne fun h => hblank h.1)
  · rename_i hlt
    exact Verdict.decides_exit.mpr (not_reaches (not_lt.mp hlt))

/-- `hasSpecialKeyWords` leaves the text at its first offset, and from the first offset behind a
blank that it meets too close to the end. -/
theorem safe_specialPass_iff (hterm : T.char T.pclen = 0) (hend : offend ≤ T.pclen)
    (h0 : 0 ≤ i) : Safe T.Holds (specialPass T offend) i ↔
      ¬ Reaches (KeyOverrun T) (KeyMark T offend) offend i := by
  have hstart : (keyVerdict T offend).inv i := h0
  exact Verdict.safe_iff (specialPass_decides hterm hend) hstart

end KeyWords

end CiteParser
