import CiteParser.Area.Words

/-!
# Keywords

`hasSpecialKeyWords` and `hasSpecialKeyWordsN` report where a keyword ends, which may be behind
the end of the window. `keysNumber` then searches back to that end, so a keyword that starts in
between is found again and again. Only one pair of keywords overlaps in such a way.
-/

namespace CiteParser

open Loop

/-- `TESTMATSTR` on a word, or `ETTESTSTR`, for which the case makes no difference. -/
structure KeyTest where
  exactly : Bool
  word : List UInt8
  deriving DecidableEq

def testMatStr (s : String) : KeyTest := ⟨true, bytes s⟩

def etTestStr (s : String) : KeyTest := ⟨false, bytes s⟩

/-- The comparison of a word with the text from `i` on. -/
def KeyTest.fits (t : KeyTest) (T : Pcontent) (i : Int) : Bool :=
  if t.exactly then T.window i t.word.length == t.word
  else editDistanceS t.word t.word.length (T.window i t.word.length) t.word.length ≤ 0

/-- The tests in their order; the first that succeeds returns the end of its word. -/
def firstKey (tests : List KeyTest) (T : Pcontent) (i : Int) : Option Int :=
  (tests.find? fun t => t.fits T i).map fun t => i + t.word.length

/-- The words of `hasSpecialKeyWords`. -/
def specialKeyWords : List KeyTest :=
  [testMatStr "ISO", testMatStr "IEEE", testMatStr "ACM", testMatStr "Inc.", testMatStr "Proc.",
    testMatStr "pp.", testMatStr "Ph.D. Thesis", testMatStr "http://", testMatStr "No.",
    etTestStr "Vol.", etTestStr "Volumn", etTestStr "SIGCSE", etTestStr "Bulletin",
    etTestStr "Press", etTestStr "PROCEEDINGS"]

/-- The words of `hasSpecialKeyWordsN`. -/
def specialKeyWordsN : List KeyTest :=
  [testMatStr "Fig.", testMatStr "Fig,", testMatStr "Figure", testMatStr "Here ",
    testMatStr "We ", testMatStr "Are ", testMatStr "An ", testMatStr "Our ",
    etTestStr "Samples ", etTestStr "A Proof of ", etTestStr "In this ", etTestStr "is a "]

/-- A loop over the digits from `z` on, which is left after the third, counted from `tmp`, and
at the end of the window; `more` is what else the loop asks for. -/
def volumeDigits (T : Pcontent) (offend tmp : Int) (more : Int → Bool) : Nat → Int → Int
  | 0, z => z
  | n + 1, z =>
      if fitPattern 'n'.toUInt8 (T.char z) && more z then
        if offend ≤ z + 1 ∨ 2 < z + 1 - tmp then z + 1
        else volumeDigits T offend tmp more n (z + 1)
      else z

/-- `23(3)`: a volume and its number, at `i`. -/
def volume (T : Pcontent) (offend i : Int) : Probe :=
  let z := volumeDigits T offend i (fun z => z < offend - 2) 3 i
  if offend - 2 ≤ z then .stop
  else if T.char z = '('.toUInt8 then
    let z' := volumeDigits T offend (z + 1) (fun _ => true) 3 (z + 1)
    if offend ≤ z' then .stop
    else if T.char z' = ')'.toUInt8 then .found (z' + 1)
    else .pass
  else .pass

/-- The body of the loop of `hasSpecialKeyWords`. -/
def specialProbe (T : Pcontent) (offend i : Int) : Probe :=
  if T.char (i - 1) = ' '.toUInt8 then
    match firstKey specialKeyWords T i with
    | some ret => .found ret
    | none => volume T offend i
  else .pass

/-- The body of the loop of `hasSpecialKeyWordsN`. -/
def specialProbeN (T : Pcontent) (i : Int) : Probe :=
  if T.char (i - 1) = ' '.toUInt8 then
    match firstKey specialKeyWordsN T i with
    | some ret => .found ret
    | none => .pass
  else .pass

def hasSpecialKeyWords (T : Pcontent) (offset limit : Int) : Int :=
  let (offset, offend) := defineStartAndEnd T offset limit
  scanWindow (specialProbe T offend) (offend - offset).toNat offset

def hasSpecialKeyWordsN (T : Pcontent) (offset limit : Int) : Int :=
  let (offset, offend) := defineStartAndEnd T offset limit
  scanWindow (specialProbeN T) (offend - offset).toNat offset

/-- The finders that `keysNumber` is called with. -/
inductive Finder where
  | special
  | specialN
  | words

def Finder.find : Finder → Pcontent → Int → Int → Int
  | special => hasSpecialKeyWords
  | specialN => hasSpecialKeyWordsN
  | words => hasWords

section Matching

variable {T : Pcontent} {t : KeyTest} {i : Int}

/-- Whatever a test, its word stands in the text but for the case. -/
theorem KeyTest.isSame_of_fits (h : t.fits T i = true) {k : Nat} (hk : k < t.word.length) :
    isSame (t.word.getD k 0) (T.char (i + k)) = true := by
  rw [fits] at h
  split at h
  · rw [beq_iff_eq] at h
    rw [← getD_window hk, h]
    exact beq_self_eq_true _
  · rw [decide_eq_true_eq, Nat.le_zero] at h
    have hleast := isLeast_matrix_length isSame t.word (T.window i t.word.length)
    rw [length_window] at hleast
    have hzero : 0 ∈ alignmentCosts isSame t.word (T.window i t.word.length) := by
      rw [← h]
      exact hleast.1
    rw [zero_mem_alignmentCosts, List.forall₂_iff_get] at hzero
    have hget := hzero.2 k hk (by simpa using hk)
    rwa [List.get_eq_getElem, List.get_eq_getElem, ← List.getD_eq_getElem _ 0 hk,
      ← List.getD_eq_getElem _ 0 (by simpa using hk), getD_window hk] at hget

/-- Letters that are the same but for the case are the same as the same letters. -/
theorem isSame_trans {a b c : UInt8} (hab : isSame a b = true) (hbc : isSame b c = true) :
    isSame a c = true := by
  rw [isSame, beq_iff_eq] at hab hbc ⊢
  exact hab.trans hbc

theorem isSame_symm {a b : UInt8} (h : isSame a b = true) : isSame b a = true := by
  rw [isSame, beq_iff_eq] at h ⊢
  exact h.symm

/-- A keyword that is found is one of the list and stands there. -/
theorem firstKey_some {tests : List KeyTest} {ret : Int} (h : firstKey tests T i = some ret) :
    ∃ t ∈ tests, t.fits T i = true ∧ ret = i + t.word.length := by
  obtain ⟨t, ht, rfl⟩ := Option.map_eq_some_iff.mp h
  have hfits := List.find?_some ht
  exact ⟨t, List.mem_of_find?_eq_some ht, hfits, rfl⟩

/-- Some keyword is found where one of the list stands. -/
theorem firstKey_isSome {tests : List KeyTest} (ht : t ∈ tests) (h : t.fits T i = true) :
    ∃ ret, firstKey tests T i = some ret := by
  rw [firstKey]
  cases hfind : tests.find? fun t => t.fits T i with
  | some u => exact ⟨_, rfl⟩
  | none => exact absurd h (List.find?_eq_none.mp hfind t ht)

end Matching

section Overlaps

variable {T : Pcontent} {i : Int}

/-- Inside a word of `hasSpecialKeyWords` only the T of `Thesis` stands behind a blank. -/
theorem specialKeyWords_inner : ∀ t ∈ specialKeyWords, ∀ d < t.word.length, 0 < d →
    isSame (t.word.getD (d - 1) 0) ' '.toUInt8 = true →
    isSame (t.word.getD d 0) 't'.toUInt8 = true := by decide +kernel

/-- No word begins like that. -/
theorem specialKeyWords_head : ∀ t ∈ specialKeyWords, 0 < t.word.length ∧
    isSame (t.word.getD 0 0) 't'.toUInt8 = false := by decide +kernel

/-- What stands behind a blank inside a word of `hasSpecialKeyWordsN`. -/
theorem specialKeyWordsN_inner : ∀ t ∈ specialKeyWordsN, ∀ d < t.word.length, 0 < d →
    isSame (t.word.getD (d - 1) 0) ' '.toUInt8 = true →
    isSame (t.word.getD d 0) 'p'.toUInt8 = true ∨ isSame (t.word.getD d 0) 't'.toUInt8 = true ∨
    (isSame (t.word.getD d 0) 'o'.toUInt8 = true ∧ d + 1 < t.word.length ∧
      isSame (t.word.getD (d + 1) 0) 'f'.toUInt8 = true) ∨
    (t = etTestStr "is a " ∧ d = 3) := by decide +kernel

/-- How the words of `hasSpecialKeyWordsN` begin. -/
theorem specialKeyWordsN_head : ∀ t ∈ specialKeyWordsN, 1 < t.word.length ∧
    isSame (t.word.getD 0 0) 'p'.toUInt8 = false ∧ isSame (t.word.getD 0 0) 't'.toUInt8 = false ∧
    (isSame (t.word.getD 0 0) 'o'.toUInt8 = true →
      isSame (t.word.getD 1 0) 'f'.toUInt8 = false) ∧
    (isSame (t.word.getD 0 0) 'a'.toUInt8 = true → isSame (t.word.getD 1 0) ' '.toUInt8 = true →
      t = etTestStr "A Proof of ") ∧
    (isSame (t.word.getD 0 0) 'i'.toUInt8 = true → isSame (t.word.getD 1 0) 's'.toUInt8 = true →
      t = etTestStr "is a ") := by decide +kernel

/-- The digits of a volume are neither blank nor the T of `Thesis`. -/
theorem plain_of_fitNum : ∀ c : UInt8, fitPattern 'n'.toUInt8 c = true →
    c ≠ ' '.toUInt8 ∧ isSame 't'.toUInt8 c = false := by decide +kernel

/-- Only a blank is the same as a blank. -/
theorem blank_of_isSame : ∀ c : UInt8, isSame ' '.toUInt8 c = true → c = ' '.toUInt8 := by
  decide +kernel

/-- A stretch of digits. -/
theorem volumeDigits_spec (T : Pcontent) (offend tmp : Int) (more : Int → Bool) (n : Nat)
    (z : Int) : z ≤ volumeDigits T offend tmp more n z ∧
      ∀ k, z ≤ k → k < volumeDigits T offend tmp more n z →
        fitPattern 'n'.toUInt8 (T.char k) = true := by
  induction n generalizing z with
  | zero => exact ⟨le_rfl, fun k hk hlt => absurd hlt (not_lt.mpr hk)⟩
  | succ n ih =>
      rw [volumeDigits]
      split
      · rename_i hdigit
        rw [Bool.and_eq_true] at hdigit
        split
        · refine ⟨by omega, fun k hk hlt => ?_⟩
          rw [show k = z by omega]
          exact hdigit.1
        · obtain ⟨hle, hall⟩ := ih (z + 1)
          refine ⟨by omega, fun k hk hlt => ?_⟩
          rcases eq_or_lt_of_le hk with rfl | hk
          · exact hdigit.1
          · exact hall k hk hlt
      · exact ⟨le_rfl, fun k hk hlt => absurd hlt (not_lt.mpr hk)⟩

/-- A volume that is found holds no blank and does not begin with a T. -/
theorem volume_found {offend ret : Int} (h : volume T offend i = .found ret) :
    i < ret ∧ (∀ k, i ≤ k → k < ret → T.char k ≠ ' '.toUInt8) ∧
      isSame 't'.toUInt8 (T.char i) = false := by
  rw [volume] at h
  dsimp only at h
  obtain ⟨hz, hdigits⟩ := volumeDigits_spec T offend i (fun z => z < offend - 2) 3 i
  generalize volumeDigits T offend i (fun z => z < offend - 2) 3 i = z at h hz hdigits
  obtain ⟨hz', hdigits'⟩ := volumeDigits_spec T offend (z + 1) (fun _ => true) 3 (z + 1)
  generalize volumeDigits T offend (z + 1) (fun _ => true) 3 (z + 1) = z' at h hz' hdigits'
  split_ifs at h with h1 h2 h3 h4
  cases h
  have hopen : ' '.toUInt8 ≠ '('.toUInt8 ∧ isSame 't'.toUInt8 '('.toUInt8 = false := by decide
  refine ⟨by omega, fun k hk hlt => ?_, ?_⟩
  · rcases lt_trichotomy k z with hkz | rfl | hkz
    · exact (plain_of_fitNum _ (hdigits k hk hkz)).1
    · rw [h2]
      exact hopen.1.symm
    · rcases eq_or_lt_of_le (show k ≤ z' by omega) with rfl | hkz'
      · rw [h4]
        decide
      · exact (plain_of_fitNum _ (hdigits' k (by omega) hkz')).1
  · rcases eq_or_lt_of_le hz with rfl | hlt
    · rw [h2]
      exact hopen.2
    · exact (plain_of_fitNum _ (hdigits i le_rfl hlt)).2

/-- What `hasSpecialKeyWords` finds stands behind a blank, and is a word of its list or free of
blanks; neither begins with a T. -/
theorem specialProbe_found {offend ret : Int} (h : specialProbe T offend i = .found ret) :
    T.char (i - 1) = ' '.toUInt8 ∧ i < ret ∧ isSame 't'.toUInt8 (T.char i) = false ∧
      ∀ k, i < k → k < ret → T.char (k - 1) = ' '.toUInt8 →
        isSame 't'.toUInt8 (T.char k) = true := by
  rw [specialProbe] at h
  split at h
  · rename_i hblank
    refine ⟨hblank, ?_⟩
    split at h
    · rename_i r hkey
      cases h
      obtain ⟨t, ht, hfits, rfl⟩ := firstKey_some hkey
      obtain ⟨hpos, hhead⟩ := specialKeyWords_head t ht
      refine ⟨by omega, ?_, fun k hk hlt hbefore => ?_⟩
      · have hfirst := KeyTest.isSame_of_fits hfits hpos
        rw [Int.natCast_zero, add_zero] at hfirst
        by_contra hsame
        rw [Bool.not_eq_false] at hsame
        rw [isSame_trans hfirst (isSame_symm hsame)] at hhead
        contradiction
      · -- the place is inside the word
        obtain ⟨d, rfl⟩ : ∃ d : Nat, k = i + d := ⟨(k - i).toNat, by omega⟩
        have hd : d < t.word.length := by omega
        have hprev := KeyTest.isSame_of_fits hfits (show d - 1 < t.word.length by omega)
        rw [show i + ((d - 1 : Nat) : Int) = i + d - 1 by omega, hbefore] at hprev
        exact isSame_trans (isSame_symm (specialKeyWords_inner t ht d hd (by omega) hprev))
          (KeyTest.isSame_of_fits hfits hd)
    · obtain ⟨hlt, hplain, hhead⟩ := volume_found h
      exact ⟨hlt, hhead, fun k hk hkr hbefore =>
        absurd hbefore (hplain (k - 1) (by omega) (by omega))⟩
  · contradiction

/-- What `hasSpecialKeyWordsN` finds is a word of its list behind a blank. -/
theorem specialProbeN_found {ret : Int} (h : specialProbeN T i = .found ret) :
    T.char (i - 1) = ' '.toUInt8 ∧
      ∃ t ∈ specialKeyWordsN, t.fits T i = true ∧ ret = i + t.word.length := by
  rw [specialProbeN] at h
  split at h
  · rename_i hblank
    split at h
    · rename_i r hkey
      cases h
      exact ⟨hblank, firstKey_some hkey⟩
    · contradiction
  · contradiction

/-- A word of its list behind a blank is found, if only by a test before. -/
theorem specialProbeN_of_fits {t : KeyTest} (ht : t ∈ specialKeyWordsN) (hfits : t.fits T i = true)
    (hblank : T.char (i - 1) = ' '.toUInt8) : ∃ ret, specialProbeN T i = .found ret := by
  obtain ⟨ret, hkey⟩ := firstKey_isSome ht hfits
  refine ⟨ret, ?_⟩
  rw [specialProbeN, if_pos hblank, hkey]

/-- The loop is never given up. -/
theorem specialProbeN_ne_stop (T : Pcontent) (i : Int) : specialProbeN T i ≠ .stop := by
  rw [specialProbeN]
  split
  · split <;> exact Probe.noConfusion
  · exact Probe.noConfusion

/-- A place behind a blank inside a word that is found: what it holds, and which word it is
where another word is found there. -/
theorem specialProbeN_inner {j ret : Int} (h : specialProbeN T i = .found ret) (hij : i < j)
    (hj : j < ret) (hblank : T.char (j - 1) = ' '.toUInt8) :
    isSame 'i'.toUInt8 (T.char j) = false ∧
      ∀ t' ∈ specialKeyWordsN, t'.fits T j = true →
        j = i + 3 ∧ (etTestStr "is a ").fits T i = true ∧ t' = etTestStr "A Proof of " := by
  obtain ⟨-, t, ht, hfits, rfl⟩ := specialProbeN_found h
  obtain ⟨d, rfl⟩ : ∃ d : Nat, j = i + d := ⟨(j - i).toNat, by omega⟩
  have hd : d < t.word.length := by omega
  have hchar := KeyTest.isSame_of_fits hfits hd
  have hprev := KeyTest.isSame_of_fits hfits (show d - 1 < t.word.length by omega)
  rw [show i + ((d - 1 : Nat) : Int) = i + d - 1 by omega, hblank] at hprev
  have hinner := specialKeyWordsN_inner t ht d hd (by omega) hprev
  constructor
  · by_contra hsame
    rw [Bool.not_eq_false] at hsame
    have hi := isSame_trans hchar (isSame_symm hsame)
    rcases hinner with hx | hx | ⟨hx, -, -⟩ | ⟨rfl, rfl⟩
    · exact absurd (isSame_trans (isSame_symm hx) hi) (by decide)
    · exact absurd (isSame_trans (isSame_symm hx) hi) (by decide)
    · exact absurd (isSame_trans (isSame_symm hx) hi) (by decide)
    · exact absurd hi (by decide)
  · intro t' ht' hfits'
    obtain ⟨hlen, hp, ht, ho, ha, -⟩ := specialKeyWordsN_head t' ht'
    have hfirst := KeyTest.isSame_of_fits hfits' (show 0 < t'.word.length by omega)
    rw [Int.natCast_zero, add_zero] at hfirst
    have hsecond := KeyTest.isSame_of_fits hfits' hlen
    rw [Int.natCast_one] at hsecond
    -- both words spell the character at the place and the one behind it
    have hmeet : ∀ c, isSame (t.word.getD d 0) c = true → isSame (t'.word.getD 0 0) c = true :=
      fun c hc => isSame_trans hfirst (isSame_trans (isSame_symm hchar) hc)
    have hmeet' : ∀ c, d + 1 < t.word.length → isSame (t.word.getD (d + 1) 0) c = true →
        isSame (t'.word.getD 1 0) c = true := by
      intro c hlt hc
      have hnext := KeyTest.isSame_of_fits hfits hlt
      rw [show i + ((d + 1 : Nat) : Int) = i + d + 1 by omega] at hnext
      exact isSame_trans hsecond (isSame_trans (isSame_symm hnext) hc)
    rcases hinner with hx | hx | ⟨hx, hlt, hy⟩ | ⟨rfl, rfl⟩
    · rw [hmeet _ hx] at hp
      contradiction
    · rw [hmeet _ hx] at ht
      contradiction
    · have hno := ho (hmeet _ hx)
      rw [hmeet' _ hlt hy] at hno
      contradiction
    · refine ⟨rfl, hfits, ha (hmeet _ (by decide)) (hmeet' _ (by decide) (by decide))⟩

end Overlaps

/-- `is a proof of ` behind a blank, in any case, so that the window ends behind the first
letter and not behind the second word. -/
def Straddles (T : Pcontent) (offset offend : Int) : Prop :=
  ∃ i, offset ≤ i ∧ i < offend ∧ offend ≤ i + 3 ∧ i + 3 < T.pclen ∧
    T.char (i - 1) = ' '.toUInt8 ∧ (etTestStr "is a ").fits T i = true ∧
    (etTestStr "A Proof of ").fits T (i + 3) = true

section Finders

variable {T : Pcontent} {offset limit : Int}

/-- Whatever the window, the keywords of references are enumerated. -/
theorem enumerates_special (T : Pcontent) (offset limit : Int) :
    Enumerates T (hasSpecialKeyWords T) offset limit := by
  apply enumerates_of_probe (specialProbe T) (fun _ _ => rfl)
  · exact fun e i r h => (specialProbe_found h).2.1
  · intro i r e i' r' _ hi hi' hlt _ hfound hfound'
    obtain ⟨-, -, -, hinner⟩ := specialProbe_found hfound
    obtain ⟨hblank, -, hhead, -⟩ := specialProbe_found hfound'
    rw [hinner i' (by omega) hlt hblank] at hhead
    contradiction

/-- The words are, since there never are any. -/
theorem enumerates_words (T : Pcontent) (offset limit : Int) :
    Enumerates T (hasWords T) offset limit := by
  apply enumerates_of_rule (fun _ => True) (fun _ => 0) trivial
  intro o _ hpos
  rw [hasWords_eq_zero] at hpos
  exact absurd hpos (lt_irrefl 0)

/-- The other keywords are, unless two of them lie across the end of the window. -/
theorem enumerates_specialN (h : ¬ Straddles T (defineStartAndEnd T offset limit).1
    (defineStartAndEnd T offset limit).2) : Enumerates T (hasSpecialKeyWordsN T) offset limit := by
  apply enumerates_of_probe (fun _ => specialProbeN T) (fun _ _ => rfl)
  · intro e i r hfound
    obtain ⟨-, t, ht, -, rfl⟩ := specialProbeN_found hfound
    have hlen := (specialKeyWordsN_head t ht).1
    omega
  · intro i r e i' r' hstart hi hi' hlt hlen hfound hfound'
    obtain ⟨hblank, -⟩ := specialProbeN_found hfound
    obtain ⟨hblank', t', ht', hfits', -⟩ := specialProbeN_found hfound'
    obtain ⟨rfl, hfits, rfl⟩ :=
      (specialProbeN_inner hfound (by omega) hlt hblank').2 t' ht' hfits'
    exact h ⟨i, hstart, hi, hi', hlen, hblank, hfits, hfits'⟩

/-- Where `is a ` stands, that is what is found. -/
theorem specialProbeN_isA {i : Int} (hblank : T.char (i - 1) = ' '.toUInt8)
    (h : (etTestStr "is a ").fits T i = true) : specialProbeN T i = .found (i + 5) := by
  obtain ⟨ret, hfound⟩ := specialProbeN_of_fits (by decide) h hblank
  obtain ⟨-, t, ht, hfits, rfl⟩ := specialProbeN_found hfound
  have hi := KeyTest.isSame_of_fits h (show 0 < _ by decide)
  have hs := KeyTest.isSame_of_fits h (show 1 < _ by decide)
  have hhead := specialKeyWordsN_head t ht
  have hti := KeyTest.isSame_of_fits hfits (show 0 < t.word.length by omega)
  have hts := KeyTest.isSame_of_fits hfits hhead.1
  rw [hhead.2.2.2.2.2 (isSame_trans hti (isSame_symm hi)) (isSame_trans hts (isSame_symm hs))]
    at hfound
  exact hfound

/-- The same for `A Proof of `. -/
theorem specialProbeN_proof {i : Int} (hblank : T.char (i - 1) = ' '.toUInt8)
    (h : (etTestStr "A Proof of ").fits T i = true) : specialProbeN T i = .found (i + 11) := by
  obtain ⟨ret, hfound⟩ := specialProbeN_of_fits (by decide) h hblank
  obtain ⟨-, t, ht, hfits, rfl⟩ := specialProbeN_found hfound
  have ha := KeyTest.isSame_of_fits h (show 0 < _ by decide)
  have hs := KeyTest.isSame_of_fits h (show 1 < _ by decide)
  have hhead := specialKeyWordsN_head t ht
  have hta := KeyTest.isSame_of_fits hfits (show 0 < t.word.length by omega)
  have hts := KeyTest.isSame_of_fits hfits hhead.1
  rw [hhead.2.2.2.2.1 (isSame_trans hta (isSame_symm ha)) (isSame_trans hts (isSame_symm hs))]
    at hfound
  exact hfound

/-- A call that looks ahead finds the first keyword in the window. -/
theorem specialN_ahead {o offend i ret : Int} (h0 : 0 ≤ o) (hend : offend ≤ T.pclen)
    (hoi : o ≤ i) (hi : i < offend) (hfound : specialProbeN T i = .found ret) :
    ∃ k, o ≤ k ∧ k ≤ i ∧
      specialProbeN T k = .found (hasSpecialKeyWordsN T o (offend - o)) := by
  unfold hasSpecialKeyWordsN
  rw [defineStartAndEnd_ahead h0 (by omega) hend]
  obtain ⟨k, hok, hki, hk, -⟩ := scanWindow_first (n := (offend - o).toNat)
    (specialProbeN_ne_stop T) hoi (by omega) hfound
  exact ⟨k, hok, hki, hk⟩

/-- The loop gets to `is a ` wherever it starts in front of it. -/
theorem specialN_reaches {offend i : Int} (hend : offend ≤ T.pclen) (hi : i < offend)
    (hblank : T.char (i - 1) = ' '.toUInt8) (hisA : (etTestStr "is a ").fits T i = true)
    {o : Int} (h0 : 0 ≤ o) (hoi : o ≤ i) (num : Nat) :
    ∃ n num', Passes (keyPass (hasSpecialKeyWordsN T) offend) n (o, num) (i + 5, num') := by
  have hfound := specialProbeN_isA hblank hisA
  generalize hm : (i - o).toNat = m
  induction m using Nat.strong_induction_on generalizing o num with
  | _ m ih =>
      obtain ⟨k, hok, hki, hk⟩ := specialN_ahead h0 hend hoi hi hfound
      have hnext : ∀ r, hasSpecialKeyWordsN T o (offend - o) = r → 0 < r →
          keyPass (hasSpecialKeyWordsN T) offend (o, num) = .next (r, num + 1) := by
        rintro r rfl hpos
        rw [keyPass, if_pos hpos]
      rcases eq_or_lt_of_le hki with rfl | hlt
      · rw [hk, Probe.found.injEq] at hfound
        exact ⟨1, num + 1, _, hnext _ hfound (by omega), rfl⟩
      · generalize hr : hasSpecialKeyWordsN T o (offend - o) = r at hk hnext
        obtain ⟨-, t, ht, -, hlen⟩ := specialProbeN_found hk
        have hpos := (specialKeyWordsN_head t ht).1
        -- no keyword reaches over the place of another that begins with an i
        have hri : r ≤ i := by
          by_contra hover
          have hno := (specialProbeN_inner hk hlt (by omega) hblank).1
          have hyes := KeyTest.isSame_of_fits hisA (show 0 < _ by decide)
          rw [Int.natCast_zero, add_zero] at hyes
          rw [show isSame 'i'.toUInt8 (T.char i) = true from hyes] at hno
          contradiction
        obtain ⟨n, num', hrest⟩ := ih _ (by omega) (by omega) hri (num + 1) rfl
        exact ⟨n + 1, num', .cons (hnext r rfl (by omega)) hrest⟩

/-- Behind `is a ` the search goes back to the end of the window and finds `A Proof of `. -/
theorem specialN_behind {offend i : Int} (h0 : 0 ≤ offend) (hi : i < offend)
    (hover : offend ≤ i + 3) (hlen : i + 3 < T.pclen)
    (hisA : (etTestStr "is a ").fits T i = true)
    (hproof : (etTestStr "A Proof of ").fits T (i + 3) = true) {o : Int} (ho : i + 3 < o) :
    hasSpecialKeyWordsN T o (offend - o) = i + 14 := by
  have hchars : isSame 'i'.toUInt8 (T.char i) = true ∧
      isSame 's'.toUInt8 (T.char (i + 1)) = true ∧
      isSame ' '.toUInt8 (T.char (i + 2)) = true := by
    have h0 := KeyTest.isSame_of_fits hisA (show 0 < _ by decide)
    have h1 := KeyTest.isSame_of_fits hisA (show 1 < _ by decide)
    have h2 := KeyTest.isSame_of_fits hisA (show 2 < _ by decide)
    rw [Int.natCast_zero, add_zero] at h0
    exact ⟨h0, h1, h2⟩
  have hblank : T.char (i + 3 - 1) = ' '.toUInt8 := by
    rw [show i + 3 - 1 = i + 2 by omega]
    exact blank_of_isSame _ hchars.2.2
  have hfound := specialProbeN_proof hblank hproof
  unfold hasSpecialKeyWordsN
  rw [defineStartAndEnd_behind (by omega), max_eq_left h0]
  dsimp only
  obtain ⟨k, hk, hki, hkfound, -⟩ := scanWindow_first (i := offend)
    (n := (min o T.pclen - offend).toNat) (specialProbeN_ne_stop T) hover (by omega) hfound
  have hkblank := (specialProbeN_found hkfound).1
  -- neither of the two letters is a blank
  have hk3 : k = i + 3 := by
    have hne1 : k ≠ i + 1 := by
      rintro rfl
      rw [show i + 1 - 1 = i by omega] at hkblank
      rw [hkblank] at hchars
      exact absurd hchars.1 (by decide)
    have hne2 : k ≠ i + 2 := by
      rintro rfl
      rw [show i + 2 - 1 = i + 1 by omega] at hkblank
      rw [hkblank] at hchars
      exact absurd hchars.2.1 (by decide)
    omega
  rw [hk3, hfound, Probe.found.injEq] at hkfound
  omega

/-- Two keywords across the end of the window are found for ever. -/
theorem not_enumerates_specialN (h : Straddles T (defineStartAndEnd T offset limit).1
    (defineStartAndEnd T offset limit).2) :
    ¬ Enumerates T (hasSpecialKeyWordsN T) offset limit := by
  obtain ⟨i, hstart, hi, hover, hlen, hblank, hisA, hproof⟩ := h
  obtain ⟨h0, hend⟩ := defineStartAndEnd_bounds T offset limit
  obtain ⟨n, num, hreach⟩ := specialN_reaches hend hi hblank hisA h0 hstart 0
  have hfirst := @specialN_behind T _ i (by omega) hi hover hlen hisA hproof (i + 5) (by omega)
  have hagain := @specialN_behind T _ i (by omega) hi hover hlen hisA hproof (i + 14) (by omega)
  have hpass : keyPass (hasSpecialKeyWordsN T) (defineStartAndEnd T offset limit).2 (i + 5, num) =
      .next (i + 14, num + 1) := by
    rw [keyPass, hfirst, if_pos (by omega)]
  have hgo : Passes (keyPass (hasSpecialKeyWordsN T) (defineStartAndEnd T offset limit).2) 1
      (i + 5, num) (i + 14, num + 1) := ⟨_, hpass, rfl⟩
  apply not_enumerates (hreach.append hgo)
  · rw [hagain]
    omega
  · rw [hagain]

end Finders

end CiteParser
