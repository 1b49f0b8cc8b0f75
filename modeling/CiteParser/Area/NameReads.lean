import CiteParser.Area.ScannerReads

/-!
# Names without a delimiter

Where the two characters behind a name are not those that they are expected to be,
`hasNameafterTheOffset1` and its sibling run on to the next delimiter. Nothing else ends that
search, so it leaves the text if there is none.
-/

namespace CiteParser

open Loop Traced

/-- A word that begins with a capital, a character that may follow it, and blanks up to `p`. -/
structure WordBlanks (N : NameShape) (T : Pcontent) (offend u w p : Int) : Prop where
  capital : isUppercaseCode (T.char u) = true
  lt : u < w
  letters : ∀ k, u ≤ k → k < w → fitPattern 'a'.toUInt8 (T.char k) = true
  follows : N.follows (T.char w) = true
  le : w ≤ offend - 3
  behind : w < p
  blanks : ∀ k, w < k → k < p → T.char k = ' '.toUInt8

/-- Behind such a word, which begins at `i` or later, and the blanks stands the character at `p`:
a capital if it has to be. -/
def NextWord (N : NameShape) (T : Pcontent) (offend i p : Int) : Prop :=
  ∃ u w, i ≤ u ∧ WordBlanks N T offend u w p ∧ p ≤ offend - 2 ∧ T.char p ≠ ' '.toUInt8 ∧
    (N.capital = true → isUppercaseCode (T.char p) = true)

/-- There is a delimiter in the text from `p` on. -/
def Delimited (T : Pcontent) (p : Int) : Prop :=
  ∃ k, p ≤ k ∧ k < T.pclen ∧ fitPattern 'e'.toUInt8 (T.char k) = true

/-- A delimiter follows on the first of these characters, if one is sought there. -/
def NameDelimited (N : NameShape) (T : Pcontent) (offend i : Int) : Prop :=
  N.seeks = true → ∀ p, NextWord N T offend i p →
    (∀ q, q < p → ¬ NextWord N T offend i q) → Delimited T p

/-- The offset that the head of the loop looks at. -/
def headOffset (i tag : Int) : Int := if 1 < i - tag then i - 1 else i

/-- What is known at a point of these finders, and from which points they stay in the text. -/
def nameVerdict (N : NameShape) (T : Pcontent) (offend : Int) : Verdict NamePoint where
  inv
    | .head i tag => 0 ≤ headOffset i tag
    | .word i tag => 0 ≤ tag ∧ tag ≤ i ∧ isUppercaseCode (T.char tag) = true ∧
        (∀ k, tag ≤ k → k < i → fitPattern 'a'.toUInt8 (T.char k) = true) ∧
        (i = tag ∧ i < offend ∨ i ≤ offend - 3)
    | .blanks i tag => 0 ≤ tag ∧ i ≤ offend - 2 ∧ ∃ w, WordBlanks N T offend tag w i
    | .search i => 0 ≤ i ∧ i ≤ T.pclen + 1
  safe
    | .head i tag => NameDelimited N T offend (headOffset i tag)
    | .word _ tag => NameDelimited N T offend tag
    | .blanks _ tag => NameDelimited N T offend tag
    | .search i => Delimited T i
  measure
    | .head i tag => (3 * (T.pclen + 3 - headOffset i tag)).toNat
    | .word i tag => (3 * (T.pclen + 3 - i) + if i = tag then -1 else 1).toNat
    | .blanks i _ => (3 * (T.pclen + 3 - i) + 1).toNat
    | .search i => (3 * (T.pclen + 3 - i)).toNat

section Words

variable {N : NameShape} {T : Pcontent} {offend i j p u v w tag : Int}

/-- A capital is a letter, and no blank. -/
theorem letter_of_isUppercaseCode : ∀ c : UInt8, isUppercaseCode c = true →
    fitPattern 'a'.toUInt8 c = true ∧ c ≠ ' '.toUInt8 := by decide +kernel

/-- A blank is a delimiter, and the terminator is none. -/
theorem delimiter_blank : fitPattern 'e'.toUInt8 ' '.toUInt8 = true ∧
    fitPattern 'e'.toUInt8 0 = false := by decide

/-- What follows a word is no letter of it. -/
theorem WordBlanks.not_letter (h : WordBlanks N T offend u w p) :
    fitPattern 'a'.toUInt8 (T.char w) = false := N.not_letter _ h.follows

/-- A word that begins among letters ends where these end. -/
theorem WordBlanks.end_eq (h : WordBlanks N T offend u w p)
    (hletters : ∀ k, tag ≤ k → k < i → fitPattern 'a'.toUInt8 (T.char k) = true)
    (hi : fitPattern 'a'.toUInt8 (T.char i) = false) (htag : tag ≤ u) (hu : u < i) : w = i := by
  rcases lt_trichotomy w i with hlt | heq | hlt
  · have hletter := hletters w (htag.trans h.lt.le) hlt
    rw [h.not_letter] at hletter
    contradiction
  · exact heq
  · have hletter := h.letters i hu.le hlt
    rw [hi] at hletter
    contradiction

theorem NextWord.lt (h : NextWord N T offend i p) : i + 1 < p ∧ i < offend - 3 := by
  obtain ⟨u, w, hu, hword, -⟩ := h
  have hlt := hword.lt
  have hbehind := hword.behind
  have hle := hword.le
  constructor <;> omega

theorem NextWord.mono (h : NextWord N T offend i p) (hj : j ≤ i) : NextWord N T offend j p := by
  obtain ⟨u, w, hu, hrest⟩ := h
  exact ⟨u, w, hj.trans hu, hrest⟩

/-- A word does not begin at an offset that is no capital. -/
theorem nextWord_succ (h : ¬ isUppercaseCode (T.char i) = true) :
    NextWord N T offend (i + 1) p ↔ NextWord N T offend i p := by
  refine ⟨fun hp => hp.mono (by omega), ?_⟩
  rintro ⟨u, w, hu, hword, hrest⟩
  have hne : i ≠ u := by
    rintro rfl
    exact h hword.capital
  exact ⟨u, w, by omega, hword, hrest⟩

/-- Letters that reach too far hold no word. -/
theorem not_nextWord_of_letters
    (hletters : ∀ k, tag ≤ k → k ≤ i → fitPattern 'a'.toUInt8 (T.char k) = true)
    (hi : offend - 3 ≤ i) : ¬ NextWord N T offend tag p := by
  rintro ⟨u, w, hu, hword, -⟩
  have hlt := hword.lt
  have hle := hword.le
  have hletter := hletters w (by omega) (by omega)
  rw [hword.not_letter] at hletter
  contradiction

/-- A word that nothing that may follow it follows is passed over. -/
theorem nextWord_of_letters
    (hletters : ∀ k, tag ≤ k → k < i → fitPattern 'a'.toUInt8 (T.char k) = true)
    (hi : fitPattern 'a'.toUInt8 (T.char i) = false) (hle : tag ≤ i)
    (hfollows : ¬ N.follows (T.char i) = true) :
    NextWord N T offend i p ↔ NextWord N T offend tag p := by
  refine ⟨fun hp => hp.mono hle, ?_⟩
  rintro ⟨u, w, hu, hword, hrest⟩
  rcases lt_or_ge u i with hlt | hge
  · obtain rfl := hword.end_eq hletters hi hu hlt
    exact absurd hword.follows hfollows
  · exact ⟨u, w, hge, hword, hrest⟩

/-- A word and blanks up to `i`: what is found from the word on is found there or later. -/
theorem WordBlanks.nextWord (h : WordBlanks N T offend tag w i)
    (hp : NextWord N T offend tag p) :
    NextWord N T offend i p ∨ i ≤ p ∧ (i < p → T.char i = ' '.toUInt8) := by
  obtain ⟨u, v, hu, hword, hle, hblank, hcapital⟩ := hp
  rcases lt_or_ge u w with hlt | hge
  · obtain rfl := hword.end_eq h.letters h.not_letter hu hlt
    refine .inr ⟨?_, fun hip => hword.blanks i h.behind hip⟩
    by_contra hpi
    exact hblank (h.blanks p hword.behind (by omega))
  · refine .inl ⟨u, v, ?_, hword, hle, hblank, hcapital⟩
    by_contra hui
    rcases eq_or_lt_of_le hge with rfl | hwu
    · have hletter := (letter_of_isUppercaseCode _ hword.capital).1
      rw [h.not_letter] at hletter
      contradiction
    · exact (letter_of_isUppercaseCode _ hword.capital).2 (h.blanks u hwu (by omega))

/-- What is found with a word and blanks up to a character that is no blank. -/
theorem WordBlanks.nextWord_iff (h : WordBlanks N T offend tag w i)
    (hi : T.char i ≠ ' '.toUInt8) : NextWord N T offend tag p ↔ NextWord N T offend i p ∨
      p = i ∧ i ≤ offend - 2 ∧ (N.capital = true → isUppercaseCode (T.char i) = true) := by
  constructor
  · intro hp
    rcases h.nextWord hp with hnext | ⟨hle, hblank⟩
    · exact .inl hnext
    · have heq : p = i := by
        by_contra hne
        exact hi (hblank (by omega))
      subst heq
      obtain ⟨u, v, -, -, hend, -, hcapital⟩ := hp
      exact .inr ⟨rfl, hend, hcapital⟩
  · rintro (hnext | ⟨rfl, hend, hcapital⟩)
    · exact hnext.mono (h.lt.trans h.behind).le
    · exact ⟨tag, w, le_rfl, h, hend, hi, hcapital⟩

/-- Offsets from which the same is found. -/
theorem nameDelimited_congr (h : ∀ p, NextWord N T offend i p ↔ NextWord N T offend j p) :
    NameDelimited N T offend i ↔ NameDelimited N T offend j := by
  simp only [NameDelimited, h]

/-- Nothing is found. -/
theorem nameDelimited_of_not (h : ∀ p, ¬ NextWord N T offend i p) : NameDelimited N T offend i :=
  fun _ p hp => absurd hp (h p)

/-- The first that is found is the character itself. -/
theorem WordBlanks.nameDelimited_iff (h : WordBlanks N T offend tag w i)
    (hend : i ≤ offend - 2) (hi : T.char i ≠ ' '.toUInt8)
    (hcapital : N.capital = true → isUppercaseCode (T.char i) = true) :
    NameDelimited N T offend tag ↔ (N.seeks = true → Delimited T i) := by
  have hself : NextWord N T offend tag i := (h.nextWord_iff hi).mpr (.inr ⟨rfl, hend, hcapital⟩)
  have hfirst : ∀ q, NextWord N T offend tag q → i ≤ q := fun q hq =>
    ((h.nextWord_iff hi).mp hq).elim (fun hnext => by have := hnext.lt.1; omega)
      fun heq => heq.1.ge
  constructor
  · intro hdelimited hseeks
    exact hdelimited hseeks i hself fun q hq hnext => by have := hfirst q hnext; omega
  · intro hdelimited hseeks p hp hnone
    have heq : p = i := le_antisymm (not_lt.mp fun hlt => hnone i hlt hself) (hfirst p hp)
    exact heq ▸ hdelimited hseeks

/-- The search for a delimiter goes past a character that is none. -/
theorem delimited_succ (h : fitPattern 'e'.toUInt8 (T.char p) = false) :
    Delimited T (p + 1) ↔ Delimited T p := by
  constructor
  · rintro ⟨k, hk, hrest⟩
    exact ⟨k, by omega, hrest⟩
  · rintro ⟨k, hk, hlt, hdelimiter⟩
    have hne : p ≠ k := by
      rintro rfl
      rw [h] at hdelimiter
      contradiction
    exact ⟨k, by omega, hlt, hdelimiter⟩

end Words

section Passes

variable {N : NameShape} {T : Pcontent} {offend i tag : Int}

/-- The next head of the loop looks at the offset itself, if the word took a character. -/
theorem headOffset_of_lt (h : tag < i) : headOffset (i + 1) tag = i := by
  rw [headOffset]
  split <;> omega

theorem headOffset_self (i : Int) : headOffset (i + 1) i = i + 1 := by
  rw [headOffset]
  split <;> omega

theorem headOffset_bounds (i tag : Int) : headOffset i tag ≤ i ∧ i - 1 ≤ headOffset i tag := by
  rw [headOffset]
  split <;> omega

theorem namePass_head (hend : offend ≤ T.pclen)
    (hinv : (nameVerdict N T offend).inv (.head i tag)) :
    (nameVerdict N T offend).Decides T.Holds (.head i tag)
      (findNamePass N T offend (.head i tag)) := by
  have h0 : 0 ≤ headOffset i tag := hinv
  have hbounds := headOffset_bounds i tag
  rw [findNamePass]
  split
  · rename_i hlt
    rw [← headOffset, Pcontent.decides_read]
    refine ⟨fun _ => ⟨h0, by omega⟩, fun _ => ?_⟩
    split
    · rename_i hcapital
      refine Verdict.decides_next.mpr ⟨⟨h0, le_rfl, hcapital, fun k hk hlt => by omega,
        .inl ⟨rfl, by omega⟩⟩, ?_, Iff.rfl⟩
      dsimp only [nameVerdict]
      rw [if_pos rfl]
      omega
    · rename_i hcapital
      refine Verdict.decides_next.mpr ⟨?_, ?_, ?_⟩
      · dsimp only [nameVerdict]
        rw [headOffset_self]
        omega
      · dsimp only [nameVerdict]
        rw [headOffset_self]
        omega
      · dsimp only [nameVerdict]
        rw [headOffset_self]
        exact nameDelimited_congr fun p => nextWord_succ hcapital
  · refine Verdict.decides_exit.mpr (nameDelimited_of_not fun p hp => ?_)
    have hlt := hp.lt.2
    omega

/-- Behind a word that is not followed as it should be the loop looks at the same offset again. -/
theorem nameVerdict_head {s : NamePoint} (h0 : 0 ≤ i) (hlt : tag < i)
    (hmeasure : (3 * (T.pclen + 3 - i)).toNat < (nameVerdict N T offend).measure s)
    (hiff : NameDelimited N T offend i ↔ (nameVerdict N T offend).safe s) :
    (nameVerdict N T offend).Decides T.Holds s
      (pure (.next (.head (i + 1) tag)) : Traced Int (Outcome _ Int)) := by
  refine Verdict.decides_next.mpr ⟨?_, ?_, ?_⟩
  · dsimp only [nameVerdict]
    rwa [headOffset_of_lt hlt]
  · have hhead : (nameVerdict N T offend).measure (.head (i + 1) tag) =
        (3 * (T.pclen + 3 - i)).toNat := by
      dsimp only [nameVerdict]
      rw [headOffset_of_lt hlt]
    rwa [hhead]
  · have hhead : (nameVerdict N T offend).safe (.head (i + 1) tag) =
        NameDelimited N T offend i := by
      dsimp only [nameVerdict]
      rw [headOffset_of_lt hlt]
    rwa [hhead]

theorem namePass_word (hend : offend ≤ T.pclen)
    (hinv : (nameVerdict N T offend).inv (.word i tag)) :
    (nameVerdict N T offend).Decides T.Holds (.word i tag)
      (findNamePass N T offend (.word i tag)) := by
  obtain ⟨h0, hle, hcapital, hletters, hi⟩ := hinv
  rw [findNamePass, Pcontent.decides_read]
  refine ⟨fun _ => ⟨by omega, by omega⟩, fun _ => ?_⟩
  split
  · rename_i hletter
    have hletters' : ∀ k, tag ≤ k → k ≤ i → fitPattern 'a'.toUInt8 (T.char k) = true := by
      intro k hk hki
      rcases eq_or_lt_of_le hki with rfl | hlt
      · exact hletter
      · exact hletters k hk hlt
    split
    · exact Verdict.decides_exit.mpr
        (nameDelimited_of_not fun p => not_nextWord_of_letters hletters' (by omega))
    · refine Verdict.decides_next.mpr ⟨⟨h0, by omega, hcapital,
        fun k hk hki => hletters' k hk (by omega), .inr (by omega)⟩, ?_, Iff.rfl⟩
      dsimp only [nameVerdict]
      rw [if_neg (show ¬ i + 1 = tag by omega)]
      split <;> omega
  · rename_i hletter
    rw [Bool.not_eq_true] at hletter
    have hlt : tag < i := by
      rcases eq_or_lt_of_le hle with rfl | hlt
      · rw [(letter_of_isUppercaseCode _ hcapital).1] at hletter
        contradiction
      · exact hlt
    split
    · rename_i hfollows
      refine Verdict.decides_next.mpr ⟨⟨h0, by omega, i, hcapital, hlt, hletters,
        hfollows.2, by omega, by omega, fun k hk hki => by omega⟩, ?_, Iff.rfl⟩
      dsimp only [nameVerdict]
      rw [if_neg hlt.ne']
      omega
    · rename_i hfollows
      refine nameVerdict_head (by omega) hlt ?_ (nameDelimited_congr fun p =>
        nextWord_of_letters hletters hletter hle fun h => hfollows ⟨by omega, h⟩)
      dsimp only [nameVerdict]
      rw [if_neg hlt.ne']
      omega

theorem namePass_blanks (hend : offend ≤ T.pclen)
    (hinv : (nameVerdict N T offend).inv (.blanks i tag)) :
    (nameVerdict N T offend).Decides T.Holds (.blanks i tag)
      (findNamePass N T offend (.blanks i tag)) := by
  obtain ⟨h0, hi, w, hword⟩ := hinv
  have hlt : tag < i := hword.lt.trans hword.behind
  rw [findNamePass, Pcontent.decides_read]
  refine ⟨fun _ => ⟨by omega, by omega⟩, fun _ => ?_⟩
  split
  · rename_i hblank
    split
    · refine Verdict.decides_exit.mpr (nameDelimited_of_not fun p hp => ?_)
      obtain ⟨u, v, -, hword', hle, hne, -⟩ := id hp
      rcases hword.nextWord hp with hnext | ⟨hip, -⟩
      · have hip := hnext.lt.1
        omega
      · exact hne (show p = i by omega ▸ hblank)
    · refine Verdict.decides_next.mpr ⟨⟨h0, by omega, w, { hword with
        behind := hword.behind.trans (by omega)
        blanks := fun k hk hki => ?_ }⟩, by dsimp only [nameVerdict]; omega, Iff.rfl⟩
      rcases eq_or_lt_of_le (show k ≤ i by omega) with rfl | hki
      · exact hblank
      · exact hword.blanks k hk hki
  · rename_i hblank
    have hhead : (NameDelimited N T offend i ↔ NameDelimited N T offend tag) →
        (nameVerdict N T offend).Decides T.Holds (.blanks i tag)
          (pure (.next (.head (i + 1) tag)) : Traced Int (Outcome _ Int)) :=
      fun hiff => nameVerdict_head (by omega) hlt (by dsimp only [nameVerdict]; omega) hiff
    split
    · rename_i hmissing
      rw [Bool.and_eq_true, Bool.not_eq_true'] at hmissing
      refine hhead (nameDelimited_congr fun p => ?_)
      rw [hword.nextWord_iff hblank]
      refine ⟨.inl, ?_⟩
      rintro (hnext | ⟨-, -, hcapital⟩)
      · exact hnext
      · rw [hcapital hmissing.1] at hmissing
        exact absurd hmissing.2 (by decide)
    · rename_i hpresent
      have hiff := hword.nameDelimited_iff hi hblank fun hcapital => by
        simpa [hcapital] using hpresent
      have hfails : (nameVerdict N T offend).Decides T.Holds (.blanks i tag)
          (pure (.next (if N.seeks then .search i else .head (i + 1) tag)) :
            Traced Int (Outcome _ Int)) := by
        split
        · rename_i hseeks
          refine Verdict.decides_next.mpr ⟨⟨by omega, by omega⟩,
            by dsimp only [nameVerdict]; omega, ?_⟩
          exact ⟨fun h => hiff.mpr fun _ => h, fun h => hiff.mp h hseeks⟩
        · rename_i hseeks
          exact hhead ⟨fun _ h => absurd h hseeks, fun _ h => absurd h hseeks⟩
      dsimp only
      split
      · rw [Pcontent.decides_read]
        refine ⟨fun _ => ⟨by omega, by omega⟩, fun _ => ?_⟩
        split
        · rename_i hsecond
          exact Verdict.decides_exit.mpr (hiff.mpr fun hseeks =>
            ⟨i + 1, by omega, by omega, N.delimits hseeks _ hsecond⟩)
        · exact hfails
      · exact hfails

theorem namePass_search (hterm : T.char T.pclen = 0)
    (hinv : (nameVerdict N T offend).inv (.search i)) :
    (nameVerdict N T offend).Decides T.Holds (.search i)
      (findNamePass N T offend (.search i)) := by
  obtain ⟨h0, hle⟩ := hinv
  rw [findNamePass, Pcontent.decides_read]
  constructor
  · rintro ⟨k, hik, hlt, -⟩
    exact ⟨h0, by omega⟩
  · rintro ⟨-, hle⟩
    split
    · rename_i hplain
      rw [Bool.and_eq_true, Bool.not_eq_true'] at hplain
      exact Verdict.decides_next.mpr ⟨⟨by omega, by omega⟩,
        by dsimp only [nameVerdict]; omega, delimited_succ hplain.1⟩
    · rename_i hdelimiter
      have hstop : fitPattern 'e'.toUInt8 (T.char i) = true := by
        by_contra hno
        refine hdelimiter ?_
        rw [Bool.and_eq_true, Bool.not_eq_true', bne_iff_ne]
        refine ⟨by simpa using hno, ?_⟩
        intro hblank
        rw [hblank] at hno
        exact hno delimiter_blank.1
      have hne : i ≠ T.pclen := by
        rintro rfl
        rw [hterm, delimiter_blank.2] at hstop
        contradiction
      exact Verdict.decides_exit.mpr ⟨i, le_rfl, by omega, hstop⟩

theorem findNamePass_decides (N : NameShape) (hterm : T.char T.pclen = 0)
    (hend : offend ≤ T.pclen) (s : NamePoint) (hs : (nameVerdict N T offend).inv s) :
    (nameVerdict N T offend).Decides T.Holds s (findNamePass N T offend s) := by
  cases s with
  | head i tag => exact namePass_head hend hs
  | word i tag => exact namePass_word hend hs
  | blanks i tag => exact namePass_blanks hend hs
  | search i => exact namePass_search hterm hs

/-- The first offset that the head of the loop looks at lies in the text. -/
theorem headOffset_start (hi : 0 ≤ i) : 0 ≤ headOffset i 0 := by
  rw [headOffset]
  split <;> omega

/-- A finder of names leaves the text where the first word that it finds is the last thing in
front of a delimiter. -/
theorem safe_findNamePass_iff (N : NameShape) (hterm : T.char T.pclen = 0)
    (hend : offend ≤ T.pclen) (hi : 0 ≤ i) : Safe T.Holds (findNamePass N T offend) (.head i 0) ↔
      NameDelimited N T offend (headOffset i 0) := by
  have hstart : (nameVerdict N T offend).inv (.head i 0) := headOffset_start hi
  exact Verdict.safe_iff (findNamePass_decides N hterm hend) hstart

end Passes

end CiteParser
