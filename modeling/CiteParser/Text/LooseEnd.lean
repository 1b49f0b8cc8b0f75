import CiteParser.Text.SplitFacts

/-!
# Loose ends

The last pointer of `spilitContent` is written by the final loop only, for a delimiter that is
no blank and that stands right where the loop before it has stopped. `nextdeli` is set in more
places: to a hyphen at the end of a token that a digit follows, and to whatever stands behind
the blanks. A token has a loose end where these are no delimiters.
-/

namespace CiteParser

open Loop

/-- The index at which the main loop is left. -/
def stopIndex (dlen : Nat) (src : Nat → UInt8) (len : Nat) : Nat :=
  match splitLoop dlen src len with
  | .ok s => s.i
  | .error s => s.i

/-- From a place on, past any blanks, stands a character that is no letter, no digit and no
delimiter. -/
def LooseFrom (src : Nat → UInt8) (len i : Nat) : Prop :=
  ∃ q, i ≤ q ∧ q < len ∧ (∀ j, i ≤ j → j < q → isBlank (src j) = true) ∧
    isDelimiter (src q) = false ∧ isAsciiOrDigit (src q) = false

/-- Such a character stands behind the token. -/
def LooseEnd (dlen : Nat) (src : Nat → UInt8) (len : Nat) : Prop :=
  LooseFrom src len (stopIndex dlen src len)

/-- A call writes to its last pointer: what stood there before does not come out again. -/
def AssignsNp (dlen : Nat) (src : Nat → UInt8) (len : Nat) : Prop :=
  ∀ p q, (spilitContent dlen src len p).np = (spilitContent dlen src len q).np

/-- How the main loop is left with a token, and what it reports behind it. -/
inductive StopsAt (src : Nat → UInt8) (len : Nat) (s : SplitState) : Prop
  | done (hi : len ≤ s.i) (hnext : s.nextdeli = ' '.toUInt8)
  | hyphen (hi : s.i < len) (hconnect : isConnectCh (src s.i) = true)
      (hnext : s.nextdeli = '-'.toUInt8)
  | delimiter (hi : s.i < len) (hdel : isDelimiter (src s.i) = true)
      (hnext : s.nextdeli = src s.i)
      (hahead : connectAhead src (len - (s.i + 1)) (s.i + 1) = none)
  | change (hi : s.i < len) (hword : isAsciiOrDigit (src s.i) = true)
      (hnext : s.nextdeli = ' '.toUInt8)

/-! ## Characters -/

/-- Blanks are delimiters. -/
theorem isDelimiter_of_isBlank : ∀ a : UInt8, isBlank a = true → isDelimiter a = true := by
  decide +kernel

/-- A connector is neither a blank nor a delimiter. -/
theorem plain_of_isConnectCh : ∀ a : UInt8, isConnectCh a = true →
    isBlank a = false ∧ isDelimiter a = false := by decide +kernel

/-- Only letters and digits have a type. -/
theorem isAsciiOrDigit_of_checkCharType : ∀ a : UInt8, checkCharType a ≠ 0 →
    isAsciiOrDigit a = true := by decide +kernel

/-- No blank is a letter, a digit or a connector. -/
theorem quiet_of_isBlank {a : UInt8} (h : isBlank a = true) :
    isAsciiOrDigit a = false ∧ isConnectCh a = false := by
  refine ⟨not_isAsciiOrDigit_of_isDelimiter a (isDelimiter_of_isBlank a h), ?_⟩
  by_contra hconnect
  rw [Bool.not_eq_false] at hconnect
  rw [(plain_of_isConnectCh a hconnect).1] at h
  contradiction

/-! ## The main loop -/

section Stop

variable {src : Nat → UInt8} {len dlen : Nat} {s e : SplitState}

/-- Where the tests of a pass end a token. -/
theorem stopsAt_of_splitTest (hlt : s.i < len) (hquiet : s.nextdeli = ' '.toUInt8)
    (h : splitTest src len s = .exit e) (hflag : e.flag = true) : StopsAt src len e := by
  rw [splitTest] at h
  split at h
  · rename_i hhyphen
    simp only [Bool.and_eq_true, decide_eq_true_eq] at hhyphen
    cases h
    exact .hyphen hlt hhyphen.1.1 rfl
  · rw [splitBranch] at h
    split at h
    · -- no token has started
      split at h
      · contradiction
      · split at h <;> contradiction
    · split at h
      · rename_i hdel
        split at h
        · contradiction
        · rename_i hahead
          cases h
          exact .delimiter hlt (Bool.and_eq_true_iff.mp hdel).1 rfl hahead
      · split at h
        · rename_i htype
          simp only [Bool.and_eq_true, bne_iff_ne] at htype
          cases h
          exact .change hlt (isAsciiOrDigit_of_checkCharType _ htype.1.2) hquiet
        · contradiction

/-- A pass that leaves the loop with a token stops there. -/
theorem SplitInv.stopsAt (hs : SplitInv src len s)
    (h : splitPass dlen src len s = .exit (.ok e)) (hflag : e.flag = true) :
    StopsAt src len e := by
  rcases splitPass_ok h with ⟨hge, rfl⟩ | ⟨hlt, htest⟩
  · exact .done hge hs.quiet
  · exact stopsAt_of_splitTest hlt hs.quiet htest hflag

/-- The main loop stops in one of the four ways when it has found a token. -/
theorem splitLoop_stopsAt (h : splitLoop dlen src len = .ok e) (hflag : e.flag = true) :
    StopsAt src len e := by
  obtain ⟨b, hrun, hb⟩ := run_rule (splitPass dlen src len) (len + 1) .init
    (SplitInv src len) (fun s => len - s.i)
    (fun b => ∀ e, b = .ok e → e.flag = true → StopsAt src len e)
    (fun _ _ hs h => hs.pass h)
    (fun s b hs h e he hflag => hs.stopsAt (by rw [h, he]) hflag) (splitInv_init src len)
    (by simp only [SplitState.init]; omega)
  have hloop : splitLoop dlen src len = b := by
    rw [splitLoop, hrun]
    rfl
  exact hb e (hloop.symm.trans h) hflag

end Stop

/-! ## What stands behind a token -/

section Behind

variable {src : Nat → UInt8} {n i q : Nat} {nextdeli np : UInt8}

/-- A scan that moves on at every index of a stretch goes on behind the stretch. -/
theorem scan_moves {β : Type*} {scan : Nat → Nat → β} (hq : i ≤ q) (hn : q ≤ i + n)
    (hmove : ∀ m j, i ≤ j → j < q → scan (m + 1) j = scan m (j + 1)) :
    scan n i = scan (i + n - q) q := by
  induction n generalizing i with
  | zero => rw [show q = i by omega, Nat.add_zero, Nat.sub_self]
  | succ n ih =>
      rcases Nat.lt_or_eq_of_le hq with hlt | rfl
      · rw [hmove n i (Nat.le_refl i) hlt,
          ih hlt (by omega) (fun m j hj => hmove m j (Nat.le_of_succ_le hj))]
        congr 1
        omega
      · rw [Nat.add_sub_cancel_left]

/-- Both scans behind a token pass over blanks. -/
theorem nextDelimiter_blanks (hq : i ≤ q) (hn : q ≤ i + n)
    (hblank : ∀ j, i ≤ j → j < q → isBlank (src j) = true) :
    nextDelimiter src n i nextdeli = nextDelimiter src (i + n - q) q nextdeli := by
  apply @scan_moves n i q _ (fun n i => nextDelimiter src n i nextdeli) hq hn
  intro m j hj hjq
  have hi := hblank j hj hjq
  rw [nextDelimiter, (quiet_of_isBlank hi).1, hi, if_neg Bool.false_ne_true,
    if_neg (by rw [Bool.not_true, Bool.false_and]; exact Bool.false_ne_true)]

/-- The look-ahead passes over blanks. -/
theorem connectAhead_blanks (hq : i ≤ q) (hn : q ≤ i + n)
    (hblank : ∀ j, i ≤ j → j < q → isBlank (src j) = true) :
    connectAhead src n i = connectAhead src (i + n - q) q := by
  apply scan_moves hq hn
  intro m j hj hjq
  have hi := hblank j hj hjq
  rw [connectAhead, (quiet_of_isBlank hi).1, (quiet_of_isBlank hi).2, hi,
    if_neg Bool.false_ne_true, if_neg Bool.false_ne_true,
    if_neg (by rw [Bool.not_true, Bool.and_false]; exact Bool.false_ne_true)]

/-- The final loop writes its pointer at a delimiter that is no blank. -/
theorem skipDelimiters_assigns (hn : 0 < n) (hdel : isDelimiter (src i) = true)
    (hblank : isBlank (src i) = false) (p r : UInt8) :
    (skipDelimiters src n i p).2 = (skipDelimiters src n i r).2 := by
  obtain ⟨n, rfl⟩ := Nat.exists_eq_succ_of_ne_zero (Nat.ne_of_gt hn)
  rw [skipDelimiters, skipDelimiters, hdel, hblank]
  rfl

/-- The final loop does not start at a character that is no delimiter. -/
theorem skipDelimiters_stays (hdel : isDelimiter (src i) = false) :
    (skipDelimiters src n i np).2 = np := by
  cases n with
  | zero => rfl
  | succ n =>
      rw [skipDelimiters, hdel]
      rfl

/-- The first character from a place on that is no blank, if there is one. -/
theorem exists_first_solid (src : Nat → UInt8) (i len : Nat) :
    (∀ j, i ≤ j → j < len → isBlank (src j) = true) ∨
      ∃ q, i ≤ q ∧ q < len ∧ (∀ j, i ≤ j → j < q → isBlank (src j) = true) ∧
        isBlank (src q) = false := by
  by_cases hall : ∀ j, i ≤ j → j < len → isBlank (src j) = true
  · exact .inl hall
  · have hex : ∃ q, i ≤ q ∧ q < len ∧ isBlank (src q) = false := by
      simpa using hall
    obtain ⟨hlow, hhigh, hsolid⟩ := Nat.find_spec hex
    refine .inr ⟨Nat.find hex, hlow, hhigh, fun j hj hlt => ?_, hsolid⟩
    by_contra hne
    exact Nat.find_min hex hlt ⟨hj, hlt.trans hhigh, by simpa using hne⟩

/-- The first character that is no blank decides whether an end is loose. -/
theorem looseFrom_iff {len : Nat} (hq : i ≤ q) (hlt : q < len)
    (hblank : ∀ j, i ≤ j → j < q → isBlank (src j) = true) (hsolid : isBlank (src q) = false) :
    LooseFrom src len i ↔ isDelimiter (src q) = false ∧ isAsciiOrDigit (src q) = false := by
  constructor
  · rintro ⟨q', hq', hlt', hblank', hdel, hword⟩
    have hsame : q' = q := by
      rcases Nat.lt_trichotomy q' q with h | h | h
      · rw [isDelimiter_of_isBlank _ (hblank q' hq' h)] at hdel
        contradiction
      · exact h
      · rw [hblank' q hq h] at hsolid
        contradiction
    subst hsame
    exact ⟨hdel, hword⟩
  · rintro ⟨hdel, hword⟩
    exact ⟨q, hq, hlt, hblank, hdel, hword⟩

end Behind

/-- The place and the delimiter with which the final loop begins. -/
def behindToken (src : Nat → UInt8) (len : Nat) (s : SplitState) : Nat × UInt8 :=
  if isBlank s.nextdeli then nextDelimiter src (len - s.i) s.i s.nextdeli else (s.i, s.nextdeli)

/-- What is reported behind a token: a blank, the delimiter at the place where the final loop
begins, or something else where no delimiter stands. -/
inductive Reports (src : Nat → UInt8) (len i : Nat) (found : Nat × UInt8) : Prop
  | blank (hnext : isBlank found.2 = true) (htight : ¬ LooseFrom src len i)
  | delimiter (hnext : isBlank found.2 = false) (hlt : found.1 < len)
      (hdel : isDelimiter (src found.1) = true) (hsolid : isBlank (src found.1) = false)
      (htight : ¬ LooseFrom src len i)
  | loose (hnext : isBlank found.2 = false) (hdel : isDelimiter (src found.1) = false)
      (hloose : LooseFrom src len i)

/-- What is reported behind a blank that no connector follows. -/
theorem reports_behind_blank {src : Nat → UInt8} {len i : Nat} (hi : i < len)
    (hblank : isBlank (src i) = true)
    (hahead : connectAhead src (len - (i + 1)) (i + 1) = none) :
    Reports src len i (nextDelimiter src (len - i) i (src i)) := by
  rcases exists_first_solid src i len with hall | ⟨q, hq, hlt, hbefore, hsolid⟩
  · -- nothing else is left
    rw [nextDelimiter_blanks hi.le (by omega) hall, show i + (len - i) - len = 0 by omega,
      nextDelimiter]
    refine .blank hblank ?_
    rintro ⟨q, hq, hlt, -, hdel, -⟩
    rw [isDelimiter_of_isBlank _ (hall q hq hlt)] at hdel
    contradiction
  · have hne : i ≠ q := by
      rintro rfl
      rw [hblank] at hsolid
      contradiction
    have hconnect : isConnectCh (src q) = false := by
      by_contra hc
      rw [Bool.not_eq_false] at hc
      rw [connectAhead_blanks (by omega : i + 1 ≤ q) (by omega) (fun j hj => hbefore j (by omega)),
        show i + 1 + (len - (i + 1)) - q = len - q - 1 + 1 by omega, connectAhead,
        not_isAsciiOrDigit_of_isConnectCh _ hc, hc, if_neg Bool.false_ne_true, if_pos rfl]
        at hahead
      contradiction
    rw [nextDelimiter_blanks hq (by omega) hbefore,
      show i + (len - i) - q = len - q - 1 + 1 by omega, nextDelimiter, hsolid, hconnect]
    have hloose := looseFrom_iff hq hlt hbefore hsolid
    cases hword : isAsciiOrDigit (src q) with
    | true =>
        rw [hword] at hloose
        exact .blank hblank fun h => Bool.noConfusion (hloose.mp h).2
    | false =>
        cases hdel : isDelimiter (src q) with
        | true =>
            rw [hdel] at hloose
            exact .delimiter hsolid hlt hdel hsolid fun h => Bool.noConfusion (hloose.mp h).1
        | false => exact .loose hsolid hdel (hloose.mpr ⟨hdel, hword⟩)

/-- Wherever the main loop stops, one of the three is reported. -/
theorem StopsAt.reports {src : Nat → UInt8} {len : Nat} {s : SplitState}
    (h : StopsAt src len s) : Reports src len s.i (behindToken src len s) := by
  have hspace : isBlank ' '.toUInt8 = true := by decide
  cases h with
  | done hi hnext =>
      rw [behindToken, hnext, if_pos hspace, Nat.sub_eq_zero_of_le hi]
      refine .blank hspace ?_
      rintro ⟨q, hq, hlt, -⟩
      omega
  | hyphen hi hconnect hnext =>
      obtain ⟨hblank, hdel⟩ := plain_of_isConnectCh _ hconnect
      have hhyphen : isBlank '-'.toUInt8 = false := by decide
      rw [behindToken, hnext, hhyphen, if_neg Bool.false_ne_true]
      refine .loose hhyphen hdel ?_
      rw [looseFrom_iff (Nat.le_refl _) hi (fun j hj hlt => by omega) hblank]
      exact ⟨hdel, not_isAsciiOrDigit_of_isConnectCh _ hconnect⟩
  | change hi hword hnext =>
      have hsolid : isBlank (src s.i) = false := by
        by_contra hblank
        rw [Bool.not_eq_false] at hblank
        rw [(quiet_of_isBlank hblank).1] at hword
        contradiction
      have hfound : nextDelimiter src (len - s.i) s.i ' '.toUInt8 = (s.i, ' '.toUInt8) := by
        rw [show len - s.i = len - s.i - 1 + 1 by omega, nextDelimiter, if_pos hword]
      rw [behindToken, hnext, if_pos hspace, hfound]
      refine .blank hspace ?_
      rw [looseFrom_iff (Nat.le_refl _) hi (fun j hj hlt => by omega) hsolid, hword]
      exact fun h => Bool.noConfusion h.2
  | delimiter hi hdel hnext hahead =>
      rw [behindToken, hnext]
      by_cases hblank : isBlank (src s.i) = true
      · rw [if_pos hblank]
        exact reports_behind_blank hi hblank hahead
      · rw [Bool.not_eq_true] at hblank
        rw [hblank, if_neg Bool.false_ne_true]
        refine .delimiter hblank hi hdel hblank ?_
        rw [looseFrom_iff (Nat.le_refl _) hi (fun j hj hlt => by omega) hblank, hdel]
        exact fun h => Bool.noConfusion h.1

section Calls

variable {dlen : Nat} {src : Nat → UInt8} {len : Nat}

/-- A call that finds a token reports what stands where the main loop has stopped. -/
theorem spilitContent_reports {np : UInt8} (h : (spilitContent dlen src len np).ret ≠ 0) :
    ∃ s, stopIndex dlen src len = s.i ∧ Reports src len s.i (behindToken src len s) ∧
      ∀ p, (spilitContent dlen src len p).nextdeli = (behindToken src len s).2 ∧
        (spilitContent dlen src len p).np =
          (skipDelimiters src (len - (behindToken src len s).1) (behindToken src len s).1 p).2 := by
  rw [spilitContent] at h
  cases hloop : splitLoop dlen src len with
  | error s =>
      rw [hloop] at h
      exact absurd rfl h
  | ok s =>
      rw [hloop] at h
      cases hflag : s.flag with
      | false =>
          rw [splitFinish, hflag] at h
          exact absurd rfl h
      | true =>
          refine ⟨s, by rw [stopIndex, hloop], (splitLoop_stopsAt hloop hflag).reports,
            fun p => ?_⟩
          rw [spilitContent, hloop, splitFinish, hflag]
          exact ⟨rfl, rfl⟩

/-- A token that reports a delimiter has written its last pointer exactly when its end is not
loose. -/
theorem assignsNp_iff {np : UInt8} (h : (spilitContent dlen src len np).ret ≠ 0) :
    (isBlank (spilitContent dlen src len np).nextdeli = false → AssignsNp dlen src len) ↔
      ¬ LooseEnd dlen src len := by
  obtain ⟨s, hstop, hreports, hcall⟩ := spilitContent_reports h
  rw [LooseEnd, hstop, (hcall np).1]
  cases hreports with
  | blank hnext htight =>
      refine iff_of_true (fun hsolid => ?_) htight
      rw [hnext] at hsolid
      contradiction
  | delimiter hnext hlt hdel hsolid htight =>
      refine iff_of_true (fun _ p q => ?_) htight
      rw [(hcall p).2, (hcall q).2]
      exact skipDelimiters_assigns (by omega) hdel hsolid p q
  | loose hnext hdel hloose =>
      refine iff_of_false (fun hassigns => ?_) (not_not.mpr hloose)
      have hsame := hassigns hnext 0 1
      rw [(hcall 0).2, (hcall 1).2, skipDelimiters_stays hdel, skipDelimiters_stays hdel] at hsame
      exact absurd hsame (by decide)

/-- Where the final loop stops does not depend on what its pointer held. -/
theorem skipDelimiters_fst (src : Nat → UInt8) (n i : Nat) (p q : UInt8) :
    (skipDelimiters src n i p).1 = (skipDelimiters src n i q).1 := by
  induction n generalizing i p q with
  | zero => rfl
  | succ n ih =>
      rw [skipDelimiters, skipDelimiters]
      split
      · rfl
      · apply ih

/-- Nothing but the last pointer depends on what stood there. -/
theorem spilitContent_eq (p q : UInt8) :
    spilitContent dlen src len p =
      { spilitContent dlen src len q with np := (spilitContent dlen src len p).np } := by
  unfold spilitContent
  cases splitLoop dlen src len with
  | error s => rfl
  | ok s =>
      rw [splitFinish, splitFinish]
      split
      · rfl
      · simp only [skipDelimiters_fst src _ _ p q]

end Calls

end CiteParser
