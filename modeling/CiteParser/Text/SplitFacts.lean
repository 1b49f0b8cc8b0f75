import CiteParser.Text.Split
import Mathlib.Order.Basic

/-!
# What one call of the tokeniser does

Every pass either leaves the loop or hands one state to `splitStore`; `splitPass_cases`
says which, and all facts about whole calls are read off it through the loop rule. The
invariant counts letters and digits: what has been stored is what has been passed.
-/

namespace CiteParser

open Loop

/-- The state `t` that a pass starting in `s` hands to `splitStore`. -/
structure SplitStep (src : Nat → UInt8) (len : Nat) (s t : SplitState) : Prop where
  le : s.i ≤ t.i
  lt : t.i < len
  /-- A connector found by the look-ahead is reached over separators only. -/
  skipped : ∀ m, s.i ≤ m → m < t.i → isAsciiOrDigit (src m) = false
  /-- Before the token has started the index does not jump. -/
  stay : s.flag = false → t.i = s.i
  flag : t.flag = (s.flag || !isDelimiter (src s.i))
  dest : t.dest = if s.flag then s.dest else if isDelimiter (src s.i) then s.dest else []
  nextdeli : t.nextdeli = s.nextdeli

/-- The look-ahead stops at a connector inside the range, over separators only. -/
theorem connectAhead_some {src : Nat → UInt8} {n a k : Nat}
    (h : connectAhead src n a = some k) :
    a ≤ k ∧ k < a + n ∧ isConnectCh (src k) = true ∧
      ∀ m, a ≤ m → m < k → isAsciiOrDigit (src m) = false := by
  induction n generalizing a with
  | zero => simp only [connectAhead, reduceCtorEq] at h
  | succ n ih =>
      rw [connectAhead] at h
      split at h
      · contradiction
      · rename_i hword
        split at h
        · rename_i hc
          obtain rfl := Option.some.inj h
          exact ⟨le_rfl, by omega, hc, fun m hm hmk => by omega⟩
        · split at h
          · contradiction
          · obtain ⟨hle, hlt, hc, hskip⟩ := ih h
            refine ⟨by omega, by omega, hc, fun m hm hmk => ?_⟩
            rcases Nat.eq_or_lt_of_le hm with rfl | hlt'
            · simpa only [Bool.not_eq_true] using hword
            · exact hskip m hlt' hmk

/-- Before the token has started, a pass reaches its end at the current position. -/
theorem splitBranch_fresh {src : Nat → UInt8} {len : Nat} {s : SplitState}
    (hlt : s.i < len) (hflag : s.flag = false) :
    ∃ t, SplitStep src len s t ∧ splitBranch src len s = .next t := by
  have hpass : splitBranch src len s =
      if !isDelimiter (src s.i) then .next { s with dest := [], flag := true }
      else if !isBlank (src s.i) then .next { s with predeli := src s.i }
      else .next s := by
    rw [splitBranch, if_pos (by rw [hflag]; rfl)]
  have hstep : ∀ t : SplitState, t.i = s.i → t.nextdeli = s.nextdeli →
      t.flag = !isDelimiter (src s.i) →
      t.dest = (if isDelimiter (src s.i) then s.dest else []) → SplitStep src len s t := by
    intro t hti htn htf htd
    refine ⟨by omega, by omega, fun m hm hmt => by omega, fun _ => hti, ?_, ?_, htn⟩
    · rw [htf, hflag, Bool.false_or]
    · rw [htd, hflag]
      rfl
  cases hdel : isDelimiter (src s.i) with
  | false =>
      simp only [hdel, Bool.not_false, ite_true] at hpass hstep
      exact ⟨{ s with dest := [], flag := true }, hstep _ rfl rfl rfl rfl, hpass⟩
  | true =>
      simp only [hdel, Bool.not_true, Bool.false_eq_true, ite_false, ite_true] at hpass hstep
      split at hpass
      · exact ⟨{ s with predeli := src s.i }, hstep _ rfl rfl hflag rfl, hpass⟩
      · exact ⟨s, hstep _ rfl rfl hflag rfl, hpass⟩

/-- Inside a token, a pass reaches its end at or ahead of the current position, or
ends the token where it stands. -/
theorem splitBranch_open {src : Nat → UInt8} {len : Nat} {s : SplitState}
    (hlt : s.i < len) (hflag : s.flag = true) :
    (∃ t, SplitStep src len s t ∧ splitBranch src len s = .next t) ∨
    ∃ e, splitBranch src len s = .exit e ∧ e.flag = true ∧ e.i = s.i ∧ e.dest = s.dest := by
  have hstep : ∀ t : SplitState, s.i ≤ t.i → t.i < len → t.nextdeli = s.nextdeli →
      (∀ m, s.i ≤ m → m < t.i → isAsciiOrDigit (src m) = false) →
      t.flag = s.flag → t.dest = s.dest → SplitStep src len s t := by
    intro t hle hlt htn hskip htf htd
    refine ⟨hle, hlt, hskip, ?_, ?_, ?_, htn⟩
    · simp only [hflag, Bool.true_eq_false, false_implies]
    · rw [htf, hflag, Bool.true_or]
    · simp only [htd, hflag, ite_true]
  rw [splitBranch, if_neg (by rw [hflag]; decide)]
  split
  · rename_i hdel
    split
    · rename_i k hk
      obtain ⟨hle, hk', _, hskip⟩ := connectAhead_some hk
      refine Or.inl ⟨{ s with connect := true, i := k },
        hstep _ (by simp only; omega) (by simp only; omega) rfl ?_ rfl rfl, rfl⟩
      intro m hm hmk
      rcases Nat.eq_or_lt_of_le hm with rfl | hlt'
      · exact not_isAsciiOrDigit_of_isDelimiter _ (Bool.and_eq_true_iff.mp hdel).1
      · exact hskip m hlt' hmk
    · exact Or.inr ⟨_, rfl, hflag, rfl, rfl⟩
  · split
    · exact Or.inr ⟨_, rfl, hflag, rfl, rfl⟩
    · exact Or.inl ⟨s, hstep _ le_rfl hlt rfl (fun m hm hmt => by omega) rfl rfl, rfl⟩

/-- The tests of a pass inside the range stop at a hyphen before a digit, or reach the
end of the pass, or end the token. -/
theorem splitTest_cases (src : Nat → UInt8) {len : Nat} {s : SplitState} (hlt : s.i < len) :
    (isConnectCh (src s.i) = true ∧ 0 < s.i ∧ digitLike (src (s.i + 1)) = true ∧
      splitTest src len s = .exit { s with connect := false, nextdeli := '-'.toUInt8 }) ∨
    (∃ t, SplitStep src len s t ∧ splitTest src len s = .next t) ∨
    ∃ e, s.flag = true ∧ splitTest src len s = .exit e ∧ e.flag = true ∧ e.i = s.i ∧
      e.dest = s.dest := by
  rw [splitTest]
  split
  · rename_i hhyphen
    simp only [Bool.and_eq_true, decide_eq_true_eq] at hhyphen
    exact Or.inl ⟨hhyphen.1.1, hhyphen.1.2, hhyphen.2, rfl⟩
  · right
    -- the connector test changes `connect` only, and no step fact mentions it
    generalize hs1 : ({ s with connect := s.connect || isConnectCh (src s.i) } : SplitState) = s1
    have hi : s1.i = s.i := by rw [← hs1]
    have hf : s1.flag = s.flag := by rw [← hs1]
    have hd : s1.dest = s.dest := by rw [← hs1]
    have hn : s1.nextdeli = s.nextdeli := by rw [← hs1]
    have hback : ∀ t, SplitStep src len s1 t → SplitStep src len s t := by
      intro t ⟨hle, hlt, hskip, hstay, hflag, hdest, hnext⟩
      rw [hi] at hle hskip hstay hflag hdest
      rw [hf] at hstay hflag hdest
      rw [hd] at hdest
      exact ⟨hle, hlt, hskip, hstay, hflag, hdest, hnext.trans hn⟩
    cases hflag : s.flag with
    | false =>
        obtain ⟨t, ht, hpass⟩ := splitBranch_fresh (hi ▸ hlt) (hf.trans hflag)
        exact Or.inl ⟨t, hback t ht, hpass⟩
    | true =>
        rcases splitBranch_open (hi ▸ hlt) (hf.trans hflag) with
          ⟨t, ht, hpass⟩ | ⟨e, hpass, hef, hei, hed⟩
        · exact Or.inl ⟨t, hback t ht, hpass⟩
        · exact Or.inr ⟨e, rfl, hpass, hef, hei.trans hi, hed.trans hd⟩

/-- A pass goes round exactly by storing the state its tests reach. -/
theorem splitPass_next {dlen : Nat} {src : Nat → UInt8} {len : Nat} {s s' : SplitState}
    (h : splitPass dlen src len s = .next s') :
    ∃ t, SplitStep src len s t ∧ splitTest src len s = .next t ∧
      splitStore dlen src t = .next s' := by
  rw [splitPass] at h
  split at h
  · contradiction
  · rename_i hlt
    rcases splitTest_cases src (not_le.mp hlt) with
      ⟨_, _, _, htest⟩ | ⟨t, ht, htest⟩ | ⟨e, _, htest, _⟩
    · simp only [htest, reduceCtorEq] at h
    · exact ⟨t, ht, htest, by rw [htest] at h; exact h⟩
    · simp only [htest, reduceCtorEq] at h

/-- A pass returns early exactly when the state its tests reach finds `dest` full. -/
theorem splitPass_error {dlen : Nat} {src : Nat → UInt8} {len : Nat} {s t : SplitState}
    (h : splitPass dlen src len s = .exit (.error t)) :
    SplitStep src len s t ∧ dlen ≤ t.dest.length ∧ isDelimiter (src t.i) = false ∧
      isConnectCh (src t.i) = false := by
  rw [splitPass] at h
  split at h
  · exact absurd (Outcome.exit.inj h) (by simp only [reduceCtorEq, not_false_eq_true])
  · rename_i hlt
    rcases splitTest_cases src (not_le.mp hlt) with
      ⟨_, _, _, htest⟩ | ⟨u, hu, htest⟩ | ⟨e, _, htest, _⟩
    · simp only [htest, Outcome.exit.injEq, reduceCtorEq] at h
    · simp only [htest, splitStore] at h
      split at h
      · contradiction
      · rename_i hsep
        split at h
        · rename_i hfull
          obtain rfl := Except.error.inj (Outcome.exit.inj h)
          rw [Bool.or_eq_true, not_or, Bool.not_eq_true, Bool.not_eq_true] at hsep
          exact ⟨hu, hfull, hsep.1, hsep.2⟩
        · contradiction
    · simp only [htest, Outcome.exit.injEq, reduceCtorEq] at h

/-- A pass leaves with a state at the end of the range or where its tests break. -/
theorem splitPass_ok {dlen : Nat} {src : Nat → UInt8} {len : Nat} {s e : SplitState}
    (h : splitPass dlen src len s = .exit (.ok e)) :
    (len ≤ s.i ∧ e = s) ∨ (s.i < len ∧ splitTest src len s = .exit e) := by
  rw [splitPass] at h
  split at h
  · rename_i hge
    exact Or.inl ⟨hge, (Except.ok.inj (Outcome.exit.inj h)).symm⟩
  · rename_i hlt
    refine Or.inr ⟨not_le.mp hlt, ?_⟩
    split at h
    · rw [splitStore] at h
      split at h
      · contradiction
      · split at h
        · exact absurd (Outcome.exit.inj h) (by simp only [reduceCtorEq, not_false_eq_true])
        · contradiction
    · rename_i htest
      rw [htest, Except.ok.inj (Outcome.exit.inj h)]

/-- Leaving with a state changes neither the index nor `dest` nor `flag`. -/
theorem splitPass_ok_same {dlen : Nat} {src : Nat → UInt8} {len : Nat} {s e : SplitState}
    (h : splitPass dlen src len s = .exit (.ok e)) :
    e.flag = s.flag ∧ e.i = s.i ∧ e.dest = s.dest := by
  rcases splitPass_ok h with ⟨_, rfl⟩ | ⟨hlt, htest⟩
  · exact ⟨rfl, rfl, rfl⟩
  · rcases splitTest_cases src hlt with
      ⟨_, _, _, h'⟩ | ⟨t, _, h'⟩ | ⟨e', hsf, h', hef, hei, hed⟩
    · rw [htest] at h'
      rw [Outcome.exit.inj h']
      exact ⟨rfl, rfl, rfl⟩
    · simp only [htest, reduceCtorEq] at h'
    · rw [htest] at h'
      obtain rfl := Outcome.exit.inj h'
      exact ⟨hef.trans hsf.symm, hei, hed⟩

/-! ## The invariant of the main loop -/

/-- Every character stored is no delimiter and was read below an index. -/
def Stored (src : Nat → UInt8) (i : Nat) (dest : List UInt8) : Prop :=
  ∀ c ∈ dest, isDelimiter c = false ∧ ∃ m, m < i ∧ src m = c

/-- What was read below an index was read below a later one. -/
theorem Stored.mono {src : Nat → UInt8} {i i' : Nat} {dest : List UInt8}
    (h : Stored src i dest) (hi : i ≤ i') : Stored src i' dest := by
  intro c hc
  obtain ⟨hdel, m, hm, he⟩ := h c hc
  exact ⟨hdel, m, hm.trans_le hi, he⟩

/-- What holds at the head of the main loop: letters and digits passed are exactly
those stored, and before the token starts only delimiters have been passed. -/
structure SplitInv (src : Nat → UInt8) (len : Nat) (s : SplitState) : Prop where
  le : s.i ≤ len
  fresh : s.flag = false → s.dest = [] ∧ ∀ m, m < s.i → isDelimiter (src m) = true
  started : s.flag = true → 0 < s.i
  kept : s.dest.filter isAsciiOrDigit = (segment src 0 s.i).filter isAsciiOrDigit
  width : s.dest.length ≤ s.i
  stored : Stored src s.i s.dest
  quiet : s.nextdeli = ' '.toUInt8

theorem splitInv_init (src : Nat → UInt8) (len : Nat) : SplitInv src len .init where
  le := Nat.zero_le len
  fresh := fun _ => ⟨rfl, fun m hm => absurd hm (Nat.not_lt_zero m)⟩
  started := fun h => by simp only [SplitState.init, Bool.false_eq_true] at h
  kept := by simp only [SplitState.init, segment_self, List.filter_nil]
  width := le_rfl
  stored := fun c hc => absurd hc List.not_mem_nil
  quiet := rfl

/-- Reaching the end of a pass keeps the letters and digits passed in `dest`. -/
theorem SplitInv.kept_step {src : Nat → UInt8} {len : Nat} {s t : SplitState}
    (hs : SplitInv src len s) (ht : SplitStep src len s t) :
    t.dest.filter isAsciiOrDigit = (segment src 0 t.i).filter isAsciiOrDigit := by
  have hdest : t.dest.filter isAsciiOrDigit = s.dest.filter isAsciiOrDigit := by
    rw [ht.dest]
    split
    · rfl
    · rename_i hflag
      have hnil := (hs.fresh (by simpa only [Bool.not_eq_true] using hflag)).1
      split <;> simp only [hnil]
  rw [hdest, hs.kept, ← segment_append src (Nat.zero_le s.i) ht.le, List.filter_append,
    filter_segment_eq_nil ht.skipped, List.append_nil]

/-- The characters in `dest` at the end of a pass were in it at its start. -/
theorem SplitStep.mem_dest {src : Nat → UInt8} {len : Nat} {s t : SplitState}
    (ht : SplitStep src len s t) {c : UInt8} (hc : c ∈ t.dest) : c ∈ s.dest := by
  rw [ht.dest] at hc
  split at hc
  · exact hc
  · split at hc
    · exact hc
    · exact absurd hc List.not_mem_nil

/-- At the end of a pass `dest` is no longer than at its start. -/
theorem SplitStep.width {src : Nat → UInt8} {len : Nat} {s t : SplitState}
    (ht : SplitStep src len s t) : t.dest.length ≤ s.dest.length := by
  rw [ht.dest]
  split
  · exact le_rfl
  · split
    · exact le_rfl
    · exact Nat.zero_le _

/-- Storing keeps the invariant and moves the index forward. -/
theorem SplitInv.store {src : Nat → UInt8} {len dlen : Nat} {s t s' : SplitState}
    (hs : SplitInv src len s) (ht : SplitStep src len s t)
    (h : splitStore dlen src t = .next s') : SplitInv src len s' ∧ s.i < s'.i := by
  have hlt := ht.lt
  have hle := ht.le
  have hkept := hs.kept_step ht
  have hwidth := ht.width
  have hsw := hs.width
  have hstored : Stored src (t.i + 1) t.dest :=
    fun c hc => hs.stored.mono (by omega) c (ht.mem_dest hc)
  have hfresh : t.flag = false → t.dest = [] ∧ ∀ m, m < t.i + 1 → isDelimiter (src m) = true := by
    intro hflag
    rw [ht.flag, Bool.or_eq_false_iff, Bool.not_eq_false'] at hflag
    obtain ⟨hnil, hdel⟩ := hs.fresh hflag.1
    have hstay := ht.stay hflag.1
    refine ⟨List.eq_nil_iff_forall_not_mem.mpr fun c hc => ?_, fun m hm => ?_⟩
    · have hmem := ht.mem_dest hc
      rw [hnil] at hmem
      exact List.not_mem_nil hmem
    · rcases Nat.eq_or_lt_of_le (Nat.le_of_lt_succ hm) with rfl | hlt'
      · rw [hstay]
        exact hflag.2
      · exact hdel m (by omega)
  have hseg := segment_succ src (Nat.zero_le t.i)
  rw [splitStore] at h
  split at h
  · rename_i hsep
    obtain rfl := Outcome.next.inj h
    refine ⟨⟨by simp only; omega, hfresh, fun _ => Nat.succ_pos _, ?_, by simp only; omega,
      hstored, ht.nextdeli.trans hs.quiet⟩, by simp only; omega⟩
    have hword : isAsciiOrDigit (src t.i) = false := by
      rcases Bool.or_eq_true_iff.mp hsep with hd | hc
      · exact not_isAsciiOrDigit_of_isDelimiter _ hd
      · exact not_isAsciiOrDigit_of_isConnectCh _ hc
    simp only [hseg, List.filter_append, hkept, List.filter_cons, hword, Bool.false_eq_true,
      ite_false, List.filter_nil, List.append_nil]
  · rename_i hsep
    split at h
    · contradiction
    · obtain rfl := Outcome.next.inj h
      refine ⟨⟨by simp only; omega, fun hflag => ?_, fun _ => Nat.succ_pos _, ?_, ?_, ?_,
        ht.nextdeli.trans hs.quiet⟩, by simp only; omega⟩
      · have hdel := (hfresh hflag).2 t.i (Nat.lt_succ_self _)
        rw [hdel] at hsep
        exact absurd rfl hsep
      · simp only [hseg, List.filter_append, hkept]
      · simp only [List.length_append, List.length_singleton]
        omega
      · intro c hc
        rcases List.mem_append.mp hc with hc | hc
        · exact hstored c hc
        · obtain rfl := List.mem_singleton.mp hc
          rw [Bool.or_eq_true, not_or, Bool.not_eq_true] at hsep
          exact ⟨hsep.1, t.i, Nat.lt_succ_self _, rfl⟩

/-- A pass that goes round keeps the invariant and moves the index forward. -/
theorem SplitInv.pass {src : Nat → UInt8} {len dlen : Nat} {s s' : SplitState}
    (hs : SplitInv src len s) (h : splitPass dlen src len s = .next s') :
    SplitInv src len s' ∧ len - s'.i < len - s.i := by
  obtain ⟨t, ht, _, hstore⟩ := splitPass_next h
  obtain ⟨hinv, hmove⟩ := hs.store ht hstore
  have hle := hinv.le
  exact ⟨hinv, by omega⟩

/-- How the main loop can be left: with `dest` full, or with the letters and digits of
the range so far in `dest`, or without a token. -/
inductive SplitExit (dlen : Nat) (src : Nat → UInt8) (len : Nat) :
    Except SplitState SplitState → Prop
  | full {s : SplitState} (h : dlen ≤ s.dest.length) (hroom : s.dest.length < len) :
      SplitExit dlen src len (.error s)
  | token {s : SplitState} (hflag : s.flag = true) (hpos : 0 < s.i) (hle : s.i ≤ len)
      (hkept : s.dest.filter isAsciiOrDigit = (segment src 0 s.i).filter isAsciiOrDigit)
      (hwidth : s.dest.length ≤ s.i) (hstored : Stored src s.i s.dest) :
      SplitExit dlen src len (.ok s)
  | blank {s : SplitState} (hflag : s.flag = false)
      (hdel : ∀ m, m < len → isDelimiter (src m) = true) : SplitExit dlen src len (.ok s)
  | hyphen {s : SplitState} (hflag : s.flag = false) (hpos : 0 < s.i) (hlt : s.i < len)
      (hdel : ∀ m, m < s.i → isDelimiter (src m) = true)
      (hconnect : isConnectCh (src s.i) = true) (hdigit : digitLike (src (s.i + 1)) = true) :
      SplitExit dlen src len (.ok s)

/-- A pass that leaves the loop does so in one of the four ways. -/
theorem SplitInv.leave {src : Nat → UInt8} {len dlen : Nat} {s : SplitState}
    {b : Except SplitState SplitState} (hs : SplitInv src len s)
    (h : splitPass dlen src len s = .exit b) : SplitExit dlen src len b := by
  cases b with
  | error t =>
      obtain ⟨ht, hfull, _, _⟩ := splitPass_error h
      have hwidth := ht.width
      have hsw := hs.width
      have hle := ht.le
      have htl := ht.lt
      exact .full hfull (by omega)
  | ok e =>
      obtain ⟨hef, hei, hed⟩ := splitPass_ok_same h
      rcases Bool.eq_false_or_eq_true s.flag with hflag | hflag
      · refine .token (hef.trans hflag) ?_ ?_ ?_ ?_ ?_ <;> rw [hei] <;> try rw [hed]
        · exact hs.started hflag
        · exact hs.le
        · exact hs.kept
        · exact hs.width
        · exact hs.stored
      · have hdel := (hs.fresh hflag).2
        rcases splitPass_ok h with ⟨hge, _⟩ | ⟨hlt, htest⟩
        · exact .blank (hef.trans hflag) fun m hm => hdel m (by omega)
        · rcases splitTest_cases src hlt with
            ⟨hc, hpos, hdig, _⟩ | ⟨t, _, h'⟩ | ⟨e', hsf, _⟩
          · refine .hyphen (hef.trans hflag) ?_ ?_ ?_ ?_ ?_ <;> rw [hei]
            · exact hpos
            · exact hlt
            · exact hdel
            · exact hc
            · exact hdig
          · simp only [htest, reduceCtorEq] at h'
          · simp only [hflag, Bool.false_eq_true] at hsf

/-- The main loop always ends, in one of the four ways. -/
theorem splitLoop_exit (dlen : Nat) (src : Nat → UInt8) (len : Nat) :
    SplitExit dlen src len (splitLoop dlen src len) := by
  obtain ⟨b, hrun, hb⟩ := run_rule (splitPass dlen src len) (len + 1) .init
    (SplitInv src len) (fun s => len - s.i) (SplitExit dlen src len)
    (fun _ _ hs h => hs.pass h) (fun _ _ hs h => hs.leave h) (splitInv_init src len)
    (by simp only [SplitState.init]; omega)
  rw [splitLoop, hrun]
  exact hb

/-! ## Whole calls -/

/-- The scan for the next delimiter passes over no letter or digit. -/
theorem nextDelimiter_spec (src : Nat → UInt8) (n i : Nat) (nextdeli : UInt8) :
    i ≤ (nextDelimiter src n i nextdeli).1 ∧ (nextDelimiter src n i nextdeli).1 ≤ i + n ∧
      ∀ m, i ≤ m → m < (nextDelimiter src n i nextdeli).1 → isAsciiOrDigit (src m) = false := by
  induction n generalizing i with
  | zero => exact ⟨le_rfl, le_rfl, fun m hm hlt => absurd hlt (not_lt.mpr hm)⟩
  | succ n ih =>
      rw [nextDelimiter]
      split
      · exact ⟨le_rfl, by simp only; omega, fun m hm hlt => absurd hlt (not_lt.mpr hm)⟩
      · rename_i hword
        split
        · exact ⟨le_rfl, by simp only; omega, fun m hm hlt => absurd hlt (not_lt.mpr hm)⟩
        · obtain ⟨hle, hub, hskip⟩ := ih (i + 1)
          refine ⟨by omega, by omega, fun m hm hlt => ?_⟩
          rcases Nat.eq_or_lt_of_le hm with rfl | hlt'
          · simpa only [Bool.not_eq_true] using hword
          · exact hskip m hlt' hlt

/-- The final loop passes over delimiters only, and as far as they reach. -/
theorem skipDelimiters_spec (src : Nat → UInt8) (n i : Nat) (np : UInt8) :
    i ≤ (skipDelimiters src n i np).1 ∧ (skipDelimiters src n i np).1 ≤ i + n ∧
      (∀ m, i ≤ m → m < (skipDelimiters src n i np).1 → isDelimiter (src m) = true) ∧
      ((skipDelimiters src n i np).1 < i + n →
        isDelimiter (src (skipDelimiters src n i np).1) = false) := by
  induction n generalizing i np with
  | zero => exact ⟨le_rfl, le_rfl, fun m hm hlt => absurd hlt (not_lt.mpr hm),
      fun h => absurd h (Nat.lt_irrefl _)⟩
  | succ n ih =>
      rw [skipDelimiters]
      split
      · rename_i hdel
        refine ⟨le_rfl, by simp only; omega, fun m hm hlt => absurd hlt (not_lt.mpr hm),
          fun _ => ?_⟩
        simpa only [Bool.not_eq_true'] using hdel
      · rename_i hdel
        obtain ⟨hle, hub, hskip, hend⟩ := ih (i + 1) (if isBlank (src i) then np else src i)
        refine ⟨by omega, by omega, fun m hm hlt => ?_, fun h => hend (by omega)⟩
        rcases Nat.eq_or_lt_of_le hm with rfl | hlt'
        · simpa only [Bool.not_eq_true, Bool.not_eq_false'] using hdel
        · exact hskip m hlt' hlt

/-- What a call that finds a token returns. -/
structure SplitToken (src : Nat → UInt8) (len : Nat) (r : SplitResult) : Prop where
  pos : 0 < r.ret
  le : r.ret ≤ len
  kept : r.dest.filter isAsciiOrDigit = (segment src 0 r.ret).filter isAsciiOrDigit
  stored : Stored src r.ret r.dest
  /-- The next token starts at a character that is not a delimiter. -/
  ahead : r.ret < len → isDelimiter (src r.ret) = false

/-- Leaving the main loop with a token, the call returns one. -/
theorem splitFinish_token {src : Nat → UInt8} {len : Nat} (np : UInt8) {s : SplitState}
    (hflag : s.flag = true) (hpos : 0 < s.i) (hle : s.i ≤ len)
    (hkept : s.dest.filter isAsciiOrDigit = (segment src 0 s.i).filter isAsciiOrDigit)
    (hstored : Stored src s.i s.dest) :
    SplitToken src len (splitFinish src len np (.ok s)) := by
  simp only [splitFinish, hflag, Bool.not_true, Bool.false_eq_true, ite_false]
  generalize hfound : (if isBlank s.nextdeli then nextDelimiter src (len - s.i) s.i s.nextdeli
    else (s.i, s.nextdeli)) = found
  have hmove : s.i ≤ found.1 ∧ found.1 ≤ len ∧
      ∀ m, s.i ≤ m → m < found.1 → isAsciiOrDigit (src m) = false := by
    subst hfound
    split
    · have h := nextDelimiter_spec src (len - s.i) s.i s.nextdeli
      exact ⟨h.1, by omega, h.2.2⟩
    · exact ⟨le_rfl, hle, fun m hm hlt => absurd hlt (not_lt.mpr hm)⟩
  obtain ⟨hi, hlen, hword⟩ := hmove
  obtain ⟨hge, hub, hdel, hend⟩ := skipDelimiters_spec src (len - found.1) found.1 np
  have hgap : ((segment src s.i (skipDelimiters src (len - found.1) found.1 np).1)).filter
      isAsciiOrDigit = [] := by
    refine filter_segment_eq_nil fun m hm hlt => ?_
    by_cases hf : m < found.1
    · exact hword m hm hf
    · exact not_isAsciiOrDigit_of_isDelimiter _ (hdel m (not_lt.mp hf) hlt)
  refine ⟨by simp only; omega, by simp only; omega, ?_, hstored.mono (by simp only; omega),
    fun h => hend ?_⟩
  · rw [hkept, ← segment_append src (Nat.zero_le s.i) (hi.trans hge), List.filter_append, hgap,
      List.append_nil]
  · simp only at h
    omega

/-- A call that returns an index other than 0 has found a token. -/
theorem spilitContent_token {dlen : Nat} {src : Nat → UInt8} {len : Nat} {np : UInt8}
    (h : (spilitContent dlen src len np).ret ≠ 0) :
    SplitToken src len (spilitContent dlen src len np) := by
  rw [spilitContent] at h ⊢
  generalize hx : splitLoop dlen src len = x at h ⊢
  have hexit := splitLoop_exit dlen src len
  rw [hx] at hexit
  cases hexit with
  | full => exact absurd rfl h
  | token hflag hpos hle hkept hwidth hstored =>
      exact splitFinish_token np hflag hpos hle hkept hstored
  | blank hflag => simp only [splitFinish, hflag, Bool.not_false, ite_true, ne_eq,
      not_true_eq_false] at h
  | hyphen hflag => simp only [splitFinish, hflag, Bool.not_false, ite_true, ne_eq,
      not_true_eq_false] at h

/-- The one shape of text, besides text without letters and digits, on which the main
loop ends before a token has started: delimiters, then a connector, then a digit. -/
def HyphenFirst (src : Nat → UInt8) (len : Nat) : Prop :=
  ∃ i, 0 < i ∧ i < len ∧ (∀ m, m < i → isDelimiter (src m) = true) ∧
    isConnectCh (src i) = true ∧ digitLike (src (i + 1)) = true

/-- A call that returns 0 has run out of room, or the text is of one of two shapes. -/
theorem spilitContent_zero {dlen : Nat} {src : Nat → UInt8} {len : Nat} {np : UInt8}
    (h : (spilitContent dlen src len np).ret = 0) :
    (∃ s, splitLoop dlen src len = .error s) ∨
      (∀ m, m < len → isDelimiter (src m) = true) ∨ HyphenFirst src len := by
  rw [spilitContent] at h
  generalize hx : splitLoop dlen src len = x at h ⊢
  have hexit := splitLoop_exit dlen src len
  rw [hx] at hexit
  cases hexit with
  | full => exact Or.inl ⟨_, rfl⟩
  | token hflag hpos hle hkept hwidth hstored =>
      have := (splitFinish_token np hflag hpos hle hkept hstored).pos
      omega
  | blank hflag hdel => exact Or.inr (Or.inl hdel)
  | hyphen hflag hpos hlt hdel hconnect hdigit =>
      exact Or.inr (Or.inr ⟨_, hpos, hlt, hdel, hconnect, hdigit⟩)

/-- With room for the whole range the call never runs out of it. -/
theorem splitLoop_room {dlen : Nat} {src : Nat → UInt8} {len : Nat} (hroom : len ≤ dlen)
    (s : SplitState) : splitLoop dlen src len ≠ .error s := by
  intro h
  have hexit := splitLoop_exit dlen src len
  rw [h] at hexit
  cases hexit with
  | full h hlt => omega

/-- While only delimiters have been passed no token starts, and the loop ends without
one at the end of the range or at a hyphen before a digit. -/
theorem splitLoop_fresh (dlen : Nat) {src : Nat → UInt8} {len p : Nat}
    (hdel : ∀ m, m < p → isDelimiter (src m) = true)
    (hstop : p < len → 0 < p ∧ isConnectCh (src p) = true ∧ digitLike (src (p + 1)) = true) :
    ∃ e, splitLoop dlen src len = .ok e ∧ e.flag = false := by
  have hexit : ∀ s b, (s.i ≤ p ∧ s.flag = false) → splitPass dlen src len s = .exit b →
      ∃ e, b = .ok e ∧ e.flag = false := by
    rintro s b ⟨hi, hflag⟩ h
    cases b with
    | ok e => exact ⟨e, rfl, (splitPass_ok_same h).1.trans hflag⟩
    | error t =>
        -- only a character that is no separator can find `dest` full
        obtain ⟨ht, _, hnodel, hnocon⟩ := splitPass_error h
        have hlt := ht.lt
        rw [ht.stay hflag] at hnodel hnocon hlt
        by_cases hip : s.i < p
        · rw [hdel _ hip] at hnodel
          contradiction
        · have hcon := (hstop (by omega)).2.1
          rw [show p = s.i by omega, hnocon] at hcon
          contradiction
  have hnext : ∀ s s', (s.i ≤ p ∧ s.flag = false) → splitPass dlen src len s = .next s' →
      (s'.i ≤ p ∧ s'.flag = false) ∧ len - s'.i < len - s.i := by
    rintro s s' ⟨hi, hflag⟩ h
    obtain ⟨t, ht, htest, hstore⟩ := splitPass_next h
    have hstay := ht.stay hflag
    have hlt := ht.lt
    by_cases hip : s.i < p
    · have htf : t.flag = false := by rw [ht.flag, hflag, hdel _ hip]; rfl
      simp only [splitStore, hstay, hdel _ hip, Bool.true_or, ite_true] at hstore
      obtain rfl := Outcome.next.inj hstore
      exact ⟨⟨by simp only; omega, htf⟩, by simp only; omega⟩
    · have hstop' := hstop (by omega)
      rw [show p = s.i by omega] at hstop'
      simp only [splitTest, hstop'.2.1, hstop'.2.2, decide_eq_true hstop'.1, Bool.and_true,
        ite_true, reduceCtorEq] at htest
  obtain ⟨b, hrun, e, rfl, he⟩ := run_rule (splitPass dlen src len) (len + 1) .init
    (fun s => s.i ≤ p ∧ s.flag = false) (fun s => len - s.i)
    (fun b => ∃ e, b = .ok e ∧ e.flag = false) hnext hexit ⟨Nat.zero_le p, rfl⟩
    (by simp only [SplitState.init]; omega)
  rw [splitLoop, hrun]
  exact ⟨e, rfl, he⟩

/-- Leaving the main loop before a token has started, the call returns 0. -/
theorem spilitContent_eq_zero {dlen : Nat} {src : Nat → UInt8} {len : Nat} {e : SplitState}
    (np : UInt8) (h : splitLoop dlen src len = .ok e) (he : e.flag = false) :
    (spilitContent dlen src len np).ret = 0 := by
  simp only [spilitContent, h, splitFinish, he, Bool.not_false, ite_true]

/-- A hyphen between leading delimiters and a digit makes the call return 0. -/
theorem spilitContent_of_hyphenFirst {dlen : Nat} {src : Nat → UInt8} {len : Nat}
    (np : UInt8) (h : HyphenFirst src len) : (spilitContent dlen src len np).ret = 0 := by
  obtain ⟨p, hpos, hlt, hdel, hconnect, hdigit⟩ := h
  obtain ⟨e, he, hflag⟩ := splitLoop_fresh dlen hdel fun _ => ⟨hpos, hconnect, hdigit⟩
  exact spilitContent_eq_zero np he hflag

/-- A range of delimiters makes the call return 0. -/
theorem spilitContent_of_delimiters {dlen : Nat} {src : Nat → UInt8} {len : Nat}
    (np : UInt8) (h : ∀ m, m < len → isDelimiter (src m) = true) :
    (spilitContent dlen src len np).ret = 0 := by
  obtain ⟨e, he, hflag⟩ := splitLoop_fresh dlen h fun hlt => absurd hlt (Nat.lt_irrefl _)
  exact spilitContent_eq_zero np he hflag

/-! ## The size of `dest` -/

/-- From a state within the invariant a pass only adds to `dest`. -/
theorem SplitInv.dest_pass {dlen : Nat} {src : Nat → UInt8} {len : Nat} {s s' : SplitState}
    (hs : SplitInv src len s) (h : splitPass dlen src len s = .next s') :
    s.dest.length ≤ s'.dest.length := by
  obtain ⟨t, ht, _, hstore⟩ := splitPass_next h
  have hkeep : s.dest.length ≤ t.dest.length := by
    rw [ht.dest]
    split
    · exact le_rfl
    · rename_i hflag
      simp only [(hs.fresh (by simpa only [Bool.not_eq_true] using hflag)).1,
        List.length_nil, Nat.zero_le]
  refine hkeep.trans ?_
  rw [splitStore] at hstore
  split at hstore
  · rw [← Outcome.next.inj hstore]
  · split at hstore
    · contradiction
    · rw [← Outcome.next.inj hstore]
      simp only [List.length_append, List.length_singleton]
      omega

/-- From a state within the invariant the loop only adds to `dest`. -/
theorem SplitInv.dest_grows {dlen : Nat} {src : Nat → UInt8} {len fuel : Nat} {s e : SplitState}
    (hs : SplitInv src len s) (h : run (splitPass dlen src len) fuel s = some (.ok e)) :
    s.dest.length ≤ e.dest.length := by
  induction fuel generalizing s with
  | zero => simp only [run, reduceCtorEq] at h
  | succ fuel ih =>
      cases hp : splitPass dlen src len s with
      | next s' =>
          rw [run_next hp] at h
          exact (hs.dest_pass hp).trans (ih (hs.pass hp).1 h)
      | exit b =>
          rw [run_exit hp, Option.some.injEq] at h
          subst h
          rw [(splitPass_ok_same hp).2.2]

/-- A token that fits a smaller `dest` is found with the smaller one as well. -/
theorem SplitInv.run_of_fits {d dlen : Nat} {src : Nat → UInt8} {len fuel : Nat}
    {s e : SplitState} (hs : SplitInv src len s)
    (h : run (splitPass d src len) fuel s = some (.ok e))
    (hfit : e.dest.length ≤ dlen) : run (splitPass dlen src len) fuel s = some (.ok e) := by
  induction fuel generalizing s with
  | zero => simp only [run, reduceCtorEq] at h
  | succ fuel ih =>
      cases hp : splitPass d src len s with
      | next s' =>
          rw [run_next hp] at h
          have hgrow := (hs.pass hp).1.dest_grows h
          obtain ⟨t, ht, htest, hstore⟩ := splitPass_next hp
          have hsame : splitPass dlen src len s = .next s' := by
            have hlt : ¬ len ≤ s.i := not_le.mpr (ht.le.trans_lt ht.lt)
            rw [splitPass, if_neg hlt, htest]
            simp only [splitStore] at hstore ⊢
            split at hstore
            · rename_i hsep
              rw [if_pos hsep, hstore]
            · rename_i hsep
              rw [if_neg hsep]
              split at hstore
              · contradiction
              · -- the character stored now is still in `dest` at the end
                rw [if_neg, hstore]
                rw [← Outcome.next.inj hstore] at hgrow
                simp only [List.length_append, List.length_singleton] at hgrow
                omega
          rw [run_next hsame]
          exact ih (hs.pass hp).1 h
      | exit b =>
          rw [run_exit hp, Option.some.injEq] at h
          subst h
          have hsame : splitPass dlen src len s = .exit (.ok e) := by
            rcases splitPass_ok hp with ⟨hge, rfl⟩ | ⟨hlt, htest⟩
            · rw [splitPass, if_pos hge]
            · rw [splitPass, if_neg (not_le.mpr hlt), htest]
          exact run_exit hsame fuel

/-- With room for the token that a call with ample room finds, a call returns the same. -/
theorem spilitContent_of_fits {d dlen : Nat} {src : Nat → UInt8} {len : Nat} {np : UInt8}
    (hroom : len ≤ d) (hfit : (spilitContent d src len np).dest.length ≤ dlen) :
    spilitContent dlen src len np = spilitContent d src len np := by
  obtain ⟨b, hrun, -⟩ := run_rule (splitPass d src len) (len + 1) .init
    (SplitInv src len) (fun s => len - s.i) (SplitExit d src len)
    (fun _ _ hs h => hs.pass h) (fun _ _ hs h => hs.leave h) (splitInv_init src len)
    (by simp only [SplitState.init]; omega)
  have hloop : splitLoop d src len = b := by rw [splitLoop, hrun]; rfl
  cases b with
  | error s => exact absurd hloop (splitLoop_room hroom s)
  | ok e =>
      have hdest : (spilitContent d src len np).dest = e.dest := by
        rw [spilitContent, hloop, splitFinish]
        split <;> rfl
      rw [hdest] at hfit
      have hsame := (splitInv_init src len).run_of_fits hrun hfit
      rw [spilitContent, spilitContent, hloop, splitLoop, hsame]
      rfl

end CiteParser
