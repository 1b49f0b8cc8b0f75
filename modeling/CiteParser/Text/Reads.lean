import CiteParser.Text.SplitFacts

/-!
# What the tokeniser reads

The offsets of the text that a call of `spilitContent` looks at, told beside the call. The
call depends on the text at these offsets only, so none is left out; and none lies behind
the length the call is given, which is where the terminator stands.
-/

namespace CiteParser

open Loop

/-- The offsets that the scan for a connector looks at. -/
def connectAheadReads (src : Nat → UInt8) : Nat → Nat → List Nat
  | 0, _ => []
  | n + 1, k =>
      k :: if isAsciiOrDigit (src k) || isConnectCh (src k) ||
          (isDelimiter (src k) && !isBlank (src k)) then []
        else connectAheadReads src n (k + 1)

/-- The offsets that a pass of the main loop looks at. -/
def splitPassReads (src : Nat → UInt8) (len : Nat) (s : SplitState) : List Nat :=
  if len ≤ s.i then []
  else
    s.i :: ((if isConnectCh (src s.i) && decide (0 < s.i) then [s.i + 1] else []) ++
      if s.flag && isDelimiter (src s.i) then connectAheadReads src (len - (s.i + 1)) (s.i + 1)
      else [])

/-- The offsets that a call looks at; the loops behind the main loop may look at all that is
left. -/
def spilitContentReads (dlen : Nat) (src : Nat → UInt8) (len : Nat) : List Nat :=
  (visited (splitPass dlen src len) (len + 1) .init).flatMap (splitPassReads src len) ++
    match splitLoop dlen src len with
    | .ok s => List.range' s.i (len - s.i)
    | .error _ => []

/-! ## Bounds -/

/-- The scan for a connector stays inside its range. -/
theorem connectAheadReads_lt {src : Nat → UInt8} {n k i : Nat}
    (h : i ∈ connectAheadReads src n k) : k ≤ i ∧ i < k + n := by
  induction n generalizing k with
  | zero => exact absurd h List.not_mem_nil
  | succ n ih =>
      rcases List.mem_cons.mp h with rfl | h
      · omega
      · split at h
        · exact absurd h List.not_mem_nil
        · have hrest := ih h
          omega

/-- No offset behind the given length is looked at. -/
theorem spilitContentReads_le {dlen : Nat} {src : Nat → UInt8} {len i : Nat}
    (h : i ∈ spilitContentReads dlen src len) : i ≤ len := by
  rcases List.mem_append.mp h with h | h
  · obtain ⟨s, -, hi⟩ := List.mem_flatMap.mp h
    unfold splitPassReads at hi
    by_cases hend : len ≤ s.i
    · rw [if_pos hend] at hi
      exact absurd hi List.not_mem_nil
    · rw [if_neg hend] at hi
      rcases List.mem_cons.mp hi with rfl | hi
      · omega
      · rcases List.mem_append.mp hi with hi | hi
        · split at hi
          · rw [List.mem_singleton.mp hi]
            omega
          · exact absurd hi List.not_mem_nil
        · split at hi
          · have hlt := connectAheadReads_lt hi
            omega
          · exact absurd hi List.not_mem_nil
  · cases hloop : splitLoop dlen src len with
    | ok s =>
        rw [hloop] at h
        have hlt := List.mem_range'_1.mp h
        omega
    | error s =>
        rw [hloop] at h
        exact absurd h List.not_mem_nil

/-! ## Dependence -/

section Dependence

variable {src src' : Nat → UInt8}

/-- The scan for a connector depends on what it reads. -/
theorem connectAhead_congr {n k : Nat} (h : ∀ i ∈ connectAheadReads src n k, src i = src' i) :
    connectAhead src n k = connectAhead src' n k := by
  induction n generalizing k with
  | zero => rfl
  | succ n ih =>
      unfold connectAhead
      rw [← h k List.mem_cons_self]
      cases hletter : isAsciiOrDigit (src k) with
      | true => rfl
      | false =>
          cases hconnect : isConnectCh (src k) with
          | true => rfl
          | false =>
              cases hdel : isDelimiter (src k) && !isBlank (src k) with
              | true => rfl
              | false =>
                  refine ih fun i hi => h i (List.mem_cons_of_mem k ?_)
                  rwa [hletter, hconnect, hdel]

/-- The connector that is found has been read. -/
theorem mem_connectAheadReads {n k p : Nat} (h : connectAhead src n k = some p) :
    p ∈ connectAheadReads src n k := by
  induction n generalizing k with
  | zero => contradiction
  | succ n ih =>
      unfold connectAhead at h
      unfold connectAheadReads
      cases hletter : isAsciiOrDigit (src k) with
      | true =>
          rw [hletter] at h
          contradiction
      | false =>
          cases hconnect : isConnectCh (src k) with
          | true =>
              rw [hletter, hconnect] at h
              cases h
              exact List.mem_cons_self
          | false =>
              rw [hletter, hconnect] at h
              cases hdel : isDelimiter (src k) && !isBlank (src k) with
              | true =>
                  rw [hdel] at h
                  contradiction
              | false =>
                  rw [hdel] at h
                  exact List.mem_cons_of_mem k (ih h)

/-- The branches of a pass depend on the character at their index and on the scan; where
they go on, the character has been read. -/
theorem splitBranch_congr {len : Nat} {s : SplitState} (hi : src s.i = src' s.i)
    (hahead : (s.flag && isDelimiter (src s.i)) = true →
      ∀ i ∈ connectAheadReads src (len - (s.i + 1)) (s.i + 1), src i = src' i) :
    splitBranch src len s = splitBranch src' len s ∧
      ∀ t, splitBranch src len s = .next t → src t.i = src' t.i := by
  unfold splitBranch
  rw [← hi]
  cases hflag : s.flag with
  | false =>
      refine ⟨rfl, fun t ht => ?_⟩
      simp only [Bool.not_false, ite_true] at ht
      split_ifs at ht <;> cases ht <;> exact hi
  | true =>
      cases hscan : isDelimiter (src s.i) && !s.connect with
      | false =>
          refine ⟨by simp only [Bool.not_true, Bool.false_eq_true, ite_false], fun t ht => ?_⟩
          simp only [Bool.not_true, Bool.false_eq_true, ite_false] at ht
          split_ifs at ht
          cases ht
          exact hi
      | true =>
          have hdel := (Bool.and_eq_true_iff.mp hscan).1
          have hreads := hahead (by rw [hflag, hdel]; rfl)
          rw [← connectAhead_congr hreads]
          refine ⟨rfl, fun t ht => ?_⟩
          simp only [Bool.not_true, Bool.false_eq_true, ite_false, ite_true] at ht
          cases hfound : connectAhead src (len - (s.i + 1)) (s.i + 1) with
          | none => simp only [hfound, reduceCtorEq] at ht
          | some k =>
              simp only [hfound, Outcome.next.injEq] at ht
              rw [← ht]
              exact hreads k (mem_connectAheadReads hfound)

/-- A pass depends on what it reads. -/
theorem splitPass_congr {dlen len : Nat} {s : SplitState}
    (h : ∀ i ∈ splitPassReads src len s, src i = src' i) :
    splitPass dlen src len s = splitPass dlen src' len s := by
  unfold splitPass
  by_cases hend : len ≤ s.i
  · rw [if_pos hend, if_pos hend]
  · rw [if_neg hend, if_neg hend]
    unfold splitPassReads at h
    rw [if_neg hend] at h
    have hi : src s.i = src' s.i := h s.i List.mem_cons_self
    have hnext : (isConnectCh (src s.i) && decide (0 < s.i)) = true →
        src (s.i + 1) = src' (s.i + 1) := fun hc =>
      h _ (List.mem_cons_of_mem _ (List.mem_append_left _ (by
        rw [if_pos hc]
        exact List.mem_singleton.mpr rfl)))
    have hahead : (s.flag && isDelimiter (src s.i)) = true →
        ∀ i ∈ connectAheadReads src (len - (s.i + 1)) (s.i + 1), src i = src' i := fun hc i hi =>
      h i (List.mem_cons_of_mem _ (List.mem_append_right _ (by rwa [if_pos hc])))
    obtain ⟨hbranch, hgo⟩ := @splitBranch_congr src src' len
      { s with connect := s.connect || isConnectCh (src s.i) } hi hahead
    have htest : splitTest src len s = splitTest src' len s := by
      unfold splitTest
      rw [← hi, ← hbranch]
      cases hc : isConnectCh (src s.i) && decide (0 < s.i) with
      | false => rfl
      | true => rw [hnext hc]
    rw [← htest]
    cases hgoes : splitTest src len s with
    | exit e => rfl
    | next t =>
        have hread : src t.i = src' t.i := by
          unfold splitTest at hgoes
          split at hgoes
          · contradiction
          · exact hgo t hgoes
        simp only [splitStore, hread]

/-- The scan for a delimiter depends on what is left of the text. -/
theorem nextDelimiter_congr {n i : Nat} {nextdeli : UInt8}
    (h : ∀ k, i ≤ k → k < i + n → src k = src' k) :
    nextDelimiter src n i nextdeli = nextDelimiter src' n i nextdeli := by
  induction n generalizing i with
  | zero => rfl
  | succ n ih =>
      unfold nextDelimiter
      rw [← h i (Nat.le_refl i) (by omega), ih fun k hlo hhi => h k (by omega) (by omega)]

/-- The final loop depends on what is left of the text. -/
theorem skipDelimiters_congr {n i : Nat} {np : UInt8}
    (h : ∀ k, i ≤ k → k < i + n → src k = src' k) :
    skipDelimiters src n i np = skipDelimiters src' n i np := by
  induction n generalizing i np with
  | zero => rfl
  | succ n ih =>
      unfold skipDelimiters
      rw [← h i (Nat.le_refl i) (by omega), ih fun k hlo hhi => h k (by omega) (by omega)]

/-- A call depends on what it reads. -/
theorem spilitContent_congr {dlen len : Nat} {np : UInt8}
    (h : ∀ i ∈ spilitContentReads dlen src len, src i = src' i) :
    spilitContent dlen src len np = spilitContent dlen src' len np := by
  have hloop : splitLoop dlen src len = splitLoop dlen src' len := by
    unfold splitLoop
    rw [run_congr fun v hv => splitPass_congr fun i hi =>
      h i (List.mem_append_left _ (List.mem_flatMap.mpr ⟨v, hv, hi⟩))]
  unfold spilitContent
  rw [← hloop]
  cases hend : splitLoop dlen src len with
  | error s => rfl
  | ok s =>
      have hrest : ∀ k, s.i ≤ k → k < s.i + (len - s.i) → src k = src' k := by
        intro k hlo hhi
        refine h k (List.mem_append_right _ ?_)
        rw [hend]
        exact List.mem_range'_1.mpr ⟨hlo, hhi⟩
      have hfound : ∀ found : Nat × UInt8, s.i ≤ found.1 →
          skipDelimiters src (len - found.1) found.1 np =
            skipDelimiters src' (len - found.1) found.1 np := fun found hle =>
        skipDelimiters_congr fun k hlo hhi => hrest k (by omega) (by omega)
      simp only [splitFinish, ← nextDelimiter_congr hrest]
      rw [hfound]
      split
      · exact (nextDelimiter_spec src (len - s.i) s.i s.nextdeli).1
      · exact Nat.le_refl s.i

end Dependence

end CiteParser
