import CiteParser.Area.Filter
import CiteParser.Core.Loop

/-!
# Keyword stacks

`stackData` calls a filter where a word of the text starts, steps over what the filter has
fitted and records where that ends. A bit keeps it from calling inside a word; behind a fitted
span the loop takes one more step and finds the bit still set.
-/

namespace CiteParser

open Loop

/-- A letter or a digit. -/
def isData (ch : UInt8) : Bool :=
  ('A'.toUInt8 ≤ ch && ch ≤ 'Z'.toUInt8) || ('a'.toUInt8 ≤ ch && ch ≤ 'z'.toUInt8) ||
    ('0'.toUInt8 ≤ ch && ch ≤ '9'.toUInt8)

/-- `MAX_STACK`. -/
def maxStack : Nat := 2000

/-- A filter on a string and a threshold: the value returned and the length `*fitLen`. -/
abbrev AcceptStr := List UInt8 → Nat → Bool × Nat

/-- The variables of `stackData`, with the positions at which the filter has been called. -/
structure StackRun where
  i : Nat
  unlock : Bool
  data : List Nat
  calls : List Nat

/-- A pass of the loop of `stackData`. -/
def stackPass (acceptStr : AcceptStr) (content : List UInt8) (len threshold : Nat)
    (s : StackRun) : Outcome StackRun StackRun :=
  if s.i < len then
    if isData (memory content s.i) then
      if s.unlock then
        let (accept, fitLen) := acceptStr (content.drop s.i) threshold
        let i := s.i + fitLen
        let data := if accept && s.data.length < maxStack then s.data ++ [i] else s.data
        .next ⟨i + 1, false, data, s.calls ++ [s.i]⟩
      else .next { s with i := s.i + 1 }
    else .next { s with i := s.i + 1, unlock := true }
  else .exit s

/-- The run of `stackData`; `none` stands for a loop that goes on beyond the bound. -/
def stackRun (acceptStr : AcceptStr) (content : List UInt8) (len threshold : Nat) :
    Option StackRun :=
  run (stackPass acceptStr content len threshold) (len + 1) ⟨0, true, [], []⟩

/-- A word of the text starts at the position. -/
def WordStart (content : List UInt8) (p : Nat) : Prop :=
  isData (memory content p) = true ∧ (p = 0 ∨ isData (memory content (p - 1)) = false)

instance (content : List UInt8) (p : Nat) : Decidable (WordStart content p) :=
  inferInstanceAs (Decidable (_ ∧ _))

/-- The length that the filter fits at a position. -/
def fitAt (acceptStr : AcceptStr) (content : List UInt8) (threshold p : Nat) : Nat :=
  (acceptStr (content.drop p) threshold).2

section Scan

variable (content : List UInt8) (len : Nat) (fit : Nat → Nat)

/-- The calls are at the word starts that lie in no span of a call before them. -/
def AtWordStarts (calls : List Nat) : Prop :=
  ∀ p, p ∈ calls ↔ p < len ∧ WordStart content p ∧ ∀ q ∈ calls, q < p → q + fit q ≤ p

/-- The word starts of the `n` positions from `p` on that lie in no span of one before them, if
the last span before ends at `free`. -/
def keywordStarts : Nat → Nat → Nat → List Nat
  | 0, _, _ => []
  | n + 1, p, free =>
      if WordStart content p ∧ free ≤ p then p :: keywordStarts n (p + 1) (p + fit p)
      else keywordStarts n (p + 1) free

/-- No word starts right behind a span or one position further. -/
def NoWordFollows : Prop :=
  ∀ q ∈ keywordStarts content fit len 0 0, 0 < fit q →
    ∀ p, p = q + fit q ∨ p = q + fit q + 1 → p < len → ¬ WordStart content p

end Scan

/-- What is expected of the scan: calls in order and exactly where they belong, records in
order and not more than there is room for. -/
structure ScansWords (content : List UInt8) (len : Nat) (fit : Nat → Nat) (s : StackRun) :
    Prop where
  calls : AtWordStarts content len fit s.calls
  ordered : s.calls.Pairwise (· < ·)
  increasing : s.data.Pairwise (· < ·)
  bounded : s.data.length ≤ maxStack

section Run

variable {acceptStr : AcceptStr} {content : List UInt8} {len threshold : Nat}

/-- The filter may be called at `p` again after a call at `q`: a fitted span has to end two
positions before. -/
def Beyond (fit : Nat → Nat) (q p : Nat) : Prop :=
  q + fit q ≤ p ∧ (0 < fit q → q + fit q + 2 ≤ p)

/-- What holds at the head of the loop. -/
structure Scanned (content : List UInt8) (len : Nat) (fit : Nat → Nat) (s : StackRun) :
    Prop where
  behind : ∀ q ∈ s.calls, q < len ∧ q + fit q < s.i
  calls : ∀ p < s.i, p ∈ s.calls ↔
    p < len ∧ WordStart content p ∧ ∀ q ∈ s.calls, q < p → Beyond fit q p
  unlock : isData (memory content s.i) = true →
    (s.unlock = true ↔ WordStart content s.i ∧ ∀ q ∈ s.calls, Beyond fit q s.i)
  ordered : s.calls.Pairwise (· < ·)
  data : ∀ x ∈ s.data, x < s.i
  increasing : s.data.Pairwise (· < ·)
  bounded : s.data.length ≤ maxStack

theorem scanned_start (content : List UInt8) (len : Nat) (fit : Nat → Nat) :
    Scanned content len fit ⟨0, true, [], []⟩ where
  behind := by simp
  calls := by simp
  unlock := by simp +contextual [WordStart]
  ordered := .nil
  data := by simp
  increasing := .nil
  bounded := Nat.zero_le _

/-- Behind a letter or digit no word starts. -/
theorem not_wordStart_succ {p : Nat} (h : isData (memory content p) = true) :
    ¬ WordStart content (p + 1) := by
  rintro ⟨-, hp | hp⟩
  · omega
  · rw [Nat.add_sub_cancel, h] at hp
    exact Bool.noConfusion hp

/-- A step over one position that is not called. -/
theorem Scanned.step {fit : Nat → Nat} {s : StackRun} (h : Scanned content len fit s)
    (unlock : Bool)
    (hcall : ¬ (WordStart content s.i ∧ ∀ q ∈ s.calls, Beyond fit q s.i))
    (hunlock : unlock = !isData (memory content s.i)) :
    Scanned content len fit { s with i := s.i + 1, unlock } where
  behind q hq := ⟨(h.behind q hq).1, Nat.lt_succ_of_lt (h.behind q hq).2⟩
  calls p hp := by
    rcases Nat.lt_succ_iff_lt_or_eq.mp hp with hlt | rfl
    · exact h.calls p hlt
    · refine iff_of_false (fun hmem => ?_) fun hp => hcall ⟨hp.2.1, fun q hq => hp.2.2 q hq ?_⟩
      · have := (h.behind _ hmem).2
        omega
      · have := (h.behind q hq).2
        omega
  unlock hdata := by
    cases hi : isData (memory content s.i) with
    | true =>
        rw [hunlock, hi]
        exact iff_of_false Bool.noConfusion fun hstart => not_wordStart_succ hi hstart.1
    | false =>
        rw [hunlock, hi]
        refine iff_of_true rfl ⟨⟨hdata, .inr hi⟩, fun q hq => ?_⟩
        have := (h.behind q hq).2
        change Beyond fit q (s.i + 1)
        exact ⟨by omega, fun _ => by omega⟩
  ordered := h.ordered
  data x hx := Nat.lt_succ_of_lt (h.data x hx)
  increasing := h.increasing
  bounded := h.bounded

/-- A call, after which the span is stepped over. -/
theorem Scanned.call {fit : Nat → Nat} {s : StackRun} (h : Scanned content len fit s)
    (hlen : s.i < len) (hstart : WordStart content s.i)
    (hbeyond : ∀ q ∈ s.calls, Beyond fit q s.i) (accept : Bool) :
    Scanned content len fit
      ⟨s.i + fit s.i + 1, false,
        if accept && s.data.length < maxStack then s.data ++ [s.i + fit s.i] else s.data,
        s.calls ++ [s.i]⟩ where
  behind q hq := by
    rcases List.mem_append.mp hq with hq | hq
    · have := h.behind q hq
      exact ⟨this.1, by dsimp only; omega⟩
    · rw [List.mem_singleton.mp hq]
      exact ⟨hlen, Nat.lt_succ_self _⟩
  calls p hp := by
    have hbehind : ∀ q ∈ s.calls, q < s.i := fun q hq => by
      have := (h.behind q hq).2
      omega
    simp only [List.mem_append, List.mem_singleton, or_imp, forall_and, forall_eq]
    rcases lt_trichotomy p s.i with hlt | rfl | hgt
    · rw [h.calls p hlt]
      constructor
      · rintro (⟨hp1, hp2, hp3⟩ | rfl)
        · exact ⟨hp1, hp2, hp3, fun hi => absurd hi (by omega)⟩
        · omega
      · rintro ⟨hp1, hp2, hp3, -⟩
        exact .inl ⟨hp1, hp2, hp3⟩
    · exact iff_of_true (.inr rfl)
        ⟨hlen, hstart, fun q hq _ => hbeyond q hq, fun hi => absurd hi (lt_irrefl _)⟩
    · refine iff_of_false ?_ fun ⟨_, _, _, hspan⟩ => ?_
      · rintro (hmem | rfl)
        · have := hbehind p hmem
          omega
        · omega
      · have hend := hspan hgt
        have hlow := hend.1
        have hfit := hend.2
        dsimp only at hp
        omega
  unlock hdata := by
    refine iff_of_false Bool.noConfusion fun ⟨hword, hspans⟩ => ?_
    have hend := (hspans s.i (List.mem_append_right _ (List.mem_singleton_self _))).2
    rcases Nat.eq_zero_or_pos (fit s.i) with hzero | hpos
    · rw [hzero] at hword
      exact not_wordStart_succ hstart.1 hword
    · have := hend hpos
      dsimp only at this
      omega
  ordered := by
    rw [List.pairwise_append]
    refine ⟨h.ordered, List.pairwise_singleton _ _, fun q hq x hx => ?_⟩
    have := (h.behind q hq).2
    rw [List.mem_singleton.mp hx]
    omega
  data x hx := by
    dsimp only at hx ⊢
    split at hx
    · rcases List.mem_append.mp hx with hx | hx
      · have := h.data x hx
        omega
      · rw [List.mem_singleton.mp hx]
        omega
    · have := h.data x hx
      omega
  increasing := by
    dsimp only
    split
    · rw [List.pairwise_append]
      refine ⟨h.increasing, List.pairwise_singleton _ _, fun x hx y hy => ?_⟩
      have := h.data x hx
      rw [List.mem_singleton.mp hy]
      omega
    · exact h.increasing
  bounded := by
    dsimp only
    split
    next hroom =>
        have : s.data.length < maxStack := by simpa using (Bool.and_eq_true_iff.mp hroom).2
        rw [List.length_append, List.length_singleton]
        omega
    next => exact h.bounded

/-- One pass keeps what holds at the head of the loop. -/
theorem Scanned.next {s s' : StackRun}
    (h : Scanned content len (fitAt acceptStr content threshold) s)
    (hpass : stackPass acceptStr content len threshold s = .next s') :
    Scanned content len (fitAt acceptStr content threshold) s' ∧ s.i < s'.i ∧ s.i < len := by
  rw [stackPass] at hpass
  split at hpass
  next hlen =>
      split at hpass
      next hdata =>
          have hcall := h.unlock hdata
          split at hpass
          next hunlock =>
              obtain ⟨hstart, hbeyond⟩ := hcall.mp hunlock
              cases hpass
              refine ⟨h.call hlen hstart hbeyond _, ?_, hlen⟩
              dsimp only
              omega
          next hlocked =>
              cases hpass
              refine ⟨?_, Nat.lt_succ_self _, hlen⟩
              apply h.step s.unlock (fun hc => hlocked (hcall.mpr hc))
              rw [hdata]
              simpa using hlocked
      next hdata =>
          cases hpass
          refine ⟨h.step true (fun hc => hdata hc.1.1) ?_, Nat.lt_succ_self _, hlen⟩
          simpa using hdata
  next => exact absurd hpass (by simp)

/-- The loop is left, with every position behind it. -/
theorem stackRun_spec (acceptStr : AcceptStr) (content : List UInt8) (len threshold : Nat) :
    ∃ out, stackRun acceptStr content len threshold = some out ∧
      Scanned content len (fitAt acceptStr content threshold) out ∧ len ≤ out.i := by
  apply run_rule _ _ _ (Scanned content len (fitAt acceptStr content threshold))
    (fun s => len - s.i) (fun out => Scanned content len _ out ∧ len ≤ out.i)
  · intro s s' h hpass
    obtain ⟨h', hlt, hlen⟩ := h.next hpass
    exact ⟨h', by omega⟩
  · intro s out h hpass
    rw [stackPass] at hpass
    split at hpass
    · split at hpass
      · split at hpass <;> exact absurd hpass (by simp)
      · exact absurd hpass (by simp)
    next hlen =>
        cases hpass
        exact ⟨h, not_lt.mp hlen⟩
  · exact scanned_start content len _
  · exact Nat.lt_succ_self _

end Run

section Expected

variable {content : List UInt8} {len : Nat} {fit : Nat → Nat}

/-- A list of positions is determined by a rule that decides on each from those before it. -/
theorem mem_iff_of_rule {A : Nat → Prop} {B : Nat → Nat → Prop} {l l' : List Nat}
    (h : ∀ p, p ∈ l ↔ A p ∧ ∀ q ∈ l, q < p → B q p)
    (h' : ∀ p, p ∈ l' ↔ A p ∧ ∀ q ∈ l', q < p → B q p) (p : Nat) : p ∈ l ↔ p ∈ l' := by
  induction p using Nat.strong_induction_on with
  | _ p ih =>
      rw [h, h']
      refine and_congr_right fun _ => forall_congr' fun q => ?_
      constructor
      · exact fun hq hmem hlt => hq ((ih q hlt).mpr hmem) hlt
      · exact fun hq hmem hlt => hq ((ih q hlt).mp hmem) hlt

theorem mem_keywordStarts {n p free : Nat} {x : Nat} (hx : x ∈ keywordStarts content fit n p free) :
    p ≤ x ∧ x < p + n := by
  induction n generalizing p free with
  | zero => exact absurd hx List.not_mem_nil
  | succ n ih =>
      rw [keywordStarts] at hx
      split at hx
      · rcases List.mem_cons.mp hx with rfl | hx
        · omega
        · have := ih hx
          omega
      · have := ih hx
        omega

/-- A position is listed if a word starts there, outside the last span and all that follow. -/
theorem mem_keywordStarts_iff (n p free x : Nat) :
    x ∈ keywordStarts content fit n p free ↔ (p ≤ x ∧ x < p + n) ∧ WordStart content x ∧
      free ≤ x ∧ ∀ q ∈ keywordStarts content fit n p free, q < x → q + fit q ≤ x := by
  induction n generalizing p free with
  | zero => simp [keywordStarts]
  | succ n ih =>
      have hlater : ∀ free' q, q ∈ keywordStarts content fit n (p + 1) free' → p + 1 ≤ q :=
        fun free' q hq => (mem_keywordStarts hq).1
      rw [keywordStarts]
      split
      next hp =>
          simp only [List.mem_cons, or_imp, forall_and, forall_eq]
          rcases eq_or_ne x p with rfl | hne
          · refine iff_of_true (.inl rfl) ⟨by omega, hp.1, hp.2, fun hlt => absurd hlt ?_, ?_⟩
            · exact lt_irrefl x
            · intro q hq hlt
              have := hlater _ q hq
              omega
          · rw [or_iff_right hne, ih]
            constructor
            · rintro ⟨hrange, hword, hfree, hspans⟩
              exact ⟨by omega, hword, by omega, fun _ => hfree, hspans⟩
            · rintro ⟨hrange, hword, _, hspan, hspans⟩
              exact ⟨by omega, hword, hspan (by omega), hspans⟩
      next hp =>
          rcases eq_or_ne x p with rfl | hne
          · refine iff_of_false (fun hmem => ?_) fun ⟨_, hword, hfree, _⟩ => hp ⟨hword, hfree⟩
            have := hlater _ _ hmem
            omega
          · rw [ih]
            refine and_congr_left fun _ => ?_
            omega

/-- The expected calls are those of the rule. -/
theorem atWordStarts_keywordStarts : AtWordStarts content len fit
    (keywordStarts content fit len 0 0) := by
  intro p
  rw [mem_keywordStarts_iff]
  simp

/-- If no word starts close behind a span, both rules for the next call say the same. -/
theorem beyond_iff {q p : Nat} (hword : WordStart content p) (hlen : p < len)
    (hfollow : 0 < fit q → ∀ p, p = q + fit q ∨ p = q + fit q + 1 → p < len →
      ¬ WordStart content p) : Beyond fit q p ↔ q + fit q ≤ p := by
  refine ⟨And.left, fun hle => ⟨hle, fun hpos => ?_⟩⟩
  by_contra hclose
  exact hfollow hpos p (by omega) hlen hword

/-- The calls of a whole scan follow a rule of their own. -/
theorem Scanned.calls_iff {s : StackRun} (h : Scanned content len fit s) (hlen : len ≤ s.i)
    (p : Nat) : p ∈ s.calls ↔
      (p < len ∧ WordStart content p) ∧ ∀ q ∈ s.calls, q < p → Beyond fit q p := by
  rw [and_assoc]
  by_cases hp : p < s.i
  · exact h.calls p hp
  · refine iff_of_false (fun hmem => ?_) fun hword => ?_
    · have := (h.behind p hmem).1
      omega
    · have := hword.1
      omega

/-- The calls of a whole scan are the expected ones exactly if no word starts close behind the
span of an expected call. -/
theorem Scanned.atWordStarts_iff {s : StackRun} (h : Scanned content len fit s)
    (hlen : len ≤ s.i) :
    AtWordStarts content len fit s.calls ↔ NoWordFollows content len fit := by
  have hrule := h.calls_iff hlen
  have hexpected := @atWordStarts_keywordStarts content len fit
  constructor
  · intro hat q hq hpos p hp hplen hword
    have hsame := mem_iff_of_rule (fun p => (hat p).trans and_assoc.symm)
      fun p => (hexpected p).trans and_assoc.symm
    have hqcall := (hsame q).mpr hq
    have hmem : p ∈ s.calls := by
      refine (hat p).mpr ⟨hplen, hword, fun q' hq' hlt => ?_⟩
      rcases lt_trichotomy q' q with hbefore | rfl | hafter
      · have := ((hrule q).mp hqcall).2 q' hq' hbefore
        have hend := this.1
        omega
      · omega
      · have := ((hrule q').mp hq').2 q hqcall hafter
        have hend := this.2 hpos
        omega
    have := (((hrule p).mp hmem).2 q hqcall (by omega)).2 hpos
    omega
  · intro hfollow
    have hlisted : ∀ p, p ∈ keywordStarts content fit len 0 0 ↔
        (p < len ∧ WordStart content p) ∧
          ∀ q ∈ keywordStarts content fit len 0 0, q < p → Beyond fit q p := by
      intro p
      rw [(hexpected p).trans and_assoc.symm]
      refine and_congr_right fun hp => forall₃_congr fun q hq _ => ?_
      exact (beyond_iff hp.2 hp.1 (hfollow q hq)).symm
    have hsame := mem_iff_of_rule hrule hlisted
    intro p
    rw [hsame, hexpected]
    simp only [hsame]

end Expected

/-- The scan does what is expected of it exactly if no word starts close behind the span of an
expected call. -/
theorem scansWords_iff (acceptStr : AcceptStr) (content : List UInt8) (len threshold : Nat) :
    ∃ out, stackRun acceptStr content len threshold = some out ∧
      (ScansWords content len (fitAt acceptStr content threshold) out ↔
        NoWordFollows content len (fitAt acceptStr content threshold)) := by
  obtain ⟨out, hout, hscan, hlen⟩ := stackRun_spec acceptStr content len threshold
  refine ⟨out, hout, ?_⟩
  rw [← hscan.atWordStarts_iff hlen]
  constructor
  · exact fun h => h.calls
  · exact fun hcalls => ⟨hcalls, hscan.ordered, hscan.increasing, hscan.bounded⟩

/-- The word behind a fitted keyword is never looked at. -/
theorem not_scansWords :
    ∃ out, stackRun (isAccpted [⟨1, bytes "reference", 9⟩]) (bytes "reference book") 14 0 =
        some out ∧ out.calls = [0] ∧
      ¬ ScansWords (bytes "reference book") 14
        (fitAt (isAccpted [⟨1, bytes "reference", 9⟩]) (bytes "reference book") 0) out := by
  have hcalls : (stackRun (isAccpted [⟨1, bytes "reference", 9⟩]) (bytes "reference book") 14
      0).map StackRun.calls = some [0] := by decide +kernel
  obtain ⟨out, hout, hiff⟩ := Option.map_eq_some_iff.mp hcalls
  refine ⟨out, hout, hiff, fun h => ?_⟩
  have hbook := (h.calls 10).mpr
  rw [hiff] at hbook
  exact absurd (hbook (by decide +kernel)) (by decide)

/-- `stackData`: a stack of offsets, the last of which is on top. -/
structure StackInfo where
  data : List Nat
  increasing : data.Pairwise (· < ·)
  bounded : data.length ≤ maxStack

/-- The stack that a scan leaves. -/
def stackData (acceptStr : AcceptStr) (content : List UInt8) (len threshold : Nat) : StackInfo :=
  match h : stackRun acceptStr content len threshold with
  | some out =>
      { data := out.data
        increasing := by
          obtain ⟨out', hout, hscan, -⟩ := stackRun_spec acceptStr content len threshold
          cases h.symm.trans hout
          exact hscan.increasing
        bounded := by
          obtain ⟨out', hout, hscan, -⟩ := stackRun_spec acceptStr content len threshold
          cases h.symm.trans hout
          exact hscan.bounded }
  | none => ⟨[], .nil, Nat.zero_le _⟩

end CiteParser
