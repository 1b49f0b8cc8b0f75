import CiteParser.Citation.Writes
import CiteParser.Features.Digits

/-!
# Page and volume numbers

A segment of numbers in decimal, kept apart by text. `twovalue` sets its first result when it
meets text behind a number, and all digits behind that text go to one sum. So a number that
ends the segment alone is not the first result, and a third number spoils the second.
-/

namespace CiteParser

/-- A run of decimal digits and the text behind it. -/
structure NumberRun where
  run : List UInt8
  gap : List UInt8
  run_ne_nil : run ≠ []
  run_digits : ∀ c ∈ run, isDigitCode c = true
  gap_text : ∀ c ∈ gap, valDig c = none

/-- The number of a run. -/
def NumberRun.value (r : NumberRun) : Nat := decimal (r.run.map fun c => (c - '0'.toUInt8).toNat)

/-- A segment of runs of digits with text between them, and with text or nothing in front of the
first and behind the last. The numbers are above 0 and fit an `int`. -/
structure NumberSegment where
  front : List UInt8
  runs : List NumberRun
  front_text : ∀ c ∈ front, valDig c = none
  apart : ∀ r ∈ runs.dropLast, r.gap ≠ []
  bounded : ∀ r ∈ runs, 0 < r.value ∧ r.value < 2 ^ 31

namespace NumberSegment

/-- The characters of some runs. -/
def runsText (runs : List NumberRun) : List UInt8 := runs.flatMap fun r => r.run ++ r.gap

/-- The characters of the segment. -/
def text (s : NumberSegment) : List UInt8 := s.front ++ runsText s.runs

def values (s : NumberSegment) : List Nat := s.runs.map NumberRun.value

/-- The number that the digits of some runs spell, read as if nothing stood between them. -/
def joined (runs : List NumberRun) : Nat :=
  decimal ((runs.flatMap NumberRun.run).map fun c => (c - '0'.toUInt8).toNat)

/-- `twovalue` returns the number of runs up to two and sets its results to their numbers, and
what is printed of them is the same whatever the variables held before. -/
structure Recovered (s : NumberSegment) : Prop where
  num : s.runs ≠ [] → ∀ a b, (twovalue s.text s.text.length a b).num = min 2 s.runs.length
  first : ∀ v : Nat, s.values[0]? = some v → ∀ a b, (twovalue s.text s.text.length a b).a = v
  second : ∀ v : Nat, s.values[1]? = some v → ∀ a b, (twovalue s.text s.text.length a b).b = v
  print : ∀ id, id = 11 ∨ id = 15 → ∀ l l' : Locals,
    (infoPrint ⟨id, s.text, l⟩).map Print.text = (infoPrint ⟨id, s.text, l'⟩).map Print.text

end NumberSegment

/-! ## The loop of `twovalue` -/

section Loop

variable {a b : Int}

theorem valDig_of_isDigitCode {c : UInt8} (h : isDigitCode c = true) :
    valDig c = some (c - '0'.toUInt8).toNat := by
  rw [valDig, if_pos h]

theorem digitsOf_text {str : List UInt8} (h : ∀ c ∈ str, valDig c = none) : digitsOf str = [] :=
  List.filterMap_eq_nil_iff.mpr h

theorem digitsOf_digits {str : List UInt8} (h : ∀ c ∈ str, isDigitCode c = true) :
    digitsOf str = str.map fun c => (c - '0'.toUInt8).toNat := by
  rw [digitsOf, ← List.filterMap_eq_map]
  exact List.filterMap_congr fun c hc => valDig_of_isDigitCode (h c hc)

/-- Text between numbers changes nothing, unless it ends the first one. -/
theorem foldl_twovalueStep_idle {str : List UInt8} (h : ∀ c ∈ str, valDig c = none)
    {s : TwoValue} (hs : ¬ (s.num = 1 ∧ 0 < s.sum)) : str.foldl twovalueStep s = s := by
  induction str with
  | nil => rfl
  | cons c rest ih =>
      have hstep : twovalueStep s c = s := by
        rw [twovalueStep, h c List.mem_cons_self]
        exact if_neg hs
      rw [List.foldl_cons, hstep]
      exact ih fun d hd => h d (List.mem_cons_of_mem c hd)

/-- Text behind the first number sets the first result. -/
theorem foldl_twovalueStep_gap {str : List UInt8} (h : ∀ c ∈ str, valDig c = none)
    (hne : str ≠ []) {sum : Int} (hsum : 0 < sum) :
    str.foldl twovalueStep ⟨1, sum, a, b⟩ = ⟨2, 0, sum, b⟩ := by
  cases str with
  | nil => exact absurd rfl hne
  | cons c rest =>
      have hstep : twovalueStep ⟨1, sum, a, b⟩ c = ⟨2, 0, sum, b⟩ := by
        rw [twovalueStep, h c List.mem_cons_self]
        exact if_pos ⟨rfl, hsum⟩
      rw [List.foldl_cons, hstep]
      exact foldl_twovalueStep_idle (fun d hd => h d (List.mem_cons_of_mem c hd)) (by simp)

/-- One more digit. -/
theorem int32_concat (ds : List Nat) (v : Nat) :
    int32 (int32 (decimal ds) * 10 + v) = int32 (decimal (ds ++ [v])) :=
  bmod_concat _ ds v

/-- The sum is the number that the digits spell, as far as an `int` holds it, from the second
number on and as long as no text is met. -/
theorem foldl_twovalueStep_sum {str : List UInt8} {num : Nat}
    (h : num = 2 ∨ ∀ c ∈ str, valDig c ≠ none) (ds : List Nat) :
    str.foldl twovalueStep ⟨num, int32 (decimal ds), a, b⟩ =
      ⟨num, int32 (decimal (ds ++ digitsOf str)), a, b⟩ := by
  induction str generalizing ds with
  | nil => rw [digitsOf, List.filterMap_nil, List.append_nil]; rfl
  | cons c rest ih =>
      have hrest := ih (h.imp_right fun hall d hd => hall d (List.mem_cons_of_mem c hd))
      rw [List.foldl_cons, twovalueStep, digitsOf]
      cases hc : valDig c with
      | none =>
          obtain rfl := h.resolve_right fun hall => hall c List.mem_cons_self hc
          rw [List.filterMap_cons_none hc]
          exact hrest ds
      | some v =>
          have hsplit : ds ++ v :: rest.filterMap valDig = ds ++ [v] ++ digitsOf rest := by
            rw [List.append_assoc]
            rfl
          simp only [int32_concat, List.filterMap_cons_some hc, hsplit]
          exact hrest (ds ++ [v])

end Loop

/-- The digits of a run spell its number. -/
theorem NumberRun.decimal_digitsOf (r : NumberRun) : decimal (digitsOf r.run) = r.value := by
  rw [digitsOf_digits r.run_digits]
  rfl

/-- The loop over a run reads its number. -/
theorem NumberRun.foldl_run (r : NumberRun) (h : r.value < 2 ^ 31) (a b : Int) :
    r.run.foldl twovalueStep ⟨1, 0, a, b⟩ = ⟨1, r.value, a, b⟩ := by
  have hdigits : ∀ c ∈ r.run, valDig c ≠ none := by
    intro c hc
    rw [valDig_of_isDigitCode (r.run_digits c hc)]
    exact Option.some_ne_none _
  have hsum := @foldl_twovalueStep_sum a b r.run 1 (.inr hdigits) []
  rwa [List.nil_append, r.decimal_digitsOf, int32_natCast h] at hsum

namespace NumberSegment

theorem digitsOf_runsText (runs : List NumberRun) :
    decimal (digitsOf (runsText runs)) = joined runs := by
  have hrun : ∀ r : NumberRun, (r.run ++ r.gap).filterMap valDig = digitsOf r.run := by
    intro r
    have hgap := digitsOf_text r.gap_text
    rw [digitsOf] at hgap
    rw [List.filterMap_append, hgap, List.append_nil]
    rfl
  have hdigits : ∀ c ∈ runs.flatMap NumberRun.run, isDigitCode c = true := by
    intro c hc
    obtain ⟨r, -, hr⟩ := List.mem_flatMap.mp hc
    exact r.run_digits c hr
  have hall : digitsOf (runsText runs) = digitsOf (runs.flatMap NumberRun.run) := by
    rw [digitsOf, runsText, List.filterMap_flatMap, digitsOf, List.filterMap_flatMap]
    simp only [hrun]
    rfl
  rw [hall, digitsOf_digits hdigits]
  rfl

/-! ## The calls -/

variable {s : NumberSegment} {r : NumberRun} {rest : List NumberRun}

/-- The call for a segment, its text in front left out. -/
theorem twovalue_text (s : NumberSegment) (a b : Int) :
    twovalue s.text s.text.length a b =
      let t := (runsText s.runs).foldl twovalueStep ⟨1, 0, a, b⟩
      if t.sum = 0 then { t with num := 1 } else { t with b := t.sum } := by
  rw [twovalue, map_charAt_length, text, List.foldl_append,
    foldl_twovalueStep_idle s.front_text (by simp)]

/-- Without a number nothing is set. -/
theorem twovalue_nil (h : s.runs = []) (a b : Int) :
    twovalue s.text s.text.length a b = ⟨1, 0, a, b⟩ := by
  rw [twovalue_text, h]
  rfl

/-- A number at the end of the segment is the second result. -/
theorem twovalue_end (h : s.runs = [r]) (hgap : r.gap = []) (a b : Int) :
    twovalue s.text s.text.length a b = ⟨1, r.value, a, r.value⟩ := by
  have hbounded := s.bounded r (by rw [h]; exact List.mem_singleton.mpr rfl)
  have htext : runsText [r] = r.run := by simp [runsText, hgap]
  have hne : (r.value : Int) ≠ 0 := by omega
  rw [twovalue_text, h, htext, r.foldl_run hbounded.2]
  exact if_neg hne

/-- A number with text behind it is the first result, and the digits behind that text are the
second one if their sum is not 0. -/
theorem twovalue_gap (h : s.runs = r :: rest) (hgap : r.gap ≠ []) (a b : Int) :
    twovalue s.text s.text.length a b =
      if int32 (joined rest) = 0 then ⟨1, 0, r.value, b⟩
      else ⟨2, int32 (joined rest), r.value, int32 (joined rest)⟩ := by
  have hbounded := s.bounded r (by rw [h]; exact List.mem_cons_self)
  have hpos : (0 : Int) < r.value := Int.ofNat_lt.mpr hbounded.1
  have hrest := @foldl_twovalueStep_sum r.value b (runsText rest) 2 (.inl rfl) []
  rw [List.nil_append, digitsOf_runsText] at hrest
  have hloop : (runsText (r :: rest)).foldl twovalueStep ⟨1, 0, a, b⟩ =
      ⟨2, int32 (joined rest), r.value, b⟩ := by
    rw [runsText, List.flatMap_cons, ← runsText, List.foldl_append, List.foldl_append,
      r.foldl_run hbounded.2, foldl_twovalueStep_gap r.gap_text hgap hpos]
    exact hrest
  rw [twovalue_text, h, hloop]
  dsimp only
  split_ifs with hzero
  · rw [hzero]
  · rfl

/-- What is printed for a segment is what `twovalue` gives. -/
theorem print_eq (s : NumberSegment)
    (h : ∀ a b a' b', numberText (twovalue s.text s.text.length a b) =
      numberText (twovalue s.text s.text.length a' b')) :
    ∀ id, id = 11 ∨ id = 15 → ∀ l l' : Locals,
      (infoPrint ⟨id, s.text, l⟩).map Print.text = (infoPrint ⟨id, s.text, l'⟩).map Print.text := by
  rintro id (rfl | rfl) l l'
  · exact congrArg some (h l.page.1 l.page.2 l'.page.1 l'.page.2)
  · exact congrArg some (h l.vol.1 l.vol.2 l'.vol.1 l'.vol.2)

/-- The sum of the numbers behind the first one is the second number if an `int` cannot tell the
two apart. -/
theorem int32_eq_iff {n v : Nat} (hv : v < 2 ^ 31) : int32 n = v ↔ n ≡ v [MOD 2 ^ 32] := by
  rw [← int32_natCast hv, int32, int32, Nat.ModEq]
  simp only [Int.bmod]
  omega

/-- Without a number what is printed is what the variable held before. -/
theorem not_recovered_nil (hruns : s.runs = []) : ¬ s.Recovered := by
  intro h
  have hprint := h.print 11 (.inl rfl) ⟨(false, false), (0, 0), (0, 0)⟩
    ⟨(false, false), (1, 0), (0, 0)⟩
  simp only [infoPrint, twovalue_nil hruns, Option.map_some, Option.some.injEq] at hprint
  revert hprint
  decide

/-- One number is recovered if text follows it. -/
theorem recovered_single_iff (hruns : s.runs = [r]) : s.Recovered ↔ r.gap ≠ [] := by
  have hfirst : s.values[0]? = some r.value := by rw [values, hruns]; rfl
  have hsecond : s.values[1]? = none := by rw [values, hruns]; rfl
  constructor
  · intro h hgap
    have hset := h.first r.value hfirst (-1) 0
    rw [twovalue_end hruns hgap] at hset
    have hneg : (-1 : Int) = r.value := hset
    omega
  · intro hgap
    have hcall : ∀ a b, twovalue s.text s.text.length a b = ⟨1, 0, r.value, b⟩ :=
      fun a b => (twovalue_gap hruns hgap a b).trans (if_pos rfl)
    refine ⟨fun _ a b => ?_, fun v hv a b => ?_, fun v hv => ?_, ?_⟩
    · rw [hcall, hruns]
      rfl
    · rw [hfirst] at hv
      rw [hcall, ← Option.some.inj hv]
    · rw [hsecond] at hv
      contradiction
    · exact s.print_eq fun a b a' b' => by rw [hcall, hcall]; rfl

/-- Two numbers and more are recovered if the sum behind the first one is the second one. -/
theorem recovered_more_iff {r' : NumberRun} (hruns : s.runs = r :: r' :: rest) :
    s.Recovered ↔ int32 (joined (r' :: rest)) = r'.value := by
  have hgap := s.apart r (by rw [hruns]; exact List.mem_cons_self)
  have hbounded := s.bounded r' (by rw [hruns]; simp)
  have hcall := fun a b => twovalue_gap hruns hgap a b
  have hfirst : s.values[0]? = some r.value := by rw [values, hruns]; rfl
  have hsecond : s.values[1]? = some r'.value := by rw [values, hruns]; rfl
  constructor
  · intro h
    have hset := h.second r'.value hsecond 0 0
    rw [hcall] at hset
    split_ifs at hset with hzero
    · have hnone : (0 : Int) = r'.value := hset
      omega
    · simpa only using hset
  · intro hsame
    have hne : int32 (joined (r' :: rest)) ≠ 0 := by
      rw [hsame]
      exact Int.natCast_ne_zero.mpr (Nat.ne_of_gt hbounded.1)
    have hresult : ∀ a b, twovalue s.text s.text.length a b =
        ⟨2, r'.value, r.value, r'.value⟩ := by
      intro a b
      rw [hcall, if_neg hne, hsame]
    refine ⟨fun _ a b => ?_, fun v hv a b => ?_, fun v hv a b => ?_, ?_⟩
    · rw [hresult, hruns]
      simp
    · rw [hfirst] at hv
      rw [hresult, ← Option.some.inj hv]
    · rw [hsecond] at hv
      rw [hresult, ← Option.some.inj hv]
    · exact s.print_eq fun a b a' b' => by rw [hresult, hresult]

/-- The numbers are recovered if there is one with text behind it, or if there are two, or more
that spell the second one together, as far as an `int` can tell. -/
theorem recovered_iff (s : NumberSegment) :
    s.Recovered ↔ (∃ r, s.runs = [r] ∧ r.gap ≠ []) ∨
      ∃ r r' rest, s.runs = r :: r' :: rest ∧ joined (r' :: rest) ≡ r'.value [MOD 2 ^ 32] := by
  rcases hruns : s.runs with _ | ⟨r, _ | ⟨r', rest⟩⟩
  · exact iff_of_false (not_recovered_nil hruns) (by simp)
  · rw [recovered_single_iff hruns]
    constructor
    · exact fun hgap => .inl ⟨r, rfl, hgap⟩
    · rintro (⟨t, heq, hgap⟩ | ⟨t, t', more, heq, -⟩)
      · obtain ⟨rfl, -⟩ := List.cons.inj heq
        exact hgap
      · simp at heq
  · have hbounded := s.bounded r' (by rw [hruns]; simp)
    rw [recovered_more_iff hruns, int32_eq_iff hbounded.2]
    constructor
    · exact fun hsame => .inr ⟨r, r', rest, rfl, hsame⟩
    · rintro (⟨t, heq, -⟩ | ⟨t, t', more, heq, hsame⟩)
      · simp at heq
      · simp only [List.cons.injEq] at heq
        obtain ⟨-, rfl, rfl⟩ := heq
        exact hsame

/-- Of the segment "123" the number is not the first result. -/
theorem not_recovered : ¬ ∀ s : NumberSegment, s.Recovered := by
  intro h
  have hpage := h ⟨[], [⟨bytes "123", [], by decide, by decide +kernel, by simp⟩], by simp, by simp,
    by decide +kernel⟩
  have hfirst := hpage.first 123 (by decide) (-1) 0
  revert hfirst
  decide

end NumberSegment

end CiteParser
