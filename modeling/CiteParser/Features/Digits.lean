import CiteParser.Core.Decimal
import CiteParser.Features.Snapshot

/-!
# The sums of the digit readers

`valofdigit` and `twovalue` add up digits in a 32-bit `int`, and nothing bounds the number of
digits they are given. Every sum is one that an `int` holds exactly if the numbers that the
digits spell are below 2^31.
-/

namespace CiteParser

/-- A character that `VALDIG` gives a value. -/
def readsDigit (c : UInt8) : Bool := (valDig c).isSome

/-- The values of the digits among some characters. -/
def digitsOf (str : List UInt8) : List Nat := str.filterMap valDig

/-- The number that digits spell at the start of a string. -/
def leadingNumber (str : List UInt8) : Nat := decimal (digitsOf (str.takeWhile readsDigit))

/-- Sums that an `int` holds, none of them negative. -/
def Accumulates (sums : List Int) : Prop := ∀ x ∈ sums, 0 ≤ x ∧ x < ((2 ^ 31 : Nat) : Int)

instance (sums : List Int) : Decidable (Accumulates sums) :=
  inferInstanceAs (Decidable (∀ x ∈ sums, 0 ≤ x ∧ x < ((2 ^ 31 : Nat) : Int)))

/-- The sums of the loop of `valofdigit`, each before it is stored. -/
def valofdigitSums : List UInt8 → Int → List Int
  | [], _ => []
  | c :: rest, sum =>
      match valDig c with
      | none => []
      | some v => (sum * 10 + v) :: valofdigitSums rest (int32 (sum * 10 + v))

/-- The sums of a call of `valofdigit`. -/
def valofdigitTrace (str : List UInt8) (len : Nat) : List Int :=
  valofdigitSums ((List.range len).map (charAt str)) 0

/-- The sums of all calls for a token: for the whole, and for its halves if it has digits. -/
def tokenSums (str : List UInt8) : List Int :=
  let slen := str.length
  valofdigitTrace str slen ++
    if puredigit str slen = 0 then []
    else
      valofdigitTrace str (slen / 2) ++
        valofdigitTrace (str.drop (slen / 2)) ((slen + 1) / 2)

/-- The sums of the loop of `twovalue`. -/
def twovalueSums : List UInt8 → TwoValue → List Int
  | [], _ => []
  | c :: rest, s =>
      match valDig c with
      | none => twovalueSums rest (twovalueStep s c)
      | some v => (s.sum * 10 + v) :: twovalueSums rest (twovalueStep s c)

/-- The sums of a call of `twovalue` for a segment. -/
def segmentSums (str : List UInt8) (a b : Int) : List Int :=
  twovalueSums ((List.range str.length).map (charAt str)) ⟨1, 0, a, b⟩

/-- The rest of a segment from its first digit that is not zero. -/
def fromNonzero (str : List UInt8) : List UInt8 := str.dropWhile fun c => (valDig c).getD 0 == 0

/-- The digits that a token begins with, and those that its second half begins with if that is
read, spell numbers that an `int` holds. -/
def TokenBounded (str : List UInt8) : Prop :=
  leadingNumber str < 2 ^ 31 ∧
    (puredigit str str.length ≠ 0 → leadingNumber (str.drop (str.length / 2)) < 2 ^ 31)

/-- The digits that follow one another from the first one that is not zero, and all digits
behind those, read as one number, spell numbers that an `int` holds. -/
def SegmentBounded (str : List UInt8) : Prop :=
  leadingNumber (fromNonzero str) < 2 ^ 31 ∧
    decimal (digitsOf ((fromNonzero str).dropWhile readsDigit)) < 2 ^ 31

/-- An `int` holds the numbers below 2^31. -/
theorem int32_natCast {n : Nat} (h : n < 2 ^ 31) : int32 n = n :=
  Int.bmod_eq_of_le (by omega) (by omega)

theorem valDig_lt : ∀ c : UInt8, ∀ v ∈ valDig c, v < 10 := by decide +kernel

/-- An accumulator of an `int` that starts with the digits read so far. -/
theorem accumulates_runningSums {ds : List Nat} (hds : decimal ds < 2 ^ 31) (ds' : List Nat) :
    Accumulates (runningSums int32 (decimal ds) ds') ↔ decimal (ds ++ ds') < 2 ^ 31 :=
  runningSums_within (fun _ hn => int32_natCast hn) hds ds'

theorem accumulates_append {l l' : List Int} :
    Accumulates (l ++ l') ↔ Accumulates l ∧ Accumulates l' :=
  List.forall_mem_append

/-! ## One number -/

section Token

theorem valofdigitSums_eq (str : List UInt8) (sum : Int) :
    valofdigitSums str sum = runningSums int32 sum (digitsOf (str.takeWhile readsDigit)) := by
  induction str generalizing sum with
  | nil => rfl
  | cons c rest ih =>
      rw [valofdigitSums, List.takeWhile_cons, readsDigit, digitsOf]
      cases hc : valDig c with
      | none => rfl
      | some v => simp [hc, ih, runningSums, digitsOf]

/-- A call for the first characters of a string. -/
theorem accumulates_valofdigitTrace (str : List UInt8) {n : Nat} (h : n ≤ str.length) :
    Accumulates (valofdigitTrace str n) ↔ leadingNumber (str.take n) < 2 ^ 31 := by
  rw [valofdigitTrace, map_charAt str h, valofdigitSums_eq]
  exact accumulates_runningSums (show decimal [] < 2 ^ 31 by decide) _

/-- The number at the start of a part is no larger. -/
theorem leadingNumber_le_append (str behind : List UInt8) :
    leadingNumber str ≤ leadingNumber (str ++ behind) := by
  rw [leadingNumber, leadingNumber, List.takeWhile_append]
  split_ifs with hall
  · rw [(List.takeWhile_prefix readsDigit).eq_of_length hall, digitsOf, digitsOf,
      List.filterMap_append]
    exact decimal_le_append _ _
  · exact Nat.le_refl _

theorem accumulates_tokenSums (str : List UInt8) :
    Accumulates (tokenSums str) ↔ TokenBounded str := by
  have hhalf : (str.drop (str.length / 2)).length = (str.length + 1) / 2 := by
    rw [List.length_drop]
    omega
  have hwhole := accumulates_valofdigitTrace str (Nat.le_refl str.length)
  have hfirst := accumulates_valofdigitTrace str (Nat.div_le_self str.length 2)
  have hsecond := accumulates_valofdigitTrace (str.drop (str.length / 2)) hhalf.ge
  rw [List.take_length] at hwhole
  rw [List.take_of_length_le hhalf.le] at hsecond
  have hpart := leadingNumber_le_append (str.take (str.length / 2)) (str.drop (str.length / 2))
  rw [List.take_append_drop] at hpart
  rw [tokenSums, accumulates_append, hwhole, TokenBounded]
  refine and_congr_right fun hall => ?_
  split_ifs with hdigits
  · exact iff_of_true (fun x hx => absurd hx List.not_mem_nil) (absurd hdigits)
  · rw [accumulates_append, hfirst, hsecond,
      and_iff_right (hpart.trans_lt hall)]
    exact (imp_iff_right hdigits).symm

end Token

/-! ## Two numbers -/

section Segment

variable {a b : Int}

/-- Behind the first number all digits go to one accumulator. -/
theorem twovalueSums_second (str : List UInt8) (sum a b : Int) :
    twovalueSums str ⟨2, sum, a, b⟩ = runningSums int32 sum (digitsOf str) := by
  induction str generalizing sum with
  | nil => rfl
  | cons c rest ih =>
      rw [twovalueSums, twovalueStep, digitsOf]
      cases hc : valDig c with
      | none => simp [hc, ih, digitsOf]
      | some v => simp [hc, ih, runningSums, digitsOf]

/-- Inside the first number its digits go to an accumulator of their own. -/
theorem accumulates_twovalueSums_first {ds : List Nat} (hpos : 0 < decimal ds)
    (hds : decimal ds < 2 ^ 31) (str : List UInt8) :
    Accumulates (twovalueSums str ⟨1, decimal ds, a, b⟩) ↔
      decimal (ds ++ digitsOf (str.takeWhile readsDigit)) < 2 ^ 31 ∧
        decimal (digitsOf (str.dropWhile readsDigit)) < 2 ^ 31 := by
  induction str generalizing ds with
  | nil => simpa [twovalueSums, digitsOf, Accumulates, decimal] using hds
  | cons c rest ih =>
      rw [twovalueSums, twovalueStep, List.takeWhile_cons, List.dropWhile_cons, readsDigit]
      cases hc : valDig c with
      | none =>
          have hrest : digitsOf (c :: rest) = digitsOf rest := List.filterMap_cons_none hc
          have hsecond := accumulates_runningSums (show decimal [] < 2 ^ 31 by decide)
            (digitsOf rest)
          have hnone : ds ++ digitsOf [] = ds := List.append_nil ds
          simp only [Option.isSome_none, Bool.false_eq_true, if_false, hrest, hnone]
          rw [if_pos ⟨trivial, Int.ofNat_lt.mpr hpos⟩, twovalueSums_second, and_iff_right hds]
          exact hsecond
      | some v =>
          have hsum : (decimal ds : Int) * 10 + v = (decimal (ds ++ [v]) : Nat) := by
            rw [decimal_concat]
            push_cast
            rfl
          have hsplit : ds ++ digitsOf (c :: rest.takeWhile readsDigit) =
              ds ++ [v] ++ digitsOf (rest.takeWhile readsDigit) := by
            rw [digitsOf, List.filterMap_cons_some hc, List.append_assoc]
            rfl
          simp only [Option.isSome_some, if_true, hsum, hsplit, Accumulates, List.forall_mem_cons]
          by_cases hv : decimal (ds ++ [v]) < 2 ^ 31
          · rw [int32_natCast hv, and_iff_right ⟨Int.natCast_nonneg _, Int.ofNat_lt.mpr hv⟩]
            exact ih (hpos.trans_le (decimal_le_append _ _)) hv
          · refine iff_of_false (fun h => hv (Int.ofNat_lt.mp h.1.2)) fun h => hv ?_
            exact (decimal_le_append _ _).trans_lt h.1

/-- Before the first number zeros and text add nothing. -/
theorem accumulates_twovalueSums (str : List UInt8) :
    Accumulates (twovalueSums str ⟨1, 0, a, b⟩) ↔ SegmentBounded str := by
  induction str with
  | nil =>
      simp [twovalueSums, SegmentBounded, Accumulates, fromNonzero, leadingNumber, digitsOf,
        decimal]
  | cons c rest ih =>
      rw [SegmentBounded, fromNonzero, List.dropWhile_cons]
      rw [twovalueSums, twovalueStep]
      cases hc : valDig c with
      | none => exact ih
      | some v =>
          have hlt := valDig_lt c v hc
          by_cases hv : v = 0
          · subst hv
            simp only [Option.getD_some, BEq.rfl, if_true]
            rw [Accumulates, List.forall_mem_cons, and_iff_right (by decide)]
            exact ih
          · have hone : decimal [v] = v := Nat.ofDigits_singleton
            have hsmall : decimal [v] < 2 ^ 31 := by omega
            have hsum : (0 : Int) * 10 + v = (decimal [v] : Nat) := by
              rw [hone, Int.zero_mul, Int.zero_add]
            have hreads : readsDigit c = true := by rw [readsDigit, hc]; rfl
            have htest : (v == 0) = false := beq_false_of_ne hv
            simp only [Option.getD_some, htest, Bool.false_eq_true, if_false, hsum, Accumulates,
              List.forall_mem_cons, int32_natCast hsmall, leadingNumber, List.takeWhile_cons,
              List.dropWhile_cons, hreads, if_true]
            rw [and_iff_right ⟨Int.natCast_nonneg _, Int.ofNat_lt.mpr hsmall⟩]
            have hfirst := @accumulates_twovalueSums_first a b [v] (by omega) hsmall rest
            rw [digitsOf, List.filterMap_cons_some hc]
            exact hfirst

end Segment

/-- The sums stay in an `int` exactly as long as the numbers do. -/
theorem accumulates_iff (str seg : List UInt8) (a b : Int) :
    (Accumulates (tokenSums str) ↔ TokenBounded str) ∧
      (Accumulates (segmentSums seg a b) ↔ SegmentBounded seg) := by
  refine ⟨accumulates_tokenSums str, ?_⟩
  rw [segmentSums, map_charAt_length]
  exact accumulates_twovalueSums seg

/-- The token "99999999999" spells a number that no `int` holds. -/
theorem not_accumulates : ¬ ((∀ (ref : Reference) s t s', ref.next s = some (t, s') →
      t.str.length ≤ 255 → Accumulates (tokenSums t.str)) ∧
    ∀ str a b, str.length ≤ 1023 → Accumulates (segmentSums str a b)) := by
  rintro ⟨htokens, -⟩
  have hnext : ((plainReference (bytes "99999999999")).next (0, 32)).map (fun r => r.1.str) =
      some (bytes "99999999999") := by decide +kernel
  obtain ⟨⟨t, s'⟩, hnext, hstr⟩ := Option.map_eq_some_iff.mp hnext
  have hstr : t.str = bytes "99999999999" := hstr
  have hsums := htokens _ _ t s' hnext (by rw [hstr]; decide)
  rw [hstr, Accumulates] at hsums
  revert hsums
  decide +kernel

end CiteParser
