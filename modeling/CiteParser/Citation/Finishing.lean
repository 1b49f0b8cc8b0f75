import CiteParser.Citation.Info

/-!
# What `tagFinishing` leaves of a segment

The pass goes from the last character to the first and writes a terminator at each comma, opening
bracket or brace behind the last letter or digit. The leftmost terminator decides what the string
is then; read from the front, the string ends at the first such character.
-/

namespace CiteParser

/-- A line end becomes a blank. -/
def unbroken (c : UInt8) : UInt8 := if c = '\n'.toUInt8 ∨ c = '\r'.toUInt8 then ' '.toUInt8 else c

/-- The characters that `tagFinishing` does not leave at the end. -/
def isDangling (c : UInt8) : Bool :=
  c == ','.toUInt8 || c == '['.toUInt8 || c == '\x7b'.toUInt8 || c == '\x7d'.toUInt8

/-- What is left of a string is its beginning without line ends: all its letters and digits, and
nothing dangling behind them; a second pass finds nothing to do. -/
structure CleansUp (s s' : List UInt8) : Prop where
  begins : s' <+: s.map unbroken
  keeps : s'.filter isAsciiOrDigit = s.filter isAsciiOrDigit
  ends : ∀ rest, rest <:+ s' → (∀ c ∈ rest, isAsciiOrDigit c = false) →
    ∀ c ∈ rest, isDangling c = false
  again : tagFinishing s' = s'

/-- No letter and no digit is left in a string. -/
def noData (s : List UInt8) : Bool := s.all fun c => !isAsciiOrDigit c

/-- The variable `end` behind the characters of a string. -/
theorem foldr_tagFinishing_fst (f : UInt8 → Bool → UInt8) (s : List UInt8) :
    (s.foldr (fun c (acc : Bool × List UInt8) =>
      (acc.1 && !isAsciiOrDigit c, f c (acc.1 && !isAsciiOrDigit c) :: acc.2))
      (true, [])).1 = noData s := by
  induction s with
  | nil => rfl
  | cons c s ih => rw [List.foldr_cons, ih, noData, noData, List.all_cons, Bool.and_comm]

/-- What the pass makes of the first character, which it meets last. -/
theorem tagFinishing_cons (c : UInt8) (s : List UInt8) :
    tagFinishing (c :: s) =
      (if noData (c :: s) = true ∧ isDangling (unbroken c) = true then 0 else unbroken c) ::
        tagFinishing s := by
  have hend := foldr_tagFinishing_fst (fun c last =>
    if last = true ∧ (unbroken c = ','.toUInt8 ∨ unbroken c = '['.toUInt8 ∨
      unbroken c = '\x7b'.toUInt8 ∨ unbroken c = '\x7d'.toUInt8) then 0 else unbroken c) s
  have hdangling : isDangling (unbroken c) = true ↔ unbroken c = ','.toUInt8 ∨
      unbroken c = '['.toUInt8 ∨ unbroken c = '\x7b'.toUInt8 ∨ unbroken c = '\x7d'.toUInt8 := by
    simp [isDangling, or_assoc]
  have hdata : noData (c :: s) = (noData s && !isAsciiOrDigit c) := by
    rw [noData, List.all_cons, Bool.and_comm]
    rfl
  rw [hdata, ← hend]
  simp only [hdangling]
  rfl

section Strings

variable {s : List UInt8} {c : UInt8}

/-- Line ends become blanks, which no test tells from them. -/
theorem unbroken_spec : ∀ c : UInt8, isAsciiOrDigit (unbroken c) = isAsciiOrDigit c ∧
    (unbroken c = 0 ↔ c = 0) ∧ unbroken (unbroken c) = unbroken c := by decide +kernel

/-- The string that is left, from its first character on. -/
theorem cstr_tagFinishing_cons (hc : c ≠ 0) (s : List UInt8) :
    cstr (tagFinishing (c :: s)) =
      if noData (c :: s) = true ∧ isDangling (unbroken c) = true then []
      else unbroken c :: cstr (tagFinishing s) := by
  rw [tagFinishing_cons, cstr]
  split
  · rfl
  · rw [List.takeWhile_cons_of_pos (by simpa [(unbroken_spec c).2.1] using hc)]
    rfl

/-- A string with nothing dangling at its end and without line ends is left as it is. -/
theorem tagFinishing_eq_self (hlines : ∀ c ∈ s, unbroken c = c)
    (hends : ∀ rest, rest <:+ s → (∀ c ∈ rest, isAsciiOrDigit c = false) →
      ∀ c ∈ rest, isDangling c = false) : tagFinishing s = s := by
  induction s with
  | nil => rfl
  | cons c s ih =>
      have hline := hlines c List.mem_cons_self
      rw [tagFinishing_cons, ih (fun d hd => hlines d (List.mem_cons_of_mem c hd))
        (fun rest hrest => hends rest (hrest.trans (List.suffix_cons c s))), hline, if_neg]
      rintro ⟨hdata, hdangling⟩
      rw [hends (c :: s) List.suffix_rfl (by simpa [noData] using hdata) c
        List.mem_cons_self] at hdangling
      contradiction

/-- What is left of a string is a beginning of it without line ends. -/
theorem cstr_tagFinishing_prefix (hs : ∀ c ∈ s, c ≠ 0) :
    cstr (tagFinishing s) <+: s.map unbroken := by
  induction s with
  | nil => exact List.prefix_rfl
  | cons c s ih =>
      obtain ⟨hc, hs⟩ := List.forall_mem_cons.mp hs
      rw [cstr_tagFinishing_cons hc]
      split
      · exact List.nil_prefix
      · rw [List.map_cons, List.cons_prefix_cons]
        exact ⟨rfl, ih hs⟩

/-- No letter and no digit lies behind a terminator that is written. -/
theorem filter_cstr_tagFinishing (hs : ∀ c ∈ s, c ≠ 0) :
    (cstr (tagFinishing s)).filter isAsciiOrDigit = s.filter isAsciiOrDigit := by
  induction s with
  | nil => rfl
  | cons c s ih =>
      obtain ⟨hc, hs⟩ := List.forall_mem_cons.mp hs
      rw [cstr_tagFinishing_cons hc]
      split
      · rename_i hcut
        rw [List.filter_nil, eq_comm, List.filter_eq_nil_iff]
        simpa [noData] using hcut.1
      · rw [List.filter_cons, List.filter_cons, (unbroken_spec c).1, ih hs]
        split
        · -- a letter or a digit is no line end
          rename_i hdata
          have hsame : ∀ c : UInt8, isAsciiOrDigit c = true → unbroken c = c := by
            decide +kernel
          rw [hsame c hdata]
        · rfl

/-- A dangling character of what is left has a letter or a digit behind it. -/
theorem not_isDangling_of_suffix (hs : ∀ c ∈ s, c ≠ 0) :
    ∀ rest, rest <:+ cstr (tagFinishing s) → (∀ c ∈ rest, isAsciiOrDigit c = false) →
      ∀ c ∈ rest, isDangling c = false := by
  induction s with
  | nil =>
      intro rest hrest _
      rw [List.suffix_nil.mp hrest]
      exact fun c hc => absurd hc List.not_mem_nil
  | cons c s ih =>
      obtain ⟨hc, hs'⟩ := List.forall_mem_cons.mp hs
      intro rest hrest hdata
      rw [cstr_tagFinishing_cons hc] at hrest
      split at hrest
      · rw [List.suffix_nil.mp hrest]
        exact fun c hc => absurd hc List.not_mem_nil
      · rename_i hkept
        rcases List.suffix_cons_iff.mp hrest with rfl | hrest
        · -- with no letter behind it the character is kept because it does not dangle
          obtain ⟨hfirst, hbehind⟩ := List.forall_mem_cons.mp hdata
          have hnone : s.filter isAsciiOrDigit = [] := by
            rw [← filter_cstr_tagFinishing hs', List.filter_eq_nil_iff]
            simpa using hbehind
          have hnodata : noData (c :: s) = true := by
            rw [(unbroken_spec c).1] at hfirst
            rw [List.filter_eq_nil_iff] at hnone
            simpa [noData, hfirst] using hnone
          rw [List.forall_mem_cons]
          refine ⟨?_, ih hs' _ List.suffix_rfl hbehind⟩
          exact eq_false_of_ne_true fun hdangling => hkept ⟨hnodata, hdangling⟩
        · exact ih hs' rest hrest hdata

/-- `tagFinishing` cleans up every string. -/
theorem tagFinishing_cleansUp (buf : List UInt8) :
    CleansUp (cstr buf) (cstr (tagFinishing (cstr buf))) := by
  have hs : ∀ c ∈ cstr buf, c ≠ 0 := fun c => ne_zero_of_mem_cstr
  have hbegins := cstr_tagFinishing_prefix hs
  have hends := not_isDangling_of_suffix hs
  refine ⟨hbegins, filter_cstr_tagFinishing hs, hends, tagFinishing_eq_self ?_ hends⟩
  intro c hc
  obtain ⟨d, -, rfl⟩ := List.mem_map.mp (hbegins.subset hc)
  exact (unbroken_spec d).2.2

end Strings

end CiteParser
