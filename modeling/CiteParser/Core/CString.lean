import Mathlib.Data.List.TakeWhile
import Mathlib.Tactic.Common

/-!
# C strings

A character array up to its first zero byte. The comparison functions of `string.h`
take the strings without their terminator; running out of one string is meeting it.
-/

namespace CiteParser

/-- The string that starts at a buffer: its bytes up to the first zero. -/
def cstr (buf : List UInt8) : List UInt8 := buf.takeWhile (· != 0)

/-- A buffer without a zero byte is its own string. -/
theorem cstr_eq_self {buf : List UInt8} (h : ∀ c ∈ buf, c ≠ 0) : cstr buf = buf := by
  rw [cstr, List.takeWhile_eq_self_iff]
  intro c hc
  simpa only [bne_iff_ne, ne_eq] using h c hc

/-- A string holds no zero byte. -/
theorem ne_zero_of_mem_cstr {buf : List UInt8} {c : UInt8} (h : c ∈ cstr buf) : c ≠ 0 := by
  simpa only [bne_iff_ne, ne_eq] using List.mem_takeWhile_imp h

/-- A string is no longer than the buffer it starts at. -/
theorem length_cstr_le (buf : List UInt8) : (cstr buf).length ≤ buf.length :=
  (List.takeWhile_prefix _).length_le

/-- A string is as long as its buffer exactly when the buffer holds no zero byte. -/
theorem length_cstr_eq_iff (buf : List UInt8) :
    (cstr buf).length = buf.length ↔ ∀ c ∈ buf, c ≠ 0 := by
  constructor
  · intro h c hc
    have hself : cstr buf = buf := (List.takeWhile_prefix _).eq_of_length h
    exact ne_zero_of_mem_cstr (hself ▸ hc)
  · intro h
    rw [cstr_eq_self h]

/-- The bytes of a string literal of the source, which is UTF-8. -/
def bytes (s : String) : List UInt8 := s.toList.flatMap String.utf8EncodeChar

/-- The memory in which a text stands, followed by zeros. -/
def memory (text : List UInt8) (i : Nat) : UInt8 := text.getD i 0

/-- `%d`. -/
def dec (n : Int) : List UInt8 :=
  (if n < 0 then ['-'.toUInt8] else []) ++ (Nat.toDigits 10 n.natAbs).map Char.toUInt8

/-- A number is printed with digits and a sign. -/
theorem mem_dec {n : Int} {c : UInt8} (h : c ∈ dec n) :
    c = '-'.toUInt8 ∨ 48 ≤ c.toNat ∧ c.toNat ≤ 57 := by
  rcases List.mem_append.mp h with h | h
  · split at h
    · exact .inl (List.mem_singleton.mp h)
    · exact absurd h List.not_mem_nil
  · obtain ⟨d, hd, rfl⟩ := List.mem_map.mp h
    have hdigit := Nat.isDigit_of_mem_toDigits (by decide) (by decide) hd
    simp only [Char.isDigit, Bool.and_eq_true, decide_eq_true_eq] at hdigit
    have hlow : 48 ≤ d.val.toNat := UInt32.le_iff_toNat_le.mp hdigit.1
    have hhigh : d.val.toNat ≤ 57 := UInt32.le_iff_toNat_le.mp hdigit.2
    have hval : d.toUInt8.toNat = d.val.toNat := by
      rw [Char.toUInt8, UInt32.toNat_toUInt8]
      omega
    exact .inr ⟨by omega, by omega⟩

/-- A printed number holds no zero byte. -/
theorem ne_zero_of_mem_dec {n : Int} {c : UInt8} (h : c ∈ dec n) : c ≠ 0 := by
  rintro rfl
  rcases mem_dec h with he | ⟨hlow, -⟩
  · contradiction
  · exact absurd hlow (by decide)

/-- `tolower` in the C locale. -/
def toLower (a : UInt8) : UInt8 :=
  if 'A'.toUInt8 ≤ a && a ≤ 'Z'.toUInt8 then a + 32 else a

/-- `strncmp(a, b, n) == 0`. -/
def strncmpEq : Nat → List UInt8 → List UInt8 → Bool
  | 0, _, _ => true
  | _ + 1, [], [] => true
  | n + 1, x :: a, y :: b => x == y && strncmpEq n a b
  | _ + 1, _, _ => false

/-- Over the whole of two equally long strings the comparison is equality. -/
theorem strncmpEq_iff {a b : List UInt8} (h : a.length = b.length) :
    strncmpEq b.length a b = true ↔ a = b := by
  induction a generalizing b with
  | nil =>
      cases b with
      | nil => exact iff_of_true rfl rfl
      | cons y b => contradiction
  | cons x a ih =>
      cases b with
      | nil => contradiction
      | cons y b =>
          rw [List.length_cons, strncmpEq, Bool.and_eq_true, beq_iff_eq,
            ih (Nat.succ.inj h), List.cons_eq_cons]

/-- Over the length of a word the comparison asks whether the string begins with it. -/
theorem strncmpEq_prefix_iff {a w : List UInt8} : strncmpEq w.length a w = true ↔ w <+: a := by
  induction w generalizing a with
  | nil => exact iff_of_true (by cases a <;> rfl) List.nil_prefix
  | cons y w ih =>
      cases a with
      | nil =>
          have hends : strncmpEq (y :: w).length [] (y :: w) = false := rfl
          rw [hends, List.prefix_nil]
          exact iff_of_false Bool.false_ne_true (List.cons_ne_nil y w)
      | cons x a =>
          rw [List.length_cons, strncmpEq, Bool.and_eq_true, beq_iff_eq, ih,
            List.cons_prefix_cons, eq_comm]

/-- `strncasecmp(a, b, n) == 0`. -/
def strncasecmpEq (n : Nat) (a b : List UInt8) : Bool :=
  strncmpEq n (a.map toLower) (b.map toLower)

/-- `strcasecmp(a, b) == 0`. -/
def strcasecmpEq (a b : List UInt8) : Bool := a.map toLower == b.map toLower

end CiteParser
