import CiteParser.Core.Loop
import CiteParser.Core.Memory
import CiteParser.Core.Prefixes
import CiteParser.Features.Dict

/-!
# Looking a name up

`hmDictGet` once more, with its local copy of the name. Each pass ends the copy one character
earlier by a zero byte and looks up what is left; the copy is never printed anew. A name with
room in the copy is looked up as its longest prefix that is a key.
-/

namespace CiteParser

open Loop

/-- `char data[100]` of `hmDictGet`. -/
def dataSize : Nat := 100

/-- The copy, and the length that the loop counts down. -/
structure LookupState where
  data : Nat → UInt8
  len : Nat

/-- A pass of `while(len>3)`. -/
def lookupPass (map : List UInt8 → Option Rat) (s : LookupState) : Outcome LookupState Rat :=
  if s.len ≤ 3 then .exit 0
  else
    let data := store s.data s.len [0]
    match map (stringIn data 0 dataSize) with
    | some v => .exit v
    | none => .next ⟨data, s.len - 1⟩

/-- `hmDictGet(did, str)`, its copy on a stack that holds `junk`. -/
def hmDictGetCopy (dict : Dict) (did : Nat) (str : List UInt8) (junk : Nat → UInt8) : Rat :=
  match dict did str with
  | some v => v
  | none =>
      (run (lookupPass (dict did)) (str.length + 1)
        ⟨store junk 0 (str ++ [0]), str.length - 1⟩).getD 0

section Lookup

variable {map : List UInt8 → Option Rat} {str : List UInt8}

/-- The copy holds the name up to the length of the loop, and no longer prefix is a key. -/
structure LookupInv (map : List UInt8 → Option Rat) (str : List UInt8) (s : LookupState) :
    Prop where
  copy : ∃ k, s.len ≤ k ∧ k ≤ str.length ∧ StringAt s.data 0 (str.take k)
  proper : s.len = str.length - 1 ∨ s.len < str.length
  unfound : Unfound map str s.len

/-- Where the loop looks a prefix up, it is a proper one. -/
theorem LookupInv.lt {s : LookupState} (h : LookupInv map str s) (hlong : ¬ s.len ≤ 3) :
    s.len < str.length := by
  rcases h.proper with hlast | hlt
  · omega
  · exact hlt

/-- The copy is looked up as the prefix of the length that the loop has reached. -/
theorem LookupInv.stringIn_eq {s : LookupState} (h : LookupInv map str s)
    (hshort : str.length < dataSize) :
    StringAt (store s.data s.len [0]) 0 (str.take s.len) ∧
      stringIn (store s.data s.len [0]) 0 dataSize = str.take s.len := by
  obtain ⟨k, hlen, hk, hcopy⟩ := h.copy
  have htake : (str.take k).length = k := List.length_take_of_le hk
  have hcut := hcopy.cut (hlen.trans htake.ge)
  rw [Nat.zero_add, List.take_take, Nat.min_eq_left hlen] at hcut
  refine ⟨hcut, hcut.stringIn_eq ?_⟩
  rw [Nat.zero_add, List.length_take]
  omega

/-- A pass that goes round has passed over a prefix that is no key. -/
theorem LookupInv.pass {s s' : LookupState} (h : LookupInv map str s)
    (hshort : str.length < dataSize) (hpass : lookupPass map s = .next s') :
    LookupInv map str s' ∧ s'.len < s.len := by
  obtain ⟨hcut, hread⟩ := h.stringIn_eq hshort
  unfold lookupPass at hpass
  split at hpass
  · contradiction
  · rename_i hlong
    simp only [hread] at hpass
    cases hmap : map (str.take s.len) with
    | some v =>
        rw [hmap] at hpass
        contradiction
    | none =>
        rw [hmap] at hpass
        cases hpass
        have hlen := h.lt hlong
        exact ⟨⟨⟨s.len, Nat.sub_le _ _, hlen.le, hcut⟩, .inr (by simp only; omega),
          h.unfound.shorten hmap⟩, by simp only; omega⟩

/-- A pass that leaves the loop has found the longest prefix, or there is none. -/
theorem LookupInv.leave {s : LookupState} {r : Rat} (h : LookupInv map str s)
    (hshort : str.length < dataSize) (hwhole : map str = none)
    (hpass : lookupPass map s = .exit r) : LooksUp map 4 str 0 r := by
  obtain ⟨-, hread⟩ := h.stringIn_eq hshort
  unfold lookupPass at hpass
  split at hpass
  · rename_i hend
    cases hpass
    exact .nothing hwhole fun q hq hlong hproper => h.unfound q hq (by omega) hproper
  · rename_i hlong
    simp only [hread] at hpass
    cases hmap : map (str.take s.len) with
    | none =>
        rw [hmap] at hpass
        contradiction
    | some v =>
        rw [hmap] at hpass
        cases hpass
        have hlen := h.lt hlong
        exact .begins hwhole (h.unfound.found hlen (by omega) hmap)

end Lookup

/-- The loop stands on its copy with the whole name in it, and leaves with what the name is
looked up as. -/
theorem looksUp_hmDictGetCopy (dict : Dict) (did : Nat) (junk : Nat → UInt8) {str : List UInt8}
    (hstr : ∀ c ∈ str, c ≠ 0) (hshort : str.length < dataSize) :
    LooksUp (dict did) 4 str 0 (hmDictGetCopy dict did str junk) := by
  unfold hmDictGetCopy
  cases hwhole : dict did str with
  | some v => exact .whole hwhole
  | none =>
      have hcopy : StringAt (store junk 0 (str ++ [0])) 0 (str.take str.length) := by
        rw [List.take_length]
        exact StringAt.of_store junk 0 hstr
      obtain ⟨r, hrun, hr⟩ := run_rule (lookupPass (dict did)) (str.length + 1)
        ⟨store junk 0 (str ++ [0]), str.length - 1⟩ (LookupInv (dict did) str) (·.len)
        (LooksUp (dict did) 4 str 0) (fun _ _ hs h => hs.pass hshort h)
        (fun _ _ hs h => hs.leave hshort hwhole h)
        ⟨⟨str.length, Nat.sub_le _ _, Nat.le_refl _, hcopy⟩, .inl rfl,
          unfound_start (dict did) str⟩
        (Nat.lt_succ_of_le (Nat.sub_le _ _))
      simp only [hrun]
      exact hr

/-- A name with room in the copy is looked up as itself, or as its longest proper prefix of four
characters and more that is a key. -/
theorem hmDictGet_longest (dict : Dict) (did : Nat) (junk : Nat → UInt8) {str : List UInt8}
    (hstr : ∀ c ∈ str, c ≠ 0) (hshort : str.length < 100) :
    LooksUp (dict did) 4 str 0 (hmDictGetCopy dict did str junk) :=
  looksUp_hmDictGetCopy dict did junk hstr hshort

/-- "Londonderry" is looked up as "London" where only that is a key. -/
theorem hmDictGet_london :
    LooksUp (fun name => if name = bytes "london" then some 1 else none) 4
      (bytes "londonderry") 0
      (hmDictGetCopy (fun _ name => if name = bytes "london" then some 1 else none) 6
        (bytes "londonderry") fun _ => 0) :=
  hmDictGet_longest (fun _ name => if name = bytes "london" then some 1 else none) 6 (fun _ => 0)
    (by decide +kernel) (by decide +kernel)

/-- From a length on, the lookup on lists finds the longest prefix that is a key. -/
theorem looksUp_hmDictPrefix {map : List UInt8 → Option Rat} {str : List UInt8} {n : Nat}
    (hwhole : map str = none) (hn : n = str.length - 1 ∨ n < str.length)
    (hunfound : Unfound map str n) : LooksUp map 4 str 0 (hmDictPrefix map str n) := by
  induction n with
  | zero => exact .nothing hwhole fun q hq hlong hproper => hunfound q hq (by omega) hproper
  | succ n ih =>
      rw [hmDictPrefix]
      split
      · rename_i hlong
        have hlt : n + 1 < str.length := by omega
        cases hmap : map (str.take (n + 1)) with
        | some v => exact .begins hwhole (hunfound.found hlt hlong hmap)
        | none => exact ih (.inr (by omega)) (hunfound.shorten hmap)
      · rename_i hend
        exact .nothing hwhole fun q hq hlong hproper => hunfound q hq (by omega) hproper

/-- Without a copy a name of any length is looked up so. -/
theorem looksUp_hmDictGet (dict : Dict) (did : Nat) (str : List UInt8) :
    LooksUp (dict did) 4 str 0 (hmDictGet dict did str) := by
  unfold hmDictGet
  cases hwhole : dict did str with
  | some v => exact .whole hwhole
  | none => exact looksUp_hmDictPrefix hwhole (.inl rfl) (unfound_start (dict did) str)

/-- The lookup in the copy is the lookup on lists for names with room in it. -/
theorem hmDictGetCopy_eq (dict : Dict) (did : Nat) (junk : Nat → UInt8) {str : List UInt8}
    (hstr : ∀ c ∈ str, c ≠ 0) (hshort : str.length < 100) :
    hmDictGetCopy dict did str junk = hmDictGet dict did str := by
  apply LooksUp.unique _ (looksUp_hmDictGet dict did str)
  exact looksUp_hmDictGetCopy dict did junk hstr hshort

end CiteParser
