import CiteParser.Core.CString
import CiteParser.Core.Segment
import Mathlib.Data.List.GetD

/-!
# Byte memories

A memory gives a byte for every address. Stores change the addresses they cover and no
other, and a C string stays where it is as long as none of its bytes is stored over.
-/

namespace CiteParser

/-- A text in memory is read byte by byte. -/
theorem memory_eq_getElem {text : List UInt8} {i : Nat} (h : i < text.length) :
    memory text i = text[i] :=
  List.getD_eq_getElem _ _ h

/-- A segment of a text in memory. -/
theorem segment_memory {text : List UInt8} {a b : Nat} (hab : a ≤ b) (hb : b ≤ text.length) :
    segment (memory text) a b = (text.drop a).take (b - a) := by
  apply List.ext_getElem
  · rw [length_segment, List.length_take, List.length_drop]
    omega
  · intro k hk _
    rw [length_segment] at hk
    simp only [segment, List.getElem_map, List.getElem_range', Nat.one_mul, List.getElem_take,
      List.getElem_drop]
    exact memory_eq_getElem (by omega)

/-- The memory after `bs` has been written from address `a` on. -/
def store (mem : Nat → UInt8) (a : Nat) (bs : List UInt8) : Nat → UInt8 :=
  fun i => if a ≤ i ∧ i < a + bs.length then bs.getD (i - a) 0 else mem i

/-- Addresses outside the store keep their bytes. -/
theorem store_outside {mem : Nat → UInt8} {a i : Nat} {bs : List UInt8}
    (h : i < a ∨ a + bs.length ≤ i) : store mem a bs i = mem i :=
  if_neg (by omega)

/-- The bytes written are read back. -/
theorem store_inside {mem : Nat → UInt8} {a k : Nat} {bs : List UInt8} (h : k < bs.length) :
    store mem a bs (a + k) = bs.getD k 0 := by
  rw [store, if_pos ⟨Nat.le_add_right a k, by omega⟩, Nat.add_sub_cancel_left]

/-- A single byte written is read back. -/
theorem store_singleton (mem : Nat → UInt8) (a : Nat) (c : UInt8) : store mem a [c] a = c := by
  rw [store, if_pos ⟨Nat.le_refl a, Nat.lt_succ_self a⟩, Nat.sub_self]
  rfl

/-- Segments that do not meet the store are unchanged. -/
theorem segment_store {mem : Nat → UInt8} {a b c : Nat} {bs : List UInt8}
    (h : c ≤ a ∨ a + bs.length ≤ b) : segment (store mem a bs) b c = segment mem b c := by
  refine List.map_congr_left fun i hi => ?_
  rw [List.mem_range'_1] at hi
  exact store_outside (by omega)

/-- The segment written is the list of bytes. -/
theorem segment_store_self (mem : Nat → UInt8) (a : Nat) (bs : List UInt8) :
    segment (store mem a bs) a (a + bs.length) = bs := by
  apply List.ext_getElem
  · rw [length_segment, Nat.add_sub_cancel_left]
  · intro k _ hk
    simp only [segment, List.getElem_map, List.getElem_range', Nat.one_mul]
    rw [store_inside hk, List.getD_eq_getElem _ _ hk]

/-- `memset(mem + a, 0, n)`. -/
def memset (mem : Nat → UInt8) (a n : Nat) : Nat → UInt8 := store mem a (List.replicate n 0)

theorem memset_inside {mem : Nat → UInt8} {a n i : Nat} (h : a ≤ i ∧ i < a + n) :
    memset mem a n i = 0 := by
  rw [memset, store, if_pos (by rw [List.length_replicate]; exact h)]
  rw [List.getD_eq_getElem?_getD, List.getElem?_replicate]
  split <;> rfl

/-- A zero byte is still there after any clearing. -/
theorem memset_zero {mem : Nat → UInt8} {i : Nat} (h : mem i = 0) (a n : Nat) :
    memset mem a n i = 0 := by
  by_cases hi : a ≤ i ∧ i < a + n
  · exact memset_inside hi
  · rw [memset, store_outside (by rw [List.length_replicate]; omega), h]

/-- Clearing one range after the other clears them all. -/
theorem foldl_memset_inside {ranges : List (Nat × Nat)} {r : Nat × Nat} (hr : r ∈ ranges)
    {i : Nat} (hi : r.1 ≤ i ∧ i < r.1 + r.2) (mem : Nat → UInt8) :
    ranges.foldl (fun mem r => memset mem r.1 r.2) mem i = 0 := by
  have hkeep : ∀ (ranges : List (Nat × Nat)) (mem : Nat → UInt8), mem i = 0 →
      ranges.foldl (fun mem r => memset mem r.1 r.2) mem i = 0 := by
    intro ranges
    induction ranges with
    | nil => exact fun _ h => h
    | cons r rest ih => exact fun mem h => ih _ (memset_zero h r.1 r.2)
  induction ranges generalizing mem with
  | nil => exact absurd hr List.not_mem_nil
  | cons r' rest ih =>
      rcases List.mem_cons.mp hr with rfl | hr
      · exact hkeep rest _ (memset_inside hi)
      · exact ih hr _

/-- The string that starts at `a`, read no further than `stop`. -/
def stringIn (mem : Nat → UInt8) (a stop : Nat) : List UInt8 := cstr (segment mem a stop)

/-- The string `text` and its terminator stand at `a`. -/
structure StringAt (mem : Nat → UInt8) (a : Nat) (text : List UInt8) : Prop where
  stored : segment mem a (a + text.length) = text
  nonzero : ∀ c ∈ text, c ≠ 0
  closed : mem (a + text.length) = 0

namespace StringAt

variable {mem mem' : Nat → UInt8} {a : Nat} {text : List UInt8}

/-- A string is read as long as its terminator lies before the end of the reading. -/
theorem stringIn_eq (h : StringAt mem a text) {stop : Nat} (hstop : a + text.length < stop) :
    stringIn mem a stop = text := by
  have hcut : segment mem a stop =
      text ++ 0 :: segment mem (a + text.length + 1) stop := by
    rw [← segment_append mem (Nat.le_add_right a text.length) hstop.le, h.stored,
      segment_cons mem hstop, h.closed]
  rw [stringIn, hcut, cstr, List.takeWhile_append_of_pos]
  · exact List.append_nil _
  · intro c hc
    exact bne_iff_ne.mpr (h.nonzero c hc)

/-- A string depends on its own bytes only. -/
theorem congr (h : StringAt mem a text)
    (hsame : ∀ i, a ≤ i → i ≤ a + text.length → mem' i = mem i) : StringAt mem' a text where
  stored := by
    refine Eq.trans (List.map_congr_left fun i hi => ?_) h.stored
    rw [List.mem_range'_1] at hi
    exact hsame i hi.1 (by omega)
  nonzero := h.nonzero
  closed := by rw [hsame _ (Nat.le_add_right a _) (Nat.le_refl _), h.closed]

/-- A zero byte ends the string, if nothing before it does. -/
theorem length_le (h : StringAt mem a text) {k : Nat} (hzero : mem (a + k) = 0) :
    text.length ≤ k := by
  by_contra hlt
  have hmem : mem (a + k) ∈ segment mem a (a + text.length) :=
    mem_segment.mpr ⟨a + k, Nat.le_add_right a k, by omega, rfl⟩
  rw [h.stored] at hmem
  exact h.nonzero _ hmem hzero

/-- The string lies before any zero byte. -/
theorem prefix_segment (h : StringAt mem a text) {k : Nat} (hzero : mem (a + k) = 0) :
    text <+: segment mem a (a + k) := by
  have hlen := h.length_le hzero
  refine ⟨segment mem (a + text.length) (a + k), ?_⟩
  have hsplit := segment_append mem (Nat.le_add_right a text.length) (Nat.add_le_add_left hlen a)
  rwa [h.stored] at hsplit

/-- Bytes that are not zero belong to the string. -/
theorem segment_begins (h : StringAt mem a text) {k : Nat} (hne : ∀ j < k, mem (a + j) ≠ 0) :
    segment mem a (a + k) <+: text := by
  have hlen : k ≤ text.length := by
    by_contra hlt
    exact hne _ (Nat.lt_of_not_le hlt) h.closed
  refine ⟨segment mem (a + k) (a + text.length), ?_⟩
  rw [segment_append mem (Nat.le_add_right a k) (by omega), h.stored]

/-- The empty string is a zero byte. -/
theorem nil_iff : StringAt mem a [] ↔ mem a = 0 := by
  constructor
  · exact fun h => h.closed
  · exact fun h => ⟨segment_self mem a, fun c hc => absurd hc List.not_mem_nil, h⟩

/-- The first byte tells whether a string is empty. -/
theorem eq_nil_iff (h : StringAt mem a text) : text = [] ↔ mem a = 0 := by
  constructor
  · rintro rfl
    exact h.closed
  · intro hzero
    cases text with
    | nil => rfl
    | cons c rest =>
        have hfirst := h.stored
        rw [List.length_cons, segment_cons mem (by omega), hzero, List.cons.injEq] at hfirst
        exact absurd hfirst.1.symm (h.nonzero c List.mem_cons_self)

/-- What has been written with its terminator is a string. -/
theorem of_store (mem : Nat → UInt8) (a : Nat) (hnonzero : ∀ c ∈ text, c ≠ 0) :
    StringAt (store mem a (text ++ [0])) a text where
  stored := by
    have h := segment_store_self mem a (text ++ [0])
    rw [List.length_append, List.length_singleton, ← Nat.add_assoc,
      segment_succ _ (Nat.le_add_right a _)] at h
    exact List.append_inj_left' h rfl
  nonzero := hnonzero
  closed := by
    rw [store_inside (by rw [List.length_append, List.length_singleton]; omega),
      List.getD_eq_getElem?_getD, List.getElem?_concat_length]
    rfl

/-- A zero byte stored into a string cuts it. -/
theorem cut (h : StringAt mem a text) {k : Nat} (hk : k ≤ text.length) :
    StringAt (store mem (a + k) [0]) a (text.take k) where
  stored := by
    have hlen : (text.take k).length = k := List.length_take_of_le hk
    have hsplit : segment mem a (a + k) ++ segment mem (a + k) (a + text.length) = text := by
      rw [segment_append mem (Nat.le_add_right a k) (Nat.add_le_add_left hk a), h.stored]
    have hcut : (segment mem a (a + k)).length = k := by
      rw [length_segment, Nat.add_sub_cancel_left]
    rw [hlen, segment_store (.inl (Nat.le_refl _))]
    conv_rhs => rw [← hsplit]
    rw [List.take_append_of_le_length hcut.ge, List.take_of_length_le hcut.le]
  nonzero := fun c hc => h.nonzero c (List.mem_of_mem_take hc)
  closed := by rw [List.length_take_of_le hk, store_singleton]

/-- A character stored over the terminator extends the string if a zero byte follows. -/
theorem snoc (h : StringAt mem a text) {c : UInt8} (hc : c ≠ 0)
    (hnext : mem (a + text.length + 1) = 0) :
    StringAt (store mem (a + text.length) [c]) a (text ++ [c]) where
  stored := by
    rw [List.length_append, List.length_singleton, ← Nat.add_assoc,
      segment_succ _ (Nat.le_add_right a _), segment_store (.inl (Nat.le_refl _)), h.stored,
      store_singleton]
  nonzero := by
    intro d hd
    rcases List.mem_append.mp hd with hd | hd
    · exact h.nonzero d hd
    · exact List.mem_singleton.mp hd ▸ hc
  closed := by
    rw [List.length_append, List.length_singleton, ← Nat.add_assoc,
      store_outside (by rw [List.length_singleton]; omega), hnext]

end StringAt

/-- `snprintf(mem + a, n, "%s", text)` for a text without zero bytes. -/
def snprintf (mem : Nat → UInt8) (a n : Nat) (text : List UInt8) : Nat → UInt8 :=
  store mem a (text.take (n - 1) ++ [0])

/-- A bounded print leaves the text, cut to the bound, at its place. -/
theorem stringAt_snprintf (mem : Nat → UInt8) (a n : Nat) {text : List UInt8}
    (h : ∀ c ∈ text, c ≠ 0) : StringAt (snprintf mem a n text) a (text.take (n - 1)) :=
  StringAt.of_store mem a fun c hc => h c (List.mem_of_mem_take hc)

/-- A bounded print keeps to its bound. -/
theorem snprintf_outside {mem : Nat → UInt8} {a n i : Nat} {text : List UInt8} (hn : 0 < n)
    (h : i < a ∨ a + n ≤ i) : snprintf mem a n text i = mem i := by
  apply store_outside
  rw [List.length_append, List.length_take, List.length_singleton]
  omega

end CiteParser
