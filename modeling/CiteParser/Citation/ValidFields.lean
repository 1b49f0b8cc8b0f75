import CiteParser.Citation.Bounds
import CiteParser.Citation.Join
import CiteParser.Citation.Routing
import CiteParser.Core.Utf8
import CiteParser.Predict.WholeChars

/-!
# Fields of valid text

The segments of a valid query are valid UTF-8, but two writes to a node can cut a character: a
print of a text that is longer than its array, and the last name of a segment, behind which
`spilitName` puts no terminator, so that what an earlier name has left in the row is read with
it. As long as neither does, every string of every node is valid.
-/

namespace CiteParser

open Loop

/-! ## Strings in memory -/

/-- From each place in the range at which a character starts the string there is valid. -/
def SoundFrom (mem : Nat → UInt8) (a stop : Nat) : Prop :=
  ∀ p, a ≤ p → p < stop → (mem p).IsUTF8FirstByte → IsUtf8 (stringIn mem p stop)

/-- A row that starts with a character, or empty, and holds no others than whole ones. -/
structure SoundRow (mem : Nat → UInt8) (a stop : Nat) : Prop where
  first : (mem a).IsUTF8FirstByte
  sound : SoundFrom mem a stop

section Strings

variable {mem mem' : Nat → UInt8} {a b c p stop : Nat} {u : List UInt8}

/-- A string runs on over bytes that are not zero. -/
theorem stringIn_append (hab : a ≤ b) (hb : b ≤ stop) (h : ∀ c ∈ segment mem a b, c ≠ 0) :
    stringIn mem a stop = segment mem a b ++ stringIn mem b stop := by
  rw [stringIn, ← segment_append mem hab hb, cstr, List.takeWhile_append_of_pos]
  · rfl
  · intro c hc
    exact bne_iff_ne.mpr (h c hc)

/-- And ends at the first zero. -/
theorem stringIn_zero (h : mem a = 0) : stringIn mem a stop = [] := by
  rcases Nat.lt_or_ge a stop with hlt | hge
  · rw [stringIn, segment_cons mem hlt, h]
    rfl
  · rw [stringIn, segment_eq_nil hge]
    rfl

/-- The string in a range is all that is read if a zero ends it. -/
theorem stringIn_eq_of_zero (hap : a ≤ p) (hp : p < b) (hb : b ≤ stop) (h : mem p = 0) :
    stringIn mem a stop = stringIn mem a b := by
  obtain ⟨n, rfl⟩ : ∃ n, p = a + n := ⟨p - a, by omega⟩
  clear hap
  induction n generalizing a with
  | zero =>
      rw [Nat.add_zero] at h
      rw [stringIn_zero h, stringIn_zero h]
  | succ n ih =>
      by_cases hzero : mem a = 0
      · rw [stringIn_zero hzero, stringIn_zero hzero]
      · have hone : ∀ c ∈ segment mem a (a + 1), c ≠ 0 := by
          intro c hc
          obtain ⟨i, hi, hlt, rfl⟩ := mem_segment.mp hc
          obtain rfl : i = a := by omega
          exact hzero
        have hnext : mem (a + 1 + n) = 0 := by
          rw [← h]
          congr 1
          omega
        rw [stringIn_append (Nat.le_succ a) (by omega) hone,
          stringIn_append (Nat.le_succ a) (by omega) hone, ih (by omega) hnext]

theorem SoundFrom.mono (h : SoundFrom mem a stop) (hab : a ≤ b) : SoundFrom mem b stop :=
  fun p hp => h p (hab.trans hp)

/-- The string of a row depends on its own bytes only. -/
theorem stringIn_congr (h : ∀ i, a ≤ i → i < stop → mem' i = mem i) :
    stringIn mem' a stop = stringIn mem a stop := by
  rw [stringIn, stringIn]
  congr 1
  refine List.map_congr_left fun i hi => ?_
  rw [List.mem_range'_1] at hi
  exact h i hi.1 (by omega)

theorem SoundFrom.congr (h : SoundFrom mem a stop)
    (hsame : ∀ i, a ≤ i → i < stop → mem' i = mem i) : SoundFrom mem' a stop := by
  intro p hp hlt hfirst
  rw [hsame p hp hlt] at hfirst
  rw [stringIn_congr fun i hi => hsame i (hp.trans hi)]
  exact h p hp hlt hfirst

theorem SoundRow.congr (h : SoundRow mem a stop) (hlt : a < stop)
    (hsame : ∀ i, a ≤ i → i < stop → mem' i = mem i) : SoundRow mem' a stop where
  first := by
    rw [hsame a (Nat.le_refl a) hlt]
    exact h.first
  sound := h.sound.congr hsame

/-- A row of zeros. -/
theorem soundRow_zero (h : ∀ i, a ≤ i → i < stop → mem i = 0) (hlt : a < stop) :
    SoundRow mem a stop where
  first := by
    rw [h a (Nat.le_refl a) hlt]
    decide
  sound := by
    intro p hp hlt _
    rw [stringIn_zero (h p hp hlt)]
    exact .nil

/-- A valid name in front of bytes that are sound. -/
theorem soundRow_of_name (hu : IsUtf8 u) (hne : ∀ c ∈ u, c ≠ 0)
    (hstored : segment mem a (a + u.length) = u) (hle : a + u.length ≤ stop) (hlt : a < stop)
    (hbehind : SoundFrom mem (a + u.length) stop)
    (hfirst : a + u.length < stop → (mem (a + u.length)).IsUTF8FirstByte) :
    SoundRow mem a stop := by
  have hrest : IsUtf8 (stringIn mem (a + u.length) stop) := by
    rcases Nat.lt_or_ge (a + u.length) stop with hin | hout
    · exact hbehind _ (Nat.le_refl _) hin (hfirst hin)
    · rw [stringIn, segment_eq_nil hout]
      exact .nil
  have hpart : ∀ p, a ≤ p → p ≤ a + u.length →
      segment mem p (a + u.length) = u.drop (p - a) := by
    intro p hp hpu
    have hsplit := segment_append mem hp hpu
    rw [hstored] at hsplit
    have hdrop := congrArg (List.drop (segment mem a p).length) hsplit
    rwa [List.drop_left, length_segment] at hdrop
  have hread : ∀ p, a ≤ p → p ≤ a + u.length →
      stringIn mem p stop = u.drop (p - a) ++ stringIn mem (a + u.length) stop := by
    intro p hp hpu
    rw [← hpart p hp hpu]
    refine stringIn_append hpu hle fun c hc => hne c ?_
    rw [hpart p hp hpu] at hc
    exact List.mem_of_mem_drop hc
  constructor
  · by_cases hnil : u = []
    · subst hnil
      exact hfirst hlt
    · obtain ⟨c, u', rfl⟩ := List.exists_cons_of_ne_nil hnil
      have hc := hpart a (Nat.le_refl a) (Nat.le_add_right a _)
      rw [Nat.sub_self, List.drop_zero, segment_cons mem (by simp), List.cons_eq_cons] at hc
      exact hu.startsChar (mem a) (by rw [List.head?_cons, ← hc.1]; rfl)
  · intro p hp hlt hpfirst
    rcases Nat.lt_or_ge p (a + u.length) with hin | hout
    · rw [hread p hp hin.le]
      refine IsUtf8.append ?_ hrest
      have hsplit : u.take (p - a) ++ u.drop (p - a) = u := List.take_append_drop _ u
      refine (IsUtf8.split (hsplit.symm ▸ hu) ?_).2
      intro c hc
      rw [← hpart p hp hin.le, segment_cons mem hin, List.head?_cons, Option.mem_some] at hc
      exact hc ▸ hpfirst
    · exact hbehind p hout hlt hpfirst

/-- A valid name and its terminator in front of bytes that are sound. -/
theorem soundRow_of_ended (hu : IsUtf8 u) (hne : ∀ c ∈ u, c ≠ 0)
    (hstored : segment mem a (a + u.length) = u) (hend : mem (a + u.length) = 0)
    (hlt : a + u.length < stop) (hbehind : SoundFrom mem (a + u.length + 1) stop) :
    SoundRow mem a stop := by
  have hfirst : (mem (a + u.length)).IsUTF8FirstByte := by
    rw [hend]
    decide
  refine soundRow_of_name hu hne hstored hlt.le (by omega) ?_ fun _ => hfirst
  intro p hp hstop hpfirst
  rcases Nat.eq_or_lt_of_le hp with rfl | hlt'
  · rw [stringIn_zero hend]
    exact .nil
  · exact hbehind p hlt' hstop hpfirst

/-- A row that the string may run on from. -/
theorem SoundRow.runsOn (h : SoundRow mem a b) (hab : a < b) (hb : b ≤ stop)
    (hrest : IsUtf8 (stringIn mem b stop)) : IsUtf8 (stringIn mem a stop) := by
  have hrow : IsUtf8 (stringIn mem a b) := h.sound a (Nat.le_refl a) hab h.first
  by_cases hzero : ∃ p, a ≤ p ∧ p < b ∧ mem p = 0
  · obtain ⟨p, hap, hp, hzero⟩ := hzero
    rw [stringIn_eq_of_zero hap hp hb hzero]
    exact hrow
  · have hne : ∀ c ∈ segment mem a b, c ≠ 0 := by
      intro c hc
      obtain ⟨i, hi, hlt, rfl⟩ := mem_segment.mp hc
      exact fun h => hzero ⟨i, hi, hlt, h⟩
    have hall : stringIn mem a b = segment mem a b := cstr_eq_self hne
    rw [stringIn_append hab.le hb hne, ← hall]
    exact hrow.append hrest

end Strings

/-! ## Names -/

section Moves

variable {src : List UInt8} {i line : Nat} {fresh : Bool}

/-- Where a word begins with a byte below 128, there is one. -/
theorem isAscii_of_strncmpEq {n : Nat} {c : UInt8} {w : List UInt8} (hc : isAscii c = true)
    (h : strncmpEq (n + 1) (src.drop i) (c :: w) = true) : isAscii (charAt src i) = true := by
  cases hdrop : src.drop i with
  | nil =>
      rw [hdrop] at h
      contradiction
  | cons d rest =>
      rw [hdrop, strncmpEq, Bool.and_eq_true, beq_iff_eq] at h
      rw [(charAt_of_drop hdrop).2, h.1]
      exact hc

/-- A name is ended, and a character is left out of it, at a byte below 128. -/
theorem isAscii_of_nameMove (hmove : nameMove src i line fresh ≠ .stop)
    (hkeep : ∀ c, nameMove src i line fresh ≠ .keep c)
    (hdrop : fresh = true → nameMove src i line fresh ≠ .drop) : isAscii (charAt src i) = true := by
  unfold nameMove at hmove hkeep hdrop
  split_ifs at hmove hkeep hdrop with h1 h2 h3 h4 h5 h6 h7
  · exact absurd rfl hmove
  · rw [h2]
    decide
  · exact isAscii_of_strncmpEq (by decide) h3.1
  · exact isAscii_of_strncmpEq (by decide) h3.1
  · exact isAscii_of_strncmpEq (by decide) h5
  · exact isAscii_of_strncmpEq (by decide) h5
  · exact absurd rfl (hdrop (Bool.and_eq_true_iff.mp h7).1)
  · exact absurd rfl (hkeep _)

/-- The first character of a name is below 128. -/
theorem isAscii_of_keep {c : UInt8} (h : nameMove src i line true = .keep c) :
    isAscii c = true := by
  unfold nameMove at h
  split_ifs at h with h1 h2 h3 h4 h5 h6 h7
  rw [Bool.true_and, Bool.not_eq_true', Bool.not_eq_false] at h7
  cases h
  exact isAscii_of_isAsciiOrDigit _ h7

end Moves

/-- The row `r` at `base` is sound. -/
def RowSound (mem : Nat → UInt8) (base r : Nat) : Prop :=
  SoundRow mem (nameAt base r 0) (nameAt base r nameSize)

/-- In the middle of `spilitName`: the rows of the names that have been ended are sound, the row
of the name at hand begins with it, and what comes behind has not been written to. -/
structure Filling (src : List UInt8) (base : Nat) (node mem : Nat → UInt8) (s : NameSplit) :
    Prop where
  done : ∀ r, r < s.done.length → r < 10 → RowSound mem base r
  valid : s.cur ≠ [] → IsUtf8 (s.cur ++ src.drop s.i)
  nonzero : ∀ c ∈ s.cur, c ≠ 0
  stored : segment mem (nameAt base s.done.length 0) (nameAt base s.done.length s.cur.length) =
    s.cur
  untouched : ∀ a, nameAt base s.done.length s.cur.length ≤ a → mem a = node a

section Filling

variable {src : List UInt8} {base : Nat} {node mem mem' : Nat → UInt8} {s : NameSplit}

theorem RowSound.congr {r : Nat} (h : RowSound mem base r)
    (hsame : ∀ a, nameAt base r 0 ≤ a → a < nameAt base r nameSize → mem' a = mem a) :
    RowSound mem' base r :=
  SoundRow.congr h (by simp only [nameAt, nameSize]; omega) hsame

/-- Writing behind a row leaves it. -/
theorem RowSound.store {r : Nat} (h : RowSound mem base r) {a : Nat} (bs : List UInt8)
    (ha : nameAt base r nameSize ≤ a) : RowSound (store mem a bs) base r :=
  h.congr fun _ _ hlt => store_outside (.inl (by omega))

/-- What is left of the text starts with the character at the index. -/
theorem drop_eq_charAt {i : Nat} (hi : i < src.length) :
    src.drop i = charAt src i :: src.drop (i + 1) := by
  rw [List.drop_eq_getElem_cons hi, charAt, List.getD_eq_getElem _ _ hi]

/-- A name that is ended at a byte below 128 is valid. -/
theorem Filling.isUtf8_cur (h : Filling src base node mem s) (hi : s.i < src.length)
    (hascii : isAscii (charAt src s.i) = true) : IsUtf8 s.cur := by
  by_cases hnil : s.cur = []
  · rw [hnil]
    exact .nil
  · have hvalid := h.valid hnil
    rw [drop_eq_charAt hi] at hvalid
    exact (hvalid.split_ascii hascii).1

/-- The row of a name that is ended is sound. -/
theorem Filling.ended (h : Filling src base node mem s)
    (hnode : RowSound node base s.done.length) (hcur : IsUtf8 s.cur)
    (hlen : s.cur.length < nameSize) :
    RowSound (store mem (nameAt base s.done.length s.cur.length) [0]) base s.done.length := by
  have hat : nameAt base s.done.length 0 + s.cur.length =
      nameAt base s.done.length s.cur.length := by simp only [nameAt, Nat.add_zero]
  refine soundRow_of_ended hcur h.nonzero ?_ ?_ ?_ ?_
  · rw [hat, segment_store (.inl (Nat.le_refl _))]
    exact h.stored
  · rw [hat, store_singleton]
  · rw [hat]
    simp only [nameAt]
    omega
  · refine (hnode.sound.mono (by omega)).congr fun a ha _ => ?_
    rw [hat] at ha
    rw [store_outside (.inr (by rw [List.length_singleton]; omega)), h.untouched a (by omega)]

/-- The row of a name that is left open is sound if what is behind the name in it is. -/
theorem Filling.open (h : Filling src base node mem s) (hnode : RowSound node base s.done.length)
    (hcur : IsUtf8 s.cur) (hlen : s.cur.length ≤ nameSize)
    (hbehind : s.cur ≠ [] → s.cur.length < nameSize →
      (node (nameAt base s.done.length s.cur.length)).IsUTF8FirstByte) :
    RowSound mem base s.done.length := by
  have hat : nameAt base s.done.length 0 + s.cur.length =
      nameAt base s.done.length s.cur.length := by simp only [nameAt, Nat.add_zero]
  by_cases hnil : s.cur = []
  · refine hnode.congr fun a ha _ => h.untouched a ?_
    rw [hnil]
    exact ha
  · refine soundRow_of_name hcur h.nonzero (by rw [hat]; exact h.stored) ?_ ?_ ?_ ?_
    · simp only [nameAt]
      omega
    · simp only [nameAt, nameSize]
      omega
    · rw [hat]
      exact (hnode.sound.mono (by simp only [nameAt]; omega)).congr fun a ha _ => h.untouched a ha
    · intro hlt
      rw [hat, h.untouched _ (Nat.le_refl _)]
      refine hbehind hnil ?_
      simp only [nameAt] at hlt
      omega

/-- Leaving a character out of a name leaves it valid. -/
theorem Filling.drop (h : Filling src base node mem s) (hi : s.i < src.length)
    (hascii : s.cur ≠ [] → isAscii (charAt src s.i) = true) :
    Filling src base node mem { s with i := s.i + 1 } where
  done := h.done
  valid := by
    intro hnil
    have hvalid := h.valid hnil
    rw [drop_eq_charAt hi] at hvalid
    obtain ⟨hcur, hrest⟩ := hvalid.split_ascii (hascii hnil)
    exact hcur.append hrest
  nonzero := h.nonzero
  stored := h.stored
  untouched := h.untouched

/-- A character is added to a name. -/
theorem Filling.keep (h : Filling src base node mem s) (hsrc : IsUtf8 src)
    (hzero : ∀ c ∈ src, c ≠ 0) (hi : s.i < src.length)
    (hascii : s.cur = [] → isAscii (charAt src s.i) = true) :
    Filling src base node (store mem (nameAt base s.done.length s.cur.length) [charAt src s.i])
      { s with i := s.i + 1, cur := s.cur ++ [charAt src s.i] } where
  done := fun r hr hten => (h.done r hr hten).store _ (by
    dsimp only at hr
    simp only [nameAt, nameSize]
    omega)
  valid := by
    intro _
    dsimp only
    rw [List.append_assoc, List.singleton_append, ← drop_eq_charAt hi]
    by_cases hnil : s.cur = []
    · rw [hnil, List.nil_append]
      have hsplit : src.take s.i ++ src.drop s.i = src := List.take_append_drop _ src
      refine (IsUtf8.split (hsplit.symm ▸ hsrc) ?_).2
      rw [drop_eq_charAt hi]
      intro c hc
      obtain rfl : charAt src s.i = c := by simpa using hc
      exact isUTF8FirstByte_of_isAscii _ (hascii hnil)
    · exact h.valid hnil
  nonzero := by
    intro c hc
    rcases List.mem_append.mp hc with hc | hc
    · exact h.nonzero c hc
    · rw [List.mem_singleton.mp hc, charAt, List.getD_eq_getElem _ _ hi]
      exact hzero _ (List.getElem_mem hi)
  stored := by
    have hat : nameAt base s.done.length (s.cur ++ [charAt src s.i]).length =
        nameAt base s.done.length s.cur.length + 1 := by
      rw [List.length_append, List.length_singleton]
      rfl
    dsimp only
    rw [hat, segment_succ _ (by simp only [nameAt]; omega), store_singleton,
      segment_store (.inl (Nat.le_refl _)), h.stored]
  untouched := by
    intro a ha
    dsimp only at ha
    rw [List.length_append, List.length_singleton] at ha
    simp only [nameAt] at ha
    rw [store_outside (.inr (by rw [List.length_singleton]; simp only [nameAt]; omega)),
      h.untouched a (by simp only [nameAt]; omega)]

/-- The row into which "et. al." is printed. -/
theorem soundRow_etAl {r : Nat} (hnode : RowSound node base r)
    (hsame : ∀ a, nameAt base r 0 ≤ a → mem a = node a) :
    RowSound (store mem (nameAt base r 0) (bytes "et. al." ++ [0])) base r := by
  have hlen : (bytes "et. al.").length = 7 := by decide
  have hwidth : (bytes "et. al." ++ [0]).length = 8 := by decide
  have hstring := StringAt.of_store mem (nameAt base r 0)
    (show ∀ c ∈ bytes "et. al.", c ≠ 0 by decide +kernel)
  refine soundRow_of_ended (.of_ascii (by decide +kernel)) hstring.nonzero hstring.stored
    hstring.closed ?_ ?_
  · rw [hlen]
    simp only [nameAt, nameSize]
    omega
  · refine (hnode.sound.mono (by omega)).congr fun a ha _ => ?_
    rw [hlen] at ha
    rw [store_outside (.inr (by rw [hwidth]; omega)), hsame a (by omega)]

/-- What stands behind the last name in its row, if it is shorter than its row, starts a
character. -/
def BehindStarts (node : Nat → UInt8) (base : Nat) (names : List (List UInt8) × List UInt8) :
    Prop :=
  names.1.length < 10 → names.2 ≠ [] → names.2.length < nameSize →
    (node (nameAt base names.1.length names.2.length)).IsUTF8FirstByte

/-- The rows behind the one at hand are those of the node. -/
theorem Filling.later (h : Filling src base node mem s) (hlen : s.cur.length ≤ nameSize) {r : Nat}
    (hnode : RowSound node base r) (hr : s.done.length < r) : RowSound mem base r := by
  refine hnode.congr fun a ha _ => h.untouched a (le_trans ?_ ha)
  simp only [nameAt, nameSize] at hlen ⊢
  omega

/-- The name at hand is ended, and another one begun. -/
theorem Filling.next (h : Filling src base node mem s) (hnode : ∀ r, r < 10 → RowSound node base r)
    (hcur : IsUtf8 s.cur) (hlen : s.cur.length < nameSize) (i' : Nat) :
    Filling src base node (store mem (nameAt base s.done.length s.cur.length) [0])
      ⟨i', s.done ++ [s.cur], []⟩ where
  done := by
    intro r hr hten
    rw [List.length_append, List.length_singleton] at hr
    rcases Nat.eq_or_lt_of_le (Nat.le_of_lt_succ hr) with rfl | hlt
    · exact h.ended (hnode _ hten) hcur hlen
    · refine (h.done r hlt hten).store _ ?_
      simp only [nameAt, nameSize]
      omega
  valid := fun hnil => absurd rfl hnil
  nonzero := fun _ hc => absurd hc List.not_mem_nil
  stored := segment_self _ _
  untouched := by
    intro a ha
    rw [List.length_append, List.length_singleton] at ha
    simp only [nameAt, nameSize, List.length_nil] at ha hlen
    rw [store_outside (.inr (by
      rw [List.length_singleton]; simp only [nameAt, nameSize]; omega))]
    exact h.untouched a (by simp only [nameAt, nameSize]; omega)

/-- With its terminator the name at hand leaves every row sound. -/
theorem Filling.sealed (h : Filling src base node mem s)
    (hnode : ∀ r, r < 10 → RowSound node base r) (hcur : IsUtf8 s.cur)
    (hlen : s.cur.length < nameSize) {r : Nat} (hr : r < 10) :
    RowSound (store mem (nameAt base s.done.length s.cur.length) [0]) base r := by
  rcases Nat.lt_trichotomy r s.done.length with hlt | rfl | hgt
  · refine (h.done r hlt hr).store _ ?_
    simp only [nameAt, nameSize]
    omega
  · exact h.ended (hnode _ hr) hcur hlen
  · refine (h.later hlen.le (hnode r hr) hgt).congr fun a ha _ => store_outside (.inr ?_)
    rw [List.length_singleton]
    simp only [nameAt, nameSize] at ha hlen ⊢
    omega

/-- "et. al." is printed to the row behind the name, if there is one. -/
theorem Filling.etAl (h : Filling src base node mem s)
    (hnode : ∀ r, r < 10 → RowSound node base r) (hcur : IsUtf8 s.cur)
    (hlen : s.cur.length < nameSize) {r : Nat} (hr : r < 10) :
    RowSound (store (store mem (nameAt base s.done.length s.cur.length) [0])
      (nameAt base (s.done.length + 1) 0) (bytes "et. al." ++ [0])) base r := by
  have hwidth : (bytes "et. al." ++ [0]).length = 8 := by decide
  by_cases hrow : r = s.done.length + 1
  · subst hrow
    refine soundRow_etAl (hnode _ hr) fun a ha => ?_
    simp only [nameAt, nameSize] at ha hlen
    rw [store_outside (.inr (by
      rw [List.length_singleton]; simp only [nameAt, nameSize]; omega))]
    exact h.untouched a (by simp only [nameAt, nameSize]; omega)
  · refine (h.sealed hnode hcur hlen hr).congr fun a ha hlt => store_outside ?_
    rw [hwidth]
    simp only [nameAt, nameSize] at ha hlt ⊢
    omega

/-- The loop ends with a name left open. -/
theorem Filling.finish (h : Filling src base node mem s)
    (hnode : ∀ r, r < 10 → RowSound node base r) (hlen : s.cur.length ≤ nameSize)
    (hbehind : BehindStarts node base (s.done, s.cur))
    (hmove : nameMove src s.i s.done.length (s.cur.length == 0) = .stop) {r : Nat} (hr : r < 10) :
    RowSound mem base r := by
  rcases Nat.lt_trichotomy r s.done.length with hlt | rfl | hgt
  · exact h.done r hlt hr
  · have hend : src.drop s.i = [] := by
      rw [List.drop_eq_nil_iff]
      by_contra hlt
      exact nameMove_ne_stop (Nat.lt_of_not_le hlt) hr hmove
    have hcur : IsUtf8 s.cur := by
      by_cases hnil : s.cur = []
      · rw [hnil]
        exact .nil
      · have hvalid := h.valid hnil
        rwa [hend, List.append_nil] at hvalid
    exact h.open (hnode _ hr) hcur hlen (hbehind hr)
  · exact h.later hlen (hnode r hr) hgt

/-- The rows are sound after the loop. -/
theorem run_sound {fuel : Nat} {names : List (List UInt8) × List UInt8}
    (hnode : ∀ r, r < 10 → RowSound node base r) (hsrc : IsUtf8 src) (hzero : ∀ c ∈ src, c ≠ 0)
    (h : Filling src base node mem s) (hrun : run (readPass src) fuel s = some names)
    (hfit : NamesFit names) (hbehind : BehindStarts node base names) :
    ∃ mem', run (namePass src base) fuel ⟨s.i, s.done.length, s.cur.length, mem⟩ = some mem' ∧
      ∀ r, r < 10 → RowSound mem' base r := by
  induction fuel generalizing s mem with
  | zero => contradiction
  | succ fuel ih =>
      have hin := @nameMove_inside src s.i s.done.length (s.cur.length == 0)
      have hascii := @isAscii_of_nameMove src s.i s.done.length (s.cur.length == 0)
      cases hmove : nameMove src s.i s.done.length (s.cur.length == 0) with
      | stop =>
          rw [run_exit (by rw [readPass, hmove]), Option.some.injEq] at hrun
          subst hrun
          exact ⟨mem, run_exit (by rw [namePass, hmove]) fuel,
            fun r hr => h.finish hnode hfit.2 hbehind hmove hr⟩
      | next i' =>
          obtain ⟨hi, hline⟩ := hin (by rw [hmove]; exact NameMove.noConfusion)
          rw [run_next (by rw [readPass, hmove])] at hrun
          have hended := (run_readPass_extends hrun).1 s.cur List.mem_concat_self
          have hlen : s.cur.length < nameSize := Nat.lt_succ_of_le (hfit.1 _ hended)
          have hcur := h.isUtf8_cur hi (hascii (by rw [hmove]; exact NameMove.noConfusion)
            (fun c => by rw [hmove]; exact NameMove.noConfusion)
            fun _ => by rw [hmove]; exact NameMove.noConfusion)
          obtain ⟨mem', hmem', hrows⟩ := ih (h.next hnode hcur hlen i') hrun
          refine ⟨mem', ?_, hrows⟩
          rw [run_next (by rw [namePass, hmove]), ← hmem', List.length_append,
            List.length_singleton, List.length_nil]
      | etAl =>
          obtain ⟨hi, hline⟩ := hin (by rw [hmove]; exact NameMove.noConfusion)
          rw [run_exit (by rw [readPass, hmove]), Option.some.injEq] at hrun
          have hended : s.cur ∈ names.1 := by
            rw [← hrun]
            exact List.mem_concat_self
          have hlen : s.cur.length < nameSize := Nat.lt_succ_of_le (hfit.1 _ hended)
          have hcur := h.isUtf8_cur hi (hascii (by rw [hmove]; exact NameMove.noConfusion)
            (fun c => by rw [hmove]; exact NameMove.noConfusion)
            fun _ => by rw [hmove]; exact NameMove.noConfusion)
          refine ⟨_, run_exit (by rw [namePass, hmove]) fuel, fun r hr => ?_⟩
          by_cases hten : s.done.length + 1 < 10
          · rw [if_pos hten]
            exact h.etAl hnode hcur hlen hr
          · rw [if_neg hten]
            exact h.sealed hnode hcur hlen hr
      | drop =>
          obtain ⟨hi, -⟩ := hin (by rw [hmove]; exact NameMove.noConfusion)
          rw [run_next (by rw [readPass, hmove])] at hrun
          have hnext := h.drop hi fun hnil => hascii (by rw [hmove]; exact NameMove.noConfusion)
            (fun c => by rw [hmove]; exact NameMove.noConfusion)
            fun hfresh => absurd (List.length_eq_zero_iff.mp (beq_iff_eq.mp hfresh)) hnil
          obtain ⟨mem', hmem', hrows⟩ := ih hnext hrun
          exact ⟨mem', (run_next (by rw [namePass, hmove]) fuel).trans hmem', hrows⟩
      | keep c =>
          obtain ⟨hi, -⟩ := hin (by rw [hmove]; exact NameMove.noConfusion)
          rw [run_next (by rw [readPass, hmove])] at hrun
          obtain rfl := nameMove_keep hmove
          have hnext := h.keep hsrc hzero hi fun hnil => isAscii_of_keep (by
            rw [hnil] at hmove
            exact hmove)
          obtain ⟨mem', hmem', hrows⟩ := ih hnext hrun
          refine ⟨mem', ?_, hrows⟩
          rw [run_next (by rw [namePass, hmove]), ← hmem', List.length_append,
            List.length_singleton]

end Filling

/-! ## Texts that are printed -/

/-- `tagFinishing` puts bytes below 128 in the places of others. -/
theorem forall₂_tagFinishing (str : List UInt8) :
    List.Forall₂ (fun y x => y = x ∨ isAscii y = true ∧ isAscii x = true) (tagFinishing str)
      str := by
  unfold tagFinishing
  dsimp only
  induction str with
  | nil => exact .nil
  | cons c str ih =>
      rw [List.foldr_cons]
      refine .cons ?_ ih
      cases hascii : isAscii c with
      | true =>
          refine .inr ⟨?_, rfl⟩
          split_ifs <;> first | decide | exact hascii
      | false =>
          -- none of the bytes that are looked for
          have hne : ∀ d : UInt8, isAscii d = true → c ≠ d := by
            rintro d hd rfl
            rw [hascii] at hd
            contradiction
          have hline : ¬ (c = '\n'.toUInt8 ∨ c = '\r'.toUInt8) :=
            fun h => h.elim (hne _ (by decide)) (hne _ (by decide))
          have hends : ¬ (c = ','.toUInt8 ∨ c = '['.toUInt8 ∨ c = '\x7b'.toUInt8 ∨
              c = '\x7d'.toUInt8) := by
            rintro (h | h | h | h) <;> exact hne _ (by decide) h
          rw [if_neg hline, if_neg (fun h => hends h.2)]
          exact .inl rfl

theorem isUtf8_finished {str : List UInt8} (h : IsUtf8 str) : IsUtf8 (finished str) :=
  (h.cstr.of_forall₂ (forall₂_tagFinishing _)).cstr

/-- A printed number has a sign and digits. -/
theorem isAscii_of_mem_dec {n : Int} {c : UInt8} (h : c ∈ dec n) : isAscii c = true := by
  rcases mem_dec h with rfl | ⟨-, hhigh⟩
  · decide
  · rw [isAscii, decide_eq_true_eq, UInt8.lt_iff_toNat_lt]
    exact Nat.lt_of_le_of_lt hhigh (by decide)

theorem isUtf8_numberText (v : TwoValue) : IsUtf8 (numberText v) := by
  unfold numberText
  split
  · have hnumber : ∀ n, IsUtf8 (dec n) := fun n => .of_ascii fun c => isAscii_of_mem_dec
    exact ((hnumber _).append (.of_ascii (by decide +kernel))).append (hnumber _)
  · exact .of_ascii fun c => isAscii_of_mem_dec

/-- A call prints a valid text without zeros to an array that is a string. -/
theorem infoPrint_text {c : InfoCall} {p : Print} (h : infoPrint c = some p) :
    p.field.IsText ∧ (IsUtf8 c.str → IsUtf8 p.text) ∧ ∀ d ∈ p.text, d ≠ 0 := by
  have hfinished : (IsUtf8 c.str → IsUtf8 (finished c.str)) ∧ ∀ d ∈ finished c.str, d ≠ 0 :=
    ⟨isUtf8_finished, fun d => ne_zero_of_mem_finished⟩
  have hnumber : ∀ v : TwoValue,
      (IsUtf8 c.str → IsUtf8 (numberText v)) ∧ ∀ d ∈ numberText v, d ≠ 0 :=
    fun v => ⟨fun _ => isUtf8_numberText v, fun d => ne_zero_of_mem_numberText⟩
  unfold infoPrint at h
  split at h
  all_goals first
    | (cases h; exact ⟨by dsimp only; decide, hfinished⟩)
    | (cases h; exact ⟨by dsimp only; decide, hnumber _⟩)
    | contradiction

/-! ## Nodes -/

/-- The rows of the names of a node are sound, and its other strings valid. -/
structure SoundNode (node : CitationNode) : Prop where
  rows : ∀ f : Field, ¬ f.IsText → ∀ r, r < 10 → RowSound node f.offset r
  texts : ∀ f : Field, f.IsText → ∃ text, ShowsText node f text ∧ IsUtf8 text

/-- The strings of the fields of a node are valid UTF-8. -/
structure ValidNode (node : CitationNode) : Prop where
  texts : ∀ f : Field, f.IsText → IsUtf8 (stringIn node f.offset nodeSize)
  names : ∀ f : Field, ¬ f.IsText → ∀ i, i < 10 → IsUtf8 (stringIn node (f.row i) nodeSize)

/-- The bytes that a call writes lie in the array it addresses, and its segment in `src`. -/
structure WritesFit (node : CitationNode) (c : InfoCall) : Prop where
  copied : c.str.length < srcSize
  names : splitsNames c.id → ∀ cell ∈ nameCells node Field.author.offset (cstr c.str),
    cell.1 < 10 ∧ cell.2 < 50
  prints : ∀ p, infoPrint c = some p → (p.text.take (p.limit - 1)).length < p.field.size

/-- A call cuts no character: neither does a print where it cuts its text, nor has the row of the
last name, behind it, a part of one. -/
structure KeepsChars (node : CitationNode) (c : InfoCall) : Prop where
  prints : ∀ p, infoPrint c = some p → StartsChar (p.text.drop (p.limit - 1))
  names : splitsNames c.id → BehindStarts node Field.author.offset (readNames (cstr c.str))

section Nodes

variable {node : CitationNode} {c : InfoCall}

/-- The strings of a sound node are valid. -/
theorem SoundNode.valid (h : SoundNode node) : ValidNode node := by
  have htexts : ∀ f : Field, f.IsText → IsUtf8 (stringIn node f.offset nodeSize) := by
    intro f hf
    obtain ⟨text, hshows, hvalid⟩ := h.texts f hf
    have hsize := Field.le_nodeSize f
    have hfits := hshows.fits
    rw [hshows.string.stringIn_eq (by omega)]
    exact hvalid
  refine ⟨htexts, fun f hf i hi => ?_⟩
  have hnext : IsUtf8 (stringIn node (f.row 10) nodeSize) := by
    rcases not_isText_iff.mp hf with rfl | rfl
    · exact htexts .title (by decide)
    · exact htexts .journal (by decide)
  have hinside : f.row 10 ≤ nodeSize := by
    rcases not_isText_iff.mp hf with rfl | rfl <;> decide
  obtain ⟨k, hk⟩ : ∃ k, i + k = 10 := ⟨10 - i, by omega⟩
  clear hi
  -- from the last row back
  induction k generalizing i with
  | zero =>
      obtain rfl : i = 10 := hk
      exact hnext
  | succ k ih =>
      have hrow := h.rows f hf i (by omega)
      have hrest := ih (i + 1) (by omega)
      refine SoundRow.runsOn (b := nameAt f.offset i nameSize) hrow ?_ ?_ ?_
      · simp only [nameAt, nameSize, Field.row]
        omega
      · simp only [nameAt, nameSize, Field.row] at hinside ⊢
        omega
      · exact hrest

/-- A new node is sound. -/
theorem soundNode_init (node : CitationNode) : SoundNode (initCitationNode node) where
  rows := by
    intro f hf r hr
    refine soundRow_zero (fun i hlo hhi => ?_) (by simp only [nameAt, nameSize]; omega)
    have hsize := size_names hf
    have hholds : f.Holds i := by
      rw [Field.Holds, hsize]
      simp only [nameAt, nameSize] at hlo hhi
      omega
    rcases not_isText_iff.mp hf with rfl | rfl
    · exact initCitationNode_names node (.inl hholds)
    · exact initCitationNode_names node (.inr hholds)
  texts := by
    intro f _
    refine ⟨[], ⟨?_, StringAt.nil_iff.mpr (initCitationNode_offset node f)⟩, .nil⟩
    cases f <;> decide

/-- A change of one array leaves the others sound. -/
theorem SoundNode.update (h : SoundNode node) {node' : CitationNode} {f : Field}
    (hsame : ∀ i, ¬ f.Holds i → node' i = node i)
    (hrows : ¬ f.IsText → ∀ r, r < 10 → RowSound node' f.offset r)
    (htext : f.IsText → ∃ text, ShowsText node' f text ∧ IsUtf8 text) : SoundNode node' where
  rows := by
    intro g hg r hr
    by_cases hgf : g = f
    · subst hgf
      exact hrows hg r hr
    · refine (h.rows g hg r hr).congr fun a hlo hhi => hsame a fun hf => hgf ?_
      refine Field.Holds.ne ⟨?_, ?_⟩ hf
      · simp only [nameAt] at hlo
        omega
      · rw [size_names hg]
        simp only [nameAt, nameSize] at hhi
        omega
  texts := by
    intro g hg
    by_cases hgf : g = f
    · subst hgf
      exact htext hg
    · obtain ⟨text, hshows, hvalid⟩ := h.texts g hg
      exact ⟨text, hshows.frame fun i hi => hsame i fun hf => hgf (hi.ne hf), hvalid⟩

/-- A call that keeps its writes to its array and cuts no character leaves a sound node. -/
theorem SoundNode.infoWrite (h : SoundNode node) (hstr : IsUtf8 c.str) (hfit : WritesFit node c)
    (hkeeps : KeepsChars node c) : SoundNode (infoWrite c node) := by
  unfold CiteParser.infoWrite
  split
  next hsplits =>
      have hcells := hfit.names hsplits
      have hnames : NamesFit (readNames (cstr c.str)) :=
        (@cells_inside_iff (cstr c.str) _ Field.author.offset ⟨0, [], []⟩ node _
          (run_readPass (cstr c.str)) (fun n hn => absurd hn List.not_mem_nil)
          (Nat.zero_le _)).mp hcells
      refine h.update (f := .author) (fun i hi => ?_) (fun _ => ?_)
        fun htext => absurd htext (by decide)
      · refine spilitName_outside fun cell hcell hat => hi ?_
        obtain ⟨hrow, hcol⟩ := hcells cell hcell
        rw [hat, Field.Holds, nameAt, nameSize]
        have hsize : Field.author.size = 500 := rfl
        omega
      · have hauthor : ¬ Field.author.IsText := by decide
        have hstart : Filling (cstr c.str) Field.author.offset node node ⟨0, [], []⟩ :=
          ⟨fun r hr => absurd hr (Nat.not_lt_zero r), fun hnil => absurd rfl hnil,
            fun d hd => absurd hd List.not_mem_nil, segment_self _ _, fun _ _ => rfl⟩
        obtain ⟨mem', hrun, hrows⟩ := run_sound (h.rows .author hauthor) hstr.cstr
          (fun d => ne_zero_of_mem_cstr) hstart (run_readPass (cstr c.str)) hnames
          (hkeeps.names hsplits)
        have hmem : spilitName node Field.author.offset (cstr c.str) = mem' := by
          rw [spilitName]
          exact congrArg (fun o => Option.getD o node) hrun
        rw [hmem]
        exact hrows
  next =>
      split
      next p hp =>
          obtain ⟨hfield, hvalid, hnonzero⟩ := infoPrint_text hp
          have hfits := hfit.prints p hp
          refine h.update (f := p.field) (fun i hi => ?_) (fun hnot => absurd hfield hnot)
            fun _ => ?_
          · rw [snprintf, store_outside]
            rw [Field.Holds] at hi
            rw [List.length_append, List.length_singleton]
            omega
          · refine ⟨_, ⟨hfits, stringAt_snprintf node _ _ hnonzero⟩, ?_⟩
            have hsplit : p.text.take (p.limit - 1) ++ p.text.drop (p.limit - 1) = p.text :=
              List.take_append_drop _ _
            exact (IsUtf8.split (hsplit.symm ▸ hvalid hstr) (hkeeps.prints p hp)).1
      next => exact h

end Nodes

/-! ## Runs -/

section Runs

variable (heap : Nat → CitationNode)

/-- The node that a call writes to. -/
def writtenNode (l : NodeList) (c : InfoCall) : CitationNode :=
  (if asksNode c then addCitationNode heap l else l).now

/-- Each call of a run meets a condition on the node it writes to. -/
def EachCall (P : CitationNode → InfoCall → Prop) : NodeList → List InfoCall → Prop
  | _, [] => True
  | l, c :: rest => P (writtenNode heap l c) c ∧
      ∀ l', addCitationInfo heap l c = some l' → EachCall P l' rest

/-- One call keeps the nodes sound. -/
theorem addCitationInfo_sound {l l' : NodeList} {c : InfoCall}
    (h : ∀ node ∈ l.nodes, SoundNode node) (hstr : IsUtf8 c.str)
    (hfit : WritesFit (writtenNode heap l c) c) (hkeeps : KeepsChars (writtenNode heap l c) c)
    (hcall : addCitationInfo heap l c = some l') : ∀ node ∈ l'.nodes, SoundNode node := by
  have hopened : ∀ node ∈ (if asksNode c then addCitationNode heap l else l).nodes,
      SoundNode node := by
    split
    · rw [addCitationNode]
      split
      · exact h
      · intro node hnode
        rcases List.mem_append.mp hnode with hnode | hnode
        · exact h node hnode
        · rw [List.mem_singleton.mp hnode]
          exact soundNode_init _
    · exact h
  rw [addCitationInfo_eq heap l hfit.copied] at hcall
  obtain rfl := Option.some.inj hcall
  intro node hnode
  rcases List.mem_append.mp hnode with hnode | hnode
  · exact hopened node (List.mem_append_left _ hnode)
  · rw [List.mem_singleton.mp hnode]
    exact (hopened _ List.mem_concat_self).infoWrite hstr hfit hkeeps

/-- And so does a run. -/
theorem run_nodes_sound {calls before : List InfoCall} {l l' : NodeList}
    (h : ∀ node ∈ l.nodes, SoundNode node) (hstr : ∀ c ∈ calls, IsUtf8 c.str)
    (hfit : EachCall heap WritesFit l calls) (hkeeps : EachCall heap KeepsChars l calls)
    (hbefore : before <+: calls) (hrun : before.foldlM (addCitationInfo heap) l = some l') :
    ∀ node ∈ l'.nodes, SoundNode node := by
  induction before generalizing calls l with
  | nil =>
      obtain rfl : l = l' := Option.some.inj hrun
      exact h
  | cons c before ih =>
      obtain ⟨rest, rfl⟩ := hbefore
      rw [List.cons_append] at hfit hkeeps hstr
      rw [List.foldlM_cons] at hrun
      obtain ⟨l₁, hcall, hrun⟩ := Option.bind_eq_some_iff.mp hrun
      rw [List.forall_mem_cons] at hstr
      exact ih (addCitationInfo_sound heap h hstr.1 hfit.1 hkeeps.1 hcall) hstr.2
        (hfit.2 l₁ hcall) (hkeeps.2 l₁ hcall) (List.prefix_append before rest) hrun

end Runs

section Query

variable {mem : Nat → UInt8} {dict : Dict} {nextpre : Nat → UInt8} {query : List UInt8}
  {junk : Nat → CrfNodeSnapshot} {repo : TokenRepo} {y2 : Nat → List UInt8} {e : PredictState}

/-- The calls of `addCitationInfo` that the labels `y2` of a query lead to. -/
def QueryCalls (ref : Reference) (repo : TokenRepo) (y2 : Nat → List UInt8) (e : PredictState)
    (calls : List InfoCall) : Prop :=
  calls.map (fun c => (c.id, c.str)) =
    addedInfo (decode repo ref.content y2 e.offsetCpQueue e.rows.length)

/-- In the decoding of a query that is valid UTF-8 without zeros, as long as the calls keep their
writes to their arrays and cut no character, the strings of all nodes are valid after any number
of calls. -/
theorem fields_valid {heap : Nat → CitationNode} {calls : List InfoCall} (hquery : IsUtf8 query)
    (hzero : ∀ c ∈ query, c ≠ 0)
    (he : predictLoop (requestReference mem dict nextpre query query.length) junk 0 = some e)
    (hcalls : QueryCalls (requestReference mem dict nextpre query query.length) repo y2 e calls)
    (hfit : EachCall heap WritesFit (.start heap) calls)
    (hkeeps : EachCall heap KeepsChars (.start heap) calls) :
    ∀ before l, before <+: calls → infoRun heap before = some l →
      ∀ node ∈ l.nodes, ValidNode node := by
  intro before l hbefore hrun node hnode
  have hstr : ∀ c ∈ calls, IsUtf8 c.str := by
    intro c hc
    have hsegment := @isUtf8_addedInfo _ query repo y2 junk e
      (covers_request mem dict nextpre hzero) hquery he (c.id, c.str)
    rw [← hcalls] at hsegment
    exact hsegment (List.mem_map_of_mem hc)
  have hstart : ∀ node ∈ (NodeList.start heap).nodes, SoundNode node := by
    intro node hnode
    rw [List.mem_singleton.mp hnode]
    exact soundNode_init _
  exact (run_nodes_sound heap hstart hstr hfit hkeeps hbefore hrun node hnode).valid

/-- The calls can be told from the tokens of the query. -/
theorem queryCalls_of_tokens {ref : Reference} {calls : List InfoCall}
    (he : predictLoop ref junk 0 = some e)
    (hcalls : calls.map (fun c => (c.id, c.str)) = addedInfo
      (decode repo ref.content y2 (spans 0 (tokens ref 0)) (tokens ref 0).length)) :
    QueryCalls ref repo y2 e calls := by
  obtain ⟨e', he', hrows, hspans⟩ := predictLoop_eq ref junk 0
  obtain rfl := Option.some.inj (he.symm.trans he')
  rw [QueryCalls, hspans, hrows, rowsOf, List.length_map, length_contextsOf]
  exact hcalls

end Query

/-- A date that fits its array. -/
theorem fields_valid_date :
    let ref := requestReference (fun _ => 0) (fun _ _ => none) (fun _ => 0) (bytes "März 1999")
      (bytes "März 1999").length
    ∃ e l, predictLoop ref (fun _ => default) 0 = some e ∧
      infoRun (fun _ _ => 0) [⟨5, bytes "März 1999", default⟩] = some l ∧
      ∀ node ∈ l.nodes, ValidNode node := by
  intro ref
  obtain ⟨e, he, -⟩ := predictLoop_eq ref (fun _ => default) 0
  have hrun : infoRun (fun _ _ => 0) [⟨5, bytes "März 1999", default⟩] =
      some ((NodeList.start fun _ _ => 0).print .date 50 (finished (bytes "März 1999"))) := rfl
  have hcalls : QueryCalls ref (tokenInit tokenIni) (fun _ => bytes "date") e
      [⟨5, bytes "März 1999", default⟩] := queryCalls_of_tokens he (by decide +kernel)
  have hfit : WritesFit (writtenNode (fun _ _ => 0) (.start fun _ _ => 0)
      ⟨5, bytes "März 1999", default⟩) ⟨5, bytes "März 1999", default⟩ :=
    ⟨by decide +kernel, fun h => absurd h (by decide), fun p hp => by
      cases hp
      decide +kernel⟩
  have hkeeps : KeepsChars (writtenNode (fun _ _ => 0) (.start fun _ _ => 0)
      ⟨5, bytes "März 1999", default⟩) ⟨5, bytes "März 1999", default⟩ :=
    ⟨fun p hp => by
      cases hp
      decide +kernel, fun h => absurd h (by decide)⟩
  exact ⟨e, _, he, hrun, fields_valid ⟨_, rfl⟩ (by decide +kernel) he hcalls
    ⟨hfit, fun _ _ => trivial⟩ ⟨hkeeps, fun _ _ => trivial⟩ _ _ (List.prefix_refl _) hrun⟩

/-- A date of 48 letters and one character of two bytes is cut in the middle of that. -/
theorem not_fields_valid :
    let query := List.replicate 48 'a'.toUInt8 ++ bytes "é"
    let ref := requestReference (fun _ => 0) (fun _ _ => none) (fun _ => 0) query query.length
    IsUtf8 query ∧ (∀ c ∈ query, c ≠ 0) ∧ ∃ e l,
      predictLoop ref (fun _ => default) 0 = some e ∧
      QueryCalls ref (tokenInit tokenIni) (fun _ => bytes "date") e [⟨5, query, default⟩] ∧
      EachCall (fun _ _ => 0) WritesFit (.start fun _ _ => 0) [⟨5, query, default⟩] ∧
      infoRun (fun _ _ => 0) [⟨5, query, default⟩] = some l ∧
      ¬ ∀ node ∈ l.nodes, ValidNode node := by
  intro query ref
  obtain ⟨e, he, -⟩ := predictLoop_eq ref (fun _ => default) 0
  have hrun : infoRun (fun _ _ => 0) [⟨5, query, default⟩] =
      some ((NodeList.start fun _ _ => 0).print .date 50 (finished query)) := rfl
  refine ⟨.append (.of_ascii (by decide +kernel)) ⟨_, rfl⟩, by decide +kernel, e, _, he,
    queryCalls_of_tokens he (by decide +kernel), ?_, hrun, ?_⟩
  · exact ⟨⟨by decide +kernel, fun h => absurd h (by decide), fun p hp => by
      cases hp
      decide +kernel⟩, fun _ _ => trivial⟩
  · intro h
    have hdate := (h _ List.mem_concat_self).texts .date (by decide)
    have hstring := stringAt_snprintf (NodeList.start fun _ _ => 0).now Field.date.offset 50
      fun c => @ne_zero_of_mem_finished query c
    have hcut : (finished query).take (50 - 1) = List.replicate 48 'a'.toUInt8 ++ [0xC3] := by
      decide +kernel
    rw [hcut] at hstring
    have hread : stringIn (snprintf (NodeList.start fun _ _ => 0).now Field.date.offset 50
        (finished query)) Field.date.offset nodeSize = List.replicate 48 'a'.toUInt8 ++ [0xC3] :=
      hstring.stringIn_eq (by decide)
    have hvalid : IsUtf8 (List.replicate 48 'a'.toUInt8 ++ [0xC3]) := hread ▸ hdate
    exact IsUtf8.not_singleton (by decide) (hvalid.split (by decide +kernel)).2

end CiteParser
