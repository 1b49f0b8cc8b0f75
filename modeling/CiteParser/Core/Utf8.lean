import CiteParser.Core.CString
import Mathlib.Data.FinEnum

/-!
# Valid UTF-8

A text is valid when it is the encoding of a list of characters. Its bytes tell where a character
starts, so it can be cut there; a byte below 128 is a character by itself, and can be left out or
put in the place of another one.
-/

namespace CiteParser

/-- The text is the encoding of characters. -/
def IsUtf8 (s : List UInt8) : Prop := ∃ cs : List Char, s = cs.flatMap String.utf8EncodeChar

/-- A character starts with the first byte, if there is one. -/
def StartsChar (s : List UInt8) : Prop := ∀ c ∈ s.head?, c.IsUTF8FirstByte

instance (s : List UInt8) : Decidable (StartsChar s) :=
  inferInstanceAs (Decidable (∀ c ∈ s.head?, _))

/-- A byte below 128. -/
def isAscii (c : UInt8) : Bool := decide (c < 128)

section Encoding

/-- A byte below 128 starts a character. -/
theorem isUTF8FirstByte_of_isAscii : ∀ c : UInt8, isAscii c = true → c.IsUTF8FirstByte := by
  decide +kernel

/-- A byte that starts no character is not below 128. -/
theorem isAscii_eq_false {c : UInt8} (h : ¬ c.IsUTF8FirstByte) : isAscii c = false := by
  cases hc : isAscii c with
  | false => rfl
  | true => exact absurd (isUTF8FirstByte_of_isAscii c hc) h

/-- The bytes of a character behind its first start none. -/
theorem not_firstByte_of_lt {d : Char} {i : Nat} (hi : 0 < i)
    (hlt : i < (String.utf8EncodeChar d).length) :
    ¬ ((String.utf8EncodeChar d)[i]).IsUTF8FirstByte := by
  rw [UInt8.isUTF8FirstByte_getElem_utf8EncodeChar]
  omega

/-- A character below 128 is its own encoding. -/
theorem utf8EncodeChar_ascii {d : Char} (h : d.val < 128) :
    String.utf8EncodeChar d = [d.val.toUInt8] := by
  apply String.utf8EncodeChar_eq_singleton
  rw [Char.utf8Size_eq_one_iff, UInt32.le_iff_toNat_le]
  exact Nat.le_of_lt_succ (UInt32.lt_iff_toNat_lt.mp h)

/-- The first byte of an encoding of more than one is not below 128. -/
theorem first_not_ascii :
    (∀ x : UInt8, isAscii (x &&& 0x1f ||| 0xc0) = false) ∧
      (∀ x : UInt8, isAscii (x &&& 0x0f ||| 0xe0) = false) ∧
      ∀ x : UInt8, isAscii (x &&& 0x07 ||| 0xf0) = false := by
  decide +kernel

/-- A character is one byte below 128, or more than one, all not below 128. -/
theorem utf8EncodeChar_cases (d : Char) :
    (∃ c, String.utf8EncodeChar d = [c] ∧ isAscii c = true) ∨
      1 < (String.utf8EncodeChar d).length ∧ ∀ c ∈ String.utf8EncodeChar d, isAscii c = false := by
  have hrest : ∀ c ∈ (String.utf8EncodeChar d).tail, isAscii c = false := by
    intro c hc
    obtain ⟨i, hi, rfl⟩ := List.getElem_of_mem hc
    rw [List.length_tail] at hi
    rw [List.getElem_tail]
    exact isAscii_eq_false (not_firstByte_of_lt (Nat.succ_pos i) (by omega))
  have hlong : ∀ {c c' : UInt8} {s : List UInt8}, String.utf8EncodeChar d = c :: c' :: s →
      isAscii c = false → 1 < (String.utf8EncodeChar d).length ∧
        ∀ c ∈ String.utf8EncodeChar d, isAscii c = false := by
    intro c c' s heq hc
    rw [heq] at hrest ⊢
    exact ⟨by simp, List.forall_mem_cons.mpr ⟨hc, hrest⟩⟩
  match h : d.utf8Size, d.utf8Size_pos, d.utf8Size_le_four with
  | 1, _, _ =>
      refine .inl ⟨_, String.utf8EncodeChar_eq_singleton h, ?_⟩
      have hle := UInt32.le_iff_toNat_le.mp (Char.utf8Size_eq_one_iff.mp h)
      rw [isAscii, decide_eq_true_eq, UInt8.lt_iff_toNat_lt, UInt32.toNat_toUInt8]
      exact Nat.lt_of_le_of_lt (Nat.mod_le _ _) (Nat.lt_succ_of_le hle)
  | 2, _, _ =>
      exact .inr (hlong (String.utf8EncodeChar_eq_cons_cons h) (first_not_ascii.1 _))
  | 3, _, _ =>
      exact .inr (hlong (String.utf8EncodeChar_eq_cons_cons_cons h) (first_not_ascii.2.1 _))
  | 4, _, _ =>
      exact .inr (hlong (String.utf8EncodeChar_eq_cons_cons_cons_cons h) (first_not_ascii.2.2 _))

end Encoding

namespace IsUtf8

variable {a b s t : List UInt8} {c : UInt8}

@[simp] theorem nil : IsUtf8 [] := ⟨[], rfl⟩

theorem append (ha : IsUtf8 a) (hb : IsUtf8 b) : IsUtf8 (a ++ b) := by
  obtain ⟨cs, rfl⟩ := ha
  obtain ⟨ds, rfl⟩ := hb
  exact ⟨cs ++ ds, List.flatMap_append.symm⟩

/-- A byte below 128 is a text. -/
theorem ascii (hc : isAscii c = true) : IsUtf8 [c] := by
  have hlt : c.toNat < 128 := by
    rw [isAscii, decide_eq_true_eq, UInt8.lt_iff_toNat_lt] at hc
    exact hc
  have hval : (Char.ofNat c.toNat).val = c.toUInt32 := by
    have hvalid : c.toNat.isValidChar := .inl (by omega)
    rw [Char.ofNat, dif_pos hvalid]
    rfl
  refine ⟨[Char.ofNat c.toNat], ?_⟩
  rw [List.flatMap_singleton, utf8EncodeChar_ascii, hval]
  · exact congrArg (· :: []) (UInt8.toUInt8_toUInt32 c).symm
  · rw [hval, UInt32.lt_iff_toNat_lt, UInt8.toNat_toUInt32]
    exact hlt

/-- Bytes below 128 are a text. -/
theorem of_ascii (h : ∀ c ∈ s, isAscii c = true) : IsUtf8 s := by
  induction s with
  | nil => exact nil
  | cons c s ih =>
      exact (ascii (h c List.mem_cons_self)).append
        (ih fun d hd => h d (List.mem_cons_of_mem c hd))

/-- A text starts with a character. -/
theorem startsChar (h : IsUtf8 s) : StartsChar s := by
  obtain ⟨cs, rfl⟩ := h
  intro c hc
  cases cs with
  | nil => contradiction
  | cons d cs =>
      obtain ⟨x, xs, hx⟩ := List.exists_cons_of_ne_nil (@String.utf8EncodeChar_ne_nil d)
      have hfirst := @UInt8.isUTF8FirstByte_getElem_zero_utf8EncodeChar d
      simp only [List.flatMap_cons, hx, List.cons_append, List.head?_cons, Option.mem_some] at hc
      simp only [hx, List.getElem_cons_zero] at hfirst
      exact hc ▸ hfirst

/-- A text can be cut where a character starts. -/
theorem split (h : IsUtf8 (a ++ b)) (hb : StartsChar b) : IsUtf8 a ∧ IsUtf8 b := by
  obtain ⟨cs, hcs⟩ := h
  induction cs generalizing a with
  | nil =>
      obtain ⟨rfl, rfl⟩ := List.append_eq_nil_iff.mp hcs
      exact ⟨nil, nil⟩
  | cons d cs ih =>
      rw [List.flatMap_cons] at hcs
      rcases List.append_eq_append_iff.mp hcs with ⟨u, hd, hu⟩ | ⟨u, rfl, hu⟩
      · cases u with
        | nil =>
            rw [List.append_nil] at hd
            rw [List.nil_append] at hu
            exact ⟨⟨[d], by rw [List.flatMap_singleton, hd]⟩, ⟨cs, hu⟩⟩
        | cons x u =>
            -- the cut falls into the first character, so it lies before it
            have hx : x.IsUTF8FirstByte := hb x (by rw [hu]; rfl)
            have hlen : a.length < (String.utf8EncodeChar d).length := by
              rw [hd, List.length_append, List.length_cons]
              omega
            have hget : (String.utf8EncodeChar d)[a.length] = x := by
              simp only [hd, List.getElem_append_right (Nat.le_refl _), Nat.sub_self,
                List.getElem_cons_zero]
            rw [← hget, UInt8.isUTF8FirstByte_getElem_utf8EncodeChar,
              List.length_eq_zero_iff] at hx
            subst hx
            exact ⟨nil, ⟨d :: cs, hcs⟩⟩
      · obtain ⟨hcut, hrest⟩ := ih hu.symm
        exact ⟨append ⟨[d], (List.flatMap_singleton ..).symm⟩ hcut, hrest⟩

/-- What follows a byte below 128 is a text. -/
theorem of_cons_ascii (h : IsUtf8 (c :: s)) (hc : isAscii c = true) : IsUtf8 s := by
  obtain ⟨cs, hcs⟩ := h
  cases cs with
  | nil => contradiction
  | cons d cs =>
      rw [List.flatMap_cons] at hcs
      rcases utf8EncodeChar_cases d with ⟨x, hx, -⟩ | ⟨-, hx⟩
      · rw [hx] at hcs
        exact ⟨cs, (List.cons_eq_cons.mp hcs).2⟩
      · obtain ⟨y, ys, hy⟩ := List.exists_cons_of_ne_nil (@String.utf8EncodeChar_ne_nil d)
        rw [hy, List.cons_append] at hcs
        obtain ⟨rfl, -⟩ := List.cons_eq_cons.mp hcs
        rw [hx c (by rw [hy]; exact List.mem_cons_self)] at hc
        contradiction

/-- A byte below 128 divides a text into two. -/
theorem split_ascii (h : IsUtf8 (a ++ c :: b)) (hc : isAscii c = true) : IsUtf8 a ∧ IsUtf8 b := by
  have hstart : StartsChar (c :: b) := by
    intro d hd
    obtain rfl : c = d := by simpa using hd
    exact isUTF8FirstByte_of_isAscii c hc
  obtain ⟨ha, hb⟩ := h.split hstart
  exact ⟨ha, hb.of_cons_ascii hc⟩

/-- Bytes that are not below 128 have no others in their places. -/
theorem eq_of_forall₂
    (hts : List.Forall₂ (fun y x => y = x ∨ isAscii y = true ∧ isAscii x = true) t s)
    (h : ∀ c ∈ s, isAscii c = false) : t = s := by
  induction hts with
  | nil => rfl
  | cons hyx _ ih =>
      rw [List.forall_mem_cons] at h
      rcases hyx with rfl | hyx
      · rw [ih h.2]
      · rw [h.1] at hyx
        exact absurd hyx.2 Bool.false_ne_true

/-- Bytes below 128 in the places of others make no difference. -/
theorem of_forall₂ (h : IsUtf8 s)
    (hts : List.Forall₂ (fun y x => y = x ∨ isAscii y = true ∧ isAscii x = true) t s) :
    IsUtf8 t := by
  obtain ⟨cs, rfl⟩ := h
  induction cs generalizing t with
  | nil =>
      rw [List.flatMap_nil, List.forall₂_nil_right_iff] at hts
      rw [hts]
      exact nil
  | cons d cs ih =>
      rw [List.flatMap_cons] at hts
      have hfirst := List.forall₂_take_append t _ _ hts
      have hrest := List.forall₂_drop_append t _ _ hts
      rw [← List.take_append_drop (String.utf8EncodeChar d).length t]
      refine append ?_ (ih hrest)
      generalize t.take (String.utf8EncodeChar d).length = u at hfirst ⊢
      rcases utf8EncodeChar_cases d with ⟨x, hx, hascii⟩ | ⟨-, hx⟩
      · rw [hx] at hfirst
        obtain ⟨y, l, hyx, hl, rfl⟩ := List.forall₂_cons_right_iff.mp hfirst
        rw [List.forall₂_nil_right_iff.mp hl]
        refine ascii ?_
        rcases hyx with rfl | hyx
        · exact hascii
        · exact hyx.1
      · rw [eq_of_forall₂ hfirst hx]
        exact ⟨[d], (List.flatMap_singleton ..).symm⟩

/-- A single byte that is not below 128 is no text. -/
theorem not_singleton (hc : isAscii c = false) : ¬ IsUtf8 [c] := by
  rintro ⟨cs, hcs⟩
  cases cs with
  | nil => contradiction
  | cons d cs =>
      rw [List.flatMap_cons] at hcs
      have hlen := congrArg List.length hcs
      rw [List.length_singleton, List.length_append] at hlen
      rcases utf8EncodeChar_cases d with ⟨x, hx, hascii⟩ | ⟨hlong, -⟩
      · rw [hx] at hcs
        obtain ⟨rfl, -⟩ := List.cons_eq_cons.mp hcs
        rw [hc] at hascii
        contradiction
      · omega

/-- The string in a text is a text. -/
theorem cstr (h : IsUtf8 s) : IsUtf8 (cstr s) := by
  rcases hrest : s.dropWhile (· != 0) with _ | ⟨c, rest⟩
  · have hall : CiteParser.cstr s = s := by
      have hjoin := @List.takeWhile_append_dropWhile _ (· != 0) s
      rwa [hrest, List.append_nil] at hjoin
    rwa [hall]
  · have hjoin := @List.takeWhile_append_dropWhile _ (· != 0) s
    have hzero : c = 0 := by
      have hhead := List.head_dropWhile_not (· != 0) (l := s) (by rw [hrest]; simp)
      simpa [hrest] using hhead
    rw [hrest, hzero] at hjoin
    rw [← hjoin] at h
    exact (h.split_ascii (by decide)).1

end IsUtf8

end CiteParser
