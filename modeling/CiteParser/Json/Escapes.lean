import CiteParser.Core.Utf8
import CiteParser.Json.Roundtrip

/-!
# Escapes of a string

The characters of a string that is parsed may stand for themselves or be written by the number of
their UTF-16 code units. However each of them is written, `parse_string` gives the UTF-8 text of
the characters, and the text fits the block that its first loop has counted.
-/

namespace CiteParser.CJson

/-! ## Encoding a character -/

/-- A byte behind the first one: the lowest six bits, marked. -/
theorem utf8Tail_eq (u : Nat) :
    UInt8.ofNat ((u ||| 0x80) &&& 0xBF) = UInt8.ofNat (u % 64 + 128) := by
  have htable : ∀ x : UInt8, (x ||| 0x80) &&& 0xBF = UInt8.ofNat (x.toNat % 64 + 128) := by
    decide +kernel
  have hbyte := htable (UInt8.ofNat u)
  rw [UInt8.ofNat_and, UInt8.ofNat_or]
  refine hbyte.trans ?_
  rw [UInt8.toNat_ofNat']
  congr 2
  omega

/-- `parse_string` writes a character in UTF-8. -/
theorem utf8Bytes_toNat (c : Char) : utf8Bytes c.toNat = String.utf8EncodeChar c := by
  have htwo : ∀ w < 32, UInt8.ofNat (w ||| 0xC0) = UInt8.ofNat (w % 32 + 0xC0) := by decide +kernel
  have hthree : ∀ w < 16, UInt8.ofNat (w ||| 0xE0) = UInt8.ofNat (w % 16 + 0xE0) := by
    decide +kernel
  have hfour : ∀ w < 8, UInt8.ofNat (w ||| 0xF0) = UInt8.ofNat (w % 8 + 0xF0) := by decide +kernel
  have hmax : c.toNat < 0x110000 := by
    rcases c.valid with h | h
    · exact Nat.lt_trans h (by decide)
    · exact h.2
  unfold utf8Bytes String.utf8EncodeChar
  change utf8From (utf8Length c.toNat) (utf8Length c.toNat - 1) c.toNat [] = _
  generalize hv : c.toNat = v at hmax ⊢
  have hval : c.val.toNat = v := hv
  rw [hval]
  by_cases hone : v < 0x80
  · have hlen : utf8Length v = 1 := if_pos hone
    rw [hlen, if_pos (Nat.le_of_lt_succ hone)]
    simp [utf8From, firstByteMark]
  have hshift : ∀ u : Nat, u >>> 6 = u / 64 := fun u => Nat.shiftRight_eq_div_pow u 6
  have hdiv : v / 64 / 64 = v / 4096 ∧ v / 4096 / 64 = v / 262144 := by omega
  by_cases htwo' : v < 0x800
  · have hlen : utf8Length v = 2 := by rw [utf8Length, if_neg hone, if_pos htwo']
    rw [hlen, if_neg (by omega), if_pos (by omega), ← htwo _ (by omega), ← utf8Tail_eq]
    simp only [utf8From, hshift]
    rfl
  by_cases hthree' : v < 0x10000
  · have hlen : utf8Length v = 3 := by
      rw [utf8Length, if_neg hone, if_neg htwo', if_pos hthree']
    rw [hlen, if_neg (by omega), if_neg (by omega), if_pos (by omega), ← hthree _ (by omega),
      ← utf8Tail_eq, ← utf8Tail_eq]
    simp only [utf8From, hshift, hdiv.1]
    rfl
  · have hlen : utf8Length v = 4 := by
      rw [utf8Length, if_neg hone, if_neg htwo', if_neg hthree']
    rw [hlen, if_neg (by omega), if_neg (by omega), if_neg (by omega), ← hfour _ (by omega),
      ← utf8Tail_eq, ← utf8Tail_eq, ← utf8Tail_eq]
    simp only [utf8From, hshift, hdiv.1, hdiv.2]
    rfl

/-- A character below 128 is met in no encoding but its own. -/
theorem eq_of_mem_utf8EncodeChar {a d : Char} (ha : a.val.toNat < 128)
    (hc : a.toUInt8 ∈ String.utf8EncodeChar d) : d = a := by
  have hval : a.toUInt8.toNat = a.val.toNat := by
    rw [Char.toUInt8, UInt32.toNat_toUInt8]
    omega
  rcases utf8EncodeChar_cases d with ⟨x, hx, -⟩ | ⟨-, hhigh⟩
  · have hsize : d.utf8Size = 1 := by
      rw [← String.length_utf8EncodeChar, hx]
      rfl
    have hle : d.val.toNat ≤ 127 :=
      UInt32.le_iff_toNat_le.mp (Char.utf8Size_eq_one_iff.mp hsize)
    rw [String.utf8EncodeChar_eq_singleton hsize, List.mem_singleton] at hc
    have hsame := congrArg UInt8.toNat hc
    rw [UInt32.toNat_toUInt8, hval] at hsame
    exact Char.ext (UInt32.toNat_inj.mp (by omega))
  · have hlow : isAscii a.toUInt8 = true := by
      rw [isAscii, decide_eq_true_iff, UInt8.lt_iff_toNat_lt, hval]
      exact ha
    rw [hhigh _ hc] at hlow
    contradiction

/-- Neither a quote nor a backslash is met in the encoding of another character. -/
theorem ne_of_mem_utf8EncodeChar {d : Char} (hquote : d ≠ '"') (hslash : d ≠ '\\') {c : UInt8}
    (hc : c ∈ String.utf8EncodeChar d) : c ≠ '"'.toUInt8 ∧ c ≠ '\\'.toUInt8 := by
  constructor
  · rintro rfl
    exact hquote (eq_of_mem_utf8EncodeChar (by decide) hc)
  · rintro rfl
    exact hslash (eq_of_mem_utf8EncodeChar (by decide) hc)

/-! ## Escapes -/

/-- Four hexadecimal digits that spell a number. -/
structure Spells (digits : List UInt8) (n : Nat) : Prop where
  length_eq : digits.length = 4
  digits_hex : ∀ d ∈ digits, (hexValue d).isSome
  value : parseHex4 digits = n

/-- The letters behind a backslash, with the characters that they are written for. -/
def shortEscapes : List (UInt8 × Char) :=
  [('"', '"'), ('\\', '\\'), ('/', '/'), ('b', '\x08'), ('f', '\x0c'), ('n', '\n'), ('r', '\r'),
    ('t', '\t')].map fun e => (e.1.toUInt8, e.2)

/-- How the characters of a string can be written: themselves, with a letter behind a backslash, or
by their UTF-16 code units. -/
inductive Writes : List UInt8 → List Char → Prop where
  | nil : Writes [] []
  | raw {text : List UInt8} {cs : List Char} (c : Char) (hquote : c ≠ '"') (hslash : c ≠ '\\')
      (h : Writes text cs) : Writes (String.utf8EncodeChar c ++ text) (c :: cs)
  | short {text : List UInt8} {cs : List Char} {e : UInt8 × Char} (he : e ∈ shortEscapes)
      (h : Writes text cs) : Writes (['\\'.toUInt8, e.1] ++ text) (e.2 :: cs)
  | unit {text : List UInt8} {cs : List Char} (c : Char) {digits : List UInt8}
      (hdigits : Spells digits c.toNat) (h : Writes text cs) :
      Writes (bytes "\\u" ++ (digits ++ text)) (c :: cs)
  | pair {text : List UInt8} {cs : List Char} (c : Char) {high low : List UInt8}
      (hc : 0x10000 ≤ c.toNat) (hhigh : Spells high (0xD800 + (c.toNat - 0x10000) / 0x400))
      (hlow : Spells low (0xDC00 + (c.toNat - 0x10000) % 0x400)) (h : Writes text cs) :
      Writes (bytes "\\u" ++ (high ++ (bytes "\\u" ++ (low ++ text)))) (c :: cs)

namespace Spells

variable {digits : List UInt8} {n : Nat}

/-- What follows four digits does not matter for them. -/
theorem parseHex4_append (h : Spells digits n) (rest : List UInt8) :
    parseHex4 (digits ++ rest) = n := by
  obtain ⟨hlen, -, rfl⟩ := h
  match digits, hlen with
  | [_, _, _, _], _ => rfl

theorem drop_append (h : Spells digits n) (rest : List UInt8) :
    (digits ++ rest).drop 4 = rest := by
  rw [← h.length_eq, List.drop_left]

/-- A hexadecimal digit is neither a quote nor a backslash. -/
theorem ne_quote (h : Spells digits n) :
    ∀ d ∈ digits, d ≠ '"'.toUInt8 ∧ d ≠ '\\'.toUInt8 := by
  intro d hd
  have hsome := h.digits_hex d hd
  constructor
  · rintro rfl
    exact absurd hsome (by decide)
  · rintro rfl
    exact absurd hsome (by decide)

end Spells

/-- The code unit of a character is read. -/
theorem parseUnicode_unit {c : Char} {digits : List UInt8} (hzero : c.toNat ≠ 0)
    (h : Spells digits c.toNat) (rest : List UInt8) :
    parseUnicode (digits ++ rest) = some (String.utf8EncodeChar c, rest) := by
  have hlen : ¬ (digits ++ rest).length < 4 := by
    rw [List.length_append, h.length_eq]
    omega
  have hvalid : c.toNat < 0xD800 ∨ 0xDFFF < c.toNat := by
    rcases c.valid with hv | hv
    · exact .inl hv
    · exact .inr hv.1
  simp only [parseUnicode, if_neg hlen, h.parseHex4_append, h.drop_append]
  rw [if_neg (by omega), if_neg (by omega), utf8Bytes_toNat]

/-- The surrogates of a character are read. -/
theorem parseUnicode_pair {c : Char} {high low : List UInt8} (hc : 0x10000 ≤ c.toNat)
    (hhigh : Spells high (0xD800 + (c.toNat - 0x10000) / 0x400))
    (hlow : Spells low (0xDC00 + (c.toNat - 0x10000) % 0x400)) (rest : List UInt8) :
    parseUnicode (high ++ (bytes "\\u" ++ (low ++ rest))) =
      some (String.utf8EncodeChar c, rest) := by
  have hmax : c.toNat < 0x110000 := by
    rcases c.valid with h | h
    · exact Nat.lt_trans h (by decide)
    · exact h.2
  have hescape : bytes "\\u" = ['\\'.toUInt8, 'u'.toUInt8] := by decide
  have hmask : ∀ u : Nat, u &&& 0x3FF = u % 0x400 := fun u => Nat.and_two_pow_sub_one_eq_mod u 10
  generalize hq : (c.toNat - 0x10000) / 0x400 = q at hhigh
  generalize hr : (c.toNat - 0x10000) % 0x400 = r at hlow
  have hlen : ¬ (high ++ (bytes "\\u" ++ (low ++ rest))).length < 4 := by
    rw [List.length_append, hhigh.length_eq]
    omega
  have hlen' : ¬ (bytes "\\u" ++ (low ++ rest)).length < 6 := by
    rw [hescape, List.length_append, List.length_append, hlow.length_eq]
    simp only [List.length_cons, List.length_nil]
    omega
  have hunits : 0x10000 + (((0xD800 + q &&& 0x3FF) <<< 10) ||| (0xDC00 + r &&& 0x3FF)) =
      c.toNat := by
    rw [hmask, hmask, ← Nat.shiftLeft_add_eq_or_of_lt (by omega), Nat.shiftLeft_eq]
    omega
  have hdrop : (bytes "\\u" ++ (low ++ rest)).drop 2 = low ++ rest := rfl
  have hdrop' : (bytes "\\u" ++ (low ++ rest)).drop 6 = rest := hlow.drop_append rest
  have hhead : (bytes "\\u" ++ (low ++ rest)).head? = some '\\'.toUInt8 := rfl
  have hnext : (bytes "\\u" ++ (low ++ rest))[1]? = some 'u'.toUInt8 := rfl
  simp only [parseUnicode, if_neg hlen, hhigh.parseHex4_append, hhigh.drop_append, hhead, hnext,
    hdrop, hdrop', hlow.parseHex4_append, if_neg hlen', hunits, utf8Bytes_toNat]
  rw [if_neg (by omega), if_pos (by omega), if_neg (by simp), if_neg (by omega)]

/-! ## Strings -/

/-- A beginning of a string that stands for `out`: the first loop counts at least as much for it,
and the second one writes `out` in no more passes than the beginning is long. -/
structure StandsFor (text out : List UInt8) : Prop where
  counts : ∀ {rest k}, stringLength rest = some k →
    ∃ k', stringLength (text ++ rest) = some k' ∧ k + out.length ≤ k'
  writes : ∃ passes ≤ text.length, ∀ n rest,
    unescape (n + passes) (text ++ rest) = (unescape n rest).map fun p => (out ++ p.1, p.2)

namespace StandsFor

variable {text text' out out' : List UInt8}

theorem nil : StandsFor [] [] where
  counts h := ⟨_, h, Nat.le_refl _⟩
  writes := by
    refine ⟨0, Nat.le_refl 0, fun n rest => ?_⟩
    simp only [List.nil_append, Nat.add_zero, Prod.mk.eta]
    cases unescape n rest <;> rfl

theorem append (h : StandsFor text out) (h' : StandsFor text' out') :
    StandsFor (text ++ text') (out ++ out') where
  counts hk := by
    obtain ⟨k', hk', hle'⟩ := h'.counts hk
    obtain ⟨k, hk, hle⟩ := h.counts hk'
    refine ⟨k, by rwa [List.append_assoc], ?_⟩
    rw [List.length_append]
    omega
  writes := by
    obtain ⟨passes, hle, hwrites⟩ := h.writes
    obtain ⟨passes', hle', hwrites'⟩ := h'.writes
    refine ⟨passes' + passes, by rw [List.length_append]; omega, fun n rest => ?_⟩
    rw [List.append_assoc, ← Nat.add_assoc, hwrites, hwrites']
    cases unescape n rest with
    | error e => rfl
    | ok p => simp only [Except.map, List.append_assoc]

/-- A byte that stands for itself. -/
theorem byte {c : UInt8} (hquote : c ≠ '"'.toUInt8) (hslash : c ≠ '\\'.toUInt8) :
    StandsFor [c] [c] where
  counts {rest k} hk := by
    refine ⟨k + 1, ?_, Nat.le_refl _⟩
    rw [List.singleton_append, stringLength_cons hquote hslash, hk, Option.map_some]
  writes := by
    refine ⟨1, Nat.le_refl 1, fun n rest => ?_⟩
    rw [List.singleton_append, unescape, if_neg hquote, if_pos hslash]
    rfl

/-- Bytes that stand for themselves. -/
theorem plain {text : List UInt8} (h : ∀ c ∈ text, c ≠ '"'.toUInt8 ∧ c ≠ '\\'.toUInt8) :
    StandsFor text text := by
  induction text with
  | nil => exact nil
  | cons c text ih =>
      rw [List.forall_mem_cons] at h
      exact (byte h.1.1 h.1.2).append (ih h.2)

/-- A backslash with a letter behind it stands for one character. -/
theorem short {e : UInt8 × Char} (he : e ∈ shortEscapes) :
    StandsFor ['\\'.toUInt8, e.1] (String.utf8EncodeChar e.2) := by
  have hletter : ∀ e ∈ shortEscapes, e.1 ≠ 'u'.toUInt8 ∧
      String.utf8EncodeChar e.2 = [(escaped.lookup e.1).getD e.1] := by decide +kernel
  obtain ⟨hunit, hback⟩ := hletter e he
  refine ⟨fun {rest k} hk => ⟨k + 1, ?_, ?_⟩, 1, Nat.le_succ 1, fun n rest => ?_⟩
  · rw [List.cons_append, List.singleton_append, stringLength, if_neg (by decide), if_pos rfl, hk,
      Option.map_some]
  · rw [hback, List.length_singleton]
  · have hcase : parseEscape (e.1 :: rest) = some (String.utf8EncodeChar e.2, rest) := by
      rw [parseEscape, if_neg hunit, hback]
    rw [List.cons_append, List.singleton_append, unescape, if_neg (by decide),
      if_neg (fun h => h rfl), hcase]

/-- An escape of code units. -/
theorem unicode {units : List UInt8} (hcount : ∀ {rest k}, stringLength rest = some k →
      ∃ k', stringLength (bytes "\\u" ++ units ++ rest) = some k' ∧ k + out.length ≤ k')
    (hread : ∀ rest, parseUnicode (units ++ rest) = some (out, rest)) :
    StandsFor (bytes "\\u" ++ units) out where
  counts := hcount
  writes := by
    refine ⟨1, ?_, fun n rest => ?_⟩
    · rw [List.length_append]
      exact Nat.le_add_right_of_le (by decide)
    · have hescape : bytes "\\u" = ['\\'.toUInt8, 'u'.toUInt8] := by decide
      have hcase : parseEscape ('u'.toUInt8 :: (units ++ rest)) = some (out, rest) := by
        rw [parseEscape, if_pos rfl, hread]
      rw [hescape, List.append_assoc, List.cons_append, List.cons_append, List.nil_append,
        unescape, if_neg (by decide), if_neg (fun h => h rfl), hcase]

end StandsFor

/-- The escape and its digits count five. -/
theorem stringLength_unit {digits rest : List UInt8} {n k : Nat} (h : Spells digits n)
    (hrest : stringLength rest = some k) :
    stringLength (bytes "\\u" ++ (digits ++ rest)) = some (k + 5) := by
  have hescape : bytes "\\u" = ['\\'.toUInt8, 'u'.toUInt8] := by decide
  rw [hescape, List.cons_append, List.cons_append, List.nil_append, stringLength,
    if_neg (by decide), if_pos rfl, stringLength_append h.ne_quote hrest, h.length_eq]
  rfl

/-- However the characters are written, the string stands for their encoding. -/
theorem Writes.standsFor {text : List UInt8} {cs : List Char} (h : Writes text cs)
    (hzero : ∀ c ∈ cs, c.toNat ≠ 0) :
    StandsFor text (cs.flatMap String.utf8EncodeChar) := by
  have hsize : ∀ c : Char, (String.utf8EncodeChar c).length ≤ 4 := by
    intro c
    rw [String.length_utf8EncodeChar]
    exact c.utf8Size_le_four
  induction h with
  | nil => exact .nil
  | @raw text cs c hquote hslash _ ih =>
      rw [List.forall_mem_cons] at hzero
      rw [List.flatMap_cons]
      exact .append (.plain fun d hd => ne_of_mem_utf8EncodeChar hquote hslash hd) (ih hzero.2)
  | @short text cs e he _ ih =>
      rw [List.forall_mem_cons] at hzero
      rw [List.flatMap_cons]
      exact .append (.short he) (ih hzero.2)
  | @unit text cs c digits hdigits _ ih =>
      rw [List.forall_mem_cons] at hzero
      rw [List.flatMap_cons, ← List.append_assoc]
      refine .append (.unicode (fun {rest k} hk => ?_) (parseUnicode_unit hzero.1 hdigits))
        (ih hzero.2)
      refine ⟨k + 5, by rw [List.append_assoc, stringLength_unit hdigits hk], ?_⟩
      have hle := hsize c
      omega
  | @pair text cs c high low hc hhigh hlow _ ih =>
      rw [List.forall_mem_cons] at hzero
      have htext : bytes "\\u" ++ (high ++ (bytes "\\u" ++ (low ++ text))) =
          bytes "\\u" ++ (high ++ (bytes "\\u" ++ low)) ++ text := by
        simp only [List.append_assoc]
      rw [List.flatMap_cons, htext]
      refine .append (.unicode (fun {rest k} hk => ?_) fun rest => ?_) (ih hzero.2)
      · refine ⟨k + 5 + 5, ?_, ?_⟩
        · simp only [List.append_assoc]
          rw [stringLength_unit hhigh (stringLength_unit hlow hk)]
        · have hle := hsize c
          omega
      · simp only [List.append_assoc]
        exact parseUnicode_pair hc hhigh hlow rest

/-- However the characters of a string are written, `parse_string` gives their encoding and stays
within its blocks. -/
theorem parseString_writes {text : List UInt8} {cs : List Char} (h : Writes text cs)
    (hzero : ∀ c ∈ cs, c.toNat ≠ 0) (rest : List UInt8) :
    parseString (bytes "\"" ++ (text ++ (bytes "\"" ++ rest))) =
      .ok (CText.of (cs.flatMap String.utf8EncodeChar), rest) := by
  have hquote : bytes "\"" = ['"'.toUInt8] := by decide
  have hstands := h.standsFor hzero
  have hend : stringLength ('"'.toUInt8 :: rest) = some 0 := by cases rest <;> rfl
  obtain ⟨k, hk, hle⟩ := hstands.counts hend
  obtain ⟨passes, hpasses, hwrites⟩ := hstands.writes
  obtain ⟨n, hn⟩ : ∃ n, (text ++ '"'.toUInt8 :: rest).length + 1 = (n + 1) + passes := by
    refine ⟨(text ++ '"'.toUInt8 :: rest).length - passes, ?_⟩
    rw [List.length_append]
    omega
  have hback : unescape (n + 1) ('"'.toUInt8 :: rest) = .ok ([], '"'.toUInt8 :: rest) := if_pos rfl
  have hread := hwrites (n + 1) ('"'.toUInt8 :: rest)
  rw [hback, ← hn] at hread
  rw [hquote, List.cons_append, List.nil_append, List.cons_append, List.nil_append, parseString,
    if_neg (fun h => h rfl), hk, hread]
  simp only [Except.map, List.append_nil]
  rw [if_neg (by omega)]
  rfl

/-- A letter that is written as itself, a slash behind a backslash, a letter by its number and a
character by its surrogates. -/
theorem parseString_smile :
    parseString
        (bytes "\"" ++ (bytes "\u00f6\\/\\u00F6\\ud83d\\uDE00" ++ (bytes "\"" ++ bytes ","))) =
      .ok (CText.of (['\u00f6', '/', '\u00f6', '😀'].flatMap String.utf8EncodeChar),
        bytes ",") := by
  have hzero : ∀ c ∈ ['\u00f6', '/', '\u00f6', '😀'], c.toNat ≠ 0 := by
    simp only [List.forall_mem_cons, List.not_mem_nil, false_imp_iff, implies_true, and_true]
    decide
  refine parseString_writes ?_ hzero (bytes ",")
  have hpair : Writes (bytes "\\ud83d\\uDE00") ['😀'] :=
    @Writes.pair [] [] '😀' (bytes "d83d") (bytes "DE00") (by decide)
      ⟨by decide, by decide +kernel, by decide +kernel⟩
      ⟨by decide, by decide +kernel, by decide +kernel⟩ .nil
  have hunit : Writes (bytes "\\u00F6\\ud83d\\uDE00") ['\u00f6', '😀'] :=
    @Writes.unit _ _ '\u00f6' (bytes "00F6") ⟨by decide, by decide +kernel, by decide +kernel⟩ hpair
  have hshort : Writes (bytes "\\/\\u00F6\\ud83d\\uDE00") ['/', '\u00f6', '😀'] :=
    @Writes.short _ _ ('/'.toUInt8, '/') (by decide) hunit
  exact Writes.raw '\u00f6' (by decide) (by decide) hshort

end CiteParser.CJson
