import CiteParser.Json.Minify
import CiteParser.Json.Parse
import Mathlib.Data.List.DropRight

/-!
# Printing and parsing

`cJSON_Parse` reads back every item that `cJSON_Print` or `cJSON_PrintUnformatted` has printed,
also after `cJSON_Minify`.
-/

namespace CiteParser.CJson

/-! ## Strings -/

/-- A hexadecimal digit is read back. -/
theorem hexValue_hexDigit : ∀ d < 16, hexValue (hexDigit d) = some d := by decide +kernel

/-- Four digits are read back. -/
theorem parseHex4_hex4 {n : Nat} (h : n < 65536) (rest : List UInt8) :
    parseHex4 (hex4 n ++ rest) = n := by
  simp only [hex4, List.map_cons, List.map_nil, List.cons_append, List.nil_append, parseHex4,
    hexValue_hexDigit _ (Nat.mod_lt _ (show 0 < 16 by decide))]
  omega

/-- A character below 128 is its own encoding. -/
theorem utf8Bytes_ascii {c : UInt8} (h : c < 128) : utf8Bytes c.toNat = [c] := by
  have hlt : c.toNat < 128 := UInt8.lt_iff_toNat_lt.mp h
  have hlen : utf8Length c.toNat = 1 := if_pos hlt
  rw [utf8Bytes, hlen]
  simp [utf8From, firstByteMark]

/-- The escape of a control character is read back. -/
theorem parseUnicode_hex4 {c : UInt8} (hzero : c ≠ 0) (h : c < 128) (rest : List UInt8) :
    parseUnicode (hex4 c.toNat ++ rest) = some ([c], rest) := by
  have hlt : c.toNat < 128 := UInt8.lt_iff_toNat_lt.mp h
  have hne : c.toNat ≠ 0 := fun heq => hzero (UInt8.toNat_inj.mp heq)
  have hlen : ¬ (hex4 c.toNat ++ rest).length < 4 := by simp [hex4]
  have hdrop : (hex4 c.toNat ++ rest).drop 4 = rest := rfl
  simp only [parseUnicode, if_neg hlen, hdrop, parseHex4_hex4 (by omega : c.toNat < 65536),
    utf8Bytes_ascii h]
  rw [if_neg (by omega), if_neg (by omega)]

/-- How a character other than zero is printed: as itself, by a short escape or by its number. -/
theorem printChar_shape : ∀ c : UInt8, c ≠ 0 →
    printChar c = [c] ∧ c ≠ '"'.toUInt8 ∧ c ≠ '\\'.toUInt8 ∨
      (∃ letter, printChar c = ['\\'.toUInt8, letter] ∧ letter ≠ 'u'.toUInt8 ∧
        (escaped.lookup letter).getD letter = c) ∨
      printChar c = '\\'.toUInt8 :: 'u'.toUInt8 :: hex4 c.toNat ∧ c < 128 := by
  intro c hc
  have htable : ∀ c : UInt8, c = 0 ∨
      printChar c = [c] ∧ c ≠ '"'.toUInt8 ∧ c ≠ '\\'.toUInt8 ∨
      (printChar c = ['\\'.toUInt8, (printChar c).getD 1 0] ∧
        (printChar c).getD 1 0 ≠ 'u'.toUInt8 ∧
        (escaped.lookup ((printChar c).getD 1 0)).getD ((printChar c).getD 1 0) = c) ∨
      printChar c = '\\'.toUInt8 :: 'u'.toUInt8 :: hex4 c.toNat ∧ c < 128 := by
    decide +kernel
  rcases htable c with h | h | h | h
  · contradiction
  · exact .inl h
  · exact .inr (.inl ⟨_, h⟩)
  · exact .inr (.inr h)

/-- The second loop of `parse_string` reads a printed character back. -/
theorem unescape_printChar {c : UInt8} (hc : c ≠ 0) (n : Nat) (rest : List UInt8) :
    unescape (n + 1) (printChar c ++ rest) = (unescape n rest).map fun p => (c :: p.1, p.2) := by
  rcases printChar_shape c hc with ⟨heq, hquote, hslash⟩ | ⟨letter, heq, hletter, hback⟩ |
    ⟨heq, hlt⟩
  · rw [heq, List.singleton_append, unescape, if_neg hquote, if_pos hslash]
  · have hescape : parseEscape (letter :: rest) = some ([c], rest) := by
      rw [parseEscape, if_neg hletter, hback]
    rw [heq, List.cons_append, List.singleton_append, unescape, if_neg (by decide),
      if_neg (fun h => h rfl), hescape]
    rfl
  · have hescape : parseEscape ('u'.toUInt8 :: (hex4 c.toNat ++ rest)) = some ([c], rest) := by
      rw [parseEscape, if_pos rfl, parseUnicode_hex4 hc hlt]
    rw [heq, List.cons_append, List.cons_append, unescape, if_neg (by decide),
      if_neg (fun h => h rfl), hescape]
    rfl

/-- A character like any other counts one. -/
theorem stringLength_cons {c : UInt8} (hquote : c ≠ '"'.toUInt8) (hslash : c ≠ '\\'.toUInt8)
    (rest : List UInt8) : stringLength (c :: rest) = (stringLength rest).map (· + 1) := by
  cases rest with
  | nil => simp only [stringLength, if_neg hquote, if_neg hslash, Option.map_some]
  | cons d rest => rw [stringLength, if_neg hquote, if_neg hslash]

/-- Characters like any other count one each. -/
theorem stringLength_append {text rest : List UInt8} {k : Nat}
    (h : ∀ c ∈ text, c ≠ '"'.toUInt8 ∧ c ≠ '\\'.toUInt8) (hrest : stringLength rest = some k) :
    stringLength (text ++ rest) = some (k + text.length) := by
  induction text with
  | nil => exact hrest
  | cons c text ih =>
      rw [List.forall_mem_cons] at h
      rw [List.cons_append, stringLength_cons h.1.1 h.1.2, ih h.2]
      rfl

/-- The first loop counts at least one for a printed character. -/
theorem stringLength_printChar (c : UInt8) {rest : List UInt8} {k : Nat}
    (h : stringLength rest = some k) :
    ∃ k', stringLength (printChar c ++ rest) = some k' ∧ k + 1 ≤ k' := by
  rcases printChar_cases c with ⟨heq, -, hquote, hslash⟩ | ⟨-, letter, tail, heq, -, htail⟩
  · exact ⟨k + 1, by rw [heq, List.singleton_append, stringLength_cons hquote hslash, h]; rfl,
      Nat.le_refl _⟩
  · refine ⟨k + tail.length + 1, ?_, by omega⟩
    rw [heq, List.cons_append, List.cons_append, stringLength, if_neg (by decide), if_pos rfl,
      stringLength_append (fun d hd => (htail d hd).2.2) h]
    rfl

/-- No character is printed with nothing. -/
theorem length_le_flatMap_printChar (text : List UInt8) :
    text.length ≤ (text.flatMap printChar).length := by
  induction text with
  | nil => exact Nat.le_refl 0
  | cons c text ih =>
      rw [List.flatMap_cons, List.length_append, length_printChar, List.length_cons]
      omega

/-- A printed string is read back. -/
theorem parseString_printString (str : CText) (rest : List UInt8) :
    parseString (printString str ++ rest) = .ok (str, rest) := by
  obtain ⟨text, hnonzero⟩ := str
  have hquote : bytes "\"" = ['"'.toUInt8] := by decide
  have hcount : ∃ k, stringLength (text.flatMap printChar ++ '"'.toUInt8 :: rest) = some k ∧
      text.length ≤ k := by
    clear hnonzero
    induction text with
    | nil => exact ⟨0, by cases rest <;> rfl, Nat.le_refl 0⟩
    | cons c text ih =>
        obtain ⟨k, hk, hle⟩ := ih
        obtain ⟨k', hk', hle'⟩ := stringLength_printChar c hk
        refine ⟨k', ?_, by rw [List.length_cons]; omega⟩
        rwa [List.flatMap_cons, List.append_assoc]
  have hback : ∀ n, text.length < n →
      unescape n (text.flatMap printChar ++ '"'.toUInt8 :: rest) =
        .ok (text, '"'.toUInt8 :: rest) := by
    clear hcount
    induction text with
    | nil =>
        intro n hn
        obtain ⟨n, rfl⟩ := Nat.exists_eq_succ_of_ne_zero (Nat.ne_of_gt hn)
        exact if_pos rfl
    | cons c text ih =>
        intro n hn
        rw [List.forall_mem_cons] at hnonzero
        obtain ⟨n, rfl⟩ := Nat.exists_eq_succ_of_ne_zero (Nat.ne_of_gt (Nat.zero_lt_of_lt hn))
        rw [List.flatMap_cons, List.append_assoc, unescape_printChar hnonzero.1,
          ih hnonzero.2 n (Nat.lt_of_succ_lt_succ hn)]
        rfl
  obtain ⟨k, hk, hle⟩ := hcount
  have hlen : text.length < (text.flatMap printChar ++ '"'.toUInt8 :: rest).length + 1 := by
    have hprinted := length_le_flatMap_printChar text
    rw [List.length_append]
    omega
  have hbody : printString ⟨text, hnonzero⟩ ++ rest =
      '"'.toUInt8 :: (text.flatMap printChar ++ '"'.toUInt8 :: rest) := by
    simp only [printString, hquote, List.append_assoc, List.cons_append, List.nil_append]
  rw [hbody, parseString, if_neg (fun h => h rfl), hk, hback _ hlen]
  dsimp only
  rw [if_neg (Nat.not_lt.mpr hle)]
  exact congrArg (fun s => Except.ok (s, rest)) (CText.of_bytes ⟨text, hnonzero⟩)

/-! ## Blanks -/

/-- Characters that `skip` passes over. -/
def Blanks (text : List UInt8) : Prop := ∀ c ∈ text, c ≤ 32

instance (text : List UInt8) : Decidable (Blanks text) :=
  inferInstanceAs (Decidable (∀ c ∈ text, _))

theorem Blanks.nil : Blanks [] := fun _ hc => absurd hc List.not_mem_nil

theorem Blanks.append {text text' : List UInt8} (h : Blanks text) (h' : Blanks text') :
    Blanks (text ++ text') :=
  List.forall_mem_append.mpr ⟨h, h'⟩

theorem Blanks.formatted {text : List UInt8} (h : Blanks text) (fmt : Bool) :
    Blanks (formatted fmt text) := by
  cases fmt
  · exact .nil
  · exact h

theorem blanks_tabs (depth : Nat) : Blanks (tabs depth) := by
  intro c hc
  rw [(List.mem_replicate.mp hc).2]
  decide +kernel

/-- `skip` stops at a character above 32. -/
theorem skip_blanks {pre : List UInt8} (h : Blanks pre) {c : UInt8} (hc : ¬ c ≤ 32)
    (rest : List UInt8) : skip (pre ++ c :: rest) = c :: rest := by
  rw [skip, List.dropWhile_append_of_pos, List.dropWhile_cons_of_neg]
  · simpa only [decide_eq_true_eq] using hc
  · intro d hd
    simpa only [decide_eq_true_eq] using h d hd

/-- A second `skip` does nothing. -/
theorem skip_skip (text : List UInt8) : skip (skip text) = skip text :=
  List.dropWhile_idempotent _ _

theorem parseArray_skip (n : Nat) (value : List UInt8) :
    parseArray n (skip value) = parseArray n value := by
  cases n with
  | zero => rfl
  | succ n => rw [parseArray, parseArray, skip_skip]

theorem parseObject_skip (n : Nat) (value : List UInt8) :
    parseObject n (skip value) = parseObject n value := by
  cases n with
  | zero => rfl
  | succ n => rw [parseObject, parseObject, skip_skip]

/-! ## Values -/

/-- The first character of a printed string. -/
theorem printString_eq_cons (str : CText) : ∃ text, printString str = '"'.toUInt8 :: text := by
  have hquote : bytes "\"" = ['"'.toUInt8] := by decide
  refine ⟨str.bytes.flatMap printChar ++ bytes "\"", ?_⟩
  rw [printString, List.append_assoc, hquote]
  rfl

/-- A printed item begins with a character that is no blank and closes nothing. -/
theorem printValue_eq_cons (fmt : Bool) (depth : Nat) (v : CJson) :
    ∃ c text, printValue fmt depth v = c :: text ∧ ¬ c ≤ 32 ∧ c ≠ ']'.toUInt8 := by
  cases v with
  | nullItem => exact ⟨_, _, by rw [printValue]; rfl, by decide +kernel⟩
  | falseItem => exact ⟨_, _, by rw [printValue]; rfl, by decide +kernel⟩
  | trueItem => exact ⟨_, _, by rw [printValue]; rfl, by decide +kernel⟩
  | string s =>
      obtain ⟨text, htext⟩ := printString_eq_cons s
      exact ⟨_, text, by rw [printValue, htext], by decide +kernel⟩
  | array child =>
      cases child with
      | nil => exact ⟨_, _, by rw [printValue]; rfl, by decide +kernel⟩
      | cons v rest => exact ⟨'['.toUInt8, _, by simp only [printValue]; rfl, by decide +kernel⟩
  | object child =>
      cases child with
      | nil => exact ⟨'\x7b'.toUInt8, _, by simp only [printValue]; rfl, by decide +kernel⟩
      | cons v rest => exact ⟨'\x7b'.toUInt8, _, by simp only [printValue]; rfl, by decide +kernel⟩

section Items

variable {n : Nat} {value rest more end_ : List UInt8} {v : CJson} {vs : List CJson}
  {name : CText} {ms : List (CText × CJson)}

/-- The last item of an array. -/
theorem parseArray_close (hv : parseValue n (skip value) = .ok (v, rest))
    (hclose : skip rest = ']'.toUInt8 :: more) :
    parseArray (n + 1) value = .ok ([v], more) := by
  rw [parseArray, hv]
  simp only [bind, Except.bind, hclose]
  rfl

/-- An item of an array with others behind it. -/
theorem parseArray_next (hv : parseValue n (skip value) = .ok (v, rest))
    (hcomma : skip rest = ','.toUInt8 :: more) (hvs : parseArray n more = .ok (vs, end_)) :
    parseArray (n + 1) value = .ok (v :: vs, end_) := by
  rw [parseArray, hv]
  simp only [bind, Except.bind, hcomma, hvs]
  rfl

/-- The last item of an object. -/
theorem parseObject_close {behind text : List UInt8}
    (hname : parseString (skip value) = .ok (name, behind))
    (hcolon : skip behind = ':'.toUInt8 :: text) (hv : parseValue n (skip text) = .ok (v, rest))
    (hclose : skip rest = '\x7d'.toUInt8 :: more) :
    parseObject (n + 1) value = .ok ([(name, v)], more) := by
  rw [parseObject, hname]
  simp only [bind, Except.bind, hcolon, hv, hclose]
  rfl

/-- An item of an object with others behind it. -/
theorem parseObject_next {behind text : List UInt8}
    (hname : parseString (skip value) = .ok (name, behind))
    (hcolon : skip behind = ':'.toUInt8 :: text) (hv : parseValue n (skip text) = .ok (v, rest))
    (hcomma : skip rest = ','.toUInt8 :: more) (hms : parseObject n more = .ok (ms, end_)) :
    parseObject (n + 1) value = .ok ((name, v) :: ms, end_) := by
  rw [parseObject, hname]
  simp only [bind, Except.bind, hcolon, hv, hcomma, hms]
  rfl

end Items

/-- The text is read as the item, whatever follows it. -/
def Reads (text : List UInt8) (v : CJson) : Prop :=
  ∀ rest, ∃ n, parseValue n (text ++ rest) = .ok (v, rest)

/-- `skip` stops at a printed item. -/
theorem skip_printValue (fmt : Bool) (depth : Nat) (v : CJson) {pre : List UInt8}
    (hpre : Blanks pre) (rest : List UInt8) :
    skip (pre ++ (printValue fmt depth v ++ rest)) = printValue fmt depth v ++ rest := by
  obtain ⟨c, text, hcons, hblank, -⟩ := printValue_eq_cons fmt depth v
  rw [hcons]
  exact skip_blanks hpre hblank _

/-- `skip` stops at a printed name. -/
theorem skip_printString (str : CText) {pre : List UInt8} (hpre : Blanks pre)
    (rest : List UInt8) :
    skip (pre ++ (printString str ++ rest)) = printString str ++ rest := by
  obtain ⟨text, hcons⟩ := printString_eq_cons str
  rw [hcons]
  exact skip_blanks hpre (by decide +kernel) _

/-- `skip` stays at a character above 32. -/
theorem skip_cons {c : UInt8} (hc : ¬ c ≤ 32) (rest : List UInt8) : skip (c :: rest) = c :: rest :=
  skip_blanks .nil hc rest

/-- An array is read item by item. -/
theorem reads_array {fmt : Bool} {depth : Nat} {child : List CJson} (hne : child ≠ [])
    (h : ∀ v ∈ child, Reads (printValue fmt depth v) v) {pre : List UInt8} (hpre : Blanks pre)
    (rest : List UInt8) :
    ∃ n, parseArray n (pre ++ (composeArray fmt (child.map (printValue fmt depth)) ++
      ']'.toUInt8 :: rest)) = .ok (child, rest) := by
  induction child generalizing pre with
  | nil => contradiction
  | cons v vs ih =>
      rw [List.forall_mem_cons] at h
      cases vs with
      | nil =>
          obtain ⟨n, hn⟩ := h.1 (']'.toUInt8 :: rest)
          refine ⟨n + 1, parseArray_close ?_ (skip_cons (by decide +kernel) rest)⟩
          exact (congrArg (parseValue n) (skip_printValue fmt depth v hpre _)).trans hn
      | cons w ws =>
          have hblank : Blanks (formatted fmt (bytes " ")) := .formatted (by decide +kernel) fmt
          obtain ⟨m, hm⟩ := ih (List.cons_ne_nil w ws) h.2 hblank
          obtain ⟨n, hn⟩ := h.1 (','.toUInt8 :: (formatted fmt (bytes " ") ++
            (composeArray fmt ((w :: ws).map (printValue fmt depth)) ++ ']'.toUInt8 :: rest)))
          have hle := ((parse_agrees_of_le (Nat.le_max_left n m)).1 _).ok hn
          have hle' := ((parse_agrees_of_le (Nat.le_max_right n m)).2.1 _).ok hm
          refine ⟨max n m + 1, parseArray_next ?_ (skip_cons (by decide +kernel) _) hle'⟩
          have hcomma : bytes "," = [','.toUInt8] := by decide
          have htext : composeArray fmt ((v :: w :: ws).map (printValue fmt depth)) ++
              ']'.toUInt8 :: rest = printValue fmt depth v ++ ','.toUInt8 ::
                (formatted fmt (bytes " ") ++
                  (composeArray fmt ((w :: ws).map (printValue fmt depth)) ++
                    ']'.toUInt8 :: rest)) := by
            simp only [List.map_cons, composeArray_cons_cons, hcomma, List.append_assoc,
              List.cons_append, List.nil_append]
          rw [htext, skip_printValue fmt depth v hpre]
          exact hle

/-- The entry of an object. -/
def entryOf (fmt : Bool) (depth : Nat) (m : CText × CJson) : List UInt8 × List UInt8 :=
  (printString m.1, printValue fmt depth m.2)

/-- The name of an entry and what stands in front of its item are read. -/
theorem reads_composeMember (fmt : Bool) (depth : Nat) (m : CText × CJson) {pre : List UInt8}
    (hpre : Blanks pre) (rest : List UInt8) :
    ∃ behind text,
      parseString (skip (pre ++ (composeMember fmt depth (entryOf fmt depth m) ++ rest))) =
        .ok (m.1, behind) ∧
      skip behind = ':'.toUInt8 :: text ∧ skip text = printValue fmt depth m.2 ++ rest := by
  have hcolon : bytes ":" = [':'.toUInt8] := by decide
  have htab : Blanks (formatted fmt (bytes "\t")) := .formatted (by decide +kernel) fmt
  have hpre' := hpre.append ((blanks_tabs depth).formatted fmt)
  refine ⟨_, _, ?_, skip_cons (by decide +kernel) _, skip_printValue fmt depth m.2 htab rest⟩
  rw [← parseString_printString, ← skip_printString m.1 hpre']
  simp only [composeMember, entryOf, hcolon, List.append_assoc, List.cons_append, List.nil_append]

/-- An object is read entry by entry. -/
theorem reads_object {fmt : Bool} {depth : Nat} {child : List (CText × CJson)} (hne : child ≠ [])
    (h : ∀ m ∈ child, Reads (printValue fmt depth m.2) m.2) {pre post : List UInt8}
    (hpre : Blanks pre) (hpost : Blanks post) (rest : List UInt8) :
    ∃ n, parseObject n (pre ++ (composeObject fmt depth (child.map (entryOf fmt depth)) ++
      (post ++ '\x7d'.toUInt8 :: rest))) = .ok (child, rest) := by
  have hline : Blanks (formatted fmt (bytes "\n")) := .formatted (by decide +kernel) fmt
  induction child generalizing pre with
  | nil => contradiction
  | cons m ms ih =>
      rw [List.forall_mem_cons] at h
      cases ms with
      | nil =>
          obtain ⟨n, hn⟩ := h.1 (formatted fmt (bytes "\n") ++ (post ++ '\x7d'.toUInt8 :: rest))
          obtain ⟨behind, text, hname, hcolon, hitem⟩ := reads_composeMember fmt depth m hpre
            (formatted fmt (bytes "\n") ++ (post ++ '\x7d'.toUInt8 :: rest))
          have hclose : skip (formatted fmt (bytes "\n") ++ (post ++ '\x7d'.toUInt8 :: rest)) =
              '\x7d'.toUInt8 :: rest := by
            rw [← List.append_assoc]
            exact skip_blanks (hline.append hpost) (by decide +kernel) rest
          refine ⟨n + 1, parseObject_close ?_ hcolon (hitem ▸ hn) hclose⟩
          rw [← hname]
          simp only [List.map_cons, List.map_nil, composeObject, List.append_assoc]
      | cons m' ms =>
          obtain ⟨k, hk⟩ := ih (List.cons_ne_nil m' ms) h.2 hline
          have hcomma : bytes "," = [','.toUInt8] := by decide
          obtain ⟨n, hn⟩ := h.1 (','.toUInt8 :: (formatted fmt (bytes "\n") ++
            (composeObject fmt depth ((m' :: ms).map (entryOf fmt depth)) ++
              (post ++ '\x7d'.toUInt8 :: rest))))
          obtain ⟨behind, text, hname, hcolon, hitem⟩ := reads_composeMember fmt depth m hpre
            (','.toUInt8 :: (formatted fmt (bytes "\n") ++
              (composeObject fmt depth ((m' :: ms).map (entryOf fmt depth)) ++
                (post ++ '\x7d'.toUInt8 :: rest))))
          have hle := ((parse_agrees_of_le (Nat.le_max_left n k)).1 _).ok hn
          have hle' := ((parse_agrees_of_le (Nat.le_max_right n k)).2.2 _).ok hk
          refine ⟨max n k + 1, parseObject_next ?_ hcolon (hitem ▸ hle)
            (skip_cons (by decide +kernel) _) hle'⟩
          rw [← hname]
          simp only [List.map_cons, composeObject_cons_cons, hcomma, List.append_assoc,
            List.cons_append, List.nil_append]

/-- No literal begins with this character. -/
theorem parseValue_cons {n : Nat} {c : UInt8} {rest : List UInt8}
    (h : c ≠ 'n'.toUInt8 ∧ c ≠ 'f'.toUInt8 ∧ c ≠ 't'.toUInt8) :
    parseValue (n + 1) (c :: rest) =
      if c = '"'.toUInt8 then do
        let (valuestring, end_) ← parseString (c :: rest)
        return (.string valuestring, end_)
      else if startsNumber c then .error .number
      else if c = '['.toUInt8 then
        if (skip rest).head? = some ']'.toUInt8 then .ok (.array [], (skip rest).tail)
        else do
          let (child, end_) ← parseArray n (skip rest)
          return (.array child, end_)
      else if c = '\x7b'.toUInt8 then
        if (skip rest).head? = some '\x7d'.toUInt8 then .ok (.object [], (skip rest).tail)
        else do
          let (child, end_) ← parseObject n (skip rest)
          return (.object child, end_)
      else .error (.failure (c :: rest)) := by
  have hnull : strncmpEq 4 (c :: rest) (bytes "null") = false := by
    rw [show bytes "null" = 'n'.toUInt8 :: bytes "ull" by decide, strncmpEq,
      beq_eq_false_iff_ne.mpr h.1, Bool.false_and]
  have hfalse : strncmpEq 5 (c :: rest) (bytes "false") = false := by
    rw [show bytes "false" = 'f'.toUInt8 :: bytes "alse" by decide, strncmpEq,
      beq_eq_false_iff_ne.mpr h.2.1, Bool.false_and]
  have htrue : strncmpEq 4 (c :: rest) (bytes "true") = false := by
    rw [show bytes "true" = 't'.toUInt8 :: bytes "rue" by decide, strncmpEq,
      beq_eq_false_iff_ne.mpr h.2.2, Bool.false_and]
  rw [parseValue, hnull, hfalse, htrue]
  rfl

/-- An array begins with its first item. -/
theorem composeArray_eq_append (fmt : Bool) (entry : List UInt8) (entries : List (List UInt8)) :
    ∃ more, composeArray fmt (entry :: entries) = entry ++ more := by
  cases entries with
  | nil => exact ⟨[], (List.append_nil entry).symm⟩
  | cons next entries =>
      refine ⟨bytes "," ++ (formatted fmt (bytes " ") ++ composeArray fmt (next :: entries)), ?_⟩
      rw [composeArray_cons_cons, List.append_assoc, List.append_assoc]

/-- An object begins with its first name. -/
theorem composeObject_eq_append (fmt : Bool) (depth : Nat) (m : CText × CJson)
    (members : List (List UInt8 × List UInt8)) :
    ∃ more, composeObject fmt depth (entryOf fmt depth m :: members) =
      formatted fmt (tabs depth) ++ (printString m.1 ++ more) := by
  have hmember : ∃ more, composeMember fmt depth (entryOf fmt depth m) =
      formatted fmt (tabs depth) ++ (printString m.1 ++ more) := by
    refine ⟨bytes ":" ++ (formatted fmt (bytes "\t") ++ printValue fmt depth m.2), ?_⟩
    simp only [composeMember, entryOf, List.append_assoc]
  obtain ⟨more, hmore⟩ := hmember
  cases members with
  | nil => exact ⟨more ++ formatted fmt (bytes "\n"), by simp only [composeObject, hmore,
      List.append_assoc]⟩
  | cons next members =>
      refine ⟨more ++ (bytes "," ++ (formatted fmt (bytes "\n") ++
        composeObject fmt depth (next :: members))), ?_⟩
      simp only [composeObject_cons_cons, hmore, List.append_assoc]

/-- Every printed item is read back. -/
theorem reads_printValue (fmt : Bool) (depth : Nat) (v : CJson) :
    Reads (printValue fmt depth v) v := by
  have hline : Blanks (formatted fmt (bytes "\n")) := .formatted (by decide +kernel) fmt
  have hopen : bytes "[" = ['['.toUInt8] ∧ bytes "\x7b" = ['\x7b'.toUInt8] := by decide
  have hclose : bytes "]" = [']'.toUInt8] ∧ bytes "\x7d" = ['\x7d'.toUInt8] := by decide
  induction v using CJson.induct generalizing depth with
  | hnull => exact fun rest => ⟨1, by simp only [printValue]; rfl⟩
  | hfalse => exact fun rest => ⟨1, by simp only [printValue]; rfl⟩
  | htrue => exact fun rest => ⟨1, by simp only [printValue]; rfl⟩
  | hstring s =>
      intro rest
      obtain ⟨text, hcons⟩ := printString_eq_cons s
      refine ⟨1, ?_⟩
      have hback := parseString_printString s rest
      rw [hcons, List.cons_append] at hback
      simp only [printValue]
      rw [hcons, List.cons_append, parseValue_cons (by decide), if_pos rfl, hback]
      rfl
  | harray child ih =>
      intro rest
      cases child with
      | nil =>
          refine ⟨1, ?_⟩
          have htext : printValue fmt depth (.array []) ++ rest =
              '['.toUInt8 :: ']'.toUInt8 :: rest := by
            simp only [printValue]
            rfl
          rw [htext, parseValue_cons (by decide), skip_cons (by decide +kernel)]
          rfl
      | cons v vs =>
          obtain ⟨n, hn⟩ := @reads_array fmt (depth + 1) (v :: vs) (List.cons_ne_nil v vs)
            (fun w hw => ih w hw (depth + 1)) [] .nil rest
          have htext : printValue fmt depth (.array (v :: vs)) ++ rest =
              '['.toUInt8 :: (composeArray fmt ((v :: vs).map (printValue fmt (depth + 1))) ++
                ']'.toUInt8 :: rest) := by
            simp only [printValue, arrayEntries_eq, hopen.1, hclose.1, List.append_assoc,
              List.cons_append, List.nil_append]
          have hhead : (skip (composeArray fmt ((v :: vs).map (printValue fmt (depth + 1))) ++
              ']'.toUInt8 :: rest)).head? ≠ some ']'.toUInt8 := by
            obtain ⟨more, hmore⟩ := composeArray_eq_append fmt (printValue fmt (depth + 1) v)
              (vs.map (printValue fmt (depth + 1)))
            obtain ⟨c, text, hcons, hblank, hne⟩ := printValue_eq_cons fmt (depth + 1) v
            rw [List.map_cons, hmore, hcons, List.append_assoc, List.cons_append,
              skip_cons hblank, List.head?_cons]
            exact fun h => hne (Option.some.inj h)
          rw [List.nil_append] at hn
          refine ⟨n + 1, ?_⟩
          rw [htext, parseValue_cons (by decide), parseArray_skip, hn, if_neg hhead]
          rfl
  | hobject child ih =>
      intro rest
      cases child with
      | nil =>
          have htext : printValue fmt depth (.object []) ++ rest =
              '\x7b'.toUInt8 :: (formatted fmt (bytes "\n" ++ tabs (depth - 1)) ++
                '\x7d'.toUInt8 :: rest) := by
            simp only [printValue, hopen.2, hclose.2, List.append_assoc, List.cons_append,
              List.nil_append]
          have hpre : Blanks (formatted fmt (bytes "\n" ++ tabs (depth - 1))) :=
            ((show Blanks (bytes "\n") by decide +kernel).append (blanks_tabs _)).formatted fmt
          refine ⟨1, ?_⟩
          rw [htext, parseValue_cons (by decide), skip_blanks hpre (by decide +kernel)]
          rfl
      | cons m ms =>
          obtain ⟨n, hn⟩ := reads_object (List.cons_ne_nil m ms)
            (fun w hw => ih w hw (depth + 1)) hline ((blanks_tabs depth).formatted fmt) rest
          have htext : printValue fmt depth (.object (m :: ms)) ++ rest = '\x7b'.toUInt8 ::
              (formatted fmt (bytes "\n") ++
                (composeObject fmt (depth + 1) ((m :: ms).map (entryOf fmt (depth + 1))) ++
                  (formatted fmt (tabs depth) ++ '\x7d'.toUInt8 :: rest))) := by
            simp only [printValue, objectEntries_eq, hopen.2, hclose.2, List.append_assoc,
              List.cons_append, List.nil_append]
            rfl
          have hhead : (skip (formatted fmt (bytes "\n") ++
              (composeObject fmt (depth + 1) ((m :: ms).map (entryOf fmt (depth + 1))) ++
                (formatted fmt (tabs depth) ++ '\x7d'.toUInt8 :: rest)))).head? ≠
              some '\x7d'.toUInt8 := by
            obtain ⟨more, hmore⟩ := composeObject_eq_append fmt (depth + 1) m
              (ms.map (entryOf fmt (depth + 1)))
            obtain ⟨text, hcons⟩ := printString_eq_cons m.1
            have hpre := hline.append ((blanks_tabs (depth + 1)).formatted fmt)
            rw [List.map_cons, hmore, List.append_assoc, List.append_assoc, ← List.append_assoc
              (formatted fmt (bytes "\n")), skip_printString m.1 hpre, hcons]
            exact fun h => absurd (Option.some.inj h) (by decide)
          refine ⟨n + 1, ?_⟩
          rw [htext, parseValue_cons (by decide), parseObject_skip, hn, if_neg hhead]
          rfl

/-- A printed item between blanks is read back, to the end of the text. -/
theorem parseWithOpts_printValue (fmt : Bool) (depth : Nat) (v : CJson) {pre post : List UInt8}
    (hpre : Blanks pre) (hpost : Blanks post) :
    parseWithOpts (pre ++ (printValue fmt depth v ++ post)) true = .ok (v, []) := by
  obtain ⟨n, hn⟩ := reads_printValue fmt depth v post
  have hlen : (printValue fmt depth v ++ post).length ≤
      (pre ++ (printValue fmt depth v ++ post)).length :=
    (List.suffix_append pre _).length_le
  have hparse := @parseValue_of_ok n (2 * (pre ++ (printValue fmt depth v ++ post)).length + 2)
    _ _ hn (by omega)
  have hskip : skip post = [] :=
    List.dropWhile_eq_nil_iff.mpr fun c hc => decide_eq_true (hpost c hc)
  unfold parseWithOpts
  rw [skip_printValue fmt depth v hpre, hparse]
  simp only [bind, Except.bind, hskip, if_true]
  rfl

/-- `cJSON_Parse` reads back what `cJSON_Print` and `cJSON_PrintUnformatted` print, and what
`cJSON_Minify` leaves of it. -/
theorem parse_printValue (v : CJson) :
    parse (printValue true 0 v) = .ok v ∧ parse (printValue false 0 v) = .ok v ∧
      (minify (printValue true 0 v)).map parse = some (.ok v) := by
  have hparse : ∀ fmt, parse (printValue fmt 0 v) = .ok v := by
    intro fmt
    obtain ⟨n, hn⟩ := reads_printValue fmt 0 v []
    rw [List.append_nil] at hn
    have hskip := skip_printValue fmt 0 v .nil []
    rw [List.nil_append, List.append_nil] at hskip
    have hfound := parseValue_of_ok hn (Nat.lt_add_of_pos_right (show 0 < 2 by decide))
    rw [parse, parseWithOpts, hskip, hfound]
    rfl
  exact ⟨hparse true, hparse false, by rw [minify_printValue, Option.map_some, hparse false]⟩

end CiteParser.CJson
