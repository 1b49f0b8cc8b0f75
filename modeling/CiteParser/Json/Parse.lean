import CiteParser.Json.Print

/-!
# Parsing a text

`cJSON_Parse` of `cjson.c`, over the characters of a text before its terminator. A number is a
double, and a text with one is not followed further.
-/

namespace CiteParser.CJson

/-- Why the parser gives up: a character where `ep` points to does not fit, it reads behind the
terminator or writes behind the end of a block, or there is a number. The last one is the bound
of the recursion, which no text reaches. -/
inductive ParseStop where
  | failure (ep : List UInt8)
  | outside
  | number
  | bound
  deriving DecidableEq, Repr

/-- `skip`: the text from its first character above 32 on. -/
def skip (text : List UInt8) : List UInt8 := text.dropWhile (· ≤ 32)

/-! ## Strings -/

/-- The value of a digit in `parse_hex4`. -/
def hexValue (c : UInt8) : Option Nat :=
  if '0'.toUInt8 ≤ c ∧ c ≤ '9'.toUInt8 then some (c.toNat - 48)
  else if 'A'.toUInt8 ≤ c ∧ c ≤ 'F'.toUInt8 then some (10 + c.toNat - 65)
  else if 'a'.toUInt8 ≤ c ∧ c ≤ 'f'.toUInt8 then some (10 + c.toNat - 97)
  else none

/-- `parse_hex4`: 0 unless there are four digits. -/
def parseHex4 : List UInt8 → Nat
  | c :: d :: e :: f :: _ =>
      match hexValue c, hexValue d, hexValue e, hexValue f with
      | some c, some d, some e, some f => ((c * 16 + d) * 16 + e) * 16 + f
      | _, _, _, _ => 0
  | _ => 0

/-- `firstByteMark`. -/
def firstByteMark : List Nat := [0x00, 0x00, 0xC0, 0xE0, 0xF0, 0xF8, 0xFC]

/-- The number of bytes that a character is written with. -/
def utf8Length (uc : Nat) : Nat :=
  if uc < 0x80 then 1 else if uc < 0x800 then 2 else if uc < 0x10000 then 3 else 4

/-- The `switch (len)` of `parse_string`, which writes the bytes from the last one on. -/
def utf8From (len : Nat) : Nat → Nat → List UInt8 → List UInt8
  | 0, uc, written => UInt8.ofNat (uc ||| firstByteMark.getD len 0) :: written
  | n + 1, uc, written =>
      utf8From len n (uc >>> 6) (UInt8.ofNat ((uc ||| 0x80) &&& 0xBF) :: written)

/-- The bytes of a character. -/
def utf8Bytes (uc : Nat) : List UInt8 := utf8From (utf8Length uc) (utf8Length uc - 1) uc []

/-- The `case 'u'` of `parse_string`, on the text behind the letter: what is written, and the text
behind the escape. `none` when that is behind the terminator. -/
def parseUnicode (text : List UInt8) : Option (List UInt8 × List UInt8) :=
  let uc := parseHex4 text
  let rest := text.drop 4
  if text.length < 4 then none
  else if 0xDC00 ≤ uc ∧ uc ≤ 0xDFFF ∨ uc = 0 then some ([], rest)
  else if 0xD800 ≤ uc ∧ uc ≤ 0xDBFF then
    if rest.head? ≠ some '\\'.toUInt8 ∨ rest[1]? ≠ some 'u'.toUInt8 then some ([], rest)
    else
      let uc2 := parseHex4 (rest.drop 2)
      if rest.length < 6 then none
      else if uc2 < 0xDC00 ∨ 0xDFFF < uc2 then some ([], rest.drop 6)
      else
        some (utf8Bytes (0x10000 + (((uc &&& 0x3FF) <<< 10) ||| (uc2 &&& 0x3FF))), rest.drop 6)
  else some (utf8Bytes uc, rest)

/-- The letters of `parse_string` that stand for another character. -/
def escaped : List (UInt8 × UInt8) :=
  [('b', '\x08'), ('f', '\x0c'), ('n', '\n'), ('r', '\r'), ('t', '\t')].map fun e =>
    (e.1.toUInt8, e.2.toUInt8)

/-- The `switch (*ptr)` of `parse_string`, on the text behind a backslash. -/
def parseEscape : List UInt8 → Option (List UInt8 × List UInt8)
  | [] => none
  | c :: rest =>
      if c = 'u'.toUInt8 then parseUnicode rest
      else some ([(escaped.lookup c).getD c], rest)

/-- The first loop of `parse_string`, which counts the characters up to the quote, one for each
escape; `none` when it skips the terminator. -/
def stringLength : List UInt8 → Option Nat
  | [] => some 0
  | [c] => if c = '"'.toUInt8 then some 0 else if c = '\\'.toUInt8 then none else some 1
  | c :: d :: rest =>
      if c = '"'.toUInt8 then some 0
      else if c = '\\'.toUInt8 then (stringLength rest).map (· + 1)
      else (stringLength (d :: rest)).map (· + 1)

/-- The second loop of `parse_string`: what it writes, and the text it stops at. -/
def unescape : Nat → List UInt8 → Except ParseStop (List UInt8 × List UInt8)
  | 0, _ => .error .bound
  | _ + 1, [] => .ok ([], [])
  | n + 1, c :: rest =>
      if c = '"'.toUInt8 then .ok ([], c :: rest)
      else if c ≠ '\\'.toUInt8 then (unescape n rest).map fun p => (c :: p.1, p.2)
      else
        match parseEscape rest with
        | none => .error .outside
        | some (out, rest) => (unescape n rest).map fun p => (out ++ p.1, p.2)

/-- `parse_string`. The block of the string has room for the counted characters and its
terminator. -/
def parseString : List UInt8 → Except ParseStop (CText × List UInt8)
  | [] => .error (.failure [])
  | c :: body =>
      if c ≠ '"'.toUInt8 then .error (.failure (c :: body))
      else
        match stringLength body, unescape (body.length + 1) body with
        | none, _ => .error .outside
        | some _, .error e => .error e
        | some len, .ok (out, rest) =>
            if len < out.length then .error .outside else .ok (CText.of out, rest.tail)

/-! ## Values -/

/-- A digit or a sign, with which a number begins. -/
def startsNumber (c : UInt8) : Bool :=
  c == '-'.toUInt8 || ('0'.toUInt8 ≤ c && c ≤ '9'.toUInt8)

mutual

/-- `parse_value`, with `parse_array` and `parse_object` up to their first item. -/
def parseValue : Nat → List UInt8 → Except ParseStop (CJson × List UInt8)
  | 0, _ => .error .bound
  | n + 1, value =>
      if strncmpEq 4 value (bytes "null") then .ok (.nullItem, value.drop 4)
      else if strncmpEq 5 value (bytes "false") then .ok (.falseItem, value.drop 5)
      else if strncmpEq 4 value (bytes "true") then .ok (.trueItem, value.drop 4)
      else
        match value with
        | [] => .error (.failure [])
        | c :: rest =>
            if c = '"'.toUInt8 then do
              let (valuestring, end_) ← parseString value
              return (.string valuestring, end_)
            else if startsNumber c then .error .number
            else if c = '['.toUInt8 then
              if (skip rest).head? = some ']'.toUInt8 then .ok (.array [], (skip rest).tail)
              else do
                let (child, end_) ← parseArray n (skip rest)
                return (.array child, end_)
            else if c = '\x7b'.toUInt8 then
              if (skip rest).head? = some '\x7d'.toUInt8 then .ok (.object [], (skip rest).tail)
              else do
                let (child, end_) ← parseObject n (skip rest)
                return (.object child, end_)
            else .error (.failure value)

/-- `parse_array` from an item on. -/
def parseArray : Nat → List UInt8 → Except ParseStop (List CJson × List UInt8)
  | 0, _ => .error .bound
  | n + 1, value => do
      let (child, rest) ← parseValue n (skip value)
      match skip rest with
      | [] => .error (.failure [])
      | c :: more =>
          if c = ','.toUInt8 then do
            let (next, end_) ← parseArray n more
            return (child :: next, end_)
          else if c = ']'.toUInt8 then .ok ([child], more)
          else .error (.failure (c :: more))

/-- `parse_object` from a name on. -/
def parseObject : Nat → List UInt8 → Except ParseStop (List (CText × CJson) × List UInt8)
  | 0, _ => .error .bound
  | n + 1, value => do
      let (name, rest) ← parseString (skip value)
      match skip rest with
      | [] => .error (.failure [])
      | c :: more =>
          if c ≠ ':'.toUInt8 then .error (.failure (c :: more))
          else do
            let (child, rest) ← parseValue n (skip more)
            match skip rest with
            | [] => .error (.failure [])
            | c :: more =>
                if c = ','.toUInt8 then do
                  let (next, end_) ← parseObject n more
                  return ((name, child) :: next, end_)
                else if c = '\x7d'.toUInt8 then .ok ([(name, child)], more)
                else .error (.failure (c :: more))

end

/-- `cJSON_ParseWithOpts`, with its parse end. -/
def parseWithOpts (value : List UInt8) (require_null_terminated : Bool) :
    Except ParseStop (CJson × List UInt8) := do
  let (c, end_) ← parseValue (2 * value.length + 2) (skip value)
  if require_null_terminated then
    if skip end_ = [] then return (c, []) else .error (.failure (skip end_))
  else return (c, end_)

/-- `cJSON_Parse`. -/
def parse (value : List UInt8) : Except ParseStop CJson :=
  (parseWithOpts value false).map (·.1)

/-! ## The bound -/

section Bound

variable {α β : Type} {k k' : Nat}

/-- A result that is not due to the bound, and leaves a text shorter than `k`. -/
def Within (k : Nat) : Except ParseStop (α × List UInt8) → Prop
  | .error e => e ≠ .bound
  | .ok p => p.2.length < k

theorem Within.bind {x : Except ParseStop (α × List UInt8)}
    {f : α × List UInt8 → Except ParseStop (β × List UInt8)} (hx : Within k x)
    (hf : ∀ a rest, rest.length < k → Within k' (f (a, rest))) : Within k' (x >>= f) := by
  cases x with
  | error e => exact hx
  | ok p => exact hf p.1 p.2 hx

theorem Within.map {x : Except ParseStop (α × List UInt8)} {f : α → β} (hx : Within k x) :
    Within k (x.map fun p => (f p.1, p.2)) := by
  cases x with
  | error e => exact hx
  | ok p => exact hx

theorem Within.mono {x : Except ParseStop (α × List UInt8)} (hx : Within k x) (hk : k ≤ k') :
    Within k' x := by
  cases x with
  | error e => exact hx
  | ok p => exact Nat.lt_of_lt_of_le hx hk

/-- `skip` leaves no more than there is. -/
theorem length_skip_le (text : List UInt8) : (skip text).length ≤ text.length :=
  (List.dropWhile_suffix _).length_le

/-- An escape leaves no more than there is behind its backslash. -/
theorem length_parseEscape {text out rest : List UInt8} (h : parseEscape text = some (out, rest)) :
    rest.length ≤ text.length := by
  cases text with
  | nil => contradiction
  | cons c text =>
      have hunicode : parseUnicode text = some (out, rest) → rest.length ≤ text.length := by
        intro hu
        unfold parseUnicode at hu
        grind
      simp only [parseEscape] at h
      rw [List.length_cons]
      split at h
      · exact Nat.le_succ_of_le (hunicode h)
      · cases h
        exact Nat.le_succ _

/-- A string is read to its end within the bound. -/
theorem within_unescape {n : Nat} {body : List UInt8} (h : body.length < n) :
    Within (body.length + 1) (unescape n body) := by
  induction n generalizing body with
  | zero => contradiction
  | succ n ih =>
      cases body with
      | nil => exact Nat.zero_lt_one
      | cons c rest =>
          rw [List.length_cons] at h ⊢
          unfold unescape
          split
          · exact Nat.lt_succ_self _
          · split
            · exact ((ih (by omega)).map).mono (Nat.le_succ _)
            · cases hescape : parseEscape rest with
              | none => exact ParseStop.noConfusion
              | some p =>
                  have hle := length_parseEscape hescape
                  exact ((ih (by omega)).map).mono (by omega)

theorem within_parseString (text : List UInt8) : Within text.length (parseString text) := by
  cases text with
  | nil => exact ParseStop.noConfusion
  | cons c body =>
      have hwithin := within_unescape (Nat.lt_succ_self body.length)
      simp only [parseString]
      split
      · exact ParseStop.noConfusion
      · cases stringLength body with
        | none => exact ParseStop.noConfusion
        | some len =>
            cases hun : unescape (body.length + 1) body with
            | error e =>
                rw [hun] at hwithin
                exact hwithin
            | ok p =>
                rw [hun] at hwithin
                have hrest : p.2.length < body.length + 1 := hwithin
                dsimp only
                split
                · exact ParseStop.noConfusion
                · change p.2.tail.length < body.length + 1
                  rw [List.length_tail]
                  omega

/-- What follows an item: the comma and the items behind it, or the bracket. -/
theorem within_rest {rest : List UInt8} {f : UInt8 → List UInt8 → Except ParseStop (α × List UInt8)}
    (hf : ∀ c more, more.length < rest.length → Within k (f c more)) :
    Within k (match skip rest with
      | [] => .error (.failure [])
      | c :: more => f c more) := by
  have hskip := length_skip_le rest
  split
  · exact ParseStop.noConfusion
  · rename_i c more heq
    rw [heq, List.length_cons] at hskip
    exact hf c more hskip

/-- Enough of a bound for a text is not reached. -/
theorem within_parse (n : Nat) :
    (∀ value, 2 * value.length < n → Within value.length (parseValue n value)) ∧
      (∀ value, 2 * value.length + 1 < n → Within value.length (parseArray n value)) ∧
      ∀ value, 2 * value.length + 1 < n → Within value.length (parseObject n value) := by
  induction n with
  | zero =>
      exact ⟨fun _ h => absurd h (Nat.not_lt_zero _), fun _ h => absurd h (Nat.not_lt_zero _),
        fun _ h => absurd h (Nat.not_lt_zero _)⟩
  | succ n ih =>
      obtain ⟨hvalue, harray, hobject⟩ := ih
      refine ⟨fun value h => ?_, fun value h => ?_, fun value h => ?_⟩
      · cases value with
        | nil => exact ParseStop.noConfusion
        | cons c rest =>
            have hliteral : ∀ (v : CJson) (k : Nat), 0 < k →
                Within (c :: rest).length (.ok (v, (c :: rest).drop k)) := by
              intro v k hk
              change ((c :: rest).drop k).length < (c :: rest).length
              rw [List.length_drop, List.length_cons]
              omega
            have hskip := length_skip_le rest
            have hempty : ∀ v : CJson, Within (c :: rest).length (.ok (v, (skip rest).tail)) := by
              intro v
              change (skip rest).tail.length < (c :: rest).length
              rw [List.length_tail, List.length_cons]
              omega
            rw [List.length_cons] at h
            simp only [parseValue]
            split
            · exact hliteral _ 4 (by decide)
            split
            · exact hliteral _ 5 (by decide)
            split
            · exact hliteral _ 4 (by decide)
            split
            · exact (within_parseString (c :: rest)).map
            split
            · exact ParseStop.noConfusion
            split
            · split
              · exact hempty _
              · exact ((harray _ (by omega)).mono (Nat.le_succ_of_le hskip)).map
            split
            · split
              · exact hempty _
              · exact ((hobject _ (by omega)).mono (Nat.le_succ_of_le hskip)).map
            · exact ParseStop.noConfusion
      · unfold parseArray
        have hskip := length_skip_le value
        refine (hvalue _ (by omega)).bind fun v rest hrest => within_rest fun c more hmore => ?_
        split
        · refine (harray more (by omega)).bind fun vs end_ hend => ?_
          change end_.length < value.length
          omega
        · split
          · change more.length < value.length
            omega
          · exact ParseStop.noConfusion
      · unfold parseObject
        have hskip := length_skip_le value
        refine (within_parseString _).bind fun name rest hrest => within_rest fun c more hmore => ?_
        split
        · exact ParseStop.noConfusion
        · have hskip' := length_skip_le more
          refine (hvalue _ (by omega)).bind fun v rest hrest => within_rest fun c more hmore => ?_
          split
          · refine (hobject more (by omega)).bind fun vs end_ hend => ?_
            change end_.length < value.length
            omega
          · split
            · change more.length < value.length
              omega
            · exact ParseStop.noConfusion

/-- `cJSON_Parse` comes to an end on every text. -/
theorem parseWithOpts_ne_bound (value : List UInt8) (require_null_terminated : Bool) :
    parseWithOpts value require_null_terminated ≠ .error .bound := by
  have hle := length_skip_le value
  have hwithin := (within_parse (2 * value.length + 2)).1 (skip value) (by omega)
  unfold parseWithOpts
  cases hparse : parseValue (2 * value.length + 2) (skip value) with
  | error e =>
      rw [hparse] at hwithin
      exact fun h => hwithin (Except.error.inj h)
  | ok p =>
      intro h
      simp only [bind, Except.bind, pure, Except.pure] at h
      split at h
      · split at h <;> cases h
      · cases h

/-- A result that is due to the bound, or the same as another one. -/
def Agrees (x y : Except ParseStop α) : Prop := x = .error .bound ∨ x = y

theorem Agrees.bind {x y : Except ParseStop α} {f g : α → Except ParseStop β} (h : Agrees x y)
    (hf : ∀ a, Agrees (f a) (g a)) : Agrees (x >>= f) (y >>= g) := by
  rcases h with rfl | rfl
  · exact .inl rfl
  · cases x with
    | error e => exact .inr rfl
    | ok a => exact hf a

theorem Agrees.same {x : Except ParseStop α} : Agrees x x := .inr rfl

theorem Agrees.ite {p : Prop} [Decidable p] {x y x' y' : Except ParseStop α} (h : Agrees x y)
    (h' : Agrees x' y') : Agrees (if p then x else x') (if p then y else y') := by
  split
  · exact h
  · exact h'

theorem Agrees.rest {rest : List UInt8} {f g : UInt8 → List UInt8 → Except ParseStop α}
    (h : ∀ c more, Agrees (f c more) (g c more)) :
    Agrees (match skip rest with
        | [] => .error (.failure [])
        | c :: more => f c more)
      (match skip rest with
        | [] => .error (.failure [])
        | c :: more => g c more) := by
  cases skip rest with
  | nil => exact .same
  | cons c more => exact h c more

/-- A larger bound gives the same result. -/
theorem parse_agrees (n : Nat) :
    (∀ value, Agrees (parseValue n value) (parseValue (n + 1) value)) ∧
      (∀ value, Agrees (parseArray n value) (parseArray (n + 1) value)) ∧
      ∀ value, Agrees (parseObject n value) (parseObject (n + 1) value) := by
  induction n with
  | zero => exact ⟨fun _ => .inl rfl, fun _ => .inl rfl, fun _ => .inl rfl⟩
  | succ n ih =>
      obtain ⟨hvalue, harray, hobject⟩ := ih
      refine ⟨fun value => ?_, fun value => ?_, fun value => ?_⟩
      · cases value with
        | nil => exact .same
        | cons c rest =>
            rw [parseValue, parseValue]
            refine .ite .same (.ite .same (.ite .same (.ite .same (.ite .same (.ite ?_
              (.ite ?_ .same))))))
            · exact .ite .same ((harray _).bind fun _ => .same)
            · exact .ite .same ((hobject _).bind fun _ => .same)
      · rw [parseArray, parseArray]
        refine (hvalue _).bind fun _ => .rest fun _ more => .ite ?_ .same
        exact (harray more).bind fun _ => .same
      · rw [parseObject, parseObject]
        refine Agrees.same.bind fun _ => .rest fun _ more => .ite .same ?_
        refine (hvalue _).bind fun _ => .rest fun _ more => .ite ?_ .same
        exact (hobject more).bind fun _ => .same

theorem Agrees.trans {x y z : Except ParseStop α} (h : Agrees x y) (h' : Agrees y z) :
    Agrees x z := by
  rcases h with h | rfl
  · exact .inl h
  · exact h'

theorem Agrees.ok {x y : Except ParseStop α} {a : α} (h : Agrees x y) (hx : x = .ok a) :
    y = .ok a := by
  rcases h with rfl | rfl
  · contradiction
  · exact hx

/-- A bound that is large enough can be made larger. -/
theorem parse_agrees_of_le {n m : Nat} (h : n ≤ m) :
    (∀ value, Agrees (parseValue n value) (parseValue m value)) ∧
      (∀ value, Agrees (parseArray n value) (parseArray m value)) ∧
      ∀ value, Agrees (parseObject n value) (parseObject m value) := by
  induction h with
  | refl => exact ⟨fun _ => .same, fun _ => .same, fun _ => .same⟩
  | @step m h ih =>
      obtain ⟨hvalue, harray, hobject⟩ := parse_agrees m
      exact ⟨fun value => (ih.1 value).trans (hvalue value),
        fun value => (ih.2.1 value).trans (harray value),
        fun value => (ih.2.2 value).trans (hobject value)⟩

/-- What some bound suffices for is found within the bound for the text. -/
theorem parseValue_of_ok {n m : Nat} {value : List UInt8} {p : CJson × List UInt8}
    (h : parseValue n value = .ok p) (hm : 2 * value.length < m) : parseValue m value = .ok p := by
  rcases Nat.le_total n m with hle | hle
  · exact ((parse_agrees_of_le hle).1 value).ok h
  · rcases (parse_agrees_of_le hle).1 value with hbound | heq
    · have hwithin := (within_parse m).1 value hm
      rw [hbound] at hwithin
      exact absurd rfl hwithin
    · rw [heq, h]

end Bound

end CiteParser.CJson
