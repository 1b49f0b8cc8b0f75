import CiteParser.Json.Item
import Mathlib.Algebra.GroupWithZero.Nat
import Mathlib.Data.FinEnum

/-!
# Printing an item

`cJSON_Print` and `cJSON_PrintUnformatted` of `cjson.c`, and the sizes of the blocks that the
texts are composed in. Every text fits its block with its terminator, and a string fills it.
-/

namespace CiteParser.CJson

/-- The letters of the short escapes. -/
def escapes : List (UInt8 × UInt8) :=
  [('\\', '\\'), ('"', '"'), ('\x08', 'b'), ('\x0c', 'f'), ('\n', 'n'), ('\r', 'r'),
    ('\t', 't')].map fun e => (e.1.toUInt8, e.2.toUInt8)

/-- A digit of `%x`. -/
def hexDigit (d : Nat) : UInt8 := UInt8.ofNat (if d < 10 then 48 + d else 87 + d)

/-- `%04x`, of a number below 65536. -/
def hex4 (n : Nat) : List UInt8 :=
  [n / 4096 % 16, n / 256 % 16, n / 16 % 16, n % 16].map hexDigit

/-- What `print_string_ptr` prints for one character. -/
def printChar (token : UInt8) : List UInt8 :=
  if 31 < token ∧ token ≠ '"'.toUInt8 ∧ token ≠ '\\'.toUInt8 then [token]
  else
    '\\'.toUInt8 :: match escapes.lookup token with
      | some letter => [letter]
      | none => 'u'.toUInt8 :: hex4 token.toNat

/-- `print_string_ptr`. -/
def printString (str : CText) : List UInt8 :=
  bytes "\"" ++ str.bytes.flatMap printChar ++ bytes "\""

/-- What is printed in a formatted text only. -/
def formatted (fmt : Bool) (text : List UInt8) : List UInt8 := if fmt then text else []

/-- `depth` tabulators. -/
def tabs (depth : Nat) : List UInt8 := List.replicate depth '\t'.toUInt8

/-- The loop of `print_array` over its entries. -/
def composeArray (fmt : Bool) : List (List UInt8) → List UInt8
  | [] => []
  | [entry] => entry
  | entry :: rest => entry ++ bytes "," ++ formatted fmt (bytes " ") ++ composeArray fmt rest

/-- The name and the value of one entry of an object. -/
def composeMember (fmt : Bool) (depth : Nat) (member : List UInt8 × List UInt8) : List UInt8 :=
  formatted fmt (tabs depth) ++ member.1 ++ bytes ":" ++ formatted fmt (bytes "\t") ++ member.2

/-- The loop of `print_object` over its names and entries. -/
def composeObject (fmt : Bool) (depth : Nat) : List (List UInt8 × List UInt8) → List UInt8
  | [] => []
  | [member] => composeMember fmt depth member ++ formatted fmt (bytes "\n")
  | member :: rest =>
      composeMember fmt depth member ++ bytes "," ++ formatted fmt (bytes "\n") ++
        composeObject fmt depth rest

mutual

/-- `print_value`. -/
def printValue (fmt : Bool) (depth : Nat) : CJson → List UInt8
  | .nullItem => bytes "null"
  | .falseItem => bytes "false"
  | .trueItem => bytes "true"
  | .string valuestring => printString valuestring
  | .array child =>
      match child with
      | [] => bytes "[]"
      | v :: rest =>
          bytes "[" ++ composeArray fmt (arrayEntries fmt (depth + 1) (v :: rest)) ++
            bytes "]"
  | .object child =>
      match child with
      | [] =>
          bytes "\x7b" ++
            formatted fmt (bytes "\n" ++ tabs (depth - 1)) ++ bytes "\x7d"
      | m :: rest =>
          bytes "\x7b" ++ formatted fmt (bytes "\n") ++
            composeObject fmt (depth + 1) (objectEntries fmt (depth + 1) (m :: rest)) ++
            formatted fmt (tabs depth) ++ bytes "\x7d"

/-- The texts of the items of an array. -/
def arrayEntries (fmt : Bool) (depth : Nat) : List CJson → List (List UInt8)
  | [] => []
  | v :: rest => printValue fmt depth v :: arrayEntries fmt depth rest

/-- The texts of the names and the items of an object. -/
def objectEntries (fmt : Bool) (depth : Nat) :
    List (CText × CJson) → List (List UInt8 × List UInt8)
  | [] => []
  | m :: rest => (printString m.1, printValue fmt depth m.2) :: objectEntries fmt depth rest

end

/-- The block that `print_string_ptr` allocates: what its first loop counts, the quotes and the
terminator. -/
def stringSize (str : CText) : Nat :=
  (str.bytes.map fun token =>
    1 + if (bytes "\"\\\x08\x0c\n\r\t").contains token then 1
      else if token < 32 then 5 else 0).sum + 3

/-- A number of bytes that a formatted text takes besides. -/
def formattedSize (fmt : Bool) (n : Nat) : Nat := if fmt then n else 0

/-- The block that `print_value` returns, as it is allocated. -/
def valueSize (fmt : Bool) (depth : Nat) : CJson → Nat
  | .nullItem => (bytes "null").length + 1
  | .falseItem => (bytes "false").length + 1
  | .trueItem => (bytes "true").length + 1
  | .string valuestring => stringSize valuestring
  | .array [] => 3
  | .array child =>
      5 + (child.map fun v =>
        (printValue fmt (depth + 1) v).length + 2 + formattedSize fmt 1).sum
  | .object [] => if fmt then depth + 4 else 3
  | .object child =>
      7 + formattedSize fmt (depth + 1) + (child.map fun m =>
        (printValue fmt (depth + 1) m.2).length + (printString m.1).length + 2 +
          formattedSize fmt (2 + (depth + 1))).sum

section Entries

variable {fmt : Bool} {depth : Nat}

theorem arrayEntries_eq (child : List CJson) :
    arrayEntries fmt depth child = child.map (printValue fmt depth) := by
  induction child with
  | nil => rfl
  | cons v rest ih => rw [arrayEntries, ih, List.map_cons]

theorem objectEntries_eq (child : List (CText × CJson)) :
    objectEntries fmt depth child =
      child.map fun m => (printString m.1, printValue fmt depth m.2) := by
  induction child with
  | nil => rfl
  | cons m rest ih => rw [objectEntries, ih, List.map_cons]

/-- The first entry of an array, and those behind it. -/
theorem composeArray_cons_cons (entry next : List UInt8) (rest : List (List UInt8)) :
    composeArray fmt (entry :: next :: rest) =
      entry ++ bytes "," ++ formatted fmt (bytes " ") ++ composeArray fmt (next :: rest) := rfl

/-- The first entry of an object, and those behind it. -/
theorem composeObject_cons_cons (member next : List UInt8 × List UInt8)
    (rest : List (List UInt8 × List UInt8)) :
    composeObject fmt depth (member :: next :: rest) =
      composeMember fmt depth member ++ bytes "," ++ formatted fmt (bytes "\n") ++
        composeObject fmt depth (next :: rest) := rfl

end Entries

section Sizes

variable {fmt : Bool} {depth : Nat}

@[simp] theorem length_formatted (text : List UInt8) :
    (formatted fmt text).length = formattedSize fmt text.length := by
  cases fmt <;> rfl

/-- A digit is neither a control character nor a quote or a backslash. -/
theorem hexDigit_spec {d : Nat} (hd : d < 16) :
    31 < hexDigit d ∧ hexDigit d < 128 ∧ hexDigit d ≠ '"'.toUInt8 ∧ hexDigit d ≠ '\\'.toUInt8 := by
  rw [UInt8.lt_iff_toNat_lt, UInt8.lt_iff_toNat_lt, Ne, Ne, ← UInt8.toNat_inj, ← UInt8.toNat_inj,
    hexDigit, UInt8.toNat_ofNat', show (31 : UInt8).toNat = 31 from rfl,
    show (128 : UInt8).toNat = 128 from rfl, show ('"'.toUInt8).toNat = 34 from rfl,
    show ('\\'.toUInt8).toNat = 92 from rfl]
  split <;> omega

/-- A character is printed as itself or, if it is one of ASCII, behind a backslash. A quote or a
backslash is printed as itself nowhere but right behind that one. -/
theorem printChar_cases (token : UInt8) :
    printChar token = [token] ∧ 31 < token ∧ token ≠ '"'.toUInt8 ∧ token ≠ '\\'.toUInt8 ∨
      token < 128 ∧ ∃ letter tail, printChar token = '\\'.toUInt8 :: letter :: tail ∧
        (31 < letter ∧ letter < 128) ∧
          ∀ d ∈ tail, 31 < d ∧ d < 128 ∧ d ≠ '"'.toUInt8 ∧ d ≠ '\\'.toUInt8 := by
  have hletters : ∀ e ∈ escapes, 31 < e.2 ∧ e.2 < 128 := by
    rw [escapes, List.forall_mem_map]
    decide
  have hlow : ∀ token : UInt8,
      token < 128 ∨ 31 < token ∧ token ≠ '"'.toUInt8 ∧ token ≠ '\\'.toUInt8 := by
    decide +kernel
  by_cases hself : 31 < token ∧ token ≠ '"'.toUInt8 ∧ token ≠ '\\'.toUInt8
  · exact .inl ⟨if_pos hself, hself⟩
  · refine .inr ⟨(hlow token).resolve_right hself, ?_⟩
    rw [printChar, if_neg hself]
    cases hlookup : escapes.lookup token with
    | some letter =>
        obtain ⟨l₁, l₂, heq, -⟩ := List.lookup_eq_some_iff.mp hlookup
        exact ⟨letter, [], rfl, hletters (token, letter) (by rw [heq]; simp),
          List.forall_mem_nil _⟩
    | none =>
        refine ⟨_, _, rfl, by decide, fun d hd => ?_⟩
        obtain ⟨k, hk, rfl⟩ := List.mem_map.mp hd
        apply hexDigit_spec
        simp only [List.mem_cons, List.not_mem_nil, or_false] at hk
        omega

/-- The bytes printed for a character are no control characters, and ASCII if it is. -/
theorem mem_printChar {token c : UInt8} (h : c ∈ printChar token) :
    31 < c ∧ (token < 128 → c < 128) := by
  rcases printChar_cases token with ⟨heq, hlow, -⟩ | ⟨-, letter, tail, heq, hletter, htail⟩
  · rw [heq, List.mem_singleton] at h
    rw [h]
    exact ⟨hlow, id⟩
  · suffices h' : 31 < c ∧ c < 128 from ⟨h'.1, fun _ => h'.2⟩
    rw [heq, List.mem_cons, List.mem_cons] at h
    rcases h with rfl | rfl | h
    · decide
    · exact hletter
    · exact ⟨(htail c h).1, (htail c h).2.1⟩

/-- The first loop of `print_string_ptr` counts what the second one writes. -/
theorem length_printChar : ∀ token : UInt8, (printChar token).length =
    1 + if (bytes "\"\\\x08\x0c\n\r\t").contains token then 1 else if token < 32 then 5 else 0 := by
  decide +kernel

/-- A string and its terminator fill the block exactly. -/
theorem length_printString (str : CText) : (printString str).length + 1 = stringSize str := by
  have hsum : (str.bytes.flatMap printChar).length = (str.bytes.map fun token =>
      1 + if (bytes "\"\\\x08\x0c\n\r\t").contains token then 1
        else if token < 32 then 5 else 0).sum := by
    rw [List.length_flatMap]
    exact congrArg List.sum (List.map_congr_left fun token _ => length_printChar token)
  have hquote : (bytes "\"").length = 1 := by decide
  rw [printString, stringSize, List.length_append, List.length_append, hsum, hquote]
  omega

/-- The entries of an array take no more than is reckoned for them. -/
theorem length_composeArray {entries : List (List UInt8)} (h : entries ≠ []) :
    (composeArray fmt entries).length + 2 ≤
      (entries.map fun entry => entry.length + 2 + formattedSize fmt 1).sum := by
  have hcomma : (bytes ",").length = 1 := by decide
  have hblank : (bytes " ").length = 1 := by decide
  induction entries with
  | nil => contradiction
  | cons entry rest ih =>
      cases rest with
      | nil =>
          simp only [composeArray, List.map_cons, List.map_nil, List.sum_cons, List.sum_nil]
          omega
      | cons next rest =>
          have hrest := ih (List.cons_ne_nil next rest)
          rw [composeArray_cons_cons, List.map_cons, List.sum_cons]
          simp only [List.length_append, length_formatted, hcomma, hblank]
          omega

/-- What one entry of an object takes. -/
theorem length_composeMember (member : List UInt8 × List UInt8) :
    (composeMember fmt depth member).length =
      member.2.length + member.1.length + 1 + formattedSize fmt (depth + 1) := by
  have hcolon : (bytes ":").length = 1 := by decide
  have htab : (bytes "\t").length = 1 := by decide
  unfold composeMember tabs
  simp only [List.length_append, length_formatted, List.length_replicate, hcolon, htab]
  cases fmt <;> simp only [formattedSize, ite_true, ite_false, Bool.false_eq_true] <;> omega

/-- What the entries of an object take, with what stands between them and behind them. -/
theorem length_composeObject {members : List (List UInt8 × List UInt8)} (h : members ≠ []) :
    (composeObject fmt depth members).length + 1 =
      (members.map fun m =>
        m.2.length + m.1.length + 2 + formattedSize fmt (2 + depth)).sum := by
  have hcomma : (bytes ",").length = 1 := by decide
  have hline : (bytes "\n").length = 1 := by decide
  have hsize : formattedSize fmt (2 + depth) =
      formattedSize fmt (depth + 1) + formattedSize fmt 1 := by
    cases fmt
    · rfl
    · simp only [formattedSize, ite_true]
      omega
  induction members with
  | nil => contradiction
  | cons m rest ih =>
      cases rest with
      | nil =>
          simp only [composeObject, List.length_append, length_composeMember, length_formatted,
            hline, hsize, List.map_cons, List.map_nil, List.sum_cons, List.sum_nil]
          omega
      | cons next rest =>
          have hrest := ih (List.cons_ne_nil next rest)
          rw [composeObject_cons_cons, List.map_cons, List.sum_cons, ← hrest]
          simp only [List.length_append, length_composeMember, length_formatted, hcomma, hline,
            hsize]
          omega

/-- Every text that is composed has room in its block, with its terminator. -/
theorem length_printValue_lt (fmt : Bool) (depth : Nat) (v : CJson) :
    (printValue fmt depth v).length < valueSize fmt depth v := by
  cases v with
  | nullItem => exact Nat.lt_succ_self _
  | falseItem => exact Nat.lt_succ_self _
  | trueItem => exact Nat.lt_succ_self _
  | string s => exact (length_printString s).le
  | array child =>
      have hbrackets : (bytes "[").length = 1 ∧ (bytes "]").length = 1 := by decide
      cases child with
      | nil => exact Nat.lt_succ_self 2
      | cons v rest =>
          have hlen := @length_composeArray fmt (arrayEntries fmt (depth + 1) (v :: rest))
            (List.cons_ne_nil _ _)
          rw [arrayEntries_eq, List.map_map] at hlen
          rw [printValue, valueSize, arrayEntries_eq, List.length_append, List.length_append,
            hbrackets.1, hbrackets.2]
          · simp only [Function.comp_def] at hlen
            omega
          · exact List.cons_ne_nil v rest
  | object child =>
      have hbraces : (bytes "\x7b").length = 1 ∧ (bytes "\x7d").length = 1 := by decide
      have hline : (bytes "\n").length = 1 := by decide
      cases child with
      | nil =>
          simp only [printValue, valueSize, List.length_append, length_formatted, hbraces.1,
            hbraces.2, hline, tabs, List.length_replicate]
          cases fmt <;> simp only [formattedSize, ite_true, ite_false, Bool.false_eq_true] <;>
            omega
      | cons m rest =>
          have hlen := @length_composeObject fmt (depth + 1)
            (objectEntries fmt (depth + 1) (m :: rest)) (List.cons_ne_nil _ _)
          rw [objectEntries_eq, List.map_map] at hlen
          rw [printValue, valueSize, objectEntries_eq]
          · simp only [Function.comp_def] at hlen
            simp only [List.length_append, length_formatted, hbraces.1, hbraces.2, hline, tabs,
              List.length_replicate]
            cases fmt <;>
              simp only [formattedSize, ite_true, ite_false, Bool.false_eq_true] at hlen ⊢ <;>
              omega
          · exact List.cons_ne_nil m rest

end Sizes

/-! ## Unformatted texts -/

/-- The texts that an unformatted text is made of besides its strings. -/
def tokens : List (List UInt8) :=
  ["null", "false", "true", "[]", "[", ",", "]", "\x7b", ":", "\x7d"].map bytes

/-- What holds of the tokens and the strings, and of any two texts together, holds of an
unformatted text. -/
theorem printValue_induct {P : List UInt8 → Prop} (hnil : P [])
    (happend : ∀ {text text'}, P text → P text' → P (text ++ text')) (htokens : ∀ t ∈ tokens, P t)
    (depth : Nat) (v : CJson) (hstrings : ∀ s ∈ v.texts, P (printString s)) :
    P (printValue false depth v) := by
  have htoken : ∀ s : String, bytes s ∈ tokens → P (bytes s) := fun s hs => htokens _ hs
  induction v using CJson.induct generalizing depth with
  | hnull =>
      simp only [printValue]
      exact htoken "null" (by decide)
  | hfalse =>
      simp only [printValue]
      exact htoken "false" (by decide)
  | htrue =>
      simp only [printValue]
      exact htoken "true" (by decide)
  | hstring s =>
      simp only [printValue]
      exact hstrings s (by simp only [texts, List.mem_singleton])
  | harray child ih =>
      have hcomma : P (bytes ",") := htoken "," (by decide)
      have hentries : ∀ l : List CJson, (∀ v ∈ l, P (printValue false (depth + 1) v)) →
          P (composeArray false (l.map (printValue false (depth + 1)))) := by
        intro l hl
        induction l with
        | nil => exact hnil
        | cons v l ihl =>
            rw [List.forall_mem_cons] at hl
            cases l with
            | nil => exact hl.1
            | cons w l => exact happend (happend (happend hl.1 hcomma) hnil) (ihl hl.2)
      cases child with
      | nil =>
          simp only [printValue]
          exact htoken "[]" (by decide)
      | cons v rest =>
          simp only [printValue, arrayEntries_eq]
          refine happend (happend (htoken "[" (by decide)) (hentries _ fun w hw => ?_))
            (htoken "]" (by decide))
          refine ih w hw (depth + 1) fun s hs => hstrings s ?_
          simp only [texts, arrayTexts_eq]
          exact List.mem_flatMap.mpr ⟨w, hw, hs⟩
  | hobject child ih =>
      have hcomma : P (bytes ",") := htoken "," (by decide)
      have hcolon : P (bytes ":") := htoken ":" (by decide)
      have hentries : ∀ l : List (CText × CJson),
          (∀ m ∈ l, P (printString m.1) ∧ P (printValue false (depth + 1) m.2)) →
          P (composeObject false (depth + 1)
            (l.map fun m => (printString m.1, printValue false (depth + 1) m.2))) := by
        intro l hl
        have hmember : ∀ m ∈ l, P (composeMember false (depth + 1)
            (printString m.1, printValue false (depth + 1) m.2)) := fun m hm =>
          happend (happend (happend (happend hnil (hl m hm).1) hcolon) hnil) (hl m hm).2
        clear hl
        induction l with
        | nil => exact hnil
        | cons m l ihl =>
            rw [List.forall_mem_cons] at hmember
            cases l with
            | nil => exact happend hmember.1 hnil
            | cons m' l => exact happend (happend (happend hmember.1 hcomma) hnil) (ihl hmember.2)
      have hopen : P (bytes "\x7b") := htoken "\x7b" (by decide)
      have hclose : P (bytes "\x7d") := htoken "\x7d" (by decide)
      cases child with
      | nil =>
          simp only [printValue]
          exact happend (happend hopen hnil) hclose
      | cons m rest =>
          simp only [printValue, objectEntries_eq]
          refine happend (happend (happend (happend hopen hnil) (hentries _ fun w hw => ?_)) hnil)
            hclose
          simp only [texts, objectTexts_eq] at hstrings
          constructor
          · refine hstrings w.1 (List.mem_flatMap.mpr ⟨w, hw, List.mem_cons_self⟩)
          · refine ih w hw (depth + 1) fun s hs => hstrings s ?_
            exact List.mem_flatMap.mpr ⟨w, hw, List.mem_cons_of_mem _ hs⟩

end CiteParser.CJson
