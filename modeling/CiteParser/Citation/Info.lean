import CiteParser.Citation.Names

/-!
# Filling a citation

`addCitationInfo` of `citpred.cc`, which stores a segment under the id of its label, and
the reply that `rpc_query` of `citepd.cc` builds from the list of nodes.
-/

namespace CiteParser

/-- `char src[2048]` of `addCitationInfo`. -/
def srcSize : Nat := 2048

/-- What the locals of a call hold that are not initialised. -/
structure Locals where
  ev : Bool × Bool
  page : Int × Int
  vol : Int × Int
  deriving DecidableEq, Repr, Inhabited

/-- A call of `addCitationInfo`. -/
structure InfoCall where
  id : Nat
  str : List UInt8
  locals : Locals
  deriving DecidableEq, Repr

/-- `tagFinishing`: line ends become blanks, and behind the last letter or digit a comma, an
opening bracket or a brace ends the string. -/
def tagFinishing (str : List UInt8) : List UInt8 :=
  let step := fun (c : UInt8) (acc : Bool × List UInt8) =>
    let last := acc.1 && !isAsciiOrDigit c
    let c := if c = '\n'.toUInt8 ∨ c = '\r'.toUInt8 then ' '.toUInt8 else c
    let ends := c = ','.toUInt8 ∨ c = '['.toUInt8 ∨ c = '\x7b'.toUInt8 ∨ c = '\x7d'.toUInt8
    (last, (if last = true ∧ ends then 0 else c) :: acc.2)
  (str.foldr step (true, [])).2

/-- The text that is printed for one number or two. -/
def numberText (v : TwoValue) : List UInt8 :=
  if v.num = 2 then dec v.a ++ bytes "," ++ dec v.b else dec v.a

/-- `snprintf` to the array `f` of the current node. -/
def NodeList.print (l : NodeList) (f : Field) (n : Nat) (text : List UInt8) : NodeList :=
  { l with now := snprintf l.now f.offset n text }

/-- The text of a segment after `tagFinishing`. -/
def finished (str : List UInt8) : List UInt8 := cstr (tagFinishing (cstr str))

section Info

variable (heap : Nat → CitationNode)

/-- `case 0`: a digit and a bracket open a new node. -/
def bracketed (c : InfoCall) : Bool :=
  (c.locals.ev.1 || c.str.any digitLike) &&
    (c.locals.ev.2 || c.str.any fun x => x == '['.toUInt8 || x == ']'.toUInt8)

/-- `addCitationInfo`; `none` when the segment is copied past the end of `src`. -/
def addCitationInfo (l : NodeList) (c : InfoCall) : Option NodeList :=
  if srcSize ≤ c.str.length then none
  else
    some <| match c.id with
      | 0 => if bracketed c then addCitationNode heap l else l
      | 3 =>
          let l := addCitationNode heap l
          { l with now := spilitName l.now Field.author.offset (cstr c.str) }
      | 4 => l.print .booktitle 150 (finished c.str)
      | 5 => l.print .date 50 (finished c.str)
      -- the editors are split into the array of the authors
      | 6 => { l with now := spilitName l.now Field.author.offset (cstr c.str) }
      | 7 => l.print .institution 150 (finished c.str)
      | 8 => l.print .journal 150 (finished c.str)
      | 9 => l.print .location 50 (finished c.str)
      | 11 =>
          l.print .pages 50
            (numberText (twovalue c.str c.str.length c.locals.page.1 c.locals.page.2))
      -- the publisher is printed to the date, with the bound of a longer array
      | 12 => l.print .date 150 (finished c.str)
      | 13 => l.print .tech 50 (finished c.str)
      | 14 => l.print .title 150 (finished c.str)
      | 15 =>
          l.print .volume 50
            (numberText (twovalue c.str c.str.length c.locals.vol.1 c.locals.vol.2))
      | 16 => l.print .url 50 (finished c.str)
      | 17 => l.print .isbn 50 (finished c.str)
      | _ => l

/-- The list of nodes after a sequence of calls. -/
def infoRun (calls : List InfoCall) : Option NodeList :=
  calls.foldlM (addCitationInfo heap) (.start heap)

end Info

/-- The values of the reply; a string of `cJSON` is a C string. -/
inductive JsonValue where
  | string (text : List UInt8)
  | array (items : List (List UInt8))
  deriving DecidableEq, Repr

/-- The place of a name. -/
def Field.row (f : Field) (i : Nat) : Nat := f.offset + nameSize * i

/-- The array under `key`, left out when the first name is empty. -/
def namesItem (node : CitationNode) (key : String) (f : Field) : List (String × JsonValue) :=
  if node f.offset ≠ 0 then
    [(key, .array ((List.range 10).filterMap fun i =>
      if node (f.row i) ≠ 0 then some (stringIn node (f.row i) nodeSize) else none))]
  else []

/-- The string under `key`, left out when it is empty. -/
def textItem (node : CitationNode) (key : String) (f : Field) : List (String × JsonValue) :=
  if node f.offset ≠ 0 then [(key, .string (stringIn node f.offset nodeSize))] else []

/-- The keys of the arrays that are strings, in the order of the reply. -/
def textKeys : List (String × Field) :=
  [("title", .title), ("journal", .journal), ("booktitle", .booktitle),
    ("publisher", .publisher), ("institution", .institution), ("volume", .volume),
    ("location", .location), ("pages", .pages), ("date", .date), ("url", .url),
    ("isbn", .isbn), ("tech", .tech)]

/-- The object of one node. -/
def resultItem (node : CitationNode) : List (String × JsonValue) :=
  namesItem node "authors" .author ++ textKeys.flatMap (fun k => textItem node k.1 k.2) ++
    namesItem node "editors" .editor

/-- The array `ref` of the reply. -/
def rpcQuery (l : NodeList) : List (List (String × JsonValue)) := l.nodes.map resultItem

/-! ## Strings -/

/-- A text after `tagFinishing` is a string. -/
theorem ne_zero_of_mem_finished {str : List UInt8} {c : UInt8} (h : c ∈ finished str) : c ≠ 0 :=
  ne_zero_of_mem_cstr h

/-- Printed numbers are a string. -/
theorem ne_zero_of_mem_numberText {v : TwoValue} {c : UInt8} (h : c ∈ numberText v) :
    c ≠ 0 := by
  unfold numberText at h
  split at h
  · rcases List.mem_append.mp h with h | h
    · rcases List.mem_append.mp h with h | h
      · exact ne_zero_of_mem_dec h
      · rw [List.mem_singleton.mp h]
        decide
    · exact ne_zero_of_mem_dec h
  · exact ne_zero_of_mem_dec h

/-- A character that is no digit follows digits that make a number above 0: only then does
`twovalue` set its first result. -/
def ReadsNumber (str : List UInt8) : Prop := (str.foldl twovalueStep ⟨1, 0, 0, 0⟩).num = 2

instance (str : List UInt8) : Decidable (ReadsNumber str) :=
  inferInstanceAs (Decidable (_ = _))

/-- What the results held before only matters while the first is not set. -/
theorem foldl_twovalueStep_junk (str : List UInt8) {s t : TwoValue} (hnum : s.num = t.num)
    (hsum : s.sum = t.sum) (ha : s.num = 2 → s.a = t.a) :
    (str.foldl twovalueStep s).num = (str.foldl twovalueStep t).num ∧
      (str.foldl twovalueStep s).sum = (str.foldl twovalueStep t).sum ∧
      ((str.foldl twovalueStep s).num = 2 →
        (str.foldl twovalueStep s).a = (str.foldl twovalueStep t).a) := by
  induction str generalizing s t with
  | nil => exact ⟨hnum, hsum, ha⟩
  | cons c rest ih =>
      rw [List.foldl_cons, List.foldl_cons]
      unfold twovalueStep
      cases valDig c with
      | none =>
          simp only [← hnum, ← hsum]
          split
          · exact ih rfl rfl fun _ => rfl
          · exact ih hnum hsum ha
      | some v => exact ih hnum (by simp only [hsum]) ha

/-- The numbers that are printed are those of the segment. -/
theorem numberText_twovalue {str : List UInt8} (h : ReadsNumber str) (a b : Int) :
    numberText (twovalue str str.length a b) = numberText (twovalue str str.length 0 0) := by
  obtain ⟨hnum, hsum, ha⟩ := @foldl_twovalueStep_junk str ⟨1, 0, 0, 0⟩ ⟨1, 0, a, b⟩ rfl rfl
    fun h => absurd h (by decide)
  unfold ReadsNumber at h
  simp only [twovalue, map_charAt_length, ← hsum]
  by_cases hzero : (str.foldl twovalueStep ⟨1, 0, 0, 0⟩).sum = 0
  · simp only [hzero, ite_true, numberText, ← ha h]
    rfl
  · simp only [hzero, ite_false, numberText, ← hnum, h, ite_true, ← ha h]

end CiteParser
