import CiteParser.Core.CString
import CiteParser.Text.Chars
import Mathlib.Data.List.GetD

/-!
# Recognisers of words

The recognisers of `crftfun.c`. Each takes the string that starts at the pointer it is
given and a length, which the source uses only as an index bound or as the count of
`strncasecmp`; an index at or past the end of the string reads its terminator. Digit
values are sums of a 32-bit `int`, taken to wrap around.
-/

namespace CiteParser

/-- `str[i]`, the terminator included. -/
def charAt (str : List UInt8) (i : Nat) : UInt8 := str.getD i 0

/-- The characters that a loop over the first indices reads. -/
theorem map_charAt (str : List UInt8) {n : Nat} (h : n ≤ str.length) :
    (List.range n).map (charAt str) = str.take n := by
  apply List.ext_getElem
  · rw [List.length_map, List.length_range, List.length_take_of_le h]
  · intro i hi _
    rw [List.length_map, List.length_range] at hi
    rw [List.getElem_map, List.getElem_range, List.getElem_take, charAt,
      List.getD_eq_getElem _ _ (by omega)]

/-- A loop up to the length reads the whole string. -/
theorem map_charAt_length (str : List UInt8) : (List.range str.length).map (charAt str) = str := by
  rw [map_charAt str (Nat.le_refl _), List.take_length]

def digitlen (str : List UInt8) (len : Nat) : Nat :=
  (List.range len).countP fun i => digitLike (charAt str i)

/-- 0 without digits, 1 with some, 2 with nothing else. -/
def puredigit (str : List UInt8) (len : Nat) : Nat :=
  let sum := (List.range len).countP fun i => digitLike (charAt str i)
  if sum = 0 then 0 else if sum < len then 1 else 2

/-- The value that a 32-bit `int` holds. -/
def int32 (n : Int) : Int := n.bmod (2 ^ 32)

/-- The loop of `valofdigit` over the characters still to be read. -/
def valofdigitFrom : List UInt8 → Int → Int
  | [], sum => sum
  | c :: rest, sum =>
      match valDig c with
      -- one or two characters at the end may be no digits
      | none => if rest.length + 1 ≤ 2 then sum else 0
      | some v => valofdigitFrom rest (int32 (sum * 10 + v))

def valofdigit (str : List UInt8) (len : Nat) : Int :=
  valofdigitFrom ((List.range len).map (charAt str)) 0

/-- The variables of `twovalue`; `a` and `b` are what the pointers point at. -/
structure TwoValue where
  num : Nat
  sum : Int
  a : Int
  b : Int
  deriving DecidableEq, Repr

def twovalueStep (s : TwoValue) (c : UInt8) : TwoValue :=
  match valDig c with
  | none => if s.num = 1 ∧ 0 < s.sum then { s with num := 2, a := s.sum, sum := 0 } else s
  | some v => { s with sum := int32 (s.sum * 10 + v) }

/-- `twovalue(str, len, &a, &b)` with what the two variables held before. -/
def twovalue (str : List UInt8) (len : Nat) (a b : Int) : TwoValue :=
  let s := ((List.range len).map (charAt str)).foldl twovalueStep ⟨1, 0, a, b⟩
  if s.sum = 0 then { s with num := 1 } else { s with b := s.sum }

def yearlike (str : List UInt8) : Nat :=
  if ((charAt str 0 == '1'.toUInt8 && charAt str 1 == '9'.toUInt8) ||
      (charAt str 0 == '2'.toUInt8 && charAt str 1 == '0'.toUInt8)) &&
      digitLike (charAt str 2) && digitLike (charAt str 3) then 1
  else 0

/-- The counters of `strfeature`: upper case, not upper case, first letter alone. -/
structure CaseCount where
  hc : Nat
  lc : Nat
  fl : Bool
  deriving DecidableEq, Repr

/-- A pass of `strfeature`; the source tests `str[0]` in every one of them. -/
def strfeatureStep (str : List UInt8) (s : CaseCount) : CaseCount :=
  let s := if isUppercaseCode (charAt str 0) then { s with hc := s.hc + 1, fl := false } else s
  if isLowercaseCode (charAt str 0) then { s with lc := s.lc + 1 } else s

def strfeature (str : List UInt8) (len : Nat) : Nat :=
  let start : CaseCount :=
    if isUppercaseCode (charAt str 0) then ⟨1, 0, true⟩ else ⟨0, 1, false⟩
  let s := (List.range (len - 1)).foldl (fun s _ => strfeatureStep str s) start
  if s.fl then 2
  else if 0 < s.hc then if 0 < s.lc then 3 else 0
  else if 0 < s.lc then 1 else 4

def months : List (List UInt8) :=
  ["January", "February", "March", "April", "May", "June", "July", "August", "September",
    "October", "November", "December"].map bytes

def monthlike (str : List UInt8) : Nat :=
  let hit := months.findSome? fun kwd =>
    if strncasecmpEq kwd.length str kwd then some 1
    else if strncasecmpEq 3 kwd str then some 2
    else none
  match hit with
  | some n => n
  | none => if strncasecmpEq 4 (bytes "Sept") str then 2 else 0

/-- A chain of `if(test) return value;` that ends in `return 0;`. -/
def firstOf (tests : List (Bool × Nat)) : Nat :=
  match tests.find? (·.1) with
  | some t => t.2
  | none => 0

def vollkwd (str : List UInt8) (len : Nat) : Nat :=
  firstOf
    [(strcasecmpEq str (bytes "vol"), 3), (strcasecmpEq str (bytes "voI"), 3),
      (strcasecmpEq str (bytes "v"), 3), (strncasecmpEq 6 str (bytes "volume"), 1),
      (strcasecmpEq str (bytes "number"), 2), (strcasecmpEq str (bytes "num"), 2),
      (strcasecmpEq str (bytes "No"), 4), (len == 1 && charAt str 0 == 'n'.toUInt8, 4),
      (strcasecmpEq str (bytes "article"), 1)]

def pagekwd (str : List UInt8) : Nat :=
  firstOf
    [(strncasecmpEq 2 str (bytes "pp"), 1), (strcasecmpEq str (bytes "p"), 1),
      (strncasecmpEq 4 str (bytes "page"), 1)]

def edsFlag (str : List UInt8) (len : Nat) : Nat :=
  if len < 2 then 0
  else if strncasecmpEq len str (bytes "ed") then 1
  else if strncasecmpEq len str (bytes "cd") then 1
  else if len < 3 then 0
  else if strncasecmpEq len str (bytes "eds") then 1
  else if len < 6 then 0
  else firstOf
    [(strncasecmpEq len str (bytes "editor"), 1), (strncasecmpEq len str (bytes "editors"), 1)]

/-- 1 for "in", 2 to 4 for the ways of writing "proceedings". -/
def procFlag (str : List UInt8) (len : Nat) : Nat :=
  if len < 2 then 0
  else if strncasecmpEq len str (bytes "in") then 1
  else if len < 4 then 0
  else firstOf
    [(strncasecmpEq len str (bytes "proc"), 2), (strncasecmpEq len str (bytes "proceeding"), 3),
      (strncasecmpEq len str (bytes "proceedings"), 4)]

def specialFlag (str : List UInt8) : Nat :=
  firstOf
    [(strncasecmpEq 3 str (bytes "ISO"), 1), (strncasecmpEq 4 str (bytes "IEEE"), 2),
      (strncasecmpEq 3 str (bytes "ACM"), 3), (strncasecmpEq 2 str (bytes "pp"), 10),
      (strcasecmpEq str (bytes "p"), 11), (strcasecmpEq str (bytes "pages"), 12),
      (strcasecmpEq str (bytes "page"), 13), (strncasecmpEq 4 str (bytes "http"), 20),
      (strncasecmpEq 4 str (bytes "ftp"), 21), (strncasecmpEq 4 str (bytes "www"), 22),
      (strncasecmpEq 5 str (bytes "Press"), 30), (strncasecmpEq 10 str (bytes "Publishing"), 31),
      (strncasecmpEq 9 str (bytes "Publisher"), 32), (str == bytes "Pub", 32),
      (strncasecmpEq 11 str (bytes "ISBN"), 40), (strncasecmpEq 9 str (bytes "technical"), 50),
      (strcasecmpEq str (bytes "tech"), 50), (strncasecmpEq 9 str (bytes "request"), 52),
      (strcasecmpEq str (bytes "rfc"), 53), (str == bytes "TR", 54),
      (strncasecmpEq 6 str (bytes "report"), 55), (strcasecmpEq str (bytes "rept"), 55),
      (strcasecmpEq str (bytes "rpt"), 55), (strcasecmpEq str (bytes "Thesis"), 25),
      (strncasecmpEq 5 str (bytes "group"), 56), (strncasecmpEq 9 str (bytes "research"), 51),
      (strncasecmpEq 10 str (bytes "communications"), 60), (strncasecmpEq 3 str (bytes "MIT"), 70),
      (strncasecmpEq 3 str (bytes "lab"), 71), (strcasecmpEq str (bytes "Library"), 72),
      (strcasecmpEq str (bytes "Laboratory"), 73), (strcasecmpEq str (bytes "Center"), 74),
      (strcasecmpEq str (bytes "institute"), 75), (strcasecmpEq str (bytes "association"), 76),
      (strcasecmpEq str (bytes "Corporation"), 77), (str == bytes "Co", 77),
      -- the source has a soft hyphen in this word
      (strcasecmpEq str (bytes "Organiza\u00adtion"), 78),
      (strncasecmpEq 7 str (bytes "Journal"), 79), (strncasecmpEq 10 str (bytes "conference"), 90),
      (strcasecmpEq str (bytes "conf"), 90), (strcasecmpEq str (bytes "of"), 80)]

def deptFlag (str : List UInt8) (len : Nat) : Nat :=
  firstOf [(strncmpEq len str (bytes "Dept"), 2), (strncasecmpEq len str (bytes "Department"), 1)]

def uniFlag (str : List UInt8) (len : Nat) : Nat :=
  firstOf [(strncasecmpEq 9 str (bytes "universit"), 1), (strncasecmpEq len str (bytes "univ"), 1)]

def ltdFlag (str : List UInt8) : Nat :=
  firstOf
    [(strncasecmpEq 3 str (bytes "ltd"), 1), (strncasecmpEq 3 str (bytes "Itd"), 1),
      (strncasecmpEq 3 str (bytes "inc"), 2), (strncasecmpEq 3 str (bytes "lnc"), 2),
      (strcasecmpEq str (bytes "Limited"), 3)]

def isArticle (str : List UInt8) (len : Nat) : Nat :=
  firstOf
    [(strncasecmpEq len str (bytes "A"), 1), (strncasecmpEq len str (bytes "AN"), 1),
      (strncasecmpEq len str (bytes "The"), 1), (strncasecmpEq len str (bytes "On"), 2)]

def domainFlag (str : List UInt8) : Nat :=
  firstOf
    [(str == bytes "net", 1), (str == bytes "edu", 1), (str == bytes "com", 1),
      (str == bytes "uk", 1), (str == bytes "ac", 1), (str == bytes "html", 1),
      (str == bytes "gov", 1)]

/-- 1 for an initial or a capitalised word, 2 for "and". -/
def namelike (str : List UInt8) (len : Nat) (next : UInt8) (type : Nat) : Nat :=
  firstOf
    [(len == 1 && isUppercaseCode (charAt str 0) &&
        (next == '.'.toUInt8 || next == ','.toUInt8), 1),
      (decide (1 < len) && type == 2, 1), (strcasecmpEq str (bytes "and"), 2)]

/-- The loop of `conferencelike`: the two counters, or the early `return 0`. -/
def conferencelikeFrom : List UInt8 → Nat → Nat → Nat
  | [], containC, _ => containC
  | c :: rest, containC, wc =>
      let containC := if c == 'C'.toUInt8 then 1 else containC
      let wc := if isUppercaseCode c then wc else wc + 1
      if 1 < wc then 0 else conferencelikeFrom rest containC wc

def conferencelike (str : List UInt8) (len : Nat) : Nat :=
  if len < 3 ∨ 6 < len then 0
  else conferencelikeFrom ((List.range len).map (charAt str)) 0 0

end CiteParser
