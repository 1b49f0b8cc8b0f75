import CiteParser.Core.CString

/-!
# The dictionaries

`map[0]` to `map[9]` of `dict.c` as loaded from the database. A value is a `double`;
it is represented by the rational number it stands for. The copy buffers of the source
are as long as the names looked up here.
-/

namespace CiteParser

/-- The loaded hash tables: the value of a name in `map[did]`. -/
abbrev Dict := Nat → List UInt8 → Option Rat

/-- The shortening loop of `hmDictGet`, from a prefix of length `len` down to 4. -/
def hmDictPrefix (map : List UInt8 → Option Rat) (str : List UInt8) : Nat → Rat
  | 0 => 0
  | len + 1 =>
      if 3 < len + 1 then
        match map (str.take (len + 1)) with
        | some v => v
        | none => hmDictPrefix map str len
      else 0

/-- The value of a name, or of the longest of its prefixes that is one. -/
def hmDictGet (dict : Dict) (did : Nat) (str : List UInt8) : Rat :=
  match dict did str with
  | some v => v
  | none => hmDictPrefix (dict did) str (str.length - 1)

/-- `strCaseTransfer(str, 1)`. -/
def strCaseTransfer (str : List UInt8) : List UInt8 := str.map toLower

/-- The lookups that ask whether one of some tables knows the lower-case name. -/
def isInDict (tables : List Nat) (dict : Dict) (str : List UInt8) : Nat :=
  (tables.any fun did => hmDictGet dict did (strCaseTransfer str) != 0).toNat

def isNameInDict : Dict → List UInt8 → Nat := isInDict [4, 2, 0]

def isCountryInDict : Dict → List UInt8 → Nat := isInDict [1]

def isFunWordInDict : Dict → List UInt8 → Nat := isInDict [3]

def isPlaceNameInDict : Dict → List UInt8 → Nat := isInDict [6, 8]

def isPublisherInDict : Dict → List UInt8 → Nat := isInDict [7]

/-- The values of `i * 0.2` in `double` arithmetic, for `i` from 0 to 5. -/
def fifths : List Rat :=
  [0, 3602879701896397, 7205759403792794, 10808639105689192, 14411518807585588,
    18014398509481984].map (· / 18014398509481984)

/-- The fifth in which the rate of a last name lies, counted from 1; 0 if in none. -/
def rateLastNameInDict (dict : Dict) (str : List UInt8) : Nat :=
  let r := hmDictGet dict 9 (strCaseTransfer str)
  if r = 0 then 0
  else
    match (List.range 5).find? fun i => fifths.getD i 0 < r ∧ r ≤ fifths.getD (i + 1) 0 with
    | some i => i + 1
    | none => 0

end CiteParser
