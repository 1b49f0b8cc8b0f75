import CiteParser.Core.CString
import CiteParser.Core.Trim

/-!
# Reading a configuration file

`ini_parse_file` of `ini.c` reads a file line by line, calls a handler for each entry and returns
the number of the first line that it cannot read or that the handler refuses. A line that is longer
than its buffer is read as several.
-/

namespace CiteParser.Ini

/-- `INI_MAX_LINE`, the size of the buffer for a line. -/
def iniMaxLine : Nat := 200

/-- `MAX_SECTION`. -/
def maxSection : Nat := 50

/-- `MAX_NAME`. -/
def maxName : Nat := 50

/-- The byte order mark of UTF-8. -/
def bom : List UInt8 := [0xef, 0xbb, 0xbf]

/-! ## The characters of a line -/

/-- `isspace` in the C locale. -/
def isspace (c : UInt8) : Bool := c == 32 || 9 ≤ c && c ≤ 13

/-- `rstrip`. -/
def rstrip (s : List UInt8) : List UInt8 := s.rdropWhile isspace

/-- `lskip`. -/
def lskip (s : List UInt8) : List UInt8 := s.dropWhile isspace

/-- `find_char_or_comment`: what it goes over, and what starts at the pointer it returns. -/
def findCharOrComment (c : UInt8) : Bool → List UInt8 → List UInt8 × List UInt8
  | _, [] => ([], [])
  | was_whitespace, d :: s =>
      if d = c ∨ was_whitespace = true ∧ d = ';'.toUInt8 then ([], d :: s)
      else
        (d :: (findCharOrComment c (isspace d) s).1, (findCharOrComment c (isspace d) s).2)

/-- `strncpy0`: what is left of a string in an array of `size` bytes. -/
def strncpy0 (src : List UInt8) (size : Nat) : List UInt8 := src.take (size - 1)

/-! ## The loop over the lines -/

/-- The lines that `fgets` gives, behind the bytes `line` of the first of them. -/
def fgetsLines (line : List UInt8) : List UInt8 → List (List UInt8)
  | [] => if line = [] then [] else [line]
  | c :: s =>
      if c = 10 ∨ line.length + 2 = iniMaxLine then (line ++ [c]) :: fgetsLines [] s
      else fgetsLines (line ++ [c]) s

/-- The variables of `ini_parse_file`, with what the handler has made of `user`. -/
structure IniState (U : Type*) where
  user : U
  sectionName : List UInt8
  prev_name : List UInt8
  lineno : Nat
  error : Nat

/-- A section, a name and a value: what the handler is called with. -/
structure IniCall where
  sectionName : List UInt8
  name : List UInt8
  value : List UInt8

namespace IniState

variable {U : Type*}

/-- The line is the first that is at fault, or not. -/
def fault (st : IniState U) : IniState U :=
  { st with error := if st.error = 0 then st.lineno else st.error }

/-- The handler is called, and the line is at fault if it returns 0. -/
def call (handler : U → IniCall → U × Bool) (st : IniState U) (name value : List UInt8) :
    IniState U :=
  let called := handler st.user ⟨st.sectionName, name, value⟩
  if called.2 then { st with user := called.1 } else fault { st with user := called.1 }

/-- The body of the loop. -/
def line (handler : U → IniCall → U × Bool) (st : IniState U) (line : List UInt8) :
    IniState U :=
  let st := { st with lineno := st.lineno + 1 }
  let line := cstr line
  let begin := if st.lineno = 1 ∧ bom <+: line then line.drop 3 else line
  let stripped := rstrip begin
  let start := lskip stripped
  if start.head? = some ';'.toUInt8 ∨ start.head? = some '#'.toUInt8 then st
  else if st.prev_name ≠ [] ∧ start ≠ [] ∧
      -- `start > line`
      0 < (line.length - begin.length) + (stripped.length - start.length) then
    st.call handler st.prev_name start
  else if start.head? = some '['.toUInt8 then
    let (name, rest) := findCharOrComment ']'.toUInt8 false start.tail
    if rest.head? = some ']'.toUInt8 then
      { st with sectionName := strncpy0 name maxSection, prev_name := [] }
    else st.fault
  else if start ≠ [] ∧ start.head? ≠ some ';'.toUInt8 then
    let found := findCharOrComment '='.toUInt8 false start
    let (name, rest) :=
      if found.2.head? ≠ some '='.toUInt8 then findCharOrComment ':'.toUInt8 false start
      else found
    if rest.head? = some '='.toUInt8 ∨ rest.head? = some ':'.toUInt8 then
      let name := rstrip name
      let value := lskip rest.tail
      let (shown, comment) := findCharOrComment 0 false value
      let value := rstrip (if comment.head? = some ';'.toUInt8 then shown else value)
      { st with prev_name := strncpy0 name maxName }.call handler name value
    else st.fault
  else st

end IniState

/-- `ini_parse_file`: what becomes of `user`, and the value returned. -/
def iniParseFile {U : Type*} (handler : U → IniCall → U × Bool) (user : U) (file : List UInt8) :
    U × Nat :=
  let st := (fgetsLines [] file).foldl (IniState.line handler) ⟨user, [], [], 0, 0⟩
  (st.user, st.error)

/-- `ini_parse`, of a file that can be opened or not. -/
def iniParse {U : Type*} (handler : U → IniCall → U × Bool) (user : U) :
    Option (List UInt8) → U × Int
  | none => (user, -1)
  | some file => ((iniParseFile handler user file).1, (iniParseFile handler user file).2)

end CiteParser.Ini
