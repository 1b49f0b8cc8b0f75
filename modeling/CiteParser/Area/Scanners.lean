import CiteParser.Area.Keys
import CiteParser.Area.LastMatch
import CiteParser.Core.Tracing

/-!
# What the scanners read

The functions of `functionList` and `endFunctionList` once more, each `content[i]` as a read of
its own. The loops of a function are passes of one loop over its control points: a `while`
inside the `for` has a point of its own, and so has the head of the `for`.
-/

namespace CiteParser

open Loop Traced

/-- `content[i]`. -/
def Pcontent.read (T : Pcontent) (i : Int) : Traced Int UInt8 := Traced.read T.char i

/-- The `n` characters from `i` on, as an edit distance reads them. -/
def Pcontent.readWindow (T : Pcontent) : Nat → Int → Traced Int (List UInt8)
  | 0, _ => pure []
  | n + 1, i => do
      let c ← T.read i
      let rest ← T.readWindow n (i + 1)
      pure (c :: rest)

/-- Whether `n` characters from `i` on pass a test; the first that does not ends it. -/
def Pcontent.readAll (T : Pcontent) (test : UInt8 → Bool) : Nat → Int → Traced Int Bool
  | 0, _ => pure true
  | n + 1, i => do
      if test (← T.read i) then T.readAll test n (i + 1) else pure false

/-- `strncmp(a, content + i, strlen(a)) == 0`. -/
def Pcontent.readWord (T : Pcontent) : List UInt8 → Int → Traced Int Bool
  | [], _ => pure true
  | c :: word, i => do
      if (← T.read i) = c then T.readWord word (i + 1) else pure false

/-! ## Page ranges and years -/

/-- The first test of a case of `isPageNumber`. -/
def PageShape.readFits (s : PageShape) (T : Pcontent) (i : Int) : Traced Int Bool :=
  if 5 ≤ s.length then do
    let content ← T.readWindow s.length i
    pure (editDistanceP s.pattern s.length content s.length ≤ 0)
  else do
    if fitPattern 'n'.toUInt8 (← T.read i) then
      if (← T.read (i + 1)) = '-'.toUInt8 then
        T.readAll (fitPattern 'n'.toUInt8) s.right (i + 2)
      else pure false
    else pure false

/-- A case that returns. -/
def PageShape.readAccepts (s : PageShape) (T : Pcontent) (i : Int) : Traced Int Bool := do
  if ← s.readFits T i then
    let left ← T.readWindow s.left i
    let right ← T.readWindow s.right (i + s.left + 1)
    if left.foldl (fun v c => v * 10 + ch2int c) 0 <
        right.foldl (fun v c => v * 10 + ch2int c) 0 then
      return (← T.read (i + s.left)) != ' '.toUInt8
    else pure false
  else pure false

/-- The cases of the `switch` from the limit on, in their order. -/
def readShapes (T : Pcontent) (i limit : Int) : List PageShape → Traced Int Nat
  | [] => pure 0
  | s :: shapes =>
      if (s.length : Int) ≤ limit then do
        if ← s.readAccepts T i then pure s.ret else readShapes T i limit shapes
      else readShapes T i limit shapes

/-- `isPageNumber(content + i, limit)`. -/
def readPageNumber (T : Pcontent) (i limit : Int) : Traced Int Nat :=
  if limit < 3 then pure 0
  else readShapes T i (if 9 < limit then 9 else limit) pageShapes

/-- The loop of `hasPPafterTheOffset`. -/
def pagePass (T : Pcontent) (offend i : Int) : Traced Int (Outcome Int Int) :=
  if i < offend then do
    if fitPattern 'n'.toUInt8 (← T.read i) then
      let pageOffset ← readPageNumber T i (offend - i)
      pure (if pageOffset ≠ 0 then .exit (i + pageOffset + 1) else .next (i + 1))
    else pure (.next (i + 1))
  else pure (.exit 0)

/-- The points of `hasPPafterTheOffset2`: the head of its loop, and that of the loop over `j`. -/
inductive Page2Point where
  | head (i : Int)
  | seek (i j extra : Int)

/-- The loops of `hasPPafterTheOffset2`. What the loop over `j` tests at its end only leads to a
`continue`. -/
def page2Pass (T : Pcontent) (offend : Int) :
    Page2Point → Traced Int (Outcome Page2Point Int)
  | .head i =>
      if i < offend then do
        let c ← T.read i
        if c = 'p'.toUInt8 ∨ c = 'P'.toUInt8 then
          let d ← T.read (i + 1)
          if d = 'p'.toUInt8 ∨ d = 'P'.toUInt8 ∨ d = '.'.toUInt8 then
            pure (.next (.seek i 3 0))
          else
            let content ← T.readWindow 4 i
            pure (.next (if editDistanceS (bytes "page") 4 content 4 ≤ 1 then .seek i 4 1
              else .head (i + 1)))
        else pure (.next (.head (i + 1)))
      else pure (.exit 0)
  | .seek i j extra => do
      if fitPattern 'n'.toUInt8 (← T.read (i + j)) then
        let pageOffset ← readPageNumber T (i + j) (offend - i - j)
        pure (.exit (if pageOffset ≠ 0 then i + j + pageOffset + extra else i + j + 1))
      else pure (if offend - 2 < i + j then .exit 0 else .next (.seek i (j + 1) extra))

/-- The four characters of a year. -/
def readYear (T : Pcontent) (i : Int) : Traced Int Bool := do
  let c ← T.read i
  if c = '1'.toUInt8 ∨ c = '2'.toUInt8 ∨ c = '~'.toUInt8 then
    let d ← T.read (i + 1)
    if (c == '1'.toUInt8 && d == '9'.toUInt8) || (c == '2'.toUInt8 && d == '0'.toUInt8) ||
        (c == '~'.toUInt8 && d == '9'.toUInt8) then
      if fitPattern 'n'.toUInt8 (← T.read (i + 2)) then
        return fitPattern 'n'.toUInt8 (← T.read (i + 3))
      else pure false
    else pure false
  else pure false

/-- The loop of `hasYearafterTheOffset`. -/
def yearPass (T : Pcontent) (offend i : Int) : Traced Int (Outcome Int Int) :=
  if i < offend - 3 then do
    if ← readYear T i then pure (.exit (i + 4)) else pure (.next (i + 1))
  else pure (.exit 0)

/-! ## Names and locations -/

/-- What the finders of names and of locations differ in: the characters that may follow the
word, whether the character behind the blanks must be a capital for the loop not to go on, the
tests of two characters there, and whether the next delimiter is sought if they fail. A word
ends before the character that follows it, and two characters that pass end with a delimiter
where one would be sought. -/
structure NameShape where
  follows : UInt8 → Bool
  capital : Bool
  first : UInt8 → Bool
  second : UInt8 → Bool
  seeks : Bool
  not_letter : ∀ c, follows c = true → fitPattern 'a'.toUInt8 c = false
  delimits : seeks = true → ∀ c, second c = true → fitPattern 'e'.toUInt8 c = true

/-- The points of these finders: the head of the loop with `tag`, the word, the blanks behind it,
and the search for a delimiter. -/
inductive NamePoint where
  | head (i tag : Int)
  | word (i tag : Int)
  | blanks (i tag : Int)
  | search (i : Int)

/-- The loops of `hasNameafterTheOffset0`, its siblings and `hasLocationafterTheOffset`. -/
def findNamePass (N : NameShape) (T : Pcontent) (offend : Int) :
    NamePoint → Traced Int (Outcome NamePoint Int)
  | .head i tag =>
      if i < offend then do
        let i := if 1 < i - tag then i - 1 else i
        if isUppercaseCode (← T.read i) then pure (.next (.word i i))
        else pure (.next (.head (i + 1) i))
      else pure (.exit 0)
  | .word i tag => do
      let c ← T.read i
      if fitPattern 'a'.toUInt8 c then
        pure (if offend - 3 < i + 1 then .exit 0 else .next (.word (i + 1) tag))
      else
        pure (.next (if 1 ≤ i - tag ∧ N.follows c = true then .blanks (i + 1) tag
          else .head (i + 1) tag))
  | .blanks i tag => do
      let c ← T.read i
      if c = ' '.toUInt8 then
        pure (if offend - 2 < i + 1 then .exit 0 else .next (.blanks (i + 1) tag))
      else if N.capital && !isUppercaseCode c then pure (.next (.head (i + 1) tag))
      else
        let fails := if N.seeks then NamePoint.search i else .head (i + 1) tag
        if N.first c then
          if N.second (← T.read (i + 1)) then pure (.exit (i + 2)) else pure (.next fails)
        else pure (.next fails)
  | .search i => do
      let c ← T.read i
      if !fitPattern 'e'.toUInt8 c && c != ' '.toUInt8 then pure (.next (.search (i + 1)))
      else pure (.exit i)

/-- `XXXX, X.` -/
def nameShape0 : NameShape where
  follows c := c == ','.toUInt8
  capital := true
  first := fitPattern 'a'.toUInt8
  second c := c == '.'.toUInt8
  seeks := false
  not_letter := by decide +kernel
  delimits := by simp

def nameShape1 : NameShape where
  follows c := c == ','.toUInt8 || c == '.'.toUInt8 || c == ' '.toUInt8
  capital := true
  first := fitPattern 'a'.toUInt8
  second := fitPattern 'e'.toUInt8
  seeks := true
  not_letter := by decide +kernel
  delimits := fun _ _ h => h

def nameShape2 : NameShape where
  follows c := fitPattern 'e'.toUInt8 c || c == ' '.toUInt8
  capital := false
  first := fitPattern 'a'.toUInt8
  second := fitPattern 'e'.toUInt8
  seeks := true
  not_letter := by decide +kernel
  delimits := fun _ _ h => h

/-- `XXXX, XX` -/
def locationShape : NameShape where
  follows c := fitPattern 'e'.toUInt8 c || c == ' '.toUInt8
  capital := false
  first := isUppercaseCode
  second := isUppercaseCode
  seeks := false
  not_letter := by decide +kernel
  delimits := by simp

/-! ## Numbers of entries -/

/-- What the two finders of numbers differ in: how many characters behind the bracket they look
at, which of these close it and which end the search. -/
structure SeqShape where
  span : Nat
  closes : UInt8 → Bool
  breaks : UInt8 → Bool

/-- The points of these finders: the head of the loop and the digits. -/
inductive SeqPoint where
  | head (i : Int)
  | digits (i : Int)

/-- The loop over `j` behind a bracket at `i`. -/
def readBracket (S : SeqShape) (T : Pcontent) (offend i : Int) :
    Nat → Int → Traced Int (Option Int)
  | 0, _ => pure none
  | n + 1, j =>
      if j < offend then do
        let c ← T.read j
        if S.closes c then pure (if j - i = 1 then none else some j)
        else if S.breaks c then pure none
        else readBracket S T offend i n (j + 1)
      else pure none

/-- The loops of `hasSeqOfTheOffset` and `hasSeqOfTheOffset2`. -/
def seqPass (S : SeqShape) (T : Pcontent) (offend : Int) :
    SeqPoint → Traced Int (Outcome SeqPoint Int)
  | .head i =>
      if i < offend then do
        let c ← T.read i
        if c = '['.toUInt8 ∨ c = '|'.toUInt8 ∨ c = 'r'.toUInt8 then
          match ← readBracket S T offend i S.span (i + 1) with
          | some j => pure (.exit j)
          | none => pure (.next (.head (i + 1)))
        else if fitPattern 'n'.toUInt8 c then pure (.next (.digits (i + 1)))
        else pure (.next (.head (i + 1)))
      else pure (.exit 0)
  | .digits i => do
      let c ← T.read i
      if fitPattern 'n'.toUInt8 c then pure (.next (.digits (i + 1)))
      else if c = '.'.toUInt8 ∨ c = ','.toUInt8 then pure (.exit (i + 1))
      else pure (.next (.head (i + 1)))

def seqShape : SeqShape where
  span := 3
  closes c := c == ']'.toUInt8 || c == '|'.toUInt8
  breaks c := !isDigitCode c && c != 'i'.toUInt8 && c != 'l'.toUInt8 && c != 'O'.toUInt8 &&
    c != 'o'.toUInt8

def seqShape2 : SeqShape where
  span := 5
  closes c := c == ']'.toUInt8 || c == '|'.toUInt8 || c == '!'.toUInt8
  breaks c := (['(', ')', ',', '~', '@', '#', '%', '$', '\x60', '*'].map Char.toUInt8).contains c

/-! ## Keywords and words -/

/-- `TESTMATSTR` or `ETTESTSTR`. -/
def KeyTest.readFits (t : KeyTest) (T : Pcontent) (i : Int) : Traced Int Bool :=
  if t.exactly then T.readWord t.word i
  else do
    let content ← T.readWindow t.word.length i
    pure (editDistanceS t.word t.word.length content t.word.length ≤ 0)

/-- The tests in their order; the first that succeeds returns the end of its word. -/
def readFirstKey (T : Pcontent) (i : Int) : List KeyTest → Traced Int (Option Int)
  | [] => pure none
  | t :: tests => do
      if ← t.readFits T i then pure (some (i + t.word.length)) else readFirstKey T i tests

/-- A loop over the digits from `z` on, as `volumeDigits` has it. -/
def readVolumeDigits (T : Pcontent) (offend tmp : Int) (more : Int → Bool) :
    Nat → Int → Traced Int Int
  | 0, z => pure z
  | n + 1, z => do
      if fitPattern 'n'.toUInt8 (← T.read z) && more z then
        if offend ≤ z + 1 ∨ 2 < z + 1 - tmp then pure (z + 1)
        else readVolumeDigits T offend tmp more n (z + 1)
      else pure z

/-- `23(3)`: a volume and its number, at `i`. -/
def readVolume (T : Pcontent) (offend i : Int) : Traced Int (Outcome Int Int) := do
  let z ← readVolumeDigits T offend i (fun z => z < offend - 2) 3 i
  if offend - 2 ≤ z then pure (.exit 0)
  else if (← T.read z) = '('.toUInt8 then
    let z' ← readVolumeDigits T offend (z + 1) (fun _ => true) 3 (z + 1)
    if offend ≤ z' then pure (.exit 0)
    else if (← T.read z') = ')'.toUInt8 then pure (.exit (z' + 1))
    else pure (.next (i + 1))
  else pure (.next (i + 1))

/-- The loop of `hasSpecialKeyWords`. -/
def specialPass (T : Pcontent) (offend i : Int) : Traced Int (Outcome Int Int) :=
  if i < offend then do
    if (← T.read (i - 1)) = ' '.toUInt8 then
      match ← readFirstKey T i specialKeyWords with
      | some ret => pure (.exit ret)
      | none => readVolume T offend i
    else pure (.next (i + 1))
  else pure (.exit 0)

/-- The points of `hasWords`: the head of its loop, with the value of `key`, and the letters. -/
inductive WordPoint where
  | head (i : Int) (key : UInt8)
  | letters (s : WordRun)

/-- The loops of `hasWords`. -/
def wordPass (T : Pcontent) (offend : Int) : WordPoint → Traced Int (Outcome WordPoint Int)
  | .head i key =>
      pure (if i < offend then .next (.letters ⟨i, 0, 0, key⟩) else .exit 0)
  | .letters s => do
      if fitPattern 'a'.toUInt8 (← T.read s.i) && s.i < offend - 1 then
        let c ← T.read (s.i + 1)
        pure (.next (.letters
          (if s.diff = 0 then ⟨s.i + 1, s.sum + 1, s.diff, c⟩
          else if s.key ≠ c then ⟨s.i + 1, s.sum + 1, s.diff + 1, c⟩
          else ⟨s.i + 1, s.sum + 1, s.diff, s.key⟩)))
      else
        pure (if 4 ≤ s.sum ∧ 2 < s.diff then .exit (s.sum + 1 + s.i)
          else .next (.head (s.i + 1) s.key))

/-! ## The lists of scanners -/

/-- The functions of `functionList` and `endFunctionList`. -/
inductive Scanner where
  | pages
  | pages2
  | years
  | names0
  | names1
  | names2
  | seq
  | seq2
  | keyWords
  | locations
  | words

namespace Scanner

variable (T : Pcontent) (offset limit : Int) (fuel : Nat)

/-- A loop over a window, from the point that its first offset is. -/
def scan {σ : Type} (pass : Pcontent → Int → σ → Traced Int (Outcome σ Int)) (start : Int → σ) :
    Traced Int (Option Int) :=
  runTraced (pass T (defineStartAndEnd T offset limit).2) fuel
    (start (defineStartAndEnd T offset limit).1)

def hasPPafterTheOffset := scan T offset limit fuel pagePass id

def hasPPafterTheOffset2 := scan T offset limit fuel page2Pass .head

def hasYearafterTheOffset := scan T offset limit fuel yearPass id

/-- Before the first pass `tag` is 0, wherever the window begins. -/
def hasNameafterTheOffset0 := scan T offset limit fuel (findNamePass nameShape0) (.head · 0)

def hasNameafterTheOffset1 := scan T offset limit fuel (findNamePass nameShape1) (.head · 0)

def hasNameafterTheOffset2 := scan T offset limit fuel (findNamePass nameShape2) (.head · 0)

def hasLocationafterTheOffset := scan T offset limit fuel (findNamePass locationShape) (.head · 0)

def hasSeqOfTheOffset := scan T offset limit fuel (seqPass seqShape) .head

def hasSeqOfTheOffset2 := scan T offset limit fuel (seqPass seqShape2) .head

def hasSpecialKeyWords := scan T offset limit fuel specialPass id

def hasWords := scan T offset limit fuel wordPass (.head · 0)

/-- A call of a scanner; `none` stands for loops that go on beyond the bound. -/
def call : Scanner → Traced Int (Option Int)
  | pages => hasPPafterTheOffset T offset limit fuel
  | pages2 => hasPPafterTheOffset2 T offset limit fuel
  | years => hasYearafterTheOffset T offset limit fuel
  | names0 => hasNameafterTheOffset0 T offset limit fuel
  | names1 => hasNameafterTheOffset1 T offset limit fuel
  | names2 => hasNameafterTheOffset2 T offset limit fuel
  | seq => hasSeqOfTheOffset T offset limit fuel
  | seq2 => hasSeqOfTheOffset2 T offset limit fuel
  | keyWords => hasSpecialKeyWords T offset limit fuel
  | locations => hasLocationafterTheOffset T offset limit fuel
  | words => hasWords T offset limit fuel

end Scanner

/-- An index of the text, its terminator included. -/
def Pcontent.Holds (T : Pcontent) (i : Int) : Prop := 0 ≤ i ∧ i ≤ T.pclen

/-- A call of the scanner ends, and reads the text only. -/
def ReadsText (T : Pcontent) (f : Scanner) (offset limit : Int) : Prop :=
  ∃ fuel, (f.call T offset limit fuel).val.isSome = true ∧
    ∀ i ∈ (f.call T offset limit fuel).reads, T.Holds i

end CiteParser
