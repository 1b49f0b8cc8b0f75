import CiteParser.Core.Loop
import CiteParser.Core.Segment
import CiteParser.Text.Chars

/-!
# The tokeniser

`spilitContent` of `strHandle.c`, statement by statement. A pointer argument is the
memory seen from it, so `src i` is `src[i]` of the source for every index, inside the
given length or not. The main loop has four exits; they are kept apart, because the
value returned and the delimiters reported depend on which one was taken.
-/

namespace CiteParser

open Loop

/-- The variables of the main loop of `spilitContent`; `dest` is `dest[0..j)`. -/
structure SplitState where
  i : Nat
  flag : Bool
  connect : Bool
  datatype : Nat
  dest : List UInt8
  predeli : UInt8
  nextdeli : UInt8
  deriving DecidableEq, Repr

def SplitState.init : SplitState :=
  ⟨0, false, false, 0, [], ' '.toUInt8, ' '.toUInt8⟩

/-- The scan for a connector behind a delimiter: `some k` when the one at `k` ends it. -/
def connectAhead (src : Nat → UInt8) : Nat → Nat → Option Nat
  | 0, _ => none
  | n + 1, k =>
      if isAsciiOrDigit (src k) then none
      else if isConnectCh (src k) then some k
      else if isDelimiter (src k) && !isBlank (src k) then none
      else connectAhead src n (k + 1)

/-- The branches of a pass after its connector test, which has set `connect`: either
the state with which the pass reaches its end, or the state in which it breaks. -/
def splitBranch (src : Nat → UInt8) (len : Nat) (s : SplitState) :
    Outcome SplitState SplitState :=
  if !s.flag then
    if !isDelimiter (src s.i) then .next { s with dest := [], flag := true }
    else if !isBlank (src s.i) then .next { s with predeli := src s.i }
    else .next s
  else if isDelimiter (src s.i) && !s.connect then
    match connectAhead src (len - (s.i + 1)) (s.i + 1) with
    | some k => .next { s with connect := true, i := k }
    | none => .exit { s with nextdeli := src s.i }
  else if s.datatype != 0 && checkCharType (src s.i) != 0 &&
      checkCharType (src s.i) != s.datatype then
    .exit s
  else
    .next s

/-- The tests of a pass, from its connector test on. -/
def splitTest (src : Nat → UInt8) (len : Nat) (s : SplitState) :
    Outcome SplitState SplitState :=
  if isConnectCh (src s.i) && decide (0 < s.i) && digitLike (src (s.i + 1)) then
    -- a hyphen before a digit ends the token, whether or not one has started
    .exit { s with connect := false, nextdeli := '-'.toUInt8 }
  else
    splitBranch src len { s with connect := s.connect || isConnectCh (src s.i) }

/-- The end of a pass: separators are passed over, any other character is stored.
Leaving with `error` is the early `return 0` taken when `dest` is full. -/
def splitStore (dlen : Nat) (src : Nat → UInt8) (s : SplitState) :
    Outcome SplitState (Except SplitState SplitState) :=
  if isDelimiter (src s.i) || isConnectCh (src s.i) then
    .next { s with i := s.i + 1 }
  else if dlen ≤ s.dest.length then
    .exit (.error s)
  else
    .next { s with
      i := s.i + 1
      datatype := checkCharType (src s.i)
      dest := s.dest ++ [src s.i]
      connect := false }

/-- One pass through the main loop of `spilitContent`, its guard included. -/
def splitPass (dlen : Nat) (src : Nat → UInt8) (len : Nat) (s : SplitState) :
    Outcome SplitState (Except SplitState SplitState) :=
  if len ≤ s.i then .exit (.ok s)
  else
    match splitTest src len s with
    | .next t => splitStore dlen src t
    | .exit e => .exit (.ok e)

/-- The scan for the next delimiter when the main loop has reported none. -/
def nextDelimiter (src : Nat → UInt8) : Nat → Nat → UInt8 → Nat × UInt8
  | 0, i, nextdeli => (i, nextdeli)
  | n + 1, i, nextdeli =>
      if isAsciiOrDigit (src i) then (i, nextdeli)
      else if !isBlank (src i) && !isConnectCh (src i) then (i, src i)
      else nextDelimiter src n (i + 1) nextdeli

/-- The final loop: pass over delimiters, keeping in `np` the last one not blank. -/
def skipDelimiters (src : Nat → UInt8) : Nat → Nat → UInt8 → Nat × UInt8
  | 0, i, np => (i, np)
  | n + 1, i, np =>
      if !isDelimiter (src i) then (i, np)
      else skipDelimiters src n (i + 1) (if isBlank (src i) then np else src i)

/-- What a call leaves behind: the returned index, `dest` up to its terminator, and
the three characters reported through pointers. -/
structure SplitResult where
  ret : Nat
  dest : List UInt8
  predeli : UInt8
  nextdeli : UInt8
  np : UInt8
  deriving DecidableEq, Repr

/-- The statements of `spilitContent` after its main loop. -/
def splitFinish (src : Nat → UInt8) (len : Nat) (np : UInt8) :
    Except SplitState SplitState → SplitResult
  | .error s => ⟨0, s.dest, s.predeli, s.nextdeli, np⟩
  | .ok s =>
      if !s.flag then ⟨0, s.dest, s.predeli, s.nextdeli, np⟩
      else
        let found :=
          if isBlank s.nextdeli then nextDelimiter src (len - s.i) s.i s.nextdeli
          else (s.i, s.nextdeli)
        let rest := skipDelimiters src (len - found.1) found.1 np
        ⟨rest.1, s.dest, s.predeli, found.2, rest.2⟩

/-- How the main loop of `spilitContent` is left. -/
def splitLoop (dlen : Nat) (src : Nat → UInt8) (len : Nat) : Except SplitState SplitState :=
  (run (splitPass dlen src len) (len + 1) .init).getD (.ok .init)

/-- `spilitContent(dest, dlen, src, len, predeli, nextdeli, np)`, where `np` is what the
last pointer holds before the call. -/
def spilitContent (dlen : Nat) (src : Nat → UInt8) (len : Nat) (np : UInt8) : SplitResult :=
  splitFinish src len np (splitLoop dlen src len)

/-- `spilitStr`: the starts of the pieces of a token, closed by its length. -/
def spilitStr (str : List UInt8) : List Nat :=
  let step := fun (acc : List Nat × Option Nat × Nat) (c : UInt8) =>
    let ntype := charType c
    let flg := if some ntype ≠ acc.2.1 ∧ acc.2.1 ≠ some 1 then acc.1 ++ [acc.2.2] else acc.1
    (flg, some ntype, acc.2.2 + 1)
  (str.foldl step ([], none, 0)).1 ++ [str.length]

end CiteParser
