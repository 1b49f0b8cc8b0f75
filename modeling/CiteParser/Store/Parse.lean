import CiteParser.Core.Loop
import CiteParser.Core.Segment
import CiteParser.Store.Tokens

/-!
# Reading an annotated file

`virtualcontent.c`: `parseFile` copies a file to `pcontent` without the tags it recognises
and keeps, for every byte copied, its offset in the file and the packed stack of the elements
that are open there. The counters are `unsigned int`.
-/

namespace CiteParser

def MAX_TOKEN_LENGTH : Nat := 20

/-- The value of an `unsigned int` after an arithmetic operation. -/
def uint (n : Nat) : Nat := n % 2 ^ 32

/-- The static variables of the module. Of `pcontent`, `offset` and `tags` the cells written
are kept; `clen` is the length as `parseFile` reads it back. -/
structure VirtualContent where
  content : Option (Nat → UInt8)
  clen : Nat
  pclen : Nat
  pcontent : List UInt8
  offset : List Nat
  tags : List UInt32
  contentType : Nat
  noparse : Bool

/-- The variables after `initContent`. -/
def initContent : VirtualContent := ⟨none, 0, 0, [], [], [], 0, false⟩

/-- A buffer of `flen + 1` bytes that a file is read into, between whatever else is in
memory. -/
def fileBuffer (text : List UInt8) (flen : Nat) (heap : Nat → UInt8) (i : Nat) : UInt8 :=
  if i < flen then text.getD i 0 else if i = flen then 0 else heap i

/-- `readFileToParse`, `none` where the file cannot be opened: the buffer and the module
after it. -/
def readFileToParse (vc : VirtualContent) (file : Option (List UInt8)) (heap : Nat → UInt8) :
    Option ((Nat → UInt8) × VirtualContent) :=
  file.map fun text =>
    let flen := uint text.length
    let content := fileBuffer text flen heap
    let vc := { vc with content := some content, clen := flen }
    (content,
      if !vc.noparse then { vc with pcontent := [], offset := [], tags := [] }
      else { vc with pcontent := segment content 0 flen, pclen := flen })

/-- `getTokenId(tkname, len)`. -/
def getTokenId (repo : TokenRepo) (tkname : List UInt8) (len : Nat) : Nat :=
  match (List.range TOKEN_MAX_LEN).find? fun i =>
      repo.ac i && len == (repo.tokens i).length && strncmpEq len (repo.tokens i) tkname with
  | some i => token2Id repo (repo.tokens i)
  | none => 0

/-- The search for the end of a tag whose name starts `start` bytes behind the `<` at `i`:
the first length at which a `>` follows the name of a token, and the id of that token. -/
def findTag (repo : TokenRepo) (content : Nat → UInt8) (i start : Nat) : Option (Nat × Nat) :=
  (List.range MAX_TOKEN_LENGTH).findSome? fun j =>
    if content (uint (i + j + start)) = '>'.toUInt8 then
      let tmp := getTokenId repo (segment content (i + start) (i + start + j)) j
      if tmp ≠ 0 then some (j, tmp) else none
    else none

/-- The counter `i`, the stack `nowTag` and what the three arrays hold up to `k`. -/
structure ParseState where
  i : Nat
  nowTag : UInt32
  pcontent : List UInt8
  offset : List Nat
  tags : List UInt32

def ParseState.start : ParseState := ⟨0, 0, [], [], []⟩

/-- The end of the loop body: the byte is copied. -/
def ParseState.copy (s : ParseState) (content : Nat → UInt8) : ParseState :=
  { s with
    i := uint (s.i + 1)
    pcontent := s.pcontent ++ [content s.i]
    offset := s.offset ++ [s.i]
    tags := s.tags ++ [s.nowTag] }

/-- A pass of the loop over `i`; it is left with the value that `parseFile` returns. -/
def parsePass (repo : TokenRepo) (content : Nat → UInt8) (flen : Nat) (s : ParseState) :
    Loop.Outcome ParseState (Nat × ParseState) :=
  if ¬ s.i < flen then .exit (1, s)
  else if content s.i = '<'.toUInt8 then
    if content (uint (s.i + 1)) = '/'.toUInt8 then
      match findTag repo content s.i 2 with
      | some (j, tmp) =>
          -- an end tag that does not fit the innermost element
          if tmp ≠ (tokenPop s.nowTag).1 then .exit (0, s)
          else .next { s with i := uint (s.i + j + 2 + 1), nowTag := (tokenPop s.nowTag).2 }
      | none => .next (s.copy content)
    else
      match findTag repo content s.i 1 with
      | some (j, tmp) =>
          .next { s with i := uint (s.i + j + 1 + 1), nowTag := (tokenPush s.nowTag tmp).2 }
      | none => .next (s.copy content)
  else .next (s.copy content)

/-- What stands at a place of a file. -/
inductive Event where
  | start (id : Nat)
  | stop (id : Nat)
  | char (c : UInt8)
  deriving DecidableEq, Repr

/-- What the bytes at `i` are taken for, and the place behind it. -/
def event (repo : TokenRepo) (content : Nat → UInt8) (i : Nat) : Event × Nat :=
  if content i = '<'.toUInt8 then
    if content (uint (i + 1)) = '/'.toUInt8 then
      match findTag repo content i 2 with
      | some (j, tmp) => (.stop tmp, uint (i + j + 2 + 1))
      | none => (.char (content i), uint (i + 1))
    else
      match findTag repo content i 1 with
      | some (j, tmp) => (.start tmp, uint (i + j + 1 + 1))
      | none => (.char (content i), uint (i + 1))
  else (.char (content i), uint (i + 1))

/-- `parseFile` with the token table that its `tokenInit()` sets up: its value and the module
after it; `none` stands for a loop that goes on beyond the bound. -/
def parseFile (repo : TokenRepo) (vc : VirtualContent) (file : Option (List UInt8))
    (heap : Nat → UInt8) : Option (Nat × VirtualContent) :=
  let vc :=
    if vc.contentType = 1 then { vc with clen := 0, pclen := 0, pcontent := [], content := none }
    else vc
  match readFileToParse vc file heap with
  | none => some (0, vc)
  | some (content, vc) =>
      let vc := { vc with contentType := 2 }
      if vc.noparse then some (1, vc)
      else
        (Loop.run (parsePass repo content vc.clen) (vc.clen + 1) .start).map fun (ret, s) =>
          (ret, { vc with
            pcontent := s.pcontent
            offset := s.offset
            tags := s.tags
            pclen := if ret = 1 then s.pcontent.length + 1 else vc.pclen })

theorem uint_of_lt {n : Nat} (h : n < 2 ^ 32) : uint n = n := Nat.mod_eq_of_lt h

/-- A file that is read whole stands in its buffer. -/
theorem standsAt_fileBuffer (text : List UInt8) (heap : Nat → UInt8) :
    StandsAt (fileBuffer text text.length heap) 0 text := by
  rw [StandsAt, Nat.zero_add]
  apply List.ext_getElem
  · exact length_segment _ 0 _
  · intro k hk hk'
    simp only [segment, List.getElem_map, List.getElem_range', Nat.zero_add, Nat.one_mul,
      fileBuffer, if_pos hk', List.getD_eq_getElem?_getD, List.getElem?_eq_getElem hk',
      Option.getD_some]

/-- What the loop leaves is what `parseFile` leaves. -/
theorem parseFile_eq {repo : TokenRepo} {vc : VirtualContent} {text : List UInt8}
    {heap : Nat → UInt8} (hparse : vc.noparse = false) {ret : Nat} {s : ParseState}
    (hrun : Loop.run (parsePass repo (fileBuffer text (uint text.length) heap)
      (uint text.length)) (uint text.length + 1) .start = some (ret, s)) :
    ∃ vc', parseFile repo vc (some text) heap = some (ret, vc') ∧
      vc'.content = some (fileBuffer text (uint text.length) heap) ∧
      vc'.pcontent = s.pcontent ∧ vc'.offset = s.offset ∧ vc'.tags = s.tags := by
  unfold parseFile readFileToParse
  split <;>
    simp only [Option.map_some, hparse, Bool.not_false, if_true, Bool.false_eq_true, if_false,
      hrun, Option.some.injEq, Prod.mk.injEq, true_and] <;>
    exact ⟨_, rfl, rfl, rfl, rfl, rfl⟩

/-- A file that is accepted has gone through the loop. -/
theorem parseFile_accepts {repo : TokenRepo} {vc vc' : VirtualContent} {text : List UInt8}
    {heap : Nat → UInt8} (hparse : vc.noparse = false)
    (h : parseFile repo vc (some text) heap = some (1, vc')) :
    ∃ s, Loop.run (parsePass repo (fileBuffer text (uint text.length) heap) (uint text.length))
        (uint text.length + 1) .start = some (1, s) ∧
      vc'.tags = s.tags ∧ vc'.pclen = s.pcontent.length + 1 := by
  have hvc : (if vc.contentType = 1 then
      { vc with clen := 0, pclen := 0, pcontent := [], content := none } else vc).noparse =
      false := by
    split
    · exact hparse
    · exact hparse
  unfold parseFile readFileToParse at h
  simp only [Option.map_some, hvc, Bool.not_false, if_true, Bool.false_eq_true, if_false] at h
  obtain ⟨⟨ret, s⟩, hrun, hret⟩ := Option.map_eq_some_iff.mp h
  simp only [Prod.mk.injEq] at hret
  obtain ⟨rfl, rfl⟩ := hret
  exact ⟨s, hrun, rfl, rfl⟩

section Passes

variable {repo : TokenRepo} {content : Nat → UInt8} {flen : Nat} {s : ParseState}

/-- At the end of the file the loop is left with success. -/
theorem parsePass_end (h : ¬ s.i < flen) : parsePass repo content flen s = .exit (1, s) :=
  if_pos h

/-- A pass does what the event at its place asks for. -/
theorem parsePass_eq (hlt : s.i < flen) :
    parsePass repo content flen s =
      match event repo content s.i with
      | (.start id, j) => .next { s with i := j, nowTag := (tokenPush s.nowTag id).2 }
      | (.stop id, j) =>
          if id ≠ (tokenPop s.nowTag).1 then .exit (0, s)
          else .next { s with i := j, nowTag := (tokenPop s.nowTag).2 }
      | (.char c, j) =>
          .next ⟨j, s.nowTag, s.pcontent ++ [c], s.offset ++ [s.i], s.tags ++ [s.nowTag]⟩ := by
  rw [parsePass, event, if_neg (not_not.mpr hlt)]
  by_cases hopen : content s.i = '<'.toUInt8
  · rw [if_pos hopen, if_pos hopen]
    by_cases hslash : content (uint (s.i + 1)) = '/'.toUInt8
    · rw [if_pos hslash, if_pos hslash]
      cases findTag repo content s.i 2 <;> rfl
    · rw [if_neg hslash, if_neg hslash]
      cases findTag repo content s.i 1 <;> rfl
  · rw [if_neg hopen, if_neg hopen]
    rfl

end Passes

end CiteParser
