import CiteParser.Features.Dict
import CiteParser.Features.Words
import CiteParser.Text.Tokenise

/-!
# Describing one token

The body that `predftEnQueue` of `citpred.cc` and `ftEnQueue` of `crftfun.c` share: cut
the next token off the text, scan the text it covers for delimiters and fill in a
snapshot. The two copies differ in the token id only, which the training side reads off
the tags and the prediction side leaves unset.
-/

namespace CiteParser

/-- `CrfNodeSnapshot` of `queue.h`; the flags are `int` there. -/
structure CrfNodeSnapshot where
  offset : Nat
  slen : Nat
  str : List UInt8
  mpredeli : UInt8
  nextdeli : UInt8
  predeli : UInt8
  digitl : Nat
  puredigit : Nat
  dval : Int
  strtype : Nat
  yearlike : Nat
  monthlike : Nat
  volumnlike : Nat
  pagelike : Nat
  edsflag : Nat
  speflag : Nat
  procflag : Nat
  namelike : Nat
  isNameDict : Nat
  rLastNameDict : Nat
  isCountryDict : Nat
  isFunWordDict : Nat
  isPlaceNameDict : Nat
  isPubliserDict : Nat
  isArticle : Nat
  deptflag : Nat
  uniflag : Nat
  ltdflag : Nat
  token : Nat
  quotflag : Nat
  pareSflag : Nat
  pareEflag : Nat
  sqbSflag : Nat
  sqbEflag : Nat
  braSflag : Nat
  braEflag : Nat
  stopflag : Nat
  domainflag : Nat
  imprnum : Int
  deriving DecidableEq, Repr, Inhabited

/-- What the scan over a token's text keeps: the digits met so far, the delimiter flags
and the state of the abbreviation test. -/
structure ScanState where
  partStr : List UInt8
  isPublisher : Nat
  quotflag : Nat
  pareSflag : Nat
  pareEflag : Nat
  sqbSflag : Nat
  sqbEflag : Nat
  braSflag : Nat
  braEflag : Nat
  stopflag : Nat
  abbrc : Bool
  abbrl : Nat
  abbrs : Bool
  /-- The first offset that holds no delimiter, which the training side asks for. -/
  tkcheck : Option Nat
  deriving DecidableEq, Repr

def ScanState.init : ScanState :=
  ⟨[], 0, 0, 0, 0, 0, 0, 0, 0, 0, false, 0, false, none⟩

/-- A stop right behind what may be an abbreviation does not count. -/
def ScanState.abbreviated (s : ScanState) : Bool :=
  s.abbrc && (decide (s.abbrl < 6) && s.abbrs || decide (s.abbrl < 3))

/-- The `switch` on a character of the text; `ahead` is the character behind it. -/
def scanSwitch (c ahead : UInt8) (s : ScanState) : ScanState :=
  if c = '\x22'.toUInt8 then { s with quotflag := s.quotflag + 1 }
  else if c = '('.toUInt8 then { s with pareSflag := 1 }
  else if c = ')'.toUInt8 then { s with pareEflag := 1 }
  else if c = '['.toUInt8 then { s with sqbSflag := 1 }
  else if c = ']'.toUInt8 then { s with sqbEflag := 1 }
  else if c = 'I'.toUInt8 ∨ c = 'l'.toUInt8 then
    if isBlank ahead && s.sqbSflag != 0 then { s with sqbEflag := 1 } else s
  else if c = '\x7b'.toUInt8 then { s with braSflag := 1 }
  else if c = '\x7d'.toUInt8 then { s with braEflag := 1 }
  else if c = ','.toUInt8 then
    if s.abbreviated then s else { s with stopflag := if s.stopflag = 2 then 2 else 1 }
  else if c = '.'.toUInt8 then
    if s.abbreviated then s else { s with stopflag := 2 }
  else if c = '!'.toUInt8 ∨ c = '?'.toUInt8 then { s with stopflag := 2 }
  else s

/-- The abbreviation test; `first` says that the character opens the token's text. -/
def scanAbbr (first : Bool) (before c : UInt8) (s : ScanState) : ScanState :=
  let start := { s with abbrl := 0, abbrc := true, abbrs := isUppercaseCode c }
  if first then if isAsciiCode c then start else s
  else if !isAsciiOrDigit before && isAsciiCode c then start
  -- the source asks for c >= 'a' or c <= 'z', which every character meets
  else if s.abbrc then { s with abbrl := s.abbrl + 1 }
  else { s with abbrc := false, abbrl := 0 }

/-- The digits of the token's text are collected and looked up as a publisher. -/
def scanDigits (dict : Dict) (c : UInt8) (s : ScanState) : ScanState :=
  if digitLike c then { s with partStr := s.partStr ++ [c] }
  else if 0 < s.partStr.length then
    { s with
      isPublisher := if s.isPublisher ≠ 0 then 1 else isPublisherInDict dict s.partStr }
  else s

/-- One pass of the scan, at text offset `i` of a token that starts at `cur`. -/
def scanStep (dict : Dict) (content : Nat → UInt8) (cur : Nat) (s : ScanState) (i : Nat) :
    ScanState :=
  let s := scanDigits dict (content i) s
  let s := { s with
    tkcheck := s.tkcheck.or (if isDelimiter (content i) then none else some i) }
  let s := scanSwitch (content i) (content (i + 1)) s
  scanAbbr (i == cur) (content (i - 1)) (content i) s

/-- Two states of the scan that differ in flags only. -/
structure ScanState.SameWords (s t : ScanState) : Prop where
  partStr : t.partStr = s.partStr
  isPublisher : t.isPublisher = s.isPublisher
  abbrc : t.abbrc = s.abbrc
  abbrl : t.abbrl = s.abbrl
  abbrs : t.abbrs = s.abbrs

theorem ScanState.SameWords.ite {c : Prop} [Decidable c] {s t u : ScanState}
    (ht : s.SameWords t) (hu : s.SameWords u) : s.SameWords (if c then t else u) := by
  split
  · exact ht
  · exact hu

/-- The `switch` sets flags only. -/
theorem scanSwitch_sameWords (c ahead : UInt8) (s : ScanState) :
    s.SameWords (scanSwitch c ahead s) := by
  unfold scanSwitch
  repeat' apply ScanState.SameWords.ite
  all_goals exact ⟨rfl, rfl, rfl, rfl, rfl⟩

/-- The offsets the scan visits: one more than the token covers, inside the range. -/
def scanRange (cur offset refAreaEnd : Nat) : List Nat :=
  List.range' cur (min (offset + 1) (refAreaEnd - cur))

def scanText (dict : Dict) (content : Nat → UInt8) (refAreaEnd cur offset : Nat) : ScanState :=
  (scanRange cur offset refAreaEnd).foldl (scanStep dict content cur) .init

/-- The loops that, while a flag is 0, set it again from every later piece in turn. -/
def retryPieces (splen : Nat) (test : Nat → Nat → Nat) (flag : Nat) : Nat :=
  (List.range splen).foldl (fun flag z =>
    if flag = 0 then (List.range' z (splen - z)).foldl (fun _ k => test z k) flag
    else flag) flag

/-- The loops that, while a flag is 0, set it again from the rest behind a piece start. -/
def retryStarts (splen : Nat) (test : Nat → Nat) (flag : Nat) : Nat :=
  (List.range splen).foldl (fun flag z => if flag = 0 then test z else flag) flag

/-- 1 if the second half of a token's digits is larger than the first, -1 if not. -/
def imprnum (str : List UInt8) (slen puredigit : Nat) : Int :=
  if puredigit = 0 then 0
  else
    let vh := valofdigit str (slen / 2)
    let vl := valofdigit (str.drop (slen / 2)) ((slen + 1) / 2)
    if vh = 0 ∨ vl = 0 then 0 else if vh < vl then 1 else -1

/-- The snapshot of the token `r` that starts at `cur`; `tokenId` is what the field
`token` is set to, given the offset of the token's first character. -/
def describe (dict : Dict) (content : Nat → UInt8) (refAreaEnd : Nat)
    (tokenId : Nat → Option Nat → Nat) (cur : Nat) (mpredeli : UInt8) (r : SplitResult) :
    CrfNodeSnapshot :=
  let str := r.str
  let slen := str.length
  let scan := scanText dict content refAreaEnd cur r.ret
  let spstr := spilitStr str
  let splen := spstr.length - 1
  let piece := fun z => str.drop (spstr.getD z 0)
  let width := fun z k => spstr.getD (k + 1) 0 - spstr.getD z 0
  let strtype := strfeature str slen
  let behind := fun k => if k = splen - 1 then r.nextdeli else ' '.toUInt8
  { offset := r.ret
    slen := slen
    str := str
    mpredeli := mpredeli
    nextdeli := r.nextdeli
    -- what spilitContent reported is replaced by the last delimiter before the token
    predeli := mpredeli
    digitl := digitlen str slen
    puredigit := puredigit str slen
    dval := valofdigit str slen
    strtype := strtype
    yearlike := yearlike str
    monthlike := monthlike str
    volumnlike := vollkwd str slen
    pagelike := pagekwd str
    edsflag := edsFlag str slen
    speflag := specialFlag str
    procflag := retryPieces splen (fun z k => procFlag (piece z) (width z k))
      (procFlag str slen)
    namelike := retryPieces splen
      (fun z k => namelike (piece z) (width z k) (behind k) (strfeature (piece z) (width z k)))
      (namelike str slen r.nextdeli strtype)
    isNameDict := retryStarts splen (fun z => isNameInDict dict (piece z))
      (isNameInDict dict str)
    rLastNameDict := retryStarts splen (fun z => rateLastNameInDict dict (piece z))
      (rateLastNameInDict dict str)
    isCountryDict := retryStarts splen (fun z => isCountryInDict dict (piece z))
      (isCountryInDict dict str)
    isFunWordDict := isFunWordInDict dict str
    isPlaceNameDict := retryStarts splen (fun z => isPlaceNameInDict dict (piece z))
      (isPlaceNameInDict dict str)
    isPubliserDict := retryStarts splen (fun z => isPublisherInDict dict (piece z))
      (if isPublisherInDict dict str ≠ 0 ∨ scan.isPublisher ≠ 0 then 1 else 0)
    isArticle := isArticle str slen
    deptflag := deptFlag str slen
    uniflag := retryPieces splen (fun z k => uniFlag (piece z) (width z k)) (uniFlag str slen)
    ltdflag := retryPieces splen (fun z _ => ltdFlag (piece z)) (ltdFlag str)
    token := tokenId cur scan.tkcheck
    quotflag := scan.quotflag
    pareSflag := scan.pareSflag
    pareEflag := scan.pareEflag
    sqbSflag := scan.sqbSflag
    sqbEflag := scan.sqbEflag
    braSflag := scan.braSflag
    braEflag := scan.braEflag
    stopflag := scan.stopflag
    domainflag := domainFlag str
    imprnum := imprnum str slen (puredigit str slen) }

/-- What both copies read besides their queue: the text, the range that ends at
`refAreaEnd`, the dictionaries, what the uninitialised `nextpre` of the call at a text
offset holds, and how the field `token` is set. -/
structure Reference where
  dict : Dict
  content : Nat → UInt8
  refAreaEnd : Nat
  nextpre : Nat → UInt8
  tokenId : Nat → Option Nat → Nat

/-- A text over its whole length, without dictionaries. -/
def plainReference (text : List UInt8) : Reference :=
  ⟨fun _ _ => none, memory text, text.length, fun _ => 0, fun _ _ => 0⟩

/-- The call of `spilitContent` for the token at a text offset. -/
def Reference.token (ref : Reference) (cur : Nat) : SplitResult :=
  tokenAt SINGLEWORDLEN ref.content ref.refAreaEnd ref.nextpre cur

/-- The tokenise-and-describe step at `currentOffset` and `mpredeli`: the snapshot and
the two variables after it, or `none` when `spilitContent` returns 0. -/
def Reference.next (ref : Reference) : Nat × UInt8 → Option (CrfNodeSnapshot × Nat × UInt8)
  | (cur, mpredeli) =>
      let r := ref.token cur
      if r.ret = 0 then none
      else
        some (describe ref.dict ref.content ref.refAreaEnd ref.tokenId cur mpredeli r,
          cur + r.ret, if isBlank r.nextdeli then mpredeli else r.np)

/-- A step that finds a token describes it and moves behind it. -/
theorem Reference.next_eq_some {ref : Reference} {s s' : Nat × UInt8} {t : CrfNodeSnapshot}
    (h : ref.next s = some (t, s')) :
    (ref.token s.1).ret ≠ 0 ∧
      t = describe ref.dict ref.content ref.refAreaEnd ref.tokenId s.1 s.2 (ref.token s.1) ∧
      s' = (s.1 + (ref.token s.1).ret,
        if isBlank (ref.token s.1).nextdeli then s.2 else (ref.token s.1).np) := by
  obtain ⟨cur, mpredeli⟩ := s
  rw [Reference.next, Option.ite_none_left_eq_some, Option.some.injEq, Prod.mk.injEq] at h
  exact ⟨h.1, h.2.1.symm, h.2.2.symm⟩

/-- The snapshots of a range, taken without any queue until `spilitContent` returns 0. -/
def Reference.snapshots (ref : Reference) : Source (Nat × UInt8) CrfNodeSnapshot where
  next := ref.next
  bound s := ref.refAreaEnd - s.1
  bound_lt := by
    intro s a s' h
    obtain ⟨hne, -, rfl⟩ := Reference.next_eq_some h
    have htoken := spilitContent_token hne
    have hpos := htoken.pos
    have hle := htoken.le
    simp only [Reference.token, tokenAt] at hpos hle ⊢
    omega

/-- A snapshot covers the text from its offset to the next one, inside the range. -/
theorem Reference.next_some {ref : Reference} {s s' : Nat × UInt8} {t : CrfNodeSnapshot}
    (h : ref.next s = some (t, s')) :
    s'.1 = s.1 + t.offset ∧ 0 < t.offset ∧ s'.1 ≤ ref.refAreaEnd ∧
      t.str = (ref.token s.1).str ∧ t.slen = t.str.length := by
  obtain ⟨hne, rfl, rfl⟩ := Reference.next_eq_some h
  have htoken := spilitContent_token hne
  have hpos := htoken.pos
  have hle := htoken.le
  simp only [Reference.token, tokenAt] at hpos hle ⊢
  exact ⟨rfl, hpos, by omega, rfl, rfl⟩

/-- The string of a snapshot holds no delimiter and no zero byte. -/
theorem Reference.str_clean {ref : Reference} {s s' : Nat × UInt8} {t : CrfNodeSnapshot}
    (h : ref.next s = some (t, s')) : ∀ c ∈ t.str, isDelimiter c = false ∧ c ≠ 0 := by
  obtain ⟨hne, rfl, -⟩ := Reference.next_eq_some h
  intro c hc
  have hmem : c ∈ cstr (ref.token s.1).dest := hc
  exact ⟨((spilitContent_token hne).stored c ((List.takeWhile_prefix _).subset hmem)).1,
    ne_zero_of_mem_cstr hmem⟩

end CiteParser
