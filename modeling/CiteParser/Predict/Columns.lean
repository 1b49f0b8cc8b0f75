import CiteParser.Predict.Window

/-!
# The columns of a token

Part 1 of the shared loop body: the 74 columns, numbered as in the comments of the
source. Prediction prints a column into a buffer and appends the buffer as a string;
training prints a label and then the column into a file.
-/

namespace CiteParser

/-- The three values of a pair of delimiters: inside, opened here, closed here. -/
structure Status where
  within : Nat
  opened : Nat
  closed : Nat
  deriving DecidableEq, Repr

/-- The status of brackets: open since a token behind, and the marks of this token. -/
def bracketStatus (depth : Int) (sflag eflag : Nat) : Status :=
  ⟨(decide (0 < depth)).toNat, (sflag == 1).toNat, (eflag == 1).toNat⟩

/-- The status of quotation marks, and `quotTime` after this token. -/
def quotStep (quotTime : Int) (quotflag : Nat) : Status × Int :=
  let time := if quotTime - 1 ≤ 0 then 0 else quotTime - 1
  let inside := (decide (0 < time)).toNat
  let (inside, both, time) :=
    if quotflag % 2 = 1 then
      (1 - inside, 0, if 1 - inside ≠ 0 then 10 else -10)
    else if 0 < quotflag then (inside, 1, 0)
    else (inside, 0, time)
  (⟨inside, if time = 10 then 1 else both, if time = -10 then 1 else both⟩, time)

/-- `%d` of a `char`, which is signed. -/
def decChar (c : UInt8) : List UInt8 :=
  dec (if c.toNat < 128 then c.toNat else (c.toNat : Int) - 256)

/-- `%d` of a test. -/
def decBool (b : Bool) : List UInt8 := dec b.toNat

/-- Values with slashes between them. -/
def slashed (parts : List (List UInt8)) : List UInt8 := (bytes "/").intercalate parts

/-- What the columns of a token are computed from. -/
structure Context where
  pCNS : CrfNodeSnapshot
  lpCNS : Option CrfNodeSnapshot
  npCNS : Option CrfNodeSnapshot
  trav : Traversal
  quot : Status
  pare : Status
  sqb : Status
  bra : Status
  connect : Nat
  deriving DecidableEq, Repr

/-- The string of a neighbour, or none. -/
def combinedStr (pCNS : CrfNodeSnapshot) (npCNS : Option CrfNodeSnapshot) : List UInt8 :=
  pCNS.str ++ (npCNS.map (·.str)).getD []

/-- The updates of `*pCNS` before columns 17 and 18. -/
def updateDicts (dict : Dict) (npCNS : Option CrfNodeSnapshot) (pCNS : CrfNodeSnapshot) :
    CrfNodeSnapshot :=
  let orIn := fun (flag found : Nat) => if flag ≠ 0 ∨ found ≠ 0 then 1 else 0
  let both := combinedStr pCNS npCNS
  { pCNS with
    isPlaceNameDict := orIn pCNS.isPlaceNameDict (isPlaceNameInDict dict both)
    isCountryDict := orIn pCNS.isCountryDict (isCountryInDict dict both)
    isPubliserDict := orIn pCNS.isPubliserDict (isPublisherInDict dict both) }

/-- `phdflag`: behind the word "ph" the source reads the next token unconditionally. -/
def phdFlag (pCNS : CrfNodeSnapshot) (npCNS : Option CrfNodeSnapshot) : Option Bool := do
  let split ←
    if strcasecmpEq (bytes "ph") pCNS.str then
      npCNS.map fun n => charAt n.str 0 == 'D'.toUInt8
    else some false
  return split || strcasecmpEq (bytes "phD") pCNS.str

/-- A token that may be part of a name. -/
def nameFlag (t : CrfNodeSnapshot) : Bool :=
  t.namelike != 0 || t.isNameDict != 0 || decide (0 < t.rLastNameDict)

/-- Column 55: behind the word "in" the source reads the next token unconditionally. -/
def inNameFlag (pCNS : CrfNodeSnapshot) (npCNS : Option CrfNodeSnapshot) : Option Bool :=
  if pCNS.procflag = 1 then npCNS.map nameFlag else some false

/-- Columns 6 and 7: whether `a` is larger than `b`, if the neighbour has a value. -/
def compareDigit (neighbour : Option CrfNodeSnapshot) (larger : CrfNodeSnapshot → Bool) : Int :=
  match neighbour with
  | none => -1
  | some n => if n.dval = 0 then -1 else (larger n).toNat

/-- Column 14. -/
def volumeColumn (t : CrfNodeSnapshot) : Nat :=
  if t.volumnlike < 3 then t.volumnlike
  else if !isBlank t.nextdeli then t.volumnlike - 2
  else 0

/-- Column 70. -/
def etAlColumn (c : Context) : Nat :=
  match c.lpCNS, c.npCNS with
  | some lp, some np =>
      if lp.str = bytes "et" ∧ c.pCNS.str = bytes "al" then 1
      else if c.pCNS.str = bytes "et" ∧ np.str = bytes "al" then 2
      else 0
  | _, _ => 0

/-- Column 71. -/
def noteColumn (c : Context) : Nat :=
  match c.lpCNS, c.npCNS with
  | some _, some np =>
      if c.pCNS.str = bytes "Available" ∨
          (c.pCNS.str = bytes "Submitted" ∧ np.str ≠ bytes "to") ∨
          c.pCNS.str = bytes "Unpublished" ∨ c.pCNS.str = bytes "Published" ∨
          (c.pCNS.str = bytes "To" ∧ np.str = bytes "appear") then 1
      else 0
  | _, _ => 0

/-- Columns 0 to 19. -/
def basicColumns (c : Context) : List (List UInt8) :=
  let t := c.pCNS
  let second := if 1 < t.slen then toLower (charAt t.str 1) else 'X'.toUInt8
  let beforeLast := if 1 < t.slen then toLower (charAt t.str (t.slen - 2)) else 'X'.toUInt8
  -- for an empty token the last character read is the top byte of `slen`, which is 0
  let last := toLower (charAt t.str (t.slen - 1))
  [t.str,
    dec (if t.slen < 7 then t.slen else 9),
    dec t.strtype,
    slashed [[toLower (charAt t.str 0)], [second]],
    slashed [[beforeLast], [last]],
    decBool (decide (0 < t.dval)),
    dec (compareDigit c.lpCNS fun lp => decide (lp.dval < t.dval)),
    dec (compareDigit c.npCNS fun np => decide (t.dval < np.dval)),
    dec t.imprnum,
    dec t.puredigit,
    decChar t.predeli,
    decChar t.mpredeli,
    decChar t.nextdeli,
    decBool (decide (0 < t.yearlike) || decide (0 < t.monthlike)),
    dec (volumeColumn t),
    dec t.pagelike,
    decBool (t.isNameDict != 0 || decide (0 < t.rLastNameDict)),
    decBool (decide (0 < t.isPlaceNameDict) || decide (0 < t.isCountryDict)),
    dec t.isPubliserDict,
    dec t.isFunWordDict]

/-- Columns 20 to 31. -/
def statusColumns (c : Context) : List (List UInt8) :=
  [c.quot, c.pare, c.sqb, c.bra].flatMap fun s => [dec s.within, dec s.opened, dec s.closed]

/-- Columns 32 to 53. -/
def flagColumns (c : Context) (phdflag : Bool) : List (List UInt8) :=
  let t := c.pCNS
  let f := c.trav.flags
  let anyOf := fun (get : Status → Nat) =>
    decBool ([c.quot, c.pare, c.sqb, c.bra].any fun s => get s != 0)
  [dec t.speflag,
    slashed [dec t.stopflag, anyOf (·.within), anyOf (·.opened), anyOf (·.closed)],
    dec f.edsFlag,
    dec t.namelike,
    dec c.trav.nextPDigit,
    slashed [dec c.trav.httpStatus, dec c.trav.domainFlag],
    decBool (t.mpredeli == '['.toUInt8 && c.npCNS.any fun np => np.nextdeli == ']'.toUInt8),
    decBool (t.nextdeli == ']'.toUInt8 && c.trav.seqFlag == 1),
    slashed [dec t.isArticle, dec t.stopflag],
    decBool phdflag,
    dec f.thesisFlag,
    dec f.ltdFlag,
    decBool (t.speflag == 1),
    decBool (t.speflag == 2),
    decBool (t.speflag == 3),
    dec (conferencelike t.str t.slen),
    decBool (f.techFlag != 0 || phdflag || f.repFlag != 0),
    dec f.mitFlag,
    dec t.uniflag,
    dec f.uniFlag,
    slashed [dec (match c.lpCNS with | none => 3 | some lp => lp.stopflag), dec t.uniflag],
    dec c.connect]

/-- Columns 54 to 73. -/
def effectColumns (c : Context) (inName : Bool) : List (List UInt8) :=
  let t := c.pCNS
  let f := c.trav.flags
  let group := decide (0 < f.labFlag) || decide (0 < f.groupFlag) || decide (0 < f.uniFlag)
  [decBool (t.procflag == 1),
    decBool inName,
    dec f.inStatus,
    decBool (f.inStatus != 0 && nameFlag t),
    decBool (t.procflag == 1 || f.procFlag != 0),
    dec f.procFlag,
    dec t.deptflag,
    dec f.pressFlag,
    dec f.confFlag,
    decBool (f.orgFlag != 0 || f.labFlag != 0),
    dec f.groupFlag,
    dec f.labFlag,
    dec c.trav.isbnEffect,
    decBool group,
    slashed [dec t.edsflag, decChar t.nextdeli],
    slashed [dec t.isPubliserDict, decBool (f.pressFlag != 0 && group)],
    dec (etAlColumn c),
    dec (noteColumn c),
    dec f.andFlag,
    dec t.stopflag]

/-- The columns of a token, unless computing them reads through a NULL pointer. -/
def columns (c : Context) : Option (List (List UInt8)) := do
  let phdflag ← phdFlag c.pCNS c.npCNS
  let inName ← inNameFlag c.pCNS c.npCNS
  return basicColumns c ++ statusColumns c ++ flagColumns c phdflag ++ effectColumns c inName

/-- The tab behind every column. -/
def tab : UInt8 := '\t'.toUInt8

/-- `samplestr`, the string handed to `tagger->add`: every column is printed into
`strpart` and appended as far as its first zero byte. -/
def samplestr (cols : List (List UInt8)) : List UInt8 :=
  cols.flatMap fun col => cstr (col ++ [tab])

/-- What `genCRFSampleCtl` prints in front of each column. -/
def sampleLabels : List (List UInt8) :=
  ["", "串长/", "类型/", "前缀/", "后缀/", "数值/", "比前值长/", "比后值短/", "升数/", "纯数/",
    "前分隔符/", "前有用分隔符/", "后分隔符/", "似年/", "似卷/", "似页/", "字典/名/", "字典/地/",
    "字典/出版社/", "字典/功能词汇/",
    "引号123/", "", "", "花括号123/", "", "", "方括号123/", "", "", "括号123/", "", "",
    "特殊标记/", "停止/括号1/2/3/", "编辑标记/", "似名/", "后面数字个数/journal/",
    "HTTP态/DOMAIN态/", "组合顺序/前/", "组合顺序/后/", "AAnTheOn/终/", "TECH/", "Thesis/",
    "Inc/Ltd/Limit/", "ACM/ICPC/IEEE/", "", "", "CONF/", "TR/", "MIT/", "学校/", "学校/影响/",
    "终止/前一个/学校/", "逗号隔开/",
    "In/点/", "In点/名字/", "In/状态/", "In/状态/名字/", "In/Proc/状态/", "Proc/状态/", "Dept/点/",
    "出版社状态/", "似期刊/", "组织|实验室/", "小组/", "实验室/", "ISBN/状态/", "机构||/",
    "编辑/点/下个分隔符/", "出版社名/机构&出版社/", "et/al/", "其他/", "和/", "终止/"].map bytes

/-- The columns of a line of the sample file, as `genCRFSampleCtl` prints them. -/
def sampleLine (cols : List (List UInt8)) : List UInt8 :=
  (sampleLabels.zipWith (· ++ ·) cols).flatMap fun col => col ++ [tab]

/-- There is a label for each of the columns. -/
theorem length_columns {c : Context} {cols : List (List UInt8)} (h : columns c = some cols) :
    cols.length = sampleLabels.length := by
  simp only [columns, Option.bind_eq_bind, Option.bind_eq_some_iff, Option.pure_def,
    Option.some.injEq] at h
  obtain ⟨phdflag, -, inName, -, rfl⟩ := h
  have hbasic : (basicColumns c).length = 20 := rfl
  have hstatus : (statusColumns c).length = 12 := rfl
  have hflag : (flagColumns c phdflag).length = 22 := rfl
  have heffect : (effectColumns c inName).length = 20 := rfl
  have hlabels : sampleLabels.length = 74 := by
    rw [sampleLabels, List.length_map]
    rfl
  simp only [List.length_append, hbasic, hstatus, hflag, heffect, hlabels]

/-- The columns are defined as long as the token that may be read through is there. -/
theorem columns_eq_none_iff (c : Context) :
    columns c = none ↔
      c.npCNS = none ∧ (strcasecmpEq (bytes "ph") c.pCNS.str = true ∨ c.pCNS.procflag = 1) := by
  cases hn : c.npCNS with
  | none =>
      simp only [columns, phdFlag, inNameFlag, hn, Option.map_none, true_and]
      split
      · rename_i hph
        simp only [hph, Option.bind_eq_bind, Option.bind_none, true_or]
      · rename_i hph
        by_cases hin : c.pCNS.procflag = 1
        · simp only [hph, hin, ite_true, Option.bind_eq_bind, Option.bind_some,
            Option.bind_none, Option.pure_def, or_true]
        · simp only [hph, hin, ite_false, Option.bind_eq_bind, Option.bind_some,
            Option.pure_def, reduceCtorEq, or_self]
  | some n =>
      simp only [reduceCtorEq, false_and, iff_false, columns, phdFlag, inNameFlag, hn,
        Option.map_some]
      split <;> split <;> simp only [Option.bind_eq_bind, Option.bind_some, Option.pure_def,
        reduceCtorEq, not_false_eq_true]

end CiteParser
