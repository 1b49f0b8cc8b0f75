import CiteParser.Area.EndOffsets
import CiteParser.Core.Slot

/-!
# Candidate records

The second half of `basicFilter`. At each position marks are stored into the cells of
`data[top]`, but `top` only moves on where there is something to report, and the marks of the
positions in between stay.
-/

namespace CiteParser

/-- `ABSDIFF(x, y)`. -/
def absDiff (x y : Int) : Int := if x > y then x - y else y - x

/-- An offset moved to the next one inside the text. -/
def insideText (T : Pcontent) (x : Int) : Int :=
  let x := if x < 0 then 0 else x
  if T.pclen ≤ x then T.pclen - 1 else x

/-- Two letters stand next to each other between the offsets, which are not close. -/
def haveDifferneces (T : Pcontent) (dest src : Int) : Bool :=
  let src := insideText T src
  let dest := insideText T dest
  if absDiff dest src ≤ 2 then false
  else
    let (src, dest) := if dest < src then (dest, src) else (src, dest)
    (List.range (dest - 1 - src).toNat).any fun k : Nat =>
      fitPattern 'a'.toUInt8 (T.char (src + k)) && fitPattern 'a'.toUInt8 (T.char (src + k + 1))

/-- The loop of `haveDiffernecesE` up to `dest`, from `i` on and with `th` pairs behind it. -/
def fourPairs (T : Pcontent) (dest : Int) : Nat → Int → Nat → Bool
  | 0, _, _ => false
  | n + 1, i, th =>
      if i < dest - 1 then
        if fitPattern 'd'.toUInt8 (T.char i) && fitPattern 'd'.toUInt8 (T.char (i + 1)) then
          if 3 < th + 1 then true else fourPairs T dest n (i + 3) (th + 1)
        else fourPairs T dest n (i + 1) th
      else false

def haveDiffernecesE (T : Pcontent) (dest src : Int) : Bool :=
  let src := insideText T src
  let dest := insideText T dest
  if absDiff dest src ≤ 4 then false
  else
    let (src, dest) := if dest < src then (dest, src) else (src, dest)
    fourPairs T dest (dest - src).toNat src 0

/-- Something other than white space stands between the offsets, which are not close. -/
def haveDiffernecesH (T : Pcontent) (dest src : Int) : Bool :=
  let src := if T.pclen ≤ src then T.pclen - 1 else src
  let src := if src < 0 then 0 else src
  let dest := insideText T dest
  let (src, dest) := if dest < src then (dest, src) else (src, dest)
  if dest - src ≤ 2 then false
  else
    (List.range (dest - src).toNat).any fun k : Nat =>
      T.char (src + k) != ' '.toUInt8 && T.char (src + k) != '\r'.toUInt8 &&
        T.char (src + k) != '\n'.toUInt8 && T.char (src + k) != '\t'.toUInt8

/-- The matches of one kind: the next and the last offset and how many are behind. -/
structure Matches where
  next : Int
  last : Int
  index : Int

/-- The three sections on the index of a match: the matches behind the position, the store into
their mark and `hasContent`. -/
def Matches.pass (m : Matches) (T : Pcontent) (find : Int → Int → Int) (i : Int) :
    Matches × Store Int × Bool :=
  if m.next ≠ -1 then
    if i = m.next then
      let next := find m.next T.pclen
      (⟨if next = 0 then -1 else next, m.next, m.index + 1⟩, .set (m.index + 1), true)
    else if !haveDiffernecesE T i m.next then (m, .set (m.index + 1), false)
    else if !haveDiffernecesE T i m.last then (m, .set m.index, false)
    else (m, .keep, false)
  else (m, .keep, false)

/-- The offsets of the sections 7 to 15, in their order. -/
def EndOffsets.befores (d : EndOffsets) : List Int :=
  [d.endYearBeforeAck, d.endYearBeforeTable, d.endYearBeforeAckOrTable,
    d.endPageBeforeAck, d.endPageBeforeTable, d.endPageBeforeAckOrTable,
    d.endPage2BeforeAck, d.endPage2BeforeTable, d.endPage2BeforeAckOrTable]

/-- The second part of the sections 7 to 15. -/
def nearStore (T : Pcontent) (before ed i : Int) : Store Int :=
  if before ≠ 0 then
    if !haveDifferneces T before i then .setIfZero 3
    else if !haveDiffernecesE T before i then .setIfZero 2
    else if absDiff ed before < 30 then .setIfZero 5
    else .keep
  else .keep

/-- The sections 3 to 5: `isMarkedEOY` or its like, the store and `hasContent`. -/
def lastStore (T : Pcontent) (lastOffset : Int) (isMarked : Bool) (i : Int) :
    Bool × Store Int × Bool :=
  if !haveDifferneces T lastOffset i then (true, .set 2, !isMarked)
  else if i > lastOffset && isMarked then (isMarked, .set 1, false)
  else (isMarked, .keep, false)

/-- The section 1: the store and `hasContent`. -/
def ackStore (T : Pcontent) (absOffset i : Int) : Store Int × Bool :=
  if anyWord T ackWords i then (.set 3, true)
  else if !haveDifferneces T absOffset i then (.set 1, false)
  else (.keep, false)

/-- The variables that the second loop carries from one position to the next. -/
structure Running where
  year : Matches
  page : Matches
  page2 : Matches
  isMarkedEOY : Bool
  isMarkedEOP : Bool
  isMarkedEOP2 : Bool
  edOffsetList : List Int

/-- The body of the second loop. The cells of `edOffsetList` and of the list of offsets go with
the marks from 7 on. -/
def endVisit (T : Pcontent) (myEc : List (List UInt8)) (d : EndOffsets) (r : Running) (i : Int) :
    Visit Running Nat Int :=
  let (year, w16, c16) := r.year.pass T (hasYearafterTheOffset T) i
  let (page, w17, c17) := r.page.pass T (hasPPafterTheOffset T) i
  -- the third index goes into the mark of the second
  let (page2, w18, c18) := r.page2.pass T (hasPPafterTheOffset T) i
  let isEnd := d.befores.map fun before => i != 0 && before == i
  let edOffsetList := List.zipWith (fun ed e => if e then i else ed) r.edOffsetList isEnd
  let endStores := isEnd.zipIdx.map fun e : Bool × Nat =>
    (7 + e.2, if e.1 then Store.set (4 : Int) else .keep)
  let r := { r with year, page, page2, edOffsetList }
  let stores := [(16, w16), (17, w17), (17, w18)] ++ endStores
  let hasContent := c16 || c17 || c18 || isEnd.any id
  if behindData T i && !hasContent then ⟨r, stores, .skip⟩
  else
    let (w1, c1) := ackStore T d.absOffset.1 i
    let c2 := anyWord T myEc i
    let w2 := if c2 then Store.set (3 : Int) else .keep
    let w2' := if !haveDifferneces T d.absOffset.2 i then Store.setIfZero (1 : Int) else .keep
    let (isMarkedEOY, w3, c3) := lastStore T d.lastYearOffset r.isMarkedEOY i
    let (isMarkedEOP, w4, c4) := lastStore T d.lastPageOffset r.isMarkedEOP i
    let (isMarkedEOP2, w5, c5) := lastStore T d.lastPageOffset2 r.isMarkedEOP2 i
    let nearStores := (List.zip d.befores edOffsetList).zipIdx.map fun p : (Int × Int) × Nat =>
      (7 + p.2, nearStore T p.1.1 p.1.2 i)
    let r := { r with isMarkedEOY, isMarkedEOP, isMarkedEOP2 }
    let stores := stores ++ [(1, w1), (2, w2), (2, w2'), (3, w3), (4, w4), (5, w5)] ++ nearStores
    let hasContent := hasContent || c1 || c2 || c3 || c4 || c5
    if !haveDiffernecesH T T.pclen i then ⟨r, stores ++ [(6, .set 1)], .last⟩
    else if hasContent then ⟨r, stores, .put⟩
    else ⟨r, stores, .skip⟩

/-- The variables in front of the second loop. -/
def runningStart (T : Pcontent) (startOffset : Int) : Running where
  year := ⟨hasYearafterTheOffset T startOffset T.pclen, startOffset, 0⟩
  page := ⟨hasPPafterTheOffset T startOffset T.pclen, startOffset, 0⟩
  page2 := ⟨hasPPafterTheOffset2 T startOffset T.pclen, startOffset, 0⟩
  isMarkedEOY := false
  isMarkedEOP := false
  isMarkedEOP2 := false
  edOffsetList := List.replicate 9 0

/-- The positions of the second loop. -/
def endPositions (T : Pcontent) (startOffset : Int) : List Int :=
  (List.range (T.pclen - startOffset).toNat).map fun k : Nat => startOffset + k

/-- `basicFilter` on a zeroed container that is large enough: the records, the variables at the
end of the loop and whether 1 is returned. -/
def basicFilter (T : Pcontent) (myEc : List (List UInt8)) (startOffset : Int) :
    Option (List (Int × (Nat → Int)) × Running × Bool) :=
  (endOffsets T myEc startOffset).map fun d =>
    slotScan (endVisit T myEc d) (endPositions T startOffset) (runningStart T startOffset)
      fun _ => 0

/-- Each record is what its own position stores into an empty slot. -/
def RecordsOwn (T : Pcontent) (myEc : List (List UInt8)) (d : EndOffsets) (startOffset : Int)
    (records : List (Int × (Nat → Int))) : Prop :=
  records = ownRecords (endVisit T myEc d) (endPositions T startOffset)
    (runningStart T startOffset)

/-- Wherever a record is made, each mark that the positions skipped before have left in the slot
is stored again, or by a store for empty cells that has the same value. -/
def NothingLeft (T : Pcontent) (myEc : List (List UInt8)) (d : EndOffsets) (startOffset : Int) :
    Prop :=
  ∀ p ∈ slotVisits (endVisit T myEc d) (endPositions T startOffset) (runningStart T startOffset)
    fun _ => 0, LeavesNothing (endVisit T myEc d) p

/-- The records of `basicFilter` describe their own positions exactly if no mark of a skipped
position is left where a record is made. -/
theorem recordsOwn_iff (T : Pcontent) (myEc : List (List UInt8)) (startOffset : Int) :
    ∃ d out, endOffsets T myEc startOffset = some d ∧
      basicFilter T myEc startOffset = some out ∧
      (RecordsOwn T myEc d startOffset out.1 ↔ NothingLeft T myEc d startOffset) := by
  obtain ⟨d, hd, -⟩ := endOffsets_spec T myEc startOffset
  refine ⟨d, _, hd, ?_, slotScan_eq_iff _ _ _⟩
  rw [basicFilter, hd]
  rfl

/-- The blank in front of `bc` is close to the start, so the first two marks are stored there,
but no record is made. They are found in the record of `def`. -/
theorem not_recordsOwn :
    ((basicFilter (.ofText (bytes "a bc def")) [] 0).map fun out =>
      out.1.map fun p => (p.1, p.2 1, p.2 2)) = some [(0, 1, 1), (5, 1, 1)] ∧
    ∀ d out, endOffsets (.ofText (bytes "a bc def")) [] 0 = some d →
      basicFilter (.ofText (bytes "a bc def")) [] 0 = some out →
      ¬ RecordsOwn (.ofText (bytes "a bc def")) [] d 0 out.1 := by
  have hout : ((basicFilter (.ofText (bytes "a bc def")) [] 0).map fun out =>
      out.1.map fun p => (p.1, p.2 1, p.2 2)) = some [(0, 1, 1), (5, 1, 1)] := by
    decide +kernel
  have hown : ((endOffsets (.ofText (bytes "a bc def")) [] 0).map fun d =>
      (ownRecords (endVisit (.ofText (bytes "a bc def")) [] d)
        (endPositions (.ofText (bytes "a bc def")) 0)
        (runningStart (.ofText (bytes "a bc def")) 0)).map fun p => (p.1, p.2 1, p.2 2)) =
      some [(0, 1, 1), (5, 0, 0)] := by
    decide +kernel
  refine ⟨hout, fun d out hd hrun hrecords => ?_⟩
  rw [hrun, Option.map_some, Option.some.injEq, hrecords] at hout
  rw [hd, Option.map_some, Option.some.injEq] at hown
  exact absurd (hout.symm.trans hown) (by decide)

end CiteParser
