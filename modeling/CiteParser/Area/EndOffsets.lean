import CiteParser.Area.LastMatch
import CiteParser.Text.EditBand
import Mathlib.Tactic.IntervalCases

/-!
# Offsets before a keyword

The first half of `basicFilter`: where the years and the page ranges of the text end last, and
where they end before the first keyword of two kinds. For the latter a position is passed where
a length is expected, and both are taken from the page ranges.
-/

namespace CiteParser

/-- `INLMT(x)`: the text at `i` is within the limit of the keyword, up to its terminator. -/
def inlmt (T : Pcontent) (x : List UInt8) (i : Int) : Bool :=
  let content := cstr (T.window i x.length)
  editDistanceT 0 x x.length content content.length (x.length / 10) != -1

/-- The keywords of the acknowledgements. -/
def ackWords : List (List UInt8) :=
  [bytes "APPENDIX", bytes "ACKNOWLEDGEMENT", bytes "AUTHOR BIBLIOGRAPHIES",
    bytes "AUTHOR BIBLIOGRAPHY", bytes "AUTHOR'S BIOGRAPHY", bytes "AUTHOR BIOGRAPHIES",
    bytes "AUTHOR BIOGRAPHY", bytes "ADDRESS INFORMATION", bytes "Bibliographical"]

/-- Some keyword of a list stands at `i`. -/
def anyWord (T : Pcontent) (words : List (List UInt8)) (i : Int) : Bool :=
  words.any fun x => inlmt T x i

/-- `i != 0` and data stands in front of it: the position is skipped. -/
def behindData (T : Pcontent) (i : Int) : Bool :=
  i != 0 && fitPattern 'd'.toUInt8 (T.char (i - 1))

/-- `markedAck`, `markedTable` and `absOffset`, of which the variables before the keywords are
copies. -/
structure Marked where
  markedAck : Bool
  markedTable : Bool
  ack : Int
  table : Int
  deriving DecidableEq

/-- The body of the first loop behind its `continue`; `myEc` are the keywords of the tables. -/
def markWords (T : Pcontent) (myEc : List (List UInt8)) (m : Marked) (i : Int) : Marked :=
  let m := if anyWord T ackWords i && !m.markedAck then { m with ack := i, markedAck := true }
    else m
  myEc.foldl (fun m x => if inlmt T x i && !m.markedTable then
    { m with table := i, markedTable := true } else m) m

/-- The first loop, over the `n` positions from `i` on. -/
def markLoop (T : Pcontent) (myEc : List (List UInt8)) : Nat → Int → Marked → Marked
  | 0, _, m => m
  | n + 1, i, m =>
      if behindData T i then markLoop T myEc n (i + 1) m
      else
        let m := markWords T myEc m i
        if m.markedAck && m.markedTable then m else markLoop T myEc n (i + 1) m

/-- `MINANDNZ(x, y)`. -/
def minAndNz (x y : Int) : Int :=
  if x ≠ 0 then if y ≠ 0 then if x > y then y else x else x else y

/-- `endYearBeforeAck == 0 ? lastYearOffset : getLastPageOffset(startOffset, endYearBeforeAck)`, and
the same for the other three offsets. -/
def beforeWord (T : Pcontent) (startOffset v last : Int) : Option Int :=
  if v = 0 then some last else getLastPageOffset T startOffset v

/-- The offsets of the document that the second loop of `basicFilter` uses. -/
structure EndOffsets where
  lastYearOffset : Int
  lastPageOffset : Int
  lastPageOffset2 : Int
  absOffset : Int × Int
  endYearBeforeAck : Int
  endYearBeforeTable : Int
  endYearBeforeAckOrTable : Int
  endPageBeforeAck : Int
  endPageBeforeTable : Int
  endPageBeforeAckOrTable : Int
  endPage2BeforeAck : Int
  endPage2BeforeTable : Int
  endPage2BeforeAckOrTable : Int

/-- `basicFilter` up to the second loop; `none` stands for a loop that is not left. -/
def endOffsets (T : Pcontent) (myEc : List (List UInt8)) (startOffset : Int) :
    Option EndOffsets := do
  let lastYearOffset ← getLastYearOffset T startOffset T.pclen
  let lastPageOffset ← getLastPageOffset T startOffset T.pclen
  let lastPageOffset2 ← getLastPage2Offset T startOffset T.pclen
  let m := markLoop T myEc (T.pclen - startOffset).toNat startOffset ⟨false, false, 0, 0⟩
  let endYearBeforeAck ← beforeWord T startOffset m.ack lastYearOffset
  let endYearBeforeTable ← beforeWord T startOffset m.table lastYearOffset
  let endYearBeforeAckOrTable := minAndNz endYearBeforeAck endYearBeforeTable
  let endPageBeforeAck ← beforeWord T startOffset m.ack lastPageOffset
  let endPageBeforeTable ← beforeWord T startOffset m.table lastPageOffset
  let endPageBeforeAckOrTable := minAndNz endPageBeforeAck endPageBeforeTable
  return {
    lastYearOffset, lastPageOffset, lastPageOffset2, absOffset := (m.ack, m.table)
    endYearBeforeAck, endYearBeforeTable, endYearBeforeAckOrTable
    endPageBeforeAck, endPageBeforeTable, endPageBeforeAckOrTable
    endPage2BeforeAck := max endYearBeforeAck endPageBeforeAck
    endPage2BeforeTable := max endYearBeforeTable endPageBeforeTable
    endPage2BeforeAckOrTable := max endYearBeforeAckOrTable endPageBeforeAckOrTable }

/-- The first position from the start on, not behind data, where a keyword of the list stands. -/
def IsFirstWord (T : Pcontent) (words : List (List UInt8)) (startOffset a : Int) : Prop :=
  startOffset ≤ a ∧ a < T.pclen ∧ behindData T a = false ∧ anyWord T words a = true ∧
    ∀ i, startOffset ≤ i → i < a → behindData T i = false → anyWord T words i = false

/-- The two offsets before the first keyword, if it stands behind the start, are the last ends
of a year and of a page range before it. -/
def EndsBefore (T : Pcontent) (words : List (List UInt8)) (startOffset year page : Int) : Prop :=
  ∀ a, IsFirstWord T words startOffset a → startOffset < a →
    LastEnd (yearEnds T startOffset a) year ∧ LastEnd (pageEnds T startOffset a) page ∧
      year ≤ a ∧ page ≤ a

/-- No year stands before the first keyword, and no page range within as many characters from
the start as the position of the keyword says. -/
def NothingBefore (T : Pcontent) (words : List (List UInt8)) (startOffset : Int) : Prop :=
  ∀ a, IsFirstWord T words startOffset a → startOffset < a →
    yearEnds T startOffset a = ∅ ∧
      pageEnds T startOffset (min (startOffset + a) T.pclen) = ∅

/-- What is known of a variable when the positions up to `i` have been searched: nothing has
been found, or it is the first keyword. -/
def Searched (T : Pcontent) (words : List (List UInt8)) (startOffset i : Int) (marked : Bool)
    (v : Int) : Prop :=
  (marked = true ∧ IsFirstWord T words startOffset v) ∨
    (marked = false ∧ v = 0 ∧
      ∀ j, startOffset ≤ j → j < i → behindData T j = false → anyWord T words j = false)

/-- The first keyword has been found, or 0 where there is none. -/
def FoundFirst (T : Pcontent) (words : List (List UInt8)) (startOffset v : Int) : Prop :=
  (∀ a, IsFirstWord T words startOffset a → v = a) ∧
    (v = 0 ∨ IsFirstWord T words startOffset v)

section Keywords

variable {T : Pcontent} {words myEc : List (List UInt8)} {startOffset i a : Int}

/-- The value of the uninitialised variable makes no difference to a keyword. -/
theorem inlmt_eq (flag : Int) (T : Pcontent) (x : List UInt8) (i : Int) :
    inlmt T x i =
      (editDistanceT flag x x.length (cstr (T.window i x.length))
        (cstr (T.window i x.length)).length (x.length / 10) != -1) := by
  have hlen := length_cstr_le (T.window i x.length)
  rw [length_window] at hlen
  rw [inlmt]
  by_cases h : (cstr (T.window i x.length)).length + x.length / 10 < x.length
  · rw [editDistanceT, editDistanceT, if_pos (.inl h), if_pos (.inl h)]
  · rw [editDistanceT_eq _ _ _ 0 (by omega) (by omega),
      editDistanceT_eq _ _ _ flag (by omega) (by omega)]

/-- What the loop over the keywords of the tables changes. -/
theorem foldl_markTable (T : Pcontent) (myEc : List (List UInt8)) (m : Marked) (i : Int) :
    myEc.foldl (fun m x => if inlmt T x i && !m.markedTable then
      { m with table := i, markedTable := true } else m) m =
    if anyWord T myEc i && !m.markedTable then { m with table := i, markedTable := true }
    else m := by
  induction myEc generalizing m with
  | nil => rfl
  | cons x words ih =>
      rw [List.foldl_cons, ih, anyWord, anyWord, List.any_cons]
      cases inlmt T x i <;> cases hm : m.markedTable <;> simp [hm]

/-- The variables behind a position that is looked at. -/
theorem markWords_eq (T : Pcontent) (myEc : List (List UInt8)) (m : Marked) (i : Int) :
    markWords T myEc m i =
      ⟨m.markedAck || anyWord T ackWords i, m.markedTable || anyWord T myEc i,
        if anyWord T ackWords i && !m.markedAck then i else m.ack,
        if anyWord T myEc i && !m.markedTable then i else m.table⟩ := by
  obtain ⟨markedAck, markedTable, ack, table⟩ := m
  rw [markWords, foldl_markTable]
  cases markedAck <;> cases markedTable <;> cases anyWord T ackWords i <;>
    cases anyWord T myEc i <;> rfl

/-- A position that is skipped. -/
theorem Searched.skip {marked : Bool} {v : Int} (h : Searched T words startOffset i marked v)
    (hskip : behindData T i = true) : Searched T words startOffset (i + 1) marked v := by
  rcases h with h | ⟨hm, hv, hno⟩
  · exact .inl h
  · refine .inr ⟨hm, hv, fun j hj hlt hdata => ?_⟩
    rcases (Int.lt_add_one_iff.mp hlt).lt_or_eq with hlt | rfl
    · exact hno j hj hlt hdata
    · rw [hskip] at hdata
      contradiction

/-- A position that is looked at. -/
theorem Searched.look {marked : Bool} {v : Int} (h : Searched T words startOffset i marked v)
    (hi : startOffset ≤ i) (hlen : i < T.pclen) (hdata : behindData T i = false) :
    Searched T words startOffset (i + 1) (marked || anyWord T words i)
      (if anyWord T words i && !marked then i else v) := by
  rcases h with ⟨rfl, hfirst⟩ | ⟨rfl, rfl, hno⟩
  · simpa [Searched] using hfirst
  · cases hword : anyWord T words i with
    | true => exact .inl ⟨rfl, hi, hlen, hdata, hword, hno⟩
    | false =>
        refine .inr ⟨rfl, rfl, fun j hj hlt hdata' => ?_⟩
        rcases (Int.lt_add_one_iff.mp hlt).lt_or_eq with hlt | rfl
        · exact hno j hj hlt hdata'
        · exact hword

/-- The search is over: what has been found is the first keyword, or there is none. -/
theorem Searched.first {marked : Bool} {v : Int} (h : Searched T words startOffset i marked v)
    (hi : marked = true ∨ T.pclen ≤ i) :
    FoundFirst T words startOffset v := by
  rcases h with ⟨-, hfirst⟩ | ⟨hm, hv, hno⟩
  · refine ⟨fun a ha => ?_, .inr hfirst⟩
    obtain ⟨hstart, -, hdata, hword, hnone⟩ := hfirst
    obtain ⟨hstart', -, hdata', hword', hnone'⟩ := ha
    rcases lt_trichotomy v a with hlt | heq | hlt
    · rw [hnone' v hstart hlt hdata] at hword
      contradiction
    · exact heq
    · rw [hnone a hstart' hlt hdata'] at hword'
      contradiction
  · refine ⟨fun a ha => ?_, .inl hv⟩
    have hend := hi.resolve_left (by rw [hm]; exact Bool.false_ne_true)
    obtain ⟨hstart, hlen, hdata, hword, -⟩ := ha
    rw [hno a hstart (by omega) hdata] at hword
    contradiction

/-- The first loop finds the first keyword of either kind. -/
theorem markLoop_first {n : Nat} {m : Marked} (hi : startOffset ≤ i) (hn : T.pclen ≤ i + n)
    (hlen : i + n ≤ max i T.pclen)
    (hack : Searched T ackWords startOffset i m.markedAck m.ack)
    (htable : Searched T myEc startOffset i m.markedTable m.table) :
    FoundFirst T ackWords startOffset (markLoop T myEc n i m).ack ∧
      FoundFirst T myEc startOffset (markLoop T myEc n i m).table := by
  induction n generalizing i m with
  | zero => exact ⟨hack.first (.inr (by omega)), htable.first (.inr (by omega))⟩
  | succ n ih =>
      rw [markLoop]
      by_cases hskip : behindData T i = true
      · rw [if_pos hskip]
        exact ih (by omega) (by omega) (by omega) (hack.skip hskip) (htable.skip hskip)
      · rw [if_neg hskip]
        rw [Bool.not_eq_true] at hskip
        have hack' := hack.look hi (by omega) hskip
        have htable' := htable.look hi (by omega) hskip
        rw [markWords_eq]
        dsimp only
        split
        · rename_i hboth
          rw [Bool.and_eq_true] at hboth
          exact ⟨hack'.first (.inl hboth.1), htable'.first (.inl hboth.2)⟩
        · exact ih (by omega) (by omega) (by omega) hack' htable'

/-- The limits that are passed on from a keyword. -/
theorem FoundFirst.limit {v : Int} (h : FoundFirst T words startOffset v) :
    0 ≤ v ∨ startOffset < 0 ∨ T.pclen < 0 := by
  rcases h.2 with rfl | hfirst
  · exact .inl le_rfl
  · have hstart := hfirst.1
    omega

/-- The two offsets before a keyword, which are alike where there is one. -/
theorem FoundFirst.before {v : Int} (h : FoundFirst T words startOffset v) (y p : Int) :
    ∃ year page, beforeWord T startOffset v y = some year ∧
      beforeWord T startOffset v p = some page ∧
      ∀ a, IsFirstWord T words startOffset a → a ≠ 0 →
        year = page ∧ getLastPageOffset T startOffset a = some page := by
  by_cases hv : v = 0
  · refine ⟨y, p, if_pos hv, if_pos hv, fun a ha hne => ?_⟩
    exact absurd ((h.1 a ha).symm.trans hv) hne
  · obtain ⟨e, he, -⟩ := getLast_spec (hasPPafterTheOffset_advances T) h.limit
    refine ⟨e, e, (if_neg hv).trans he, (if_neg hv).trans he, fun a ha _ => ⟨rfl, ?_⟩⟩
    rw [← h.1 a ha]
    exact he

/-- The offsets are computed: each loop is left, and the offsets before a keyword are both what
`getLastPageOffset` makes of its position. -/
theorem endOffsets_spec (T : Pcontent) (myEc : List (List UInt8)) (startOffset : Int) :
    ∃ d, endOffsets T myEc startOffset = some d ∧
      (∀ a, IsFirstWord T ackWords startOffset a → a ≠ 0 →
        d.endYearBeforeAck = d.endPageBeforeAck ∧
          getLastPageOffset T startOffset a = some d.endPageBeforeAck) ∧
      ∀ a, IsFirstWord T myEc startOffset a → a ≠ 0 →
        d.endYearBeforeTable = d.endPageBeforeTable ∧
          getLastPageOffset T startOffset a = some d.endPageBeforeTable := by
  have hlen : 0 ≤ T.pclen ∨ startOffset < 0 ∨ T.pclen < 0 := by omega
  obtain ⟨hack, htable⟩ := @markLoop_first T myEc startOffset startOffset
    (T.pclen - startOffset).toNat ⟨false, false, 0, 0⟩ le_rfl (by omega) (by omega)
    (.inr ⟨rfl, rfl, fun j hj hlt => by omega⟩) (.inr ⟨rfl, rfl, fun j hj hlt => by omega⟩)
  obtain ⟨y, hy, -⟩ := getLast_spec (hasYearafterTheOffset_advances T) hlen
  obtain ⟨p, hp, -⟩ := getLast_spec (hasPPafterTheOffset_advances T) hlen
  obtain ⟨p2, hp2, -⟩ := getLast_spec (hasPPafterTheOffset2_advances T) hlen
  obtain ⟨ya, pa, hya, hpa, hbefore⟩ := hack.before y p
  obtain ⟨yt, pt, hyt, hpt, hbefore'⟩ := htable.before y p
  unfold endOffsets
  simp only [getLastYearOffset, getLastPageOffset, getLastPage2Offset, hy, hp, hp2, hya, hpa, hyt,
    hpt, bind, Option.bind_some]
  exact ⟨_, rfl, hbefore, hbefore'⟩

/-- The two offsets before a keyword are what they stand for exactly if there is nothing to be
found. -/
theorem endsBefore_iff_of_spec (h0 : 0 ≤ startOffset) {year page : Int}
    (hspec : ∀ a, IsFirstWord T words startOffset a → a ≠ 0 →
      year = page ∧ getLastPageOffset T startOffset a = some page) :
    EndsBefore T words startOffset year page ↔ NothingBefore T words startOffset := by
  have hends : ∀ a, IsFirstWord T words startOffset a → startOffset < a →
      ((LastEnd (yearEnds T startOffset a) year ∧ LastEnd (pageEnds T startOffset a) page ∧
        year ≤ a ∧ page ≤ a) ↔
      (yearEnds T startOffset a = ∅ ∧
        pageEnds T startOffset (min (startOffset + a) T.pclen) = ∅)) := by
    intro a ha hlt
    obtain ⟨rfl, hlast⟩ := hspec a ha (by omega)
    rw [and_self_iff]
    exact getLastPageOffset_ends_iff h0 (by omega) ha.2.1.le hlast
  constructor
  · intro h a ha hlt
    exact (hends a ha hlt).mp (h a ha hlt)
  · intro h a ha hlt
    exact (hends a ha hlt).mpr (h a ha hlt)

/-- For either kind of keyword, the offsets that `basicFilter` uses as the ends before it are
those exactly if nothing ends before it. -/
theorem endsBefore_iff (T : Pcontent) (myEc : List (List UInt8)) (startOffset : Nat) :
    ∃ d, endOffsets T myEc startOffset = some d ∧
      (EndsBefore T ackWords startOffset d.endYearBeforeAck d.endPageBeforeAck ↔
        NothingBefore T ackWords startOffset) ∧
      (EndsBefore T myEc startOffset d.endYearBeforeTable d.endPageBeforeTable ↔
        NothingBefore T myEc startOffset) := by
  obtain ⟨d, hd, hack, htable⟩ := endOffsets_spec T myEc startOffset
  exact ⟨d, hd, endsBefore_iff_of_spec (by omega) hack, endsBefore_iff_of_spec (by omega) htable⟩

/-- The year in front of the keyword is not found, the search being for page ranges; and the
window reaches over a keyword to the page range behind it. -/
theorem not_endsBefore :
    ((endOffsets (.ofText (bytes "1999 APPENDIX")) [] 0).map fun d =>
      (d.absOffset.1, d.endYearBeforeAck, d.endPageBeforeAck)) = some (5, 0, 0) ∧
    (∀ d, endOffsets (.ofText (bytes "1999 APPENDIX")) [] 0 = some d →
      ¬ EndsBefore (.ofText (bytes "1999 APPENDIX")) ackWords 0 d.endYearBeforeAck
        d.endPageBeforeAck) ∧
    ((endOffsets (.ofText (bytes "              APPENDIX 1-2 ")) [] 13).map fun d =>
      (d.absOffset.1, d.endYearBeforeAck, d.endPageBeforeAck)) = some (14, 27, 27) := by
  refine ⟨by decide +kernel, fun d hd h => ?_, by decide +kernel⟩
  have hspec := (endOffsets_spec (.ofText (bytes "1999 APPENDIX")) [] 0)
  obtain ⟨d', hd', hack, -⟩ := hspec
  obtain rfl := Option.some.inj (hd.symm.trans hd')
  have hfirst : IsFirstWord (.ofText (bytes "1999 APPENDIX")) ackWords 0 5 := by
    refine ⟨by decide, by decide, by decide +kernel, by decide +kernel, fun i h0 h5 _ => ?_⟩
    interval_cases i <;> decide +kernel
  have hyear : 4 ∈ yearEnds (.ofText (bytes "1999 APPENDIX")) 0 5 :=
    ⟨0, le_rfl, by decide +kernel, by decide, by decide⟩
  rw [endsBefore_iff_of_spec le_rfl hack] at h
  rw [(h 5 hfirst (by decide)).1] at hyear
  exact hyear

end Keywords

end CiteParser
