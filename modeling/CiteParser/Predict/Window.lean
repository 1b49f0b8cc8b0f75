import CiteParser.Predict.Queue

/-!
# The traversals of the two queues

Parts 0.1 and 0.2 of the loop body that `CitationInfoPredict` and `genCRFSampleCtl`
share: one pass over the tokens ahead, one over the tokens behind, both setting the same
local variables. A neighbour asked for and not there is a NULL pointer; reading through
one is `none`. The lemmas at the end state each traversal on the lists of tokens.
-/

namespace CiteParser

/-- The weights the traversals give to the words they know, 0 for a word not met. -/
structure Flags where
  thesisFlag : Nat
  ltdFlag : Nat
  edsFlag : Nat
  uniFlag : Nat
  mitFlag : Nat
  groupFlag : Nat
  pressFlag : Nat
  confFlag : Nat
  orgFlag : Nat
  labFlag : Nat
  techFlag : Nat
  repFlag : Nat
  procFlag : Nat
  andFlag : Nat
  inStatus : Nat
  deriving DecidableEq, Repr

/-- The assignments both traversals make under `stopEffect < 2`, with weight `sw`; they
differ in a condition on the editor flag and one on the word "and". -/
def markFlags (sw : Nat) (edsOk andOk : Bool) (t : CrfNodeSnapshot) (f : Flags) : Flags :=
  let mark := fun (test : Bool) (old : Nat) => if test then sw else old
  { repFlag := mark (t.speflag == 55) f.repFlag
    techFlag := mark (t.speflag == 50 || t.speflag == 53 || t.speflag == 54) f.techFlag
    labFlag := mark (decide (71 ≤ t.speflag) && decide (t.speflag < 75)) f.labFlag
    orgFlag := mark (t.speflag == 77 || t.speflag == 78) f.orgFlag
    pressFlag := mark (t.speflag == 30 || t.speflag == 31 || t.speflag == 32) f.pressFlag
    confFlag := mark (t.speflag == 90 || t.speflag == 79 || t.speflag == 60) f.confFlag
    groupFlag := mark (t.deptflag == 1 || t.speflag == 56 || t.speflag == 75) f.groupFlag
    inStatus := mark (t.procflag == 1) f.inStatus
    procFlag := mark (decide (1 < t.procflag)) f.procFlag
    edsFlag := mark (t.edsflag == 1 && edsOk) f.edsFlag
    uniFlag := mark (t.uniflag == 1) f.uniFlag
    thesisFlag := mark (t.speflag == 25) f.thesisFlag
    mitFlag := mark (t.speflag == 70) f.mitFlag
    ltdFlag := mark (t.ltdflag != 0) f.ltdFlag
    andFlag := mark (t.str == bytes "and" && andOk) f.andFlag }

/-- The local variables of the traversals. -/
structure Traversal where
  flags : Flags
  nextPDigit : Nat
  domainFlag : Nat
  domainNoStop : Bool
  edNoStop : Bool
  stopEffect : Nat
  httpStatus : Nat
  seqFlag : Nat
  puredata : Bool
  isbnEffect : Nat
  paraFlag : Int
  paraCache : Int
  sqbFlag : Int
  sqbCache : Int
  braFlag : Int
  braCache : Int
  deriving DecidableEq, Repr

/-- The variables at the start of the first traversal; only `isbnEffect` is carried
over from the token before. -/
def Traversal.init (isbnEffect : Nat) : Traversal :=
  ⟨⟨0, 0, 0, 0, 0, 0, 0, 0, 0, 0, 0, 0, 0, 0, 0⟩, 0, 0, true, true, 0, 0, 0, true, isbnEffect,
    0, 0, 0, 0, 0, 0⟩

/-- A delimiter that cannot stand inside a web address. -/
def domainStop (predeli : UInt8) : Bool :=
  !isBlank predeli && predeli != ':'.toUInt8 && predeli != '/'.toUInt8 &&
    predeli != '.'.toUInt8 && predeli != ','.toUInt8

/-- A word that opens a web address. -/
def httpWord (t : CrfNodeSnapshot) : Bool :=
  (t.speflag == 20 || t.speflag == 21) && !isBlank t.nextdeli ||
    t.speflag == 22 && t.nextdeli != ':'.toUInt8

/-- How a token's stops weaken what lies behind it. -/
def stopAfter (stopflag stopEffect : Nat) : Nat :=
  if stopflag = 1 then if stopEffect = 2 then 2 else 1
  else if stopflag = 2 then 2
  else stopEffect

/-- 0.1.1: a pass over the tokens ahead. -/
def lookAheadStep (v : Traversal) (t : CrfNodeSnapshot) : Traversal :=
  let flags :=
    if v.stopEffect < 2 then markFlags (1 + v.stopEffect) true true t v.flags else v.flags
  let domainNoStop := v.domainNoStop && !domainStop t.predeli
  { v with
    flags := flags
    domainNoStop := domainNoStop
    httpStatus := if domainNoStop && httpWord t then 1 else v.httpStatus
    domainFlag := if domainNoStop && t.domainflag != 0 then 1 else v.domainFlag
    nextPDigit := if 0 < t.puredigit ∧ t.yearlike = 0 then v.nextPDigit + 1 else v.nextPDigit
    stopEffect := stopAfter t.stopflag v.stopEffect }

/-- The assignments between the two traversals. -/
def Traversal.turn (v : Traversal) : Traversal :=
  { v with
    httpStatus := 0
    seqFlag := 0
    puredata := true
    paraFlag := 0
    sqbFlag := 0
    braFlag := 0
    paraCache := 0
    sqbCache := 0
    braCache := 0
    stopEffect := 0
    domainNoStop := true
    edNoStop := true }

/-- An opening delimiter on the way back counts unless closed since: the flag and the
number of closing ones not yet used up. -/
def couple (eflag sflag : Nat) (c : Int × Int) : Int × Int :=
  let cache := if eflag ≠ 0 then c.2 + 1 else c.2
  if sflag ≠ 0 then (c.1 + 1 - cache, 0) else (c.1, cache)

/-- 0.1.2: pass `i` over the tokens behind, the current one being the first. -/
def lookBackStep (i : Nat) (v : Traversal) (t : CrfNodeSnapshot) : Traversal :=
  let stopEffect := if 0 < i then stopAfter t.stopflag v.stopEffect else v.stopEffect
  let puredata := v.puredata && !(t.puredigit == 0 && t.strtype != 4)
  let domainNoStop := v.domainNoStop && !domainStop t.predeli
  let para := couple t.pareEflag t.pareSflag (v.paraFlag, v.paraCache)
  let sqb := couple t.sqbEflag t.sqbSflag (v.sqbFlag, v.sqbCache)
  let bra := couple t.braEflag t.braSflag (v.braFlag, v.braCache)
  { v with
    flags :=
      if stopEffect < 2 then
        markFlags (3 + stopEffect) v.edNoStop (decide (i < 2)) t v.flags
      else v.flags
    stopEffect := stopEffect
    puredata := puredata
    isbnEffect := if puredata && t.speflag == 40 then 1 else v.isbnEffect
    domainNoStop := domainNoStop
    httpStatus := if domainNoStop && httpWord t then 2 else v.httpStatus
    paraFlag := para.1
    paraCache := para.2
    sqbFlag := sqb.1
    sqbCache := sqb.2
    braFlag := bra.1
    braCache := bra.2
    seqFlag := if i < 3 ∧ t.sqbEflag ≠ 0 then 1 else v.seqFlag
    edNoStop := v.edNoStop && !(t.puredigit == 2) && !(t.procflag == 1) }

/-- `for(i=1;i < sizeQueue(&nextCNSQ); i++)`. -/
def lookAhead (nextCNSQ : CNSQ) (v : Traversal) : Option Traversal :=
  (List.range' 1 (sizeQueue nextCNSQ - 1)).foldlM
    (fun v i => (nextNElem nextCNSQ i).map (lookAheadStep v)) v

/-- `for(i=0;i < sizeQueue(&preCNSQ); i++)`, where the first token is the current one. -/
def lookBack (preCNSQ : CNSQ) (pCNS : CrfNodeSnapshot) (v : Traversal) : Option Traversal :=
  (List.range (sizeQueue preCNSQ)).foldlM
    (fun v i => (if i = 0 then some pCNS else pastNElem preCNSQ i).map (lookBackStep i v)) v

/-- The search for the last token behind an opening bracket: whether the token before
it ends at one as well. -/
def contentConnectFrom (preCNSQ : CNSQ) : List Nat → Option Nat
  | [] => some 0
  | i :: rest => do
      let t ← pastNElem preCNSQ i
      if t.predeli = '('.toUInt8 then
        let t ← pastNElem preCNSQ (i + 1)
        return if t.nextdeli = '('.toUInt8 then 1 else 0
      else contentConnectFrom preCNSQ rest

def contentConnect (preCNSQ : CNSQ) (inParentheses : Bool) : Option Nat :=
  if inParentheses then
    contentConnectFrom preCNSQ (List.range' 1 (sizeQueue preCNSQ - 1))
  else some 0

/-- The tokens that the look-ahead visits. -/
def lookAheadVisits (nextCNSQ : CNSQ) : List CrfNodeSnapshot :=
  (List.range' 1 (sizeQueue nextCNSQ - 1)).filterMap (nextNElem nextCNSQ)

/-- The tokens that the look-back visits. -/
def lookBackVisits (preCNSQ : CNSQ) (pCNS : CrfNodeSnapshot) : List CrfNodeSnapshot :=
  (List.range (sizeQueue preCNSQ)).filterMap
    fun i => if i = 0 then some pCNS else pastNElem preCNSQ i

/-! ## The traversals on lists -/

section Lists

variable {α β : Type*}

/-- Fold over a list with the index of the element. -/
def foldFrom (f : Nat → β → α → β) : Nat → List α → β → β
  | _, [], v => v
  | i, t :: rest, v => foldFrom f (i + 1) rest (f i v t)

/-- The last element of a list is folded in last. -/
theorem foldFrom_concat (f : Nat → β → α → β) (i : Nat) (l : List α) (t : α) (v : β) :
    foldFrom f i (l ++ [t]) v = f (i + l.length) (foldFrom f i l v) t := by
  induction l generalizing i v with
  | nil => rfl
  | cons u l ih =>
      rw [List.cons_append, foldFrom, ih, foldFrom, List.length_cons, Nat.add_assoc, Nat.add_comm 1]

/-- Reading the elements of a list one by one is folding over them. -/
theorem foldlM_get (f : Nat → β → α → β) {get : Nat → Option α} {a : Nat} {l : List α}
    (hget : ∀ i, i < l.length → get (a + i) = l[i]?) (v : β) :
    (List.range' a l.length).foldlM (fun v i => (get i).map (f i v)) v =
      some (foldFrom f a l v) := by
  induction l generalizing a v with
  | nil => rfl
  | cons t rest ih =>
      have ht : get a = some t := hget 0 (Nat.succ_pos _)
      rw [List.length_cons, List.range'_succ, List.foldlM_cons, ht]
      refine ih (fun i hi => ?_) (f a v t)
      rw [Nat.add_assoc, Nat.add_comm 1 i]
      exact hget (i + 1) (Nat.succ_lt_succ hi)

/-- Reading back all but the last element of a list. -/
theorem getElem?_dropLast_of_lt {l : List α} {i : Nat} (h : i < l.dropLast.length) :
    l.dropLast[i]? = l[i]? := by
  rw [List.length_dropLast] at h
  rw [List.dropLast_eq_take, List.getElem?_take_of_lt h]

/-- Reading the elements of a list one by one gives the list. -/
theorem filterMap_get {get : Nat → Option α} {a : Nat} {l : List α}
    (hget : ∀ i, i < l.length → get (a + i) = l[i]?) :
    (List.range' a l.length).filterMap get = l := by
  induction l generalizing a with
  | nil => rfl
  | cons t rest ih =>
      have ht : get a = some t := hget 0 (Nat.succ_pos _)
      rw [List.length_cons, List.range'_succ, List.filterMap_cons_some ht]
      refine congrArg (t :: ·) (ih fun i hi => ?_)
      rw [Nat.add_assoc, Nat.add_comm 1 i]
      exact hget (i + 1) (Nat.succ_lt_succ hi)

end Lists

/-- The look-ahead over the tokens ahead, in text order. -/
def aheadOf (ahead : List CrfNodeSnapshot) (v : Traversal) : Traversal :=
  foldFrom (fun _ => lookAheadStep) 1 ahead.dropLast v

/-- The look-back over the current token and those behind it, the last one first. -/
def behindOf (t : CrfNodeSnapshot) (past : List CrfNodeSnapshot) (v : Traversal) : Traversal :=
  foldFrom lookBackStep 0 (t :: past).dropLast v

/-- The bracket search over the tokens behind, the last one first. -/
def connectOf : List CrfNodeSnapshot → Nat
  | t :: t' :: rest =>
      if t.predeli = '('.toUInt8 then if t'.nextdeli = '('.toUInt8 then 1 else 0
      else connectOf (t' :: rest)
  | _ => 0

/-- The look-ahead asks for the tokens ahead but the last one. -/
theorem nextNElem_dropLast (nextCNSQ : CNSQ) {i : Nat}
    (hi : i < nextCNSQ.elems.dropLast.length) :
    nextNElem nextCNSQ (1 + i) = nextCNSQ.elems.dropLast[i]? := by
  rw [getElem?_dropLast_of_lt hi, Nat.add_comm]
  exact Ring.next_succ nextCNSQ i

/-- The look-back asks for the current token and those behind it but the oldest one. -/
theorem pastNElem_dropLast (preCNSQ : CNSQ) (pCNS : CrfNodeSnapshot) {i : Nat}
    (hi : i < (pCNS :: preCNSQ.elems.reverse).dropLast.length) :
    (if 0 + i = 0 then some pCNS else pastNElem preCNSQ (0 + i)) =
      (pCNS :: preCNSQ.elems.reverse).dropLast[i]? := by
  rw [getElem?_dropLast_of_lt hi, Nat.zero_add]
  cases i with
  | zero => rfl
  | succ i => exact Ring.past_succ preCNSQ i

/-- The bounds of the two loops. -/
theorem sizeQueue_visits (nextCNSQ preCNSQ : CNSQ) (pCNS : CrfNodeSnapshot) :
    sizeQueue nextCNSQ - 1 = nextCNSQ.elems.dropLast.length ∧
      sizeQueue preCNSQ = (pCNS :: preCNSQ.elems.reverse).dropLast.length := by
  rw [List.length_dropLast, List.length_dropLast, List.length_cons, List.length_reverse,
    Ring.length_elems, Ring.length_elems]
  exact ⟨rfl, rfl⟩

/-- The look-ahead reads through no NULL pointer. -/
theorem lookAhead_eq (nextCNSQ : CNSQ) (v : Traversal) :
    lookAhead nextCNSQ v = some (aheadOf nextCNSQ.elems v) := by
  rw [lookAhead, (sizeQueue_visits nextCNSQ nextCNSQ default).1, aheadOf]
  exact foldlM_get (fun _ => lookAheadStep) (fun i hi => nextNElem_dropLast nextCNSQ hi) v

/-- The look-back reads through no NULL pointer. -/
theorem lookBack_eq (preCNSQ : CNSQ) (pCNS : CrfNodeSnapshot) (v : Traversal) :
    lookBack preCNSQ pCNS v = some (behindOf pCNS preCNSQ.elems.reverse v) := by
  rw [lookBack, (sizeQueue_visits preCNSQ preCNSQ pCNS).2, List.range_eq_range', behindOf]
  exact foldlM_get lookBackStep (fun i hi => pastNElem_dropLast preCNSQ pCNS hi) v

/-- The last token ahead is not visited. -/
theorem lookAheadVisits_eq (nextCNSQ : CNSQ) :
    lookAheadVisits nextCNSQ = nextCNSQ.elems.dropLast := by
  rw [lookAheadVisits, (sizeQueue_visits nextCNSQ nextCNSQ default).1]
  exact filterMap_get fun i hi => nextNElem_dropLast nextCNSQ hi

/-- The oldest token behind is not visited, or the current one if there is none. -/
theorem lookBackVisits_eq (preCNSQ : CNSQ) (pCNS : CrfNodeSnapshot) :
    lookBackVisits preCNSQ pCNS = (pCNS :: preCNSQ.elems.reverse).dropLast := by
  rw [lookBackVisits, (sizeQueue_visits preCNSQ preCNSQ pCNS).2, List.range_eq_range']
  exact filterMap_get fun i hi => pastNElem_dropLast preCNSQ pCNS hi

/-- The bracket search from the token `a` places behind the last one. -/
theorem contentConnectFrom_eq (preCNSQ : CNSQ) (a n : Nat)
    (hn : a + n = preCNSQ.elems.length - 1) :
    contentConnectFrom preCNSQ (List.range' (a + 1) n) =
      some (connectOf (preCNSQ.elems.reverse.drop a)) := by
  have hpast := Ring.past_succ preCNSQ
  rw [← List.length_reverse] at hn
  generalize preCNSQ.elems.reverse = past at hn hpast
  induction n generalizing a with
  | zero =>
      have hshort : (past.drop a).length ≤ 1 := by
        rw [List.length_drop]
        omega
      cases hdrop : past.drop a with
      | nil => rfl
      | cons t rest =>
          rw [hdrop, List.length_cons] at hshort
          rw [List.length_eq_zero_iff.mp (show rest.length = 0 by omega)]
          rfl
  | succ n ih =>
      have ha : a < past.length := by omega
      have ha' : a + 1 < past.length := by omega
      have hrest := ih (a + 1) (by omega)
      rw [List.drop_eq_getElem_cons ha, List.drop_eq_getElem_cons ha', connectOf,
        ← List.drop_eq_getElem_cons ha', List.range'_succ, contentConnectFrom, pastNElem,
        pastNElem, hpast, hpast, List.getElem?_eq_getElem ha, List.getElem?_eq_getElem ha']
      simp only [Option.bind_eq_bind, Option.bind_some, Option.pure_def, hrest]
      split <;> rfl

/-- The bracket search reads through no NULL pointer. -/
theorem contentConnect_eq (preCNSQ : CNSQ) (inParentheses : Bool) :
    contentConnect preCNSQ inParentheses =
      some (if inParentheses then connectOf preCNSQ.elems.reverse else 0) := by
  rw [contentConnect]
  cases inParentheses with
  | false => rfl
  | true =>
      have hlen : sizeQueue preCNSQ = preCNSQ.elems.length := (Ring.length_elems _).symm
      rw [if_pos rfl, if_pos rfl, hlen]
      exact contentConnectFrom_eq preCNSQ 0 _ (Nat.zero_add _)

end CiteParser
