import CiteParser.Core.Brackets
import CiteParser.Predict.Loop

/-!
# Open brackets

The look-back visits the tokens from the current one backwards and keeps, for each kind of
bracket, a signed total and the closing tokens not yet used up. The total is the number of
openings left unclosed less that of closings with nothing open behind the first opening, so
the status is right as long as the latter do not cancel the former.
-/

namespace CiteParser

/-- The kinds of brackets. -/
inductive Bracket where
  | para
  | sqb
  | bra
  deriving DecidableEq, Repr

namespace Bracket

/-- The flag of a token that opens a bracket. -/
def sflag (t : CrfNodeSnapshot) : Bracket → Nat
  | para => t.pareSflag
  | sqb => t.sqbSflag
  | bra => t.braSflag

/-- The flag of a token that closes one. -/
def eflag (t : CrfNodeSnapshot) : Bracket → Nat
  | para => t.pareEflag
  | sqb => t.sqbEflag
  | bra => t.braEflag

/-- The total and the cache of the look-back. -/
def counters (v : Traversal) : Bracket → Int × Int
  | para => (v.paraFlag, v.paraCache)
  | sqb => (v.sqbFlag, v.sqbCache)
  | bra => (v.braFlag, v.braCache)

/-- `pareStatus`, `sqbStatus` or `braStatus` behind the look-back. -/
def status (b : Bracket) (v : Traversal) (pCNS : CrfNodeSnapshot) : Status :=
  bracketStatus (b.counters v).1 (b.sflag pCNS) (b.eflag pCNS)

def opens (b : Bracket) (t : CrfNodeSnapshot) : Bool := b.sflag t != 0

def closes (b : Bracket) (t : CrfNodeSnapshot) : Bool := b.eflag t != 0

/-- A pair of counters is updated as by a scan backwards. -/
theorem couple_eq (b : Bracket) (t : CrfNodeSnapshot) (c : Int × Int) :
    couple (b.eflag t) (b.sflag t) c = backStep b.opens b.closes c t := by
  rw [couple, backStep, opens, closes]
  simp only [bne_iff_ne]

/-- The look-back scans the tokens it visits backwards. -/
theorem counters_foldFrom (b : Bracket) (i : Nat) (l : List CrfNodeSnapshot) (v : Traversal) :
    b.counters (foldFrom lookBackStep i l v) =
      l.foldl (backStep b.opens b.closes) (b.counters v) := by
  induction l generalizing i v with
  | nil => rfl
  | cons t l ih =>
      rw [foldFrom, ih, List.foldl_cons, ← couple_eq]
      cases b <;> rfl

/-- Behind the look-back the total is the number of unclosed openings among the tokens
visited, less that of the surplus closings behind the first opening. -/
theorem total_eq (b : Bracket) (preCNSQ : CNSQ) (pCNS : CrfNodeSnapshot) (v : Traversal)
    (hone : ∀ t ∈ lookBackVisits preCNSQ pCNS, b.sflag t = 0 ∨ b.eflag t = 0) :
    ∃ r, lookBack preCNSQ pCNS v.turn = some r ∧
      (b.counters r).1 =
        (unclosed b.opens b.closes (lookBackVisits preCNSQ pCNS).reverse).length -
          (surplusBehind b.opens b.closes (lookBackVisits preCNSQ pCNS).reverse : Int) := by
  have hcounters : b.counters v.turn = (0, 0) := by cases b <;> rfl
  refine ⟨_, lookBack_eq preCNSQ pCNS v.turn, ?_⟩
  rw [behindOf, ← lookBackVisits_eq, counters_foldFrom, hcounters]
  generalize lookBackVisits preCNSQ pCNS = visited at hone
  have hscan := @foldl_backStep_fst _ b.opens b.closes visited.reverse fun t ht => by
    rw [opens, closes, bne_eq_false_iff_eq, bne_eq_false_iff_eq]
    exact hone t (List.mem_reverse.mp ht)
  rwa [List.reverse_reverse] at hscan

/-- The status says whether a bracket opened by a token visited is still open exactly as long
as every such bracket is closed, or fewer closings than unclosed openings are surplus ones
behind the first opening. -/
theorem within_iff_unclosed (b : Bracket) (preCNSQ : CNSQ) (pCNS : CrfNodeSnapshot) (v : Traversal)
    (hone : ∀ t ∈ lookBackVisits preCNSQ pCNS, b.sflag t = 0 ∨ b.eflag t = 0) :
    ∃ r, lookBack preCNSQ pCNS v.turn = some r ∧
      (((b.status r pCNS).within = 1 ↔
          unclosed b.opens b.closes (lookBackVisits preCNSQ pCNS).reverse ≠ []) ↔
        unclosed b.opens b.closes (lookBackVisits preCNSQ pCNS).reverse = [] ∨
          surplusBehind b.opens b.closes (lookBackVisits preCNSQ pCNS).reverse <
            (unclosed b.opens b.closes (lookBackVisits preCNSQ pCNS).reverse).length) := by
  obtain ⟨r, hrun, htotal⟩ := b.total_eq preCNSQ pCNS v hone
  refine ⟨r, hrun, ?_⟩
  have hwithin : (b.status r pCNS).within = 1 ↔ 0 < (b.counters r).1 := by
    rw [status, bracketStatus, Bool.toNat_eq_one, decide_eq_true_iff]
  rw [hwithin, htotal, ← List.length_eq_zero_iff, ne_eq, ← List.length_eq_zero_iff]
  omega

/-- The queue that holds the first `n` tokens of a text, and the token behind them. -/
def behindText (text : List UInt8) (n : Nat) : CNSQ :=
  ((tokens (plainReference text) 0).take n).foldl enQueueWithDrop (clearQueue fun _ => default)

def tokenOfText (text : List UInt8) (n : Nat) : CrfNodeSnapshot :=
  (tokens (plainReference text) 0).getD n default

/-- At the last word of "w x (a) b (c d e" a parenthesis is open, and the status says so. -/
theorem within_iff_unclosed_open : ∃ r,
    lookBack (behindText (bytes "w x (a) b (c d e") 6) (tokenOfText (bytes "w x (a) b (c d e") 6)
        (Traversal.init 0).turn = some r ∧
      ((para.status r (tokenOfText (bytes "w x (a) b (c d e") 6)).within = 1 ↔
        unclosed para.opens para.closes
          (lookBackVisits (behindText (bytes "w x (a) b (c d e") 6)
            (tokenOfText (bytes "w x (a) b (c d e") 6)).reverse ≠ []) := by
  obtain ⟨r, hrun, hiff⟩ := within_iff_unclosed para
    (behindText (bytes "w x (a) b (c d e") 6) (tokenOfText (bytes "w x (a) b (c d e") 6)
    (.init 0) (by decide +kernel)
  exact ⟨r, hrun, hiff.mpr (.inr (by decide +kernel))⟩

/-- At the last word of "w x (a) b) c (d e" the second parenthesis is open, but the closing one
that closes nothing has cancelled it. -/
theorem within_zero_unclosed : ¬ ∀ (b : Bracket) (preCNSQ : CNSQ) (pCNS : CrfNodeSnapshot)
    (v : Traversal), (∀ t ∈ lookBackVisits preCNSQ pCNS, b.sflag t = 0 ∨ b.eflag t = 0) →
      ∃ r, lookBack preCNSQ pCNS v.turn = some r ∧
        ((b.status r pCNS).within = 1 ↔
          unclosed b.opens b.closes (lookBackVisits preCNSQ pCNS).reverse ≠ []) := by
  intro h
  obtain ⟨r, hrun, hiff⟩ := h para (behindText (bytes "w x (a) b) c (d e") 6)
    (tokenOfText (bytes "w x (a) b) c (d e") 6) (.init 0) (by decide +kernel)
  have hstatus : (lookBack (behindText (bytes "w x (a) b) c (d e") 6)
      (tokenOfText (bytes "w x (a) b) c (d e") 6) (Traversal.init 0).turn).map
      (fun r => (para.status r (tokenOfText (bytes "w x (a) b) c (d e") 6)).within) = some 0 := by
    decide +kernel
  rw [hrun, Option.map_some, Option.some.injEq] at hstatus
  have hopen := hiff.mpr (by decide +kernel)
  rw [hstatus] at hopen
  contradiction

end Bracket

end CiteParser
