import Mathlib.Tactic.Common

/-!
# Records built in a slot

A scan stores into the cells of a slot at every position and puts the slot down as a record at
some of them. Only a slot that has been put down is replaced by an empty one, so what the
positions in between have stored is still there. When is each record what its own position
stores into an empty slot?
-/

namespace CiteParser

/-- A store into a cell: none, an assignment, or one that is made if the cell is zero. -/
inductive Store (α : Type*) where
  | keep
  | set (v : α)
  | setIfZero (v : α)

namespace Store

variable {α : Type*} [Zero α] [DecidableEq α]

/-- The cell after the store. -/
def apply : Store α → α → α
  | keep, x => x
  | set v, _ => v
  | setIfZero v, x => if x = 0 then v else x

/-- No store is made. -/
def isKeep : Store α → Bool
  | keep => true
  | _ => false

/-- Two stores, the second of which may see what the first has left. -/
def andThen : Store α → Store α → Store α
  | w, keep => w
  | _, set v => set v
  | keep, setIfZero v => setIfZero v
  | set u, setIfZero v => set (if u = 0 then v else u)
  | setIfZero u, setIfZero v => setIfZero (if u = 0 then v else u)

/-- The store leaves in a cell with the value `x` what it leaves in an empty one. -/
def Covers : Store α → α → Prop
  | keep, x => x = 0
  | set _, _ => True
  | setIfZero v, x => x = 0 ∨ x = v

theorem apply_andThen (w w' : Store α) (x : α) :
    (w.andThen w').apply x = w'.apply (w.apply x) := by
  cases w' with
  | keep => cases w <;> rfl
  | set v => cases w <;> rfl
  | setIfZero v =>
      cases w with
      | keep => rfl
      | set u => rfl
      | setIfZero u =>
          simp only [andThen, apply]
          split_ifs <;> simp_all

theorem covers_iff (w : Store α) (x : α) : w.Covers x ↔ w.apply x = w.apply 0 := by
  cases w with
  | keep => rfl
  | set v => simp [Covers, apply]
  | setIfZero v =>
      simp only [Covers, apply, if_true]
      by_cases hx : x = 0
      · simp [hx]
      · simp [hx]

end Store

section Slots

variable {κ α : Type*} [DecidableEq κ] [Zero α] [DecidableEq α]

/-- The slot after a list of stores into its cells. -/
def fill (slot : κ → α) (stores : List (κ × Store α)) : κ → α :=
  stores.foldl (fun slot p k => if p.1 = k then p.2.apply (slot k) else slot k) slot

/-- All that a list of stores does to one cell. -/
def storeOf (stores : List (κ × Store α)) (k : κ) : Store α :=
  stores.foldl (fun w p => if p.1 = k then w.andThen p.2 else w) .keep

theorem fill_apply (slot : κ → α) (stores : List (κ × Store α)) (k : κ) :
    fill slot stores k = (storeOf stores k).apply (slot k) := by
  have main : ∀ (w : Store α) (slot' : κ → α), slot' k = w.apply (slot k) →
      fill slot' stores k =
        (stores.foldl (fun w p => if p.1 = k then w.andThen p.2 else w) w).apply (slot k) := by
    induction stores with
    | nil => exact fun w slot' h => h
    | cons p stores ih =>
        intro w slot' h
        rw [fill, List.foldl_cons, List.foldl_cons]
        apply ih
        by_cases hp : p.1 = k
        · rw [if_pos hp, if_pos hp, Store.apply_andThen, h]
        · rw [if_neg hp, if_neg hp, h]
  exact main .keep slot rfl

/-- Stores into other cells do not matter for a cell. -/
theorem storeOf_append {k : κ} (stores : List (κ × Store α)) {others : List (κ × Store α)}
    (h : ∀ p ∈ others, p.1 ≠ k) : storeOf (stores ++ others) k = storeOf stores k := by
  rw [storeOf, List.foldl_append, ← storeOf]
  induction others with
  | nil => rfl
  | cons p others ih =>
      rw [List.foldl_cons, if_neg (h p List.mem_cons_self)]
      exact ih fun p hp => h p (List.mem_cons_of_mem _ hp)

end Slots

/-- What a position does when its stores are made: it goes on with the slot, puts the slot down,
or puts it down and ends the scan. -/
inductive Turn where
  | skip
  | put
  | last
  deriving DecidableEq

/-- A position of a scan: the variables behind it, its stores and its turn. -/
structure Visit (σ κ α : Type*) where
  state : σ
  stores : List (κ × Store α)
  turn : Turn

section Scan

variable {σ ι κ α : Type*} [DecidableEq κ] [Zero α] [DecidableEq α] (visit : σ → ι → Visit σ κ α)

/-- The scan over some positions: the records put down, the variables at its end and whether a
position has ended it. -/
def slotScan : List ι → σ → (κ → α) → List (ι × (κ → α)) × σ × Bool
  | [], s, _ => ([], s, false)
  | i :: rest, s, slot =>
      let v := visit s i
      let slot := fill slot v.stores
      match v.turn with
      | .skip => slotScan rest v.state slot
      | .put =>
          let (records, out) := slotScan rest v.state fun _ => 0
          ((i, slot) :: records, out)
      | .last => ([(i, slot)], v.state, true)

/-- The records of a scan that fills an empty slot at each position. -/
def ownRecords : List ι → σ → List (ι × (κ → α))
  | [], _ => []
  | i :: rest, s =>
      let v := visit s i
      let slot := fill (fun _ => 0) v.stores
      match v.turn with
      | .skip => ownRecords rest v.state
      | .put => (i, slot) :: ownRecords rest v.state
      | .last => [(i, slot)]

/-- The positions that are visited, with the variables and the slot in front of each. -/
def slotVisits : List ι → σ → (κ → α) → List (σ × ι × (κ → α))
  | [], _, _ => []
  | i :: rest, s, slot =>
      let v := visit s i
      (s, i, slot) :: match v.turn with
        | .skip => slotVisits rest v.state (fill slot v.stores)
        | .put => slotVisits rest v.state fun _ => 0
        | .last => []

/-- The positions that are visited, with the variables in front of each. -/
def scanned : List ι → σ → List (σ × ι)
  | [], _ => []
  | i :: rest, s =>
      let v := visit s i
      (s, i) :: if v.turn = .last then [] else scanned rest v.state

/-- The positions that are visited, with the number of the record that each one builds. -/
def slotTops : List ι → σ → Nat → List ((σ × ι) × Nat)
  | [], _, _ => []
  | i :: rest, s, top =>
      let v := visit s i
      ((s, i), top) :: match v.turn with
        | .skip => slotTops rest v.state top
        | .put => slotTops rest v.state (top + 1)
        | .last => []

/-- The position puts the slot down. -/
def Puts (p : σ × ι) : Prop := (visit p.1 p.2).turn ≠ .skip

instance (p : σ × ι) : Decidable (Puts visit p) := inferInstanceAs (Decidable (_ ≠ _))

/-- A position that puts the slot down covers everything that has been left in it. -/
def LeavesNothing (p : σ × ι × (κ → α)) : Prop :=
  (visit p.1 p.2.1).turn ≠ .skip →
    ∀ k, (storeOf (visit p.1 p.2.1).stores k).Covers (p.2.2 k)

variable {visit}

/-- A position makes the record it would make of an empty slot exactly if it covers what it
finds there. -/
theorem fill_eq_iff (slot : κ → α) (stores : List (κ × Store α)) :
    fill slot stores = fill (fun _ => 0) stores ↔ ∀ k, (storeOf stores k).Covers (slot k) := by
  simp only [funext_iff, fill_apply, Store.covers_iff]

/-- Each record of a scan is its position's own exactly if no position that puts the slot down
finds anything there that it does not cover. -/
theorem slotScan_eq_iff (positions : List ι) (s : σ) (slot : κ → α) :
    (slotScan visit positions s slot).1 = ownRecords visit positions s ↔
      ∀ p ∈ slotVisits visit positions s slot, LeavesNothing visit p := by
  induction positions generalizing s slot with
  | nil => simp [slotScan, ownRecords, slotVisits]
  | cons i rest ih =>
      have hcovers := fill_eq_iff slot (visit s i).stores
      rw [slotScan, ownRecords, slotVisits]
      dsimp only
      rw [List.forall_mem_cons, LeavesNothing]
      dsimp only
      cases (visit s i).turn with
      | skip => simpa using ih (visit s i).state (fill slot (visit s i).stores)
      | put =>
          have hrest := ih (visit s i).state fun _ => 0
          simp only [← hcovers, ← hrest, ne_eq, reduceCtorEq, not_false_eq_true, forall_const,
            List.cons.injEq, Prod.mk.injEq, true_and]
      | last => simp [← hcovers]

/-- A record is what a position that puts the slot down stores into what it finds there. -/
theorem mem_slotScan_iff (positions : List ι) (s : σ) (slot : κ → α) (r : ι × (κ → α)) :
    r ∈ (slotScan visit positions s slot).1 ↔
      ∃ p ∈ slotVisits visit positions s slot, Puts visit (p.1, p.2.1) ∧
        r = (p.2.1, fill p.2.2 (visit p.1 p.2.1).stores) := by
  induction positions generalizing s slot with
  | nil => simp [slotScan, slotVisits]
  | cons i rest ih =>
      rw [slotScan, slotVisits]
      dsimp only
      simp only [List.mem_cons, or_and_right, exists_or, exists_eq_left]
      cases hturn : (visit s i).turn with
      | skip => simp [Puts, hturn, ih]
      | put => simp [Puts, hturn, ih]
      | last => simp [Puts, hturn]

/-- The positions are visited with the same variables whatever is in the slot. -/
theorem map_slotVisits (positions : List ι) (s : σ) (slot : κ → α) :
    (slotVisits visit positions s slot).map (fun p => (p.1, p.2.1)) =
      scanned visit positions s := by
  induction positions generalizing s slot with
  | nil => rfl
  | cons i rest ih =>
      rw [slotVisits, scanned]
      cases hturn : (visit s i).turn with
      | skip => simp [ih]
      | put => simp [ih]
      | last => simp

/-- What every position keeps, of the positions ahead, the variables and the slot, holds of each
visit. -/
theorem slotVisits_rule (I : List ι → σ → (κ → α) → Prop)
    (hskip : ∀ i rest s slot, I (i :: rest) s slot →
      I rest (visit s i).state (fill slot (visit s i).stores))
    (hput : ∀ i rest s slot, I (i :: rest) s slot → I rest (visit s i).state fun _ => 0)
    {positions : List ι} {s : σ} {slot : κ → α} (h : I positions s slot) :
    ∀ p ∈ slotVisits visit positions s slot, ∃ rest, I (p.2.1 :: rest) p.1 p.2.2 := by
  induction positions generalizing s slot with
  | nil => simp [slotVisits]
  | cons i rest ih =>
      intro p hp
      rw [slotVisits] at hp
      rcases List.mem_cons.mp hp with rfl | hp
      · exact ⟨rest, h⟩
      · cases hturn : (visit s i).turn with
        | skip =>
            rw [hturn] at hp
            exact ih (hskip i rest s slot h) p hp
        | put =>
            rw [hturn] at hp
            exact ih (hput i rest s slot h) p hp
        | last =>
            rw [hturn] at hp
            exact absurd hp List.not_mem_nil

omit [DecidableEq κ] [Zero α] [DecidableEq α] in
/-- The number of a record is the number of positions before that put the slot down. -/
theorem forall_slotTops_iff (P : σ × ι → Nat → Prop) (positions : List ι) (s : σ) (top : Nat) :
    (∀ q ∈ slotTops visit positions s top, P q.1 q.2) ↔
      ∀ before p after, scanned visit positions s = before ++ p :: after →
        P p (top + before.countP fun p => Puts visit p) := by
  induction positions generalizing s top with
  | nil => simp [slotTops, scanned]
  | cons i rest ih =>
      -- the first position, and what is before a later one with the first in front of it
      have hsplit : ∀ (l : List (σ × ι)) (Q : List (σ × ι) → σ × ι → Prop),
          (∀ before p after, (s, i) :: l = before ++ p :: after → Q before p) ↔
            Q [] (s, i) ∧ ∀ before p after, l = before ++ p :: after →
              Q ((s, i) :: before) p := by
        intro l Q
        constructor
        · exact fun h => ⟨h [] (s, i) l rfl, fun before p after hl =>
            h ((s, i) :: before) p after (by rw [hl]; rfl)⟩
        · rintro ⟨hfirst, hlater⟩ before p after hl
          cases before with
          | nil =>
              cases hl
              exact hfirst
          | cons b before =>
              cases hl
              exact hlater before p after rfl
      rw [slotTops, scanned, hsplit]
      rw [List.forall_mem_cons]
      refine and_congr_right fun _ => ?_
      cases hturn : (visit s i).turn with
      | skip =>
          have hcount : decide (Puts visit (s, i)) = false := by simp [Puts, hturn]
          simpa only [List.countP_cons, hcount, reduceCtorEq, if_false, Nat.add_zero] using
            ih (visit s i).state top
      | put =>
          have hcount : decide (Puts visit (s, i)) = true := by simp [Puts, hturn]
          simpa only [List.countP_cons, hcount, reduceCtorEq, if_false, if_true,
            Nat.add_assoc, Nat.add_comm 1] using ih (visit s i).state (top + 1)
      | last => simp

omit [DecidableEq κ] [Zero α] [DecidableEq α] in
/-- Positions none of which ends the scan are all visited, and the scan goes on behind them. -/
theorem scanned_append (l l' : List ι) (s : σ) (h : ∀ s, ∀ i ∈ l, (visit s i).turn ≠ .last) :
    ∃ before s', scanned visit (l ++ l') s = before ++ scanned visit l' s' ∧
      before.map Prod.snd = l := by
  induction l generalizing s with
  | nil => exact ⟨[], s, rfl, rfl⟩
  | cons i l ih =>
      obtain ⟨before, s', hscan, hl⟩ :=
        ih (visit s i).state fun s i hi => h s i (List.mem_cons_of_mem _ hi)
      refine ⟨(s, i) :: before, s', ?_, by rw [List.map_cons, hl]⟩
      rw [List.cons_append, scanned, if_neg (h s i List.mem_cons_self), hscan]
      rfl

omit [DecidableEq κ] [Zero α] [DecidableEq α] in
theorem length_scanned_le (positions : List ι) (s : σ) :
    (scanned visit positions s).length ≤ positions.length := by
  induction positions generalizing s with
  | nil => exact Nat.le_refl _
  | cons i rest ih =>
      rw [scanned, List.length_cons, List.length_cons]
      split
      · exact Nat.succ_le_succ (Nat.zero_le _)
      · exact Nat.succ_le_succ (ih _)

/-- As many records are made as positions put the slot down. -/
theorem length_slotScan (positions : List ι) (s : σ) (slot : κ → α) :
    (slotScan visit positions s slot).1.length =
      (scanned visit positions s).countP fun p => Puts visit p := by
  induction positions generalizing s slot with
  | nil => rfl
  | cons i rest ih =>
      rw [slotScan, scanned]
      dsimp only
      cases hturn : (visit s i).turn with
      | skip => simp [Puts, hturn, ih]
      | put => simp [Puts, hturn, ih]
      | last => simp [Puts, hturn]

end Scan

end CiteParser
