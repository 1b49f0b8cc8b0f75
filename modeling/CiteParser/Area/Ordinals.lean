import CiteParser.Area.Pool

/-!
# The ordinals of the matches

`basicFilter` numbers the years, the page ranges and the pages of the text in three marks, each
along the successive results of its own finder. The section on the third was copied from the one
on the second: it still writes the second's mark, and goes on with the second's finder.
-/

namespace CiteParser

/-- The end of the `n`-th match that a finder meets from `start` on; at 0, `start` itself. -/
def nthMatch (find : Int → Int → Int) (limit start : Int) : Nat → Option Int
  | 0 => some start
  | n + 1 => (nthMatch find limit start n).bind fun e =>
      if find e limit = 0 then none else some (find e limit)

/-- The record at the end of the `n`-th match of a kind has `n` in the mark of that kind. -/
def OrdinalsKept (T : Pcontent) (startOffset : Int) (records : List (Int × (Nat → Int))) : Prop :=
  ∀ p ∈ records, ∀ n : Nat, 1 ≤ n →
    (nthMatch (hasYearafterTheOffset T) T.pclen startOffset n = some p.1 → p.2 16 = n) ∧
    (nthMatch (hasPPafterTheOffset T) T.pclen startOffset n = some p.1 → p.2 17 = n) ∧
    (nthMatch (hasPPafterTheOffset2 T) T.pclen startOffset n = some p.1 → p.2 18 = n)

/-- The section on the third index at `i` stores nothing, or `n`. -/
def ThirdAgrees (T : Pcontent) (m : Matches) (i n : Int) : Prop :=
  m.next ≠ -1 →
    (i = m.next ∨ haveDiffernecesE T i m.next = false → m.index + 1 = n) ∧
    (i ≠ m.next → haveDiffernecesE T i m.next = true → haveDiffernecesE T i m.last = false →
      m.index = n)

/-- No record is made where a page match ends, and where one is made at the end of the `n`-th
page range, the section on the third index does not spoil the mark. -/
def ThirdApart (T : Pcontent) (myEc : List (List UInt8)) (d : EndOffsets) (startOffset : Int) :
    Prop :=
  ∀ p ∈ scanned (endVisit T myEc d) (endPositions T startOffset) (runningStart T startOffset),
    reports T myEc d p = true → ∀ n : Nat, 1 ≤ n →
      nthMatch (hasPPafterTheOffset2 T) T.pclen startOffset n ≠ some p.2 ∧
      (nthMatch (hasPPafterTheOffset T) T.pclen startOffset n = some p.2 →
        ThirdAgrees T p.1.page2 p.2 n)

section Chain

variable {find : Int → Int → Int} {limit start : Int}

/-- What a finder that is started again and again with the same length returns lies ahead. -/
def Ahead (find : Int → Int → Int) (limit : Int) : Prop :=
  ∀ o, find o limit ≠ 0 → o < find o limit ∧ 0 < find o limit

theorem ahead_of_advances {T : Pcontent} (h : Advances T find) : Ahead find T.pclen := by
  intro o hne
  obtain ⟨hlt, hwindow⟩ := h o T.pclen hne
  have hle := le_start_of_window (T := T) (o := o) (by omega) hwindow
  have hstart : 0 ≤ (defineStartAndEnd T o T.pclen).1 := by
    rw [defineStartAndEnd]
    dsimp only
    split <;> omega
  omega

theorem nthMatch_succ {n : Nat} {e e' : Int} (h : nthMatch find limit start n = some e) :
    nthMatch find limit start (n + 1) = some e' ↔ find e limit ≠ 0 ∧ find e limit = e' := by
  rw [nthMatch, h, Option.bind_some]
  split
  next hzero => simp [hzero]
  next hne => simp [hne]

theorem nthMatch_pos (hahead : Ahead find limit) {n : Nat} {e : Int}
    (h : nthMatch find limit start (n + 1) = some e) : 0 < e := by
  cases hn : nthMatch find limit start n with
  | none =>
      rw [nthMatch, hn] at h
      contradiction
  | some e₁ =>
      obtain ⟨hne, rfl⟩ := (nthMatch_succ hn).mp h
      exact (hahead e₁ hne).2

/-- The matches before the `n`-th end before it. -/
theorem nthMatch_lt (hahead : Ahead find limit) {n m : Nat} (hnm : n < m) {e : Int}
    (h : nthMatch find limit start m = some e) :
    ∃ e', nthMatch find limit start n = some e' ∧ e' < e := by
  induction m generalizing e with
  | zero => omega
  | succ m ih =>
      cases hm : nthMatch find limit start m with
      | none =>
          rw [nthMatch, hm] at h
          contradiction
      | some e₁ =>
          obtain ⟨hne, heq⟩ := (nthMatch_succ hm).mp h
          have hlt := (hahead e₁ hne).1
          rcases Nat.lt_succ_iff_lt_or_eq.mp hnm with hlow | rfl
          · obtain ⟨e', he', hlt'⟩ := ih hlow hm
            exact ⟨e', he', by omega⟩
          · exact ⟨e₁, hm, by omega⟩

/-- A match has one number. -/
theorem nthMatch_inj (hahead : Ahead find limit) {n m : Nat} {e : Int}
    (hn : nthMatch find limit start n = some e) (hm : nthMatch find limit start m = some e) :
    n = m := by
  rcases lt_trichotomy n m with hlt | rfl | hgt
  · obtain ⟨e', he', hlt'⟩ := nthMatch_lt hahead hlt hm
    rw [hn] at he'
    cases he'
    omega
  · rfl
  · obtain ⟨e', he', hlt'⟩ := nthMatch_lt hahead hgt hn
    rw [hm] at he'
    cases he'
    omega

/-- The variables of a kind tell which match ends next, if one does from `i` on. -/
def Tracks (find : Int → Int → Int) (limit start i : Int) (m : Matches) : Prop :=
  ∀ n e, nthMatch find limit start (n + 1) = some e → i ≤ e →
    ∃ k : Nat, m.index = k ∧ nthMatch find limit start (k + 1) = some m.next ∧
      i ≤ m.next ∧ m.next ≤ e

theorem tracks_start (hahead : Ahead find limit) :
    Tracks find limit start start ⟨find start limit, start, 0⟩ := by
  intro n e he _
  have hfirst : nthMatch find limit start 1 = some (find start limit) ∧ find start limit ≤ e := by
    rcases Nat.eq_zero_or_pos n with rfl | hpos
    · have hstep := (nthMatch_succ (n := 0) rfl).mp he
      exact ⟨by rw [he, hstep.2], hstep.2.le⟩
    · obtain ⟨e', he', hlt⟩ := nthMatch_lt hahead (Nat.succ_lt_succ hpos) he
      have hstep := (nthMatch_succ (n := 0) rfl).mp he'
      exact ⟨by rw [he', hstep.2], by omega⟩
  have hne : find start limit ≠ 0 := ((nthMatch_succ (n := 0) rfl).mp hfirst.1).1
  exact ⟨0, rfl, hfirst.1, (hahead start hne).1.le, hfirst.2⟩

/-- The section on a kind keeps its variables on the track. -/
theorem Tracks.pass {T : Pcontent} {i : Int} {m : Matches}
    (hahead : Ahead find T.pclen) (h : Tracks find T.pclen start i m) :
    Tracks find T.pclen start (i + 1) (m.pass T find i).1 := by
  intro n e he hi
  obtain ⟨k, hindex, hnext, hle, hnext_le⟩ := h n e he (by omega)
  by_cases hnow : i = m.next
  · have hlater : k + 1 < n + 1 := by
      by_contra hnot
      rcases (Nat.le_of_not_lt hnot).eq_or_lt with heq | hlt
      · rw [heq, hnext] at he
        cases he
        omega
      · obtain ⟨e', he', hlt'⟩ := nthMatch_lt hahead hlt hnext
        rw [he] at he'
        cases he'
        omega
    obtain ⟨e', he', hle'⟩ : ∃ e', nthMatch find T.pclen start (k + 2) = some e' ∧ e' ≤ e := by
      rcases Nat.lt_or_eq_of_le hlater with hlt | heq
      · obtain ⟨e', he', hlt'⟩ := nthMatch_lt hahead hlt he
        exact ⟨e', he', hlt'.le⟩
      · exact ⟨e, by rw [← he, ← heq], le_rfl⟩
    obtain ⟨hne, heq⟩ := (nthMatch_succ hnext).mp he'
    have hlt := (hahead m.next hne).1
    have hminus : m.next ≠ -1 := by
      have := nthMatch_pos hahead hnext
      omega
    rw [Matches.pass, if_pos hminus, if_pos hnow]
    dsimp only
    rw [if_neg hne]
    refine ⟨k + 1, by rw [hindex]; rfl, (nthMatch_succ hnext).mpr ⟨hne, rfl⟩, by omega, by omega⟩
  · have hsame : (m.pass T find i).1 = m := by
      rw [Matches.pass]
      split_ifs <;> rfl
    rw [hsame]
    exact ⟨k, hindex, hnext, by omega, hnext_le⟩

/-- Where the `n`-th match ends, its number is stored. -/
theorem Tracks.store {T : Pcontent} {i : Int} {m : Matches} {n : Nat}
    (hahead : Ahead find T.pclen) (h : Tracks find T.pclen start i m) (hn : 1 ≤ n)
    (hi : nthMatch find T.pclen start n = some i) : (m.pass T find i).2.1 = .set (n : Int) := by
  obtain ⟨n, rfl⟩ := Nat.exists_eq_succ_of_ne_zero (Nat.one_le_iff_ne_zero.mp hn)
  obtain ⟨k, hindex, hnext, hle, hnext_le⟩ := h n i hi le_rfl
  have heq : i = m.next := le_antisymm hle hnext_le
  rw [← heq] at hnext
  have hk : k + 1 = n + 1 := nthMatch_inj hahead hnext hi
  have hpos := nthMatch_pos hahead hnext
  rw [Matches.pass, if_pos (by omega), if_pos heq]
  cases hk
  rw [hindex]
  rfl

end Chain

section Marks

variable {T : Pcontent} {myEc : List (List UInt8)} {d : EndOffsets}

theorem endVisit_state (r : Running) (i : Int) :
    (endVisit T myEc d r i).state.year = (r.year.pass T (hasYearafterTheOffset T) i).1 ∧
      (endVisit T myEc d r i).state.page = (r.page.pass T (hasPPafterTheOffset T) i).1 := by
  simp only [endVisit]
  split_ifs <;> exact ⟨rfl, rfl⟩

/-- What the section on the third index stores. -/
theorem thirdAgrees_iff (find : Int → Int → Int) (m : Matches) (i n : Int) :
    ThirdAgrees T m i n ↔
      (m.pass T find i).2.1 = .keep ∨ (m.pass T find i).2.1 = .set n := by
  rw [ThirdAgrees, Matches.pass]
  by_cases hend : m.next = -1
  · simp [hend]
  · by_cases hnow : i = m.next
    · simp [hend, hnow]
    · cases hnext : haveDiffernecesE T i m.next with
      | false => simp [hend, hnow]
      | true =>
          cases hlast : haveDiffernecesE T i m.last with
          | false => simp [hend, hnow]
          | true => simp [hend, hnow]

theorem pass_store_cases (m : Matches) (find : Int → Int → Int) (i : Int) :
    (m.pass T find i).2.1 = .keep ∨ ∃ v, (m.pass T find i).2.1 = .set v := by
  rw [Matches.pass]
  split_ifs <;> simp

/-- What a position does to the marks of the ordinals. -/
theorem storeOf_ordinals (r : Running) (i : Int) :
    storeOf (endVisit T myEc d r i).stores 16 =
        (r.year.pass T (hasYearafterTheOffset T) i).2.1 ∧
      storeOf (endVisit T myEc d r i).stores 17 =
        (r.page.pass T (hasPPafterTheOffset T) i).2.1.andThen
          (r.page2.pass T (hasPPafterTheOffset T) i).2.1 ∧
      storeOf (endVisit T myEc d r i).stores 18 = .keep := by
  obtain ⟨rest, hstores, hrest⟩ := stores_first T myEc d r i
  have hother : ∀ k, 16 ≤ k → ∀ store ∈
      ((d.befores.map fun before => i != 0 && before == i).zipIdx.map fun e : Bool × Nat =>
        (7 + e.2, if e.1 then Store.set (4 : Int) else .keep)) ++ rest, store.1 ≠ k := by
    intro k hk
    rw [List.forall_mem_append]
    constructor
    · intro store hstore
      have := key_of_mem_zipIdx (by rw [List.length_map]; rfl) hstore
      omega
    · intro store hstore
      have := hrest store hstore
      omega
  have hkeep : ∀ w : Store Int, Store.keep.andThen w = w := by
    intro w
    cases w <;> rfl
  rw [hstores, List.append_assoc, storeOf_append _ (hother 16 le_rfl),
    storeOf_append _ (hother 17 (by decide)), storeOf_append _ (hother 18 (by decide))]
  simp [storeOf, hkeep]

/-- The positions follow each other, the matches of both kinds are on their track, and nothing is
in the third mark. -/
def OnTrack (T : Pcontent) (startOffset : Int) (positions : List Int) (r : Running)
    (slot : Nat → Int) : Prop :=
  positions.IsChain (fun a b => b = a + 1) ∧ slot 18 = 0 ∧
    ∀ i ∈ positions.head?,
      Tracks (hasYearafterTheOffset T) T.pclen startOffset i r.year ∧
        Tracks (hasPPafterTheOffset T) T.pclen startOffset i r.page

theorem ahead_year (T : Pcontent) : Ahead (hasYearafterTheOffset T) T.pclen :=
  ahead_of_advances (hasYearafterTheOffset_advances T)

theorem ahead_page (T : Pcontent) : Ahead (hasPPafterTheOffset T) T.pclen :=
  ahead_of_advances (hasPPafterTheOffset_advances T)

/-- A position keeps to the track. -/
theorem OnTrack.step {startOffset i : Int} {rest : List Int} {r : Running} {slot : Nat → Int}
    (h : OnTrack T startOffset (i :: rest) r slot) {slot' : Nat → Int} (hslot : slot' 18 = 0) :
    OnTrack T startOffset rest (endVisit T myEc d r i).state slot' := by
  obtain ⟨hchain, -, htracks⟩ := h
  obtain ⟨hyear, hpage⟩ := htracks i rfl
  obtain ⟨hyear', hpage'⟩ := @endVisit_state T myEc d r i
  refine ⟨hchain.of_cons, hslot, fun i' hi' => ?_⟩
  have hnext : i' = i + 1 := by
    cases rest with
    | nil => exact absurd hi' (by simp)
    | cons j rest =>
        cases hi'
        exact (List.isChain_cons_cons.mp hchain).1
  rw [hnext, hyear', hpage']
  exact ⟨hyear.pass (ahead_year T), hpage.pass (ahead_page T)⟩

theorem onTrack_start (T : Pcontent) (startOffset : Int) :
    OnTrack T startOffset (endPositions T startOffset) (runningStart T startOffset) fun _ => 0 := by
  refine ⟨?_, rfl, fun i hi => ?_⟩
  · rw [endPositions, List.isChain_map, List.isChain_range]
    intro k _
    push_cast
    omega
  · have hi' : i = startOffset := by
      rw [endPositions] at hi
      cases hn : (T.pclen - startOffset).toNat with
      | zero => simp [hn] at hi
      | succ n =>
          rw [hn, List.range_succ_eq_map, List.map_cons] at hi
          cases hi
          simp
    rw [hi']
    exact ⟨tracks_start (ahead_year T), tracks_start (ahead_page T)⟩

/-- All positions that are visited are on the track. -/
theorem onTrack_visits (startOffset : Int) :
    ∀ p ∈ slotVisits (endVisit T myEc d) (endPositions T startOffset) (runningStart T startOffset)
      fun _ => 0, ∃ rest, OnTrack T startOffset (p.2.1 :: rest) p.1 p.2.2 := by
  refine slotVisits_rule (OnTrack T startOffset) (fun i rest r slot h => h.step ?_)
    (fun i rest r slot h => h.step rfl) (onTrack_start T startOffset)
  rw [fill_apply, (storeOf_ordinals r i).2.2]
  exact h.2.1

/-- The ordinals of a record are kept exactly if its position is not the end of a page match and
the section on the third index does not spoil the second mark. -/
theorem record_iff {startOffset : Int} {p : Running × Int × (Nat → Int)}
    {rest : List Int} (h : OnTrack T startOffset (p.2.1 :: rest) p.1 p.2.2) (n : Nat)
    (hn : 1 ≤ n) :
    let record := fill p.2.2 (endVisit T myEc d p.1 p.2.1).stores
    ((nthMatch (hasYearafterTheOffset T) T.pclen startOffset n = some p.2.1 → record 16 = n) ∧
      (nthMatch (hasPPafterTheOffset T) T.pclen startOffset n = some p.2.1 → record 17 = n) ∧
      (nthMatch (hasPPafterTheOffset2 T) T.pclen startOffset n = some p.2.1 → record 18 = n)) ↔
    nthMatch (hasPPafterTheOffset2 T) T.pclen startOffset n ≠ some p.2.1 ∧
      (nthMatch (hasPPafterTheOffset T) T.pclen startOffset n = some p.2.1 →
        ThirdAgrees T p.1.page2 p.2.1 n) := by
  obtain ⟨r, i, slot⟩ := p
  obtain ⟨-, hslot, htracks⟩ := h
  obtain ⟨hyear, hpage⟩ := htracks i rfl
  obtain ⟨h16, h17, h18⟩ := @storeOf_ordinals T myEc d r i
  dsimp only at hslot ⊢
  rw [fill_apply, fill_apply, fill_apply, h16, h17, h18, thirdAgrees_iff (hasPPafterTheOffset T)]
  have hthird : Store.keep.apply (slot 18) ≠ (n : Int) := by
    rw [Store.apply, hslot]
    omega
  have hfirst : nthMatch (hasYearafterTheOffset T) T.pclen startOffset n = some i →
      (r.year.pass T (hasYearafterTheOffset T) i).2.1.apply (slot 16) = n := by
    intro hi
    rw [hyear.store (ahead_year T) hn hi, Store.apply]
  rw [and_iff_right hfirst, and_comm]
  refine and_congr ⟨fun h hi => hthird (h hi), fun h hi => absurd hi h⟩ ?_
  refine forall_congr' fun hi => ?_
  rw [hpage.store (ahead_page T) hn hi]
  rcases pass_store_cases r.page2 (hasPPafterTheOffset T) i with hkeep | ⟨v, hset⟩
  · rw [hkeep]
    simp [Store.andThen, Store.apply]
  · rw [hset]
    simp [Store.andThen, Store.apply]

end Marks

/-- The ordinals of the matches are kept apart exactly if no record is made where a page match
ends and the section on the third index spoils no mark of a page range. -/
theorem ordinalsKept_iff (T : Pcontent) (myEc : List (List UInt8)) (startOffset : Int) :
    ∃ d out, endOffsets T myEc startOffset = some d ∧
      basicFilter T myEc startOffset = some out ∧
      (OrdinalsKept T startOffset out.1 ↔ ThirdApart T myEc d startOffset) := by
  obtain ⟨d, hd, -⟩ := endOffsets_spec T myEc startOffset
  refine ⟨d, _, hd, basicFilter_eq hd, ?_⟩
  have htrack := @onTrack_visits T myEc d startOffset
  rw [ThirdApart, ← map_slotVisits _ _ fun _ => 0, List.forall_mem_map, OrdinalsKept]
  constructor
  · intro h p hp hreports n hn
    obtain ⟨rest, hrest⟩ := htrack p hp
    refine (@record_iff T myEc d startOffset p rest hrest n hn).mp ?_
    exact h _ ((mem_slotScan_iff _ _ _ _).mpr ⟨p, hp, (puts_iff _).mpr hreports, rfl⟩) n hn
  · intro h record hrecord n hn
    obtain ⟨p, hp, hputs, rfl⟩ := (mem_slotScan_iff _ _ _ _).mp hrecord
    obtain ⟨rest, hrest⟩ := htrack p hp
    exact (record_iff hrest n hn).mpr (h p hp ((puts_iff _).mp hputs) n hn)

/-- The page match ends at 9; its record has the number in the mark of the page ranges. -/
theorem not_ordinalsKept :
    ∃ out, basicFilter (.ofText (bytes "see pp. 12 in a text")) [] 0 = some out ∧
      ((out.1.find? fun p => p.1 = 9).map fun p => (p.2 17, p.2 18)) = some (1, 0) ∧
      nthMatch (hasPPafterTheOffset2 (.ofText (bytes "see pp. 12 in a text")))
        (Pcontent.ofText (bytes "see pp. 12 in a text")).pclen 0 1 = some 9 ∧
      ¬ OrdinalsKept (.ofText (bytes "see pp. 12 in a text")) 0 out.1 := by
  have hrun : (basicFilter (.ofText (bytes "see pp. 12 in a text")) [] 0).map (fun out =>
      (out.1.find? fun p => p.1 = 9).map fun p => (p.2 17, p.2 18)) = some (some (1, 0)) := by
    decide +kernel
  have hmatch : nthMatch (hasPPafterTheOffset2 (.ofText (bytes "see pp. 12 in a text")))
      (Pcontent.ofText (bytes "see pp. 12 in a text")).pclen 0 1 = some 9 := by decide +kernel
  obtain ⟨out, hout, hmarks⟩ := Option.map_eq_some_iff.mp hrun
  refine ⟨out, hout, hmarks, hmatch, fun h => ?_⟩
  obtain ⟨p, hp, hp2⟩ := Option.map_eq_some_iff.mp hmarks
  have hoffset : p.1 = 9 := by simpa using List.find?_some hp
  have hthird := (h p (List.mem_of_find?_eq_some hp) 1 le_rfl).2.2 (by rw [hmatch, hoffset])
  rw [(Prod.mk.inj hp2).2] at hthird
  exact absurd hthird (by decide)

end CiteParser
