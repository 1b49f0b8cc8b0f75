import CiteParser.Area.EndRecords

/-!
# Room for the candidate records

`basicFilter` builds each record in `data[top]` of a container of a fixed size. It looks whether
the container is full after it has put a record down, and goes on.
-/

namespace CiteParser

/-- `ENDCTNMAX`. -/
def endCtnMax : Nat := 1024

section Pool

variable (T : Pcontent) (myEc : List (List UInt8)) (d : EndOffsets)

/-- The position stores into `data[top]` or looks at it; behind a `continue` the latter is always
so. -/
def touches (p : Running × Int) : Bool :=
  !behindData T p.2 || (endVisit T myEc d p.1 p.2).stores.any fun store => !store.2.isKeep

/-- The position is the first one close to the last match of a kind. -/
def firstNear (lastOffset : Int) (isMarked : Bool) (i : Int) : Bool :=
  !haveDifferneces T lastOffset i && !isMarked

/-- The position ends the next match of a kind or a part of the article, or it is not behind
data and a keyword starts there, it is the first close to a last match, or only white space
follows. -/
def reports (p : Running × Int) : Bool :=
  let (r, i) := p
  (r.year.next != -1 && i == r.year.next) || (r.page.next != -1 && i == r.page.next) ||
    (r.page2.next != -1 && i == r.page2.next) ||
    (d.befores.any fun before => i != 0 && before == i) ||
    !behindData T i &&
      (anyWord T ackWords i || anyWord T myEc i || firstNear T d.lastYearOffset r.isMarkedEOY i ||
        firstNear T d.lastPageOffset r.isMarkedEOP i ||
        firstNear T d.lastPageOffset2 r.isMarkedEOP2 i || !haveDiffernecesH T T.pclen i)

variable (startOffset : Int)

/-- `top` stays in the container, and each position that touches a record finds it there. -/
def PoolSuffices (records : List (Int × (Nat → Int))) : Prop :=
  records.length ≤ endCtnMax ∧
    ∀ q ∈ slotTops (endVisit T myEc d) (endPositions T startOffset) (runningStart T startOffset) 0,
      q.2 ≤ endCtnMax ∧ (touches T myEc d q.1 = true → q.2 < endCtnMax)

/-- Fewer positions than there are places report something before each one that touches a
record. -/
def FewReports : Prop :=
  ∀ before p after,
    scanned (endVisit T myEc d) (endPositions T startOffset) (runningStart T startOffset) =
      before ++ p :: after →
    touches T myEc d p = true → before.countP (reports T myEc d) < endCtnMax

end Pool

section Reports

variable {T : Pcontent} {myEc : List (List UInt8)} {d : EndOffsets}

theorem pass_reports (m : Matches) (find : Int → Int → Int) (i : Int) :
    (m.pass T find i).2.2 = (m.next != -1 && i == m.next) := by
  rw [Matches.pass]
  split_ifs <;> simp_all

theorem lastStore_reports (lastOffset : Int) (isMarked : Bool) (i : Int) :
    (lastStore T lastOffset isMarked i).2.2 = firstNear T lastOffset isMarked i := by
  rw [lastStore, firstNear]
  split_ifs <;> simp_all

theorem ackStore_reports (absOffset i : Int) :
    (ackStore T absOffset i).2 = anyWord T ackWords i := by
  rw [ackStore]
  split_ifs <;> simp_all

/-- A position ends the scan, puts the record down or goes on. -/
theorem turn_ne_skip_iff {σ κ α : Type*} {a b : Bool} {s s' s'' : σ}
    {l l' l'' : List (κ × Store α)} :
    (if a then ⟨s, l, .last⟩ else if b then ⟨s', l', .put⟩ else ⟨s'', l'', .skip⟩ :
      Visit σ κ α).turn ≠ .skip ↔ b = true ∨ a = true := by
  cases a <;> cases b <;> simp

/-- The positions that put a record down are those that report something. -/
theorem puts_iff (p : Running × Int) : Puts (endVisit T myEc d) p ↔ reports T myEc d p = true := by
  obtain ⟨r, i⟩ := p
  have hyear := pass_reports (T := T) r.year (hasYearafterTheOffset T) i
  have hpage := pass_reports (T := T) r.page (hasPPafterTheOffset T) i
  have hpage2 := pass_reports (T := T) r.page2 (hasPPafterTheOffset T) i
  have hack := ackStore_reports (T := T) d.absOffset.1 i
  have heoy := lastStore_reports (T := T) d.lastYearOffset r.isMarkedEOY i
  have heop := lastStore_reports (T := T) d.lastPageOffset r.isMarkedEOP i
  have heop2 := lastStore_reports (T := T) d.lastPageOffset2 r.isMarkedEOP2 i
  have hends : ((d.befores.map fun before => i != 0 && before == i).any id) =
      d.befores.any fun before => i != 0 && before == i := by simp [List.any_map]
  rw [Puts, reports]
  dsimp only
  rw [← hyear, ← hpage, ← hpage2, ← hack, ← heoy, ← heop, ← heop2, ← hends]
  simp only [endVisit]
  split
  next hskip =>
      rw [Bool.and_eq_true, Bool.not_eq_true'] at hskip
      simp only [hskip.1, hskip.2]
      simp
  next hgo =>
      rw [turn_ne_skip_iff]
      generalize ((r.year.pass T (hasYearafterTheOffset T) i).2.2 ||
        (r.page.pass T (hasPPafterTheOffset T) i).2.2 ||
        (r.page2.pass T (hasPPafterTheOffset T) i).2.2 ||
        (d.befores.map fun before => i != 0 && before == i).any id) = matched at hgo ⊢
      cases matched with
      | true => simp
      | false =>
          have hbehind : behindData T i = false := by simpa using hgo
          rw [hbehind]
          simp

/-- A match that ends at the position is stored. -/
theorem pass_stores {m : Matches} {find : Int → Int → Int} {i : Int}
    (h : (m.pass T find i).2.2 = true) : (m.pass T find i).2.1.isKeep = false := by
  revert h
  rw [Matches.pass]
  split_ifs <;> simp [Store.isKeep]

/-- The stores along a list of the parts of the article are into the marks from 7 to 15. -/
theorem key_of_mem_zipIdx {β : Type*} {l : List β} (hl : l.length ≤ 9) {f : β × Nat → Store Int}
    {store : Nat × Store Int} (h : store ∈ l.zipIdx.map fun e => (7 + e.2, f e)) :
    store.1 < 16 := by
  obtain ⟨e, he, rfl⟩ := List.mem_map.mp h
  have := List.snd_lt_of_mem_zipIdx he
  dsimp only
  omega

/-- The stores of the matches come first, whether the position goes on or not, and those behind
are not into their marks. -/
theorem stores_first (T : Pcontent) (myEc : List (List UInt8)) (d : EndOffsets) (r : Running)
    (i : Int) :
    ∃ rest, (endVisit T myEc d r i).stores =
      [(16, (r.year.pass T (hasYearafterTheOffset T) i).2.1),
        (17, (r.page.pass T (hasPPafterTheOffset T) i).2.1),
        (17, (r.page2.pass T (hasPPafterTheOffset T) i).2.1)] ++
      ((d.befores.map fun before => i != 0 && before == i).zipIdx.map fun e : Bool × Nat =>
        (7 + e.2, if e.1 then Store.set (4 : Int) else .keep)) ++ rest ∧
      ∀ store ∈ rest, store.1 < 16 := by
  have hnear : ∀ l, ∀ store ∈ ((List.zip d.befores l).zipIdx.map
      fun p : (Int × Int) × Nat => (7 + p.2, nearStore T p.1.1 p.1.2 i)), store.1 < 16 := by
    intro l store
    apply key_of_mem_zipIdx
    rw [List.length_zip]
    exact min_le_left _ _
  simp only [endVisit]
  split
  · exact ⟨[], by simp, by simp⟩
  · split
    · refine ⟨_, by simp only [List.append_assoc]; rfl, ?_⟩
      rw [List.forall_mem_append, List.forall_mem_append]
      exact ⟨by simp, hnear _, by simp⟩
    · split
      all_goals
        refine ⟨_, by simp only [List.append_assoc]; rfl, ?_⟩
        rw [List.forall_mem_append]
        exact ⟨by simp, hnear _⟩

/-- A position that puts a record down has stored something there, or looks at it. -/
theorem touches_of_reports {p : Running × Int} (h : reports T myEc d p = true) :
    touches T myEc d p = true := by
  obtain ⟨r, i⟩ := p
  cases hbehind : behindData T i with
  | false => simp [touches, hbehind]
  | true =>
      obtain ⟨rest, hstores, -⟩ := stores_first T myEc d r i
      rw [touches, hstores, Bool.or_eq_true, List.any_append, List.any_append]
      simp only [reports, hbehind, Bool.not_true, Bool.false_and, Bool.or_false,
        Bool.or_eq_true, ← pass_reports (T := T) r.year (hasYearafterTheOffset T) i,
        ← pass_reports (T := T) r.page (hasPPafterTheOffset T) i,
        ← pass_reports (T := T) r.page2 (hasPPafterTheOffset T) i] at h
      right
      rcases h with ((hyear | hpage) | hpage2) | hends
      · simp [pass_stores hyear]
      · simp [pass_stores hpage]
      · simp [pass_stores hpage2]
      · rw [List.any_eq_true] at hends
        obtain ⟨before, hbefore, hend⟩ := hends
        obtain ⟨k, hk⟩ := List.mem_iff_getElem?.mp hbefore
        have hmem : (true, k) ∈ (d.befores.map fun before => i != 0 && before == i).zipIdx := by
          rw [List.mk_mem_zipIdx_iff_getElem?, List.getElem?_map, hk, Option.map_some, hend]
        have hstore : (((d.befores.map fun before => i != 0 && before == i).zipIdx.map
            fun e : Bool × Nat => (7 + e.2, if e.1 then Store.set (4 : Int) else .keep)).any
            fun store => !store.2.isKeep) = true :=
          List.any_eq_true.mpr ⟨_, List.mem_map_of_mem hmem, rfl⟩
        rw [hstore]
        simp

end Reports

/-- Where more than `n` members of a list have a property, one has exactly `n` of them in front
of it. -/
theorem exists_nth_of_lt_countP {α : Type*} {p : α → Bool} {l : List α} {n : Nat}
    (h : n < l.countP p) :
    ∃ before x after, l = before ++ x :: after ∧ p x = true ∧ before.countP p = n := by
  induction l generalizing n with
  | nil => exact absurd h (by simp)
  | cons x l ih =>
      cases hx : p x with
      | false =>
          rw [List.countP_cons_of_neg (by simp [hx])] at h
          obtain ⟨before, y, after, rfl, hy, hcount⟩ := ih h
          refine ⟨x :: before, y, after, rfl, hy, ?_⟩
          rw [List.countP_cons_of_neg (by simp [hx]), hcount]
      | true =>
          rw [List.countP_cons_of_pos hx] at h
          cases n with
          | zero => exact ⟨[], x, l, rfl, hx, rfl⟩
          | succ n =>
              obtain ⟨before, y, after, rfl, hy, hcount⟩ := ih (Nat.lt_of_succ_lt_succ h)
              refine ⟨x :: before, y, after, rfl, hy, ?_⟩
              rw [List.countP_cons_of_pos hx, hcount]

section Room

variable {T : Pcontent} {myEc : List (List UInt8)} {d : EndOffsets} {startOffset : Int}

theorem countP_puts (l : List (Running × Int)) :
    (l.countP fun p => Puts (endVisit T myEc d) p) = l.countP (reports T myEc d) :=
  List.countP_congr fun p _ => by simp [puts_iff]

/-- The container is large enough exactly if few positions report something. -/
theorem poolSuffices_iff_fewReports (slot : Nat → Int) :
    PoolSuffices T myEc d startOffset
        (slotScan (endVisit T myEc d) (endPositions T startOffset) (runningStart T startOffset)
          slot).1 ↔
      FewReports T myEc d startOffset := by
  rw [PoolSuffices, length_slotScan, countP_puts]
  rw [forall_slotTops_iff fun p top => top ≤ endCtnMax ∧ (touches T myEc d p = true →
    top < endCtnMax)]
  simp only [countP_puts, Nat.zero_add]
  constructor
  · exact fun h before p after hscan htouch => (h.2 before p after hscan).2 htouch
  · intro h
    have htotal : (scanned (endVisit T myEc d) (endPositions T startOffset)
        (runningStart T startOffset)).countP (reports T myEc d) ≤ endCtnMax := by
      by_contra hmany
      obtain ⟨before, p, after, hscan, hp, hcount⟩ := exists_nth_of_lt_countP (not_le.mp hmany)
      have := h before p after hscan (touches_of_reports hp)
      omega
    refine ⟨htotal, fun before p after hscan => ⟨?_, h before p after hscan⟩⟩
    rw [hscan, List.countP_append] at htotal
    omega

/-- A text with no more positions than places is never too long. -/
theorem fewReports_of_short (h : T.pclen - startOffset ≤ endCtnMax) :
    FewReports T myEc d startOffset := by
  intro before p after hscan _
  have hlen : (scanned (endVisit T myEc d) (endPositions T startOffset)
      (runningStart T startOffset)).length ≤ (endPositions T startOffset).length :=
    length_scanned_le _ _
  rw [hscan, endPositions, List.length_append, List.length_cons, List.length_map,
    List.length_range] at hlen
  have hcount := List.countP_le_length (p := reports T myEc d) (l := before)
  omega

end Room

theorem basicFilter_eq {T : Pcontent} {myEc : List (List UInt8)} {startOffset : Int}
    {d : EndOffsets} (hd : endOffsets T myEc startOffset = some d) :
    basicFilter T myEc startOffset =
      some (slotScan (endVisit T myEc d) (endPositions T startOffset)
        (runningStart T startOffset) fun _ => 0) := by
  rw [basicFilter, hd, Option.map_some]

/-- The container is large enough for the records of `basicFilter` exactly if fewer positions
than it has places report something before each one that touches a record. -/
theorem poolSuffices_iff (T : Pcontent) (myEc : List (List UInt8)) (startOffset : Int) :
    ∃ d out, endOffsets T myEc startOffset = some d ∧
      basicFilter T myEc startOffset = some out ∧
      (PoolSuffices T myEc d startOffset out.1 ↔ FewReports T myEc d startOffset) := by
  obtain ⟨d, hd, -⟩ := endOffsets_spec T myEc startOffset
  exact ⟨d, _, hd, basicFilter_eq hd, poolSuffices_iff_fewReports fun _ => 0⟩

/-- A keyword of the acknowledgements, over and over again. -/
def appendices : Pcontent where
  char i := if 0 ≤ i ∧ i < 9900 then (bytes "APPENDIX ").getD (i % 9).toNat 0 else 0
  pclen := 9900

theorem appendices_char {i k : Int} (h0 : 0 ≤ i) (hi : i + k < 9900) (hmod : i % 9 = 0)
    (hk : 0 ≤ k) (hk' : k < 9) :
    appendices.char (i + k) = (bytes "APPENDIX ").getD k.toNat 0 := by
  have hrange : 0 ≤ i + k ∧ i + k < 9900 := by omega
  have hrest : (i + k) % 9 = k := by omega
  simp only [appendices, hrange, and_self, if_true, hrest]

/-- Each of the keywords reports, whatever has been found before. -/
theorem reports_appendices (d : EndOffsets) (r : Running) {i : Int} (h0 : 0 ≤ i)
    (hi : i < 9216 + 9) (hmod : i % 9 = 0) : behindData appendices i = false ∧
      reports appendices [] d (r, i) = true := by
  have hbehind : behindData appendices i = false := by
    rcases h0.eq_or_lt with rfl | hpos
    · rfl
    · have hblank := appendices_char (i := i - 9) (k := 8) (by omega) (by omega) (by omega)
        (by omega) (by omega)
      have hoff : i - 1 = i - 9 + 8 := by omega
      rw [behindData, hoff, hblank]
      simp only [Bool.and_eq_false_imp]
      exact fun _ => by decide
  have hwindow : appendices.window i 8 = bytes "APPENDIX" := by
    have hmap : (List.range 8).map (fun k : Nat => (bytes "APPENDIX ").getD k 0) =
        bytes "APPENDIX" := by decide
    rw [Pcontent.window, ← hmap]
    refine List.map_congr_left fun k hk => ?_
    have hk8 := List.mem_range.mp hk
    rw [appendices_char h0 (by omega) hmod (by omega) (by omega), Int.toNat_natCast]
  have hword : inlmt appendices (bytes "APPENDIX") i = true := by
    have hlen : (bytes "APPENDIX").length = 8 := by decide
    rw [inlmt, hlen, hwindow]
    decide +kernel
  have hany : anyWord appendices ackWords i = true :=
    List.any_eq_true.mpr ⟨_, List.mem_cons_self, hword⟩
  refine ⟨hbehind, ?_⟩
  rw [reports, hbehind, hany]
  simp

/-- More than white space follows on all but the last of them. -/
theorem haveDiffernecesH_appendices {i : Int} (h0 : 0 ≤ i) (hi : i < 9216) :
    haveDiffernecesH appendices appendices.pclen i = true := by
  have hletter := appendices_char (i := i + (9 - i % 9)) (k := 0) (by omega) (by omega) (by omega)
    le_rfl (by decide)
  have hinside : insideText appendices appendices.pclen = 9899 := by decide
  have hsrc : ¬ appendices.pclen ≤ i := by
    change ¬ (9900 : Int) ≤ i
    omega
  rw [haveDiffernecesH]
  dsimp only
  rw [if_neg hsrc, if_neg (not_lt.mpr h0), hinside, if_neg (show ¬ (9899 : Int) < i by omega)]
  dsimp only
  rw [if_neg (by omega), List.any_eq_true]
  refine ⟨(9 - i % 9).toNat, List.mem_range.mpr (by omega), ?_⟩
  have hoff : i + ((9 - i % 9).toNat : Int) = i + (9 - i % 9) + 0 := by omega
  rw [hoff, hletter]
  decide

/-- The scan ends only where nothing but white space follows. -/
theorem turn_ne_last {T : Pcontent} {i : Int} (h : haveDiffernecesH T T.pclen i = true)
    (myEc : List (List UInt8)) (d : EndOffsets) (r : Running) :
    (endVisit T myEc d r i).turn ≠ .last := by
  simp only [endVisit, h]
  split_ifs <;> simp_all

theorem appendices_positions : ∃ rest, endPositions appendices 0 =
    ((List.range 9216).map fun k : Nat => (0 : Int) + k) ++ 9216 :: rest := by
  have hlen : (appendices.pclen - 0).toNat = 9216 + (683 + 1) := rfl
  rw [endPositions, hlen, List.range_add, @List.range_succ_eq_map 683, List.map_append,
    List.map_cons, List.map_cons]
  exact ⟨_, rfl⟩

/-- One number in nine is a multiple of nine. -/
theorem countP_range_mod (n : Nat) : ((List.range (9 * n)).countP fun k => k % 9 = 0) = n := by
  induction n with
  | zero => rfl
  | succ n ih =>
      have hnine : ((List.range 9).countP fun k => (9 * n + k) % 9 = 0) = 1 := by
        simp only [Nat.mul_add_mod]
        decide
      rw [Nat.mul_succ, List.range_add, List.countP_append, ih, List.countP_map]
      exact congrArg (n + ·) hnine

/-- The place of the keyword behind the first 1024 of them is behind the end of the
container. -/
theorem not_poolSuffices :
    ∃ d out, endOffsets appendices [] 0 = some d ∧ basicFilter appendices [] 0 = some out ∧
      ¬ PoolSuffices appendices [] d 0 out.1 := by
  obtain ⟨d, hd, -⟩ := endOffsets_spec appendices [] 0
  refine ⟨d, _, hd, basicFilter_eq hd, fun hpool => ?_⟩
  obtain ⟨rest, hpositions⟩ := appendices_positions
  rw [poolSuffices_iff_fewReports, FewReports, hpositions] at hpool
  have hlast : ∀ r, ∀ i ∈ (List.range 9216).map fun k : Nat => (0 : Int) + k,
      (endVisit appendices [] d r i).turn ≠ .last := by
    intro r i hi
    obtain ⟨k, hk, rfl⟩ := List.mem_map.mp hi
    have hk' := List.mem_range.mp hk
    exact turn_ne_last (haveDiffernecesH_appendices (by omega) (by omega)) [] d r
  obtain ⟨before, s, hscan, hbefore⟩ :=
    scanned_append _ (9216 :: rest) (runningStart appendices 0) hlast
  -- one position in nine of those before is the start of a keyword
  have hkeywords : ((List.range 9216).countP fun k => k % 9 = 0) = 1024 := countP_range_mod 1024
  have hcount : 1024 ≤ before.countP (reports appendices [] d) := by
    rw [← hkeywords]
    calc (List.range 9216).countP (fun k => k % 9 = 0)
        = (before.map Prod.snd).countP fun i => i % 9 = 0 := by
          rw [hbefore, List.countP_map]
          refine List.countP_congr fun k _ => ?_
          simp only [decide_eq_true_eq, Function.comp_apply]
          omega
      _ = before.countP fun p => p.2 % 9 = 0 := by rw [List.countP_map]; rfl
      _ ≤ before.countP (reports appendices [] d) := by
          refine List.countP_mono_left fun p hp hmod => ?_
          have hmem : p.2 ∈ (List.range 9216).map fun k : Nat => (0 : Int) + k := by
            rw [← hbefore]
            exact List.mem_map_of_mem hp
          obtain ⟨k, hk, hk2⟩ := List.mem_map.mp hmem
          have hk' := List.mem_range.mp hk
          exact (reports_appendices d p.1 (by omega) (by omega) (by simpa using hmod)).2
  rw [scanned] at hscan
  have hlate := hpool before (s, 9216) _ hscan
    (touches_of_reports (reports_appendices d s (by omega) (by omega) (by omega)).2)
  rw [endCtnMax] at hlate
  omega

end CiteParser
