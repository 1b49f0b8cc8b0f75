import CiteParser.Core.Marks
import CiteParser.Predict.Brackets

/-!
# The edges of the windows

The look-ahead stops before the last token that is queued, and the look-back before the
oldest one stored, or before the current one if none is. The flags are those of a fold over
the whole windows exactly where the token left out adds nothing to what the others have set.
-/

namespace CiteParser

/-- The flags that words of the window set. -/
inductive FlagName where
  | thesisFlag
  | ltdFlag
  | edsFlag
  | uniFlag
  | mitFlag
  | groupFlag
  | pressFlag
  | confFlag
  | orgFlag
  | labFlag
  | techFlag
  | repFlag
  | procFlag
  | andFlag
  | inStatus
  deriving DecidableEq, Repr

namespace FlagName

/-- The flag among the variables. -/
def get (f : Flags) : FlagName → Nat
  | thesisFlag => f.thesisFlag
  | ltdFlag => f.ltdFlag
  | edsFlag => f.edsFlag
  | uniFlag => f.uniFlag
  | mitFlag => f.mitFlag
  | groupFlag => f.groupFlag
  | pressFlag => f.pressFlag
  | confFlag => f.confFlag
  | orgFlag => f.orgFlag
  | labFlag => f.labFlag
  | techFlag => f.techFlag
  | repFlag => f.repFlag
  | procFlag => f.procFlag
  | andFlag => f.andFlag
  | inStatus => f.inStatus

/-- The words that set the flag. -/
def test (edsOk andOk : Bool) (t : CrfNodeSnapshot) : FlagName → Bool
  | thesisFlag => t.speflag == 25
  | ltdFlag => t.ltdflag != 0
  | edsFlag => t.edsflag == 1 && edsOk
  | uniFlag => t.uniflag == 1
  | mitFlag => t.speflag == 70
  | groupFlag => t.deptflag == 1 || t.speflag == 56 || t.speflag == 75
  | pressFlag => t.speflag == 30 || t.speflag == 31 || t.speflag == 32
  | confFlag => t.speflag == 90 || t.speflag == 79 || t.speflag == 60
  | orgFlag => t.speflag == 77 || t.speflag == 78
  | labFlag => decide (71 ≤ t.speflag) && decide (t.speflag < 75)
  | techFlag => t.speflag == 50 || t.speflag == 53 || t.speflag == 54
  | repFlag => t.speflag == 55
  | procFlag => decide (1 < t.procflag)
  | andFlag => t.str == bytes "and" && andOk
  | inStatus => t.procflag == 1

/-- A word sets the flags whose tests it meets. -/
theorem get_markFlags (sw : Nat) (edsOk andOk : Bool) (t : CrfNodeSnapshot) (f : Flags)
    (m : FlagName) :
    m.get (markFlags sw edsOk andOk t f) = if m.test edsOk andOk t then sw else m.get f := by
  cases m <;> rfl

/-- Flags are told apart by name. -/
theorem ext_iff {f g : Flags} : f = g ↔ ∀ m : FlagName, m.get f = m.get g := by
  constructor
  · rintro rfl m
    rfl
  · intro h
    cases f
    cases g
    rw [Flags.mk.injEq]
    exact ⟨h .thesisFlag, h .ltdFlag, h .edsFlag, h .uniFlag, h .mitFlag, h .groupFlag,
      h .pressFlag, h .confFlag, h .orgFlag, h .labFlag, h .techFlag, h .repFlag, h .procFlag,
      h .andFlag, h .inStatus⟩

end FlagName

/-! ## Stops -/

/-- How the stops of some tokens weaken what lies behind them. -/
def stopsOver (l : List CrfNodeSnapshot) : Nat := l.foldl (fun e t => stopAfter t.stopflag e) 0

theorem stopsOver_concat (l : List CrfNodeSnapshot) (t : CrfNodeSnapshot) :
    stopsOver (l ++ [t]) = stopAfter t.stopflag (stopsOver l) := by
  rw [stopsOver, List.foldl_append]
  rfl

/-- A stop weakens, and no more than a full stop. -/
theorem le_stopAfter {stopflag e : Nat} (he : e ≤ 2) :
    e ≤ stopAfter stopflag e ∧ stopAfter stopflag e ≤ 2 := by
  unfold stopAfter
  split_ifs <;> omega

theorem stopsOver_le (l : List CrfNodeSnapshot) : stopsOver l ≤ 2 := by
  induction l using List.reverseRecOn with
  | nil => exact Nat.zero_le 2
  | append_singleton l t ih =>
      rw [stopsOver_concat]
      exact (le_stopAfter ih).2

/-- More tokens weaken more. -/
theorem stopsOver_mono (l l' : List CrfNodeSnapshot) : stopsOver l ≤ stopsOver (l ++ l') := by
  induction l' using List.reverseRecOn with
  | nil => rw [List.append_nil]
  | append_singleton l' t ih =>
      rw [← List.append_assoc, stopsOver_concat]
      exact ih.trans (le_stopAfter (stopsOver_le _)).1

/-- The delimiters in front of the tokens may all stand inside a web address. -/
def domainOpen (l : List CrfNodeSnapshot) : Bool := l.all fun t => !domainStop t.predeli

theorem domainOpen_concat (l : List CrfNodeSnapshot) (t : CrfNodeSnapshot) :
    domainOpen (l ++ [t]) = (domainOpen l && !domainStop t.predeli) := by
  simp [domainOpen]

/-- More tokens bring no less in the way. -/
theorem domainOpen_down (l : List CrfNodeSnapshot) (t : CrfNodeSnapshot)
    (h : domainOpen (l ++ [t]) = true) : domainOpen l = true := by
  rw [domainOpen_concat, Bool.and_eq_true] at h
  exact h.1

/-! ## The look-ahead -/

/-- The look-ahead over some tokens. -/
def scanAhead (isbnEffect : Nat) (l : List CrfNodeSnapshot) : Traversal :=
  foldFrom (fun _ => lookAheadStep) 1 l (.init isbnEffect)

/-- The flags that the look-ahead sets; its other variables are set anew behind it. -/
def Traversal.aheadFlags (v : Traversal) : Flags × Nat × Nat :=
  (v.flags, v.nextPDigit, v.domainFlag)

/-- The token behind those visited adds nothing to the flags of the look-ahead: a flag that it
would set has been set by a token visited that no further stop parts from it, it is no digits
to count, and a web address that it would show has been shown. -/
structure AheadInert (visited : List CrfNodeSnapshot) (t : CrfNodeSnapshot) : Prop where
  marks : ∀ m : FlagName, m.test true true t = true → stopsOver visited < 2 →
    ∃ l₁ u l₂, visited = l₁ ++ u :: l₂ ∧ m.test true true u = true ∧
      stopsOver l₁ = stopsOver visited
  digits : ¬ (0 < t.puredigit ∧ t.yearlike = 0)
  domain : t.domainflag ≠ 0 → domainOpen (visited ++ [t]) = true →
    ∃ u ∈ visited, u.domainflag ≠ 0

section Ahead

variable {isbnEffect : Nat}

theorem scanAhead_concat (isbnEffect : Nat) (l : List CrfNodeSnapshot) (t : CrfNodeSnapshot) :
    scanAhead isbnEffect (l ++ [t]) = lookAheadStep (scanAhead isbnEffect l) t :=
  foldFrom_concat _ 1 l t _

/-- What the look-ahead knows of stops and delimiters. -/
theorem scanAhead_state (isbnEffect : Nat) (l : List CrfNodeSnapshot) :
    (scanAhead isbnEffect l).stopEffect = stopsOver l ∧
      (scanAhead isbnEffect l).domainNoStop = domainOpen l := by
  induction l using List.reverseRecOn with
  | nil => exact ⟨rfl, rfl⟩
  | append_singleton l t ih =>
      rw [scanAhead_concat, stopsOver_concat, ← ih.1, domainOpen_concat, ← ih.2]
      exact ⟨rfl, rfl⟩

theorem get_scanAhead_concat (m : FlagName) (l : List CrfNodeSnapshot) (t : CrfNodeSnapshot) :
    m.get (scanAhead isbnEffect (l ++ [t])).flags =
      if m.test true true t = true ∧ stopsOver l < 2 then 1 + stopsOver l
      else m.get (scanAhead isbnEffect l).flags := by
  rw [scanAhead_concat, lookAheadStep, (scanAhead_state isbnEffect l).1]
  by_cases hstop : stopsOver l < 2
  · simp only [hstop, if_true, FlagName.get_markFlags, and_true]
  · simp only [hstop, if_false, and_false]

theorem nextPDigit_scanAhead_concat (l : List CrfNodeSnapshot) (t : CrfNodeSnapshot) :
    (scanAhead isbnEffect (l ++ [t])).nextPDigit =
      if 0 < t.puredigit ∧ t.yearlike = 0 then (scanAhead isbnEffect l).nextPDigit + 1
      else (scanAhead isbnEffect l).nextPDigit := by
  rw [scanAhead_concat]
  rfl

theorem domainFlag_scanAhead_concat (l : List CrfNodeSnapshot) (t : CrfNodeSnapshot) :
    (scanAhead isbnEffect (l ++ [t])).domainFlag =
      if domainOpen (l ++ [t]) = true ∧ (t.domainflag != 0) = true then 1
      else (scanAhead isbnEffect l).domainFlag := by
  rw [scanAhead_concat, lookAheadStep, domainOpen_concat, (scanAhead_state isbnEffect l).2]
  simp only [Bool.and_eq_true]

/-- The look-ahead sets no flag beyond 2. -/
theorem get_scanAhead_le (m : FlagName) (l : List CrfNodeSnapshot) :
    m.get (scanAhead isbnEffect l).flags < 3 := by
  induction l using List.reverseRecOn with
  | nil => cases m <;> exact Nat.zero_lt_succ 2
  | append_singleton l t ih =>
      rw [get_scanAhead_concat]
      split_ifs <;> omega

/-- The flags stay if each one the token would set has been set under the same stops. -/
theorem flags_scanAhead_eq_iff (visited : List CrfNodeSnapshot) (t : CrfNodeSnapshot) :
    (scanAhead isbnEffect visited).flags = (scanAhead isbnEffect (visited ++ [t])).flags ↔
      ∀ m : FlagName, m.test true true t = true → stopsOver visited < 2 →
        ∃ l₁ u l₂, visited = l₁ ++ u :: l₂ ∧ m.test true true u = true ∧
          stopsOver l₁ = stopsOver visited := by
  rw [FlagName.ext_iff]
  apply forall_congr'
  intro m
  have hstart : m.get (scanAhead isbnEffect []).flags < 1 := by cases m <;> exact Nat.zero_lt_one
  exact graded_concat_iff (fun l => m.get (scanAhead isbnEffect l).flags)
    (get_scanAhead_concat m) (fun l₁ u l₂ _ => stopsOver_mono l₁ (u :: l₂)) hstart visited t

/-- The count stays if there is nothing to count. -/
theorem nextPDigit_scanAhead_eq_iff (visited : List CrfNodeSnapshot) (t : CrfNodeSnapshot) :
    (scanAhead isbnEffect visited).nextPDigit =
        (scanAhead isbnEffect (visited ++ [t])).nextPDigit ↔
      ¬ (0 < t.puredigit ∧ t.yearlike = 0) := by
  rw [nextPDigit_scanAhead_concat]
  split_ifs with h
  · exact iff_of_false (Nat.succ_ne_self _).symm (not_not.mpr h)
  · exact iff_of_true rfl h

theorem domainFlag_scanAhead_eq_iff (visited : List CrfNodeSnapshot) (t : CrfNodeSnapshot) :
    (scanAhead isbnEffect visited).domainFlag =
        (scanAhead isbnEffect (visited ++ [t])).domainFlag ↔
      (t.domainflag ≠ 0 → domainOpen (visited ++ [t]) = true →
        ∃ u ∈ visited, u.domainflag ≠ 0) := by
  have hsticky := sticky_concat_iff (fun l => (scanAhead isbnEffect l).domainFlag)
    domainFlag_scanAhead_concat domainOpen_down visited t
  have hstart : (scanAhead isbnEffect []).domainFlag ≠ 1 := Nat.zero_ne_one
  simpa only [bne_iff_ne, hstart, false_or] using hsticky

/-- A token behind leaves the flags as they are exactly when it adds nothing. -/
theorem scanAhead_inert_iff (visited : List CrfNodeSnapshot) (t : CrfNodeSnapshot) :
    (scanAhead isbnEffect visited).aheadFlags = (scanAhead isbnEffect (visited ++ [t])).aheadFlags ↔
      AheadInert visited t := by
  rw [Traversal.aheadFlags, Traversal.aheadFlags, Prod.mk.injEq, Prod.mk.injEq,
    flags_scanAhead_eq_iff, nextPDigit_scanAhead_eq_iff, domainFlag_scanAhead_eq_iff]
  constructor
  · rintro ⟨hmarks, hdigits, hdomain⟩
    exact ⟨hmarks, hdigits, hdomain⟩
  · rintro ⟨hmarks, hdigits, hdomain⟩
    exact ⟨hmarks, hdigits, hdomain⟩

end Ahead

/-! ## The look-back -/

/-- The look-back over some tokens, the current one first. -/
def scanBack (v : Traversal) (l : List CrfNodeSnapshot) : Traversal :=
  foldFrom lookBackStep 0 l v.turn

/-- The flags and counters of the look-back. -/
def Traversal.behindFlags (v : Traversal) : Flags × Nat × Nat × Nat × ((b : Bracket) → Int × Int) :=
  (v.flags, v.httpStatus, v.seqFlag, v.isbnEffect, fun b => b.counters v)

/-- How the stops of the tokens behind the current one, up to one more token, weaken it. -/
def stopsTo (l : List CrfNodeSnapshot) (t : CrfNodeSnapshot) : Nat := stopsOver (l ++ [t]).tail

/-- Nothing among the tokens has ended the search for editors. -/
def edOpen (l : List CrfNodeSnapshot) : Bool :=
  l.all fun t => !(t.puredigit == 2) && !(t.procflag == 1)

/-- The tokens are numbers and identifiers only. -/
def pureData (l : List CrfNodeSnapshot) : Bool :=
  l.all fun t => !(t.puredigit == 0 && t.strtype != 4)

/-- The token behind those visited adds nothing to the flags and counters of the look-back: a
flag that it would set has been set by a token visited that no further stop parts from it, and
it is no bracket, or both a closing and an opening one while no other closing one is kept. -/
structure BehindInert (isbnEffect : Nat) (visited : List CrfNodeSnapshot) (t : CrfNodeSnapshot) :
    Prop where
  marks : ∀ m : FlagName, m.test (edOpen visited) (decide (visited.length < 2)) t = true →
    stopsTo visited t < 2 →
    ∃ l₁ u l₂, visited = l₁ ++ u :: l₂ ∧ m.test (edOpen l₁) (decide (l₁.length < 2)) u = true ∧
      stopsTo l₁ u = stopsTo visited t
  http : httpWord t = true → domainOpen (visited ++ [t]) = true → ∃ u ∈ visited, httpWord u = true
  seq : t.sqbEflag ≠ 0 → visited.length < 3 → ∃ u ∈ visited, u.sqbEflag ≠ 0
  isbn : t.speflag = 40 → pureData (visited ++ [t]) = true →
    isbnEffect = 1 ∨ ∃ u ∈ visited, u.speflag = 40
  brackets : ∀ b : Bracket, b.opens t = false ∧ b.closes t = false ∨
    b.opens t = true ∧ b.closes t = true ∧ leading b.opens b.closes visited.reverse = 0

theorem stopsTo_mono (l₁ : List CrfNodeSnapshot) (u : CrfNodeSnapshot) (l₂ : List CrfNodeSnapshot)
    (t : CrfNodeSnapshot) : stopsTo l₁ u ≤ stopsTo (l₁ ++ u :: l₂) t := by
  have hsplit : (l₁ ++ u :: l₂ ++ [t]).tail = (l₁ ++ [u]).tail ++ (l₂ ++ [t]) := by
    rw [← List.tail_append_of_ne_nil (by simp)]
    simp
  rw [stopsTo, stopsTo, hsplit]
  exact stopsOver_mono _ _

theorem pureData_concat (l : List CrfNodeSnapshot) (t : CrfNodeSnapshot) :
    pureData (l ++ [t]) = (pureData l && !(t.puredigit == 0 && t.strtype != 4)) := by
  simp [pureData]

theorem pureData_down (l : List CrfNodeSnapshot) (t : CrfNodeSnapshot)
    (h : pureData (l ++ [t]) = true) : pureData l = true := by
  rw [pureData_concat, Bool.and_eq_true] at h
  exact h.1

section Behind

variable {v : Traversal}

theorem scanBack_concat (v : Traversal) (l : List CrfNodeSnapshot) (t : CrfNodeSnapshot) :
    scanBack v (l ++ [t]) = lookBackStep l.length (scanBack v l) t := by
  rw [scanBack, foldFrom_concat, Nat.zero_add]
  rfl

/-- What the look-back knows of stops, delimiters, numbers and editors. -/
theorem scanBack_state (v : Traversal) (l : List CrfNodeSnapshot) :
    (scanBack v l).stopEffect = stopsOver l.tail ∧ (scanBack v l).domainNoStop = domainOpen l ∧
      (scanBack v l).puredata = pureData l ∧ (scanBack v l).edNoStop = edOpen l := by
  induction l using List.reverseRecOn with
  | nil => exact ⟨rfl, rfl, rfl, rfl⟩
  | append_singleton l t ih =>
      obtain ⟨hstop, hdomain, hdata, hed⟩ := ih
      have hedOpen : edOpen (l ++ [t]) =
          (edOpen l && !(t.puredigit == 2) && !(t.procflag == 1)) := by
        simp [edOpen, Bool.and_assoc]
      rw [scanBack_concat, domainOpen_concat, pureData_concat, hedOpen, ← hdomain, ← hdata, ← hed]
      refine ⟨?_, rfl, rfl, rfl⟩
      rw [lookBackStep]
      dsimp only
      rw [hstop]
      cases l with
      | nil => rfl
      | cons u l =>
          rw [List.cons_append, List.tail_cons, List.tail_cons, stopsOver_concat]
          exact if_pos (Nat.succ_pos _)

/-- The stops that weaken one more token. -/
theorem stopEffect_scanBack_concat (l : List CrfNodeSnapshot) (t : CrfNodeSnapshot) :
    (if 0 < l.length then stopAfter t.stopflag (scanBack v l).stopEffect
      else (scanBack v l).stopEffect) = stopsTo l t := by
  have hstop := (scanBack_state v (l ++ [t])).1
  rwa [scanBack_concat] at hstop

theorem get_scanBack_concat (m : FlagName) (l : List CrfNodeSnapshot) (t : CrfNodeSnapshot) :
    m.get (scanBack v (l ++ [t])).flags =
      if m.test (edOpen l) (decide (l.length < 2)) t = true ∧ stopsTo l t < 2 then
        3 + stopsTo l t
      else m.get (scanBack v l).flags := by
  rw [scanBack_concat, lookBackStep]
  dsimp only
  rw [stopEffect_scanBack_concat, (scanBack_state v l).2.2.2]
  by_cases hstop : stopsTo l t < 2
  · simp only [hstop, if_true, FlagName.get_markFlags, and_true]
  · simp only [hstop, if_false, and_false]

theorem httpStatus_scanBack_concat (l : List CrfNodeSnapshot) (t : CrfNodeSnapshot) :
    (scanBack v (l ++ [t])).httpStatus =
      if domainOpen (l ++ [t]) = true ∧ httpWord t = true then 2
      else (scanBack v l).httpStatus := by
  rw [scanBack_concat, lookBackStep, domainOpen_concat, (scanBack_state v l).2.1]
  simp only [Bool.and_eq_true]

theorem seqFlag_scanBack_concat (l : List CrfNodeSnapshot) (t : CrfNodeSnapshot) :
    (scanBack v (l ++ [t])).seqFlag =
      if decide ((l ++ [t]).length < 4) = true ∧ (t.sqbEflag != 0) = true then 1
      else (scanBack v l).seqFlag := by
  have hshort : (l ++ [t]).length < 4 ↔ l.length < 3 := by
    rw [List.length_append, List.length_singleton]
    omega
  rw [scanBack_concat, lookBackStep]
  simp only [hshort, decide_eq_true_iff, bne_iff_ne]

theorem isbnEffect_scanBack_concat (l : List CrfNodeSnapshot) (t : CrfNodeSnapshot) :
    (scanBack v (l ++ [t])).isbnEffect =
      if pureData (l ++ [t]) = true ∧ (t.speflag == 40) = true then 1
      else (scanBack v l).isbnEffect := by
  rw [scanBack_concat, lookBackStep, pureData_concat, (scanBack_state v l).2.2.1]
  simp only [Bool.and_eq_true]

theorem counters_scanBack (b : Bracket) (l : List CrfNodeSnapshot) :
    b.counters (scanBack v l) = l.foldl (backStep b.opens b.closes) (0, 0) := by
  have hstart : b.counters v.turn = (0, 0) := by cases b <;> rfl
  rw [scanBack, Bracket.counters_foldFrom, hstart]

theorem counters_scanBack_eq_iff (visited : List CrfNodeSnapshot) (t : CrfNodeSnapshot) :
    (fun b : Bracket => b.counters (scanBack v visited)) =
        (fun b : Bracket => b.counters (scanBack v (visited ++ [t]))) ↔
      ∀ b : Bracket, b.opens t = false ∧ b.closes t = false ∨
        b.opens t = true ∧ b.closes t = true ∧ leading b.opens b.closes visited.reverse = 0 := by
  rw [funext_iff]
  refine forall_congr' fun b => ?_
  have hkept := @foldl_backStep_snd _ b.opens b.closes visited.reverse
  rw [List.reverse_reverse] at hkept
  rw [counters_scanBack, counters_scanBack, List.foldl_append, List.foldl_cons, List.foldl_nil,
    backStep_eq_iff, hkept]
  simp

theorem flags_scanBack_eq_iff (hv : ∀ m : FlagName, m.get v.flags < 3)
    (visited : List CrfNodeSnapshot) (t : CrfNodeSnapshot) :
    (scanBack v visited).flags = (scanBack v (visited ++ [t])).flags ↔
      ∀ m : FlagName, m.test (edOpen visited) (decide (visited.length < 2)) t = true →
        stopsTo visited t < 2 →
        ∃ l₁ u l₂, visited = l₁ ++ u :: l₂ ∧
          m.test (edOpen l₁) (decide (l₁.length < 2)) u = true ∧
            stopsTo l₁ u = stopsTo visited t := by
  rw [FlagName.ext_iff]
  apply forall_congr'
  intro m
  exact graded_concat_iff (fun l => m.get (scanBack v l).flags) (get_scanBack_concat m)
    stopsTo_mono (hv m) visited t

theorem httpStatus_scanBack_eq_iff (visited : List CrfNodeSnapshot) (t : CrfNodeSnapshot) :
    (scanBack v visited).httpStatus = (scanBack v (visited ++ [t])).httpStatus ↔
      (httpWord t = true → domainOpen (visited ++ [t]) = true →
        ∃ u ∈ visited, httpWord u = true) := by
  have hsticky := sticky_concat_iff (fun l => (scanBack v l).httpStatus)
    httpStatus_scanBack_concat domainOpen_down visited t
  have hstart : (scanBack v []).httpStatus ≠ 2 := Nat.zero_ne_add_one 1
  simpa only [hstart, false_or] using hsticky

theorem seqFlag_scanBack_eq_iff (visited : List CrfNodeSnapshot) (t : CrfNodeSnapshot) :
    (scanBack v visited).seqFlag = (scanBack v (visited ++ [t])).seqFlag ↔
      (t.sqbEflag ≠ 0 → visited.length < 3 → ∃ u ∈ visited, u.sqbEflag ≠ 0) := by
  have hdown : ∀ (l : List CrfNodeSnapshot) t, decide ((l ++ [t]).length < 4) = true →
      decide (l.length < 4) = true := by
    intro l t h
    rw [List.length_append, decide_eq_true_iff] at h
    apply decide_eq_true
    omega
  have hsticky := @sticky_concat_iff _ (fun l => (scanBack v l).seqFlag)
    (fun l => decide (l.length < 4)) _ _ seqFlag_scanBack_concat hdown visited t
  have hstart : (scanBack v []).seqFlag ≠ 1 := Nat.zero_ne_one
  have hshort : visited.length + 1 < 4 ↔ visited.length < 3 := Nat.succ_lt_succ_iff
  simpa [hstart, hshort] using hsticky

theorem isbnEffect_scanBack_eq_iff (visited : List CrfNodeSnapshot) (t : CrfNodeSnapshot) :
    (scanBack v visited).isbnEffect = (scanBack v (visited ++ [t])).isbnEffect ↔
      (t.speflag = 40 → pureData (visited ++ [t]) = true →
        v.isbnEffect = 1 ∨ ∃ u ∈ visited, u.speflag = 40) := by
  have hsticky := sticky_concat_iff (fun l => (scanBack v l).isbnEffect)
    isbnEffect_scanBack_concat pureData_down visited t
  have hstart : (scanBack v []).isbnEffect = v.isbnEffect := rfl
  simpa only [hstart, beq_iff_eq] using hsticky

/-- A token behind leaves the flags and counters as they are exactly when it adds nothing. -/
theorem scanBack_inert_iff (hv : ∀ m : FlagName, m.get v.flags < 3) (visited : List CrfNodeSnapshot)
    (t : CrfNodeSnapshot) :
    (scanBack v visited).behindFlags = (scanBack v (visited ++ [t])).behindFlags ↔
      BehindInert v.isbnEffect visited t := by
  rw [Traversal.behindFlags, Traversal.behindFlags, Prod.mk.injEq, Prod.mk.injEq, Prod.mk.injEq,
    Prod.mk.injEq, flags_scanBack_eq_iff hv, httpStatus_scanBack_eq_iff, seqFlag_scanBack_eq_iff,
    isbnEffect_scanBack_eq_iff, counters_scanBack_eq_iff]
  constructor
  · rintro ⟨hmarks, hhttp, hseq, hisbn, hbrackets⟩
    exact ⟨hmarks, hhttp, hseq, hisbn, hbrackets⟩
  · rintro ⟨hmarks, hhttp, hseq, hisbn, hbrackets⟩
    exact ⟨hmarks, hhttp, hseq, hisbn, hbrackets⟩

end Behind

/-! ## The windows -/

/-- The two passes at a token give what the folds over the whole windows give: over all tokens
queued, and over the current one and all those stored. -/
def WindowScanned (nextCNSQ preCNSQ : CNSQ) (pCNS : CrfNodeSnapshot) (isbnEffect : Nat) : Prop :=
  ∃ ahead behind, lookAhead nextCNSQ (.init isbnEffect) = some ahead ∧
    lookBack preCNSQ pCNS ahead.turn = some behind ∧
    ahead.aheadFlags = (scanAhead isbnEffect nextCNSQ.elems).aheadFlags ∧
    behind.behindFlags = (scanBack ahead (pCNS :: preCNSQ.elems.reverse)).behindFlags

/-- What is left of a list behind its front part. -/
theorem forall_concat_iff {α : Type*} {P : List α → α → Prop} {l : List α} {u : α} :
    (∀ l₁ t, l ++ [u] = l₁ ++ [t] → P l₁ t) ↔ P l u := by
  constructor
  · exact fun h => h l u rfl
  · rintro h l₁ t heq
    obtain ⟨rfl, ht⟩ := List.append_inj' heq rfl
    rw [List.cons.injEq] at ht
    exact ht.1 ▸ h

/-- The look-ahead leaves `isbnEffect` alone. -/
theorem isbnEffect_scanAhead (isbnEffect : Nat) (l : List CrfNodeSnapshot) :
    (scanAhead isbnEffect l).isbnEffect = isbnEffect := by
  induction l using List.reverseRecOn with
  | nil => rfl
  | append_singleton l t ih =>
      rw [scanAhead_concat]
      exact ih

/-- The two passes are the folds over the windows without their last tokens. -/
theorem windowScanned_dropLast_iff (nextCNSQ preCNSQ : CNSQ) (pCNS : CrfNodeSnapshot)
    (isbnEffect : Nat) :
    WindowScanned nextCNSQ preCNSQ pCNS isbnEffect ↔
      (scanAhead isbnEffect nextCNSQ.elems.dropLast).aheadFlags =
          (scanAhead isbnEffect nextCNSQ.elems).aheadFlags ∧
        (scanBack (scanAhead isbnEffect nextCNSQ.elems.dropLast)
            (pCNS :: preCNSQ.elems.reverse).dropLast).behindFlags =
          (scanBack (scanAhead isbnEffect nextCNSQ.elems.dropLast)
            (pCNS :: preCNSQ.elems.reverse)).behindFlags := by
  constructor
  · rintro ⟨ahead, behind, hrun, hback, hflags, hcounters⟩
    rw [lookAhead_eq, Option.some.injEq] at hrun
    rw [lookBack_eq, Option.some.injEq] at hback
    subst hrun hback
    exact ⟨hflags, hcounters⟩
  · rintro ⟨hflags, hcounters⟩
    exact ⟨_, _, lookAhead_eq _ _, lookBack_eq _ _ _, hflags, hcounters⟩

/-- The token queued last and the oldest one behind, the current one if none is stored, are
never visited. The flags are those of the whole windows exactly if these two add nothing. -/
theorem windowScanned_iff (nextCNSQ preCNSQ : CNSQ) (pCNS : CrfNodeSnapshot) (isbnEffect : Nat) :
    (WindowScanned nextCNSQ preCNSQ pCNS isbnEffect ↔
        (∀ visited t, nextCNSQ.elems = visited ++ [t] → AheadInert visited t) ∧
          ∀ visited t, pCNS :: preCNSQ.elems.reverse = visited ++ [t] →
            BehindInert isbnEffect visited t) ∧
      lookAheadVisits nextCNSQ = nextCNSQ.elems.dropLast ∧
      lookBackVisits preCNSQ pCNS = (pCNS :: preCNSQ.elems.reverse).dropLast := by
  refine ⟨?_, lookAheadVisits_eq _, lookBackVisits_eq _ _⟩
  rw [windowScanned_dropLast_iff]
  apply and_congr
  · rcases List.eq_nil_or_concat nextCNSQ.elems with hnil | ⟨l, t, hconcat⟩
    · simp [hnil]
    · rw [hconcat, List.concat_eq_append, List.dropLast_concat, scanAhead_inert_iff,
        forall_concat_iff]
  · rcases List.eq_nil_or_concat (pCNS :: preCNSQ.elems.reverse) with hnil | ⟨l, t, hconcat⟩
    · contradiction
    · rw [hconcat, List.concat_eq_append, List.dropLast_concat,
        scanBack_inert_iff fun m => get_scanAhead_le m _, isbnEffect_scanAhead, forall_concat_iff]

/-- At the first word of "a press" the second one is queued last, and the look-ahead does not
see that it names a press. -/
theorem not_windowScanned : ¬ ∀ (ref : Reference) (junk : Nat → CrfNodeSnapshot)
    (refAreaStart : Nat), ∀ s ∈ predictStates ref junk refAreaStart, ∀ p nextCNSQ,
      ftDeQueue s.feed.queue = some (p, nextCNSQ) →
        WindowScanned nextCNSQ s.preCNSQ (nextCNSQ.data p) s.isbnEffect := by
  intro h
  have hfirst := h (plainReference (bytes "a press")) (fun _ => default) 0 _
    List.mem_cons_self
  have hpress : (ftDeQueue (PredictState.init (plainReference (bytes "a press"))
      (fun _ => default) 0).feed.queue).map
        (fun r => ((scanAhead 0 r.2.elems.dropLast).flags.pressFlag,
          (scanAhead 0 r.2.elems).flags.pressFlag)) = some (0, 1) := by
    decide +kernel
  obtain ⟨⟨p, nextCNSQ⟩, hdeq, hflags⟩ := Option.map_eq_some_iff.mp hpress
  obtain ⟨ahead, behind, hrun, -, hsame, -⟩ := hfirst p nextCNSQ hdeq
  rw [lookAhead_eq, Option.some.injEq] at hrun
  subst hrun
  have hequal : (scanAhead 0 nextCNSQ.elems.dropLast).flags.pressFlag =
      (scanAhead 0 nextCNSQ.elems).flags.pressFlag := congrArg (fun f => f.1.pressFlag) hsame
  rw [(Prod.mk.inj hflags).1, (Prod.mk.inj hflags).2] at hequal
  contradiction

end CiteParser
