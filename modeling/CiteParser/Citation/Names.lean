import CiteParser.Citation.Node
import CiteParser.Core.Loop
import CiteParser.Features.Words

/-!
# Splitting names

`spilitName` writes the names of a segment into ten rows of 50 bytes, character by
character and without a bound on a row. What it decides at a character does not depend on
the rows, so the names can be told without them: `splitNames` collects them in lists.
-/

namespace CiteParser

open Loop

/-- What a pass of `spilitName` does: leave the loop, end the name and go on at `i`, end
the names with "et. al.", drop the character or append it to the name. -/
inductive NameMove where
  | stop
  | next (i : Nat)
  | etAl
  | drop
  | keep (c : UInt8)
  deriving DecidableEq, Repr

/-- "al" stands at the start of a word or inside one, behind `i`. -/
def alBehind (src : List UInt8) (i : Nat) : Bool :=
  (List.range' i (src.length - i)).any fun k =>
    isAsciiOrDigit (charAt src k) && strncmpEq 2 (src.drop k) (bytes "al")

/-- The move at character `i`; `fresh` says that the row is empty so far. -/
def nameMove (src : List UInt8) (i line : Nat) (fresh : Bool) : NameMove :=
  if src.length ≤ i ∨ 10 ≤ line then .stop
  else if charAt src i = ','.toUInt8 then .next (i + 1)
  else if strncmpEq 3 (src.drop i) (bytes "and") ∧ 0 < i then
    -- inside a word the "a" is dropped
    if !isAsciiOrDigit (charAt src (i - 1)) then .next (i + 4) else .drop
  else if strncmpEq 2 (src.drop i) (bytes "et") then
    if alBehind src (i + 2) then .etAl else .drop
  else if fresh && !isAsciiOrDigit (charAt src i) then .drop
  else .keep (charAt src i)

/-- The variables of `spilitName` and the memory it writes to. -/
structure NameState where
  i : Nat
  line : Nat
  j : Nat
  mem : Nat → UInt8

/-- The address of `name[line][j]`. -/
def nameAt (base line j : Nat) : Nat := base + nameSize * line + j

/-- A pass of `spilitName`, writing to the rows at `base`. -/
def namePass (src : List UInt8) (base : Nat) (s : NameState) :
    Outcome NameState (Nat → UInt8) :=
  match nameMove src s.i s.line (s.j == 0) with
  | .stop => .exit s.mem
  | .next i => .next ⟨i, s.line + 1, 0, store s.mem (nameAt base s.line s.j) [0]⟩
  | .etAl =>
      let mem := store s.mem (nameAt base s.line s.j) [0]
      .exit (if s.line + 1 < 10 then
        store mem (nameAt base (s.line + 1) 0) (bytes "et. al." ++ [0])
      else mem)
  | .drop => .next { s with i := s.i + 1 }
  | .keep c =>
      .next { s with
        i := s.i + 1, j := s.j + 1, mem := store s.mem (nameAt base s.line s.j) [c] }

/-- `spilitName(mem + base, src)`. -/
def spilitName (mem : Nat → UInt8) (base : Nat) (src : List UInt8) : Nat → UInt8 :=
  (run (namePass src base) (src.length + 1) ⟨0, 0, 0, mem⟩).getD mem

/-- The names ended so far and the one that is being read. -/
structure NameSplit where
  i : Nat
  done : List (List UInt8)
  cur : List UInt8
  deriving DecidableEq, Repr

/-- A pass that collects the names. -/
def collectPass (src : List UInt8) (s : NameSplit) : Outcome NameSplit (List (List UInt8)) :=
  match nameMove src s.i s.done.length (s.cur.length == 0) with
  | .stop => .exit (if s.done.length < 10 then s.done ++ [s.cur] else s.done)
  | .next i => .next ⟨i, s.done ++ [s.cur], []⟩
  | .etAl =>
      .exit (s.done ++ [s.cur] ++ if s.done.length + 1 < 10 then [bytes "et. al."] else [])
  | .drop => .next { s with i := s.i + 1 }
  | .keep c => .next { s with i := s.i + 1, cur := s.cur ++ [c] }

/-- The names of a segment, in the order of their rows. -/
def splitNames (src : List UInt8) : List (List UInt8) :=
  (run (collectPass src) (src.length + 1) ⟨0, [], []⟩).getD []

section Moves

variable {src : List UInt8} {i line : Nat} {fresh : Bool}

/-- Any move but leaving the loop is made inside the text and on one of the ten rows. -/
theorem nameMove_inside (h : nameMove src i line fresh ≠ .stop) : i < src.length ∧ line < 10 := by
  by_contra hout
  exact h (if_pos (by omega))

/-- Inside the text and on one of the ten rows the loop is not left without a word. -/
theorem nameMove_ne_stop (hi : i < src.length) (hline : line < 10) :
    nameMove src i line fresh ≠ .stop := by
  intro h
  unfold nameMove at h
  split_ifs at h
  omega

/-- Going on is going forward. -/
theorem nameMove_next {i' : Nat} (h : nameMove src i line fresh = .next i') : i < i' := by
  unfold nameMove at h
  split_ifs at h <;> cases h <;> omega

/-- A character is kept as it was read. -/
theorem nameMove_keep {c : UInt8} (h : nameMove src i line fresh = .keep c) :
    c = charAt src i := by
  unfold nameMove at h
  split_ifs at h
  cases h
  rfl

/-- The names ended so far begin what is collected, and the name being read begins the one
that comes behind them. -/
theorem run_collectPass_begins {fuel : Nat} {s : NameSplit} {names : List (List UInt8)}
    (h : run (collectPass src) fuel s = some names) :
    s.done <+: names ∧
      (s.done.length < 10 → ∃ n, s.done ++ [n] <+: names ∧ s.cur <+: n) := by
  induction fuel generalizing s with
  | zero => contradiction
  | succ fuel ih =>
      cases hmove : nameMove src s.i s.done.length (s.cur.length == 0) with
      | stop =>
          rw [run_exit (by rw [collectPass, hmove]), Option.some.injEq] at h
          subst h
          by_cases hline : s.done.length < 10
          · rw [if_pos hline]
            exact ⟨List.prefix_append _ _, fun _ => ⟨s.cur, List.prefix_rfl, List.prefix_rfl⟩⟩
          · rw [if_neg hline]
            exact ⟨List.prefix_rfl, fun hlt => absurd hlt hline⟩
      | next i' =>
          rw [run_next (by rw [collectPass, hmove])] at h
          have hdone : s.done ++ [s.cur] <+: names := (ih h).1
          exact ⟨(List.prefix_append _ _).trans hdone, fun _ => ⟨s.cur, hdone, List.prefix_rfl⟩⟩
      | etAl =>
          rw [run_exit (by rw [collectPass, hmove]), Option.some.injEq] at h
          subst h
          rw [List.append_assoc]
          refine ⟨List.prefix_append _ _, fun _ => ⟨s.cur, ?_, List.prefix_rfl⟩⟩
          rw [← List.append_assoc]
          exact List.prefix_append _ _
      | drop =>
          rw [run_next (by rw [collectPass, hmove])] at h
          exact @ih { s with i := s.i + 1 } h
      | keep c =>
          rw [run_next (by rw [collectPass, hmove])] at h
          obtain ⟨hdone, hcur⟩ := ih h
          refine ⟨hdone, fun hline => ?_⟩
          obtain ⟨n, hn, hpre⟩ := hcur hline
          exact ⟨n, hn, (List.prefix_append _ _).trans hpre⟩

/-- The names ended so far are kept, and the one being read only grows. -/
theorem run_collectPass_extends {fuel : Nat} {s : NameSplit} {names : List (List UInt8)}
    (h : run (collectPass src) fuel s = some names) :
    (∀ n ∈ s.done, n ∈ names) ∧
      (s.done.length < 10 → ∃ n ∈ names, s.cur.length ≤ n.length) := by
  obtain ⟨hdone, hcur⟩ := run_collectPass_begins h
  refine ⟨fun n hn => hdone.subset hn, fun hline => ?_⟩
  obtain ⟨n, hn, hbegin⟩ := hcur hline
  exact ⟨n, hn.subset List.mem_concat_self, hbegin.length_le⟩

end Moves

/-! ## The rows -/

/-- The rows at `base` hold the names `done` and then `cur`, and nothing behind that. -/
structure Rows (base : Nat) (mem : Nat → UInt8) (done : List (List UInt8)) (cur : List UInt8) :
    Prop where
  strings : ∀ r, r < 10 → StringAt mem (base + nameSize * r) ((done ++ [cur]).getD r [])
  zero : ∀ i, nameAt base done.length cur.length ≤ i → i < base + 500 → mem i = 0

section Rows

variable {base : Nat} {mem : Nat → UInt8} {done : List (List UInt8)} {cur : List UInt8}

/-- The name being read is the last one. -/
theorem getD_concat_length (done : List (List UInt8)) (cur : List UInt8) :
    (done ++ [cur]).getD done.length [] = cur := by
  rw [List.getD_append_right _ _ _ _ (Nat.le_refl _), Nat.sub_self]
  rfl

/-- The names before the one being read. -/
theorem getD_concat_of_lt {k : Nat} (h : k < done.length) (cur : List UInt8) :
    (done ++ [cur]).getD k [] = done.getD k [] :=
  List.getD_append _ _ _ _ h

/-- Behind the names there are none. -/
theorem getD_concat_of_gt {k : Nat} (h : done.length < k) (cur : List UInt8) :
    (done ++ [cur]).getD k [] = [] :=
  List.getD_eq_default _ _ (by rw [List.length_append, List.length_singleton]; omega)

/-- An empty name behind the others is as good as none. -/
theorem getD_concat_nil (names : List (List UInt8)) (k : Nat) :
    (names ++ [[]]).getD k [] = names.getD k [] := by
  rcases Nat.lt_trichotomy k names.length with hlt | rfl | hgt
  · exact List.getD_append _ _ _ _ hlt
  · rw [getD_concat_length, List.getD_eq_default _ _ (Nat.le_refl _)]
  · rw [getD_concat_of_gt hgt, List.getD_eq_default _ _ hgt.le]

/-- A terminator that is there already changes nothing. -/
theorem store_zero {p : Nat} (h : mem p = 0) : store mem p [0] = mem := by
  funext i
  by_cases hi : i = p
  · subst hi
    rw [h, store_singleton]
  · exact store_outside (by rw [List.length_singleton]; omega)

/-- Rows of zeros hold no name. -/
theorem rows_nil (hzero : ∀ i, base ≤ i → i < base + 500 → mem i = 0) : Rows base mem [] [] where
  strings := by
    intro r hr
    have hrow : (([] : List (List UInt8)) ++ [[]]).getD r [] = [] := by
      cases r <;> rfl
    rw [hrow, StringAt.nil_iff]
    exact hzero _ (Nat.le_add_right _ _) (by rw [nameSize]; omega)
  zero := fun i hi hlt => hzero i (by rw [nameAt] at hi; omega) hlt

/-- Ending a name leaves the memory as it is: its terminator stands behind it. -/
theorem Rows.next (h : Rows base mem done cur) (hline : done.length < 10)
    (hcur : cur.length < nameSize) :
    store mem (nameAt base done.length cur.length) [0] = mem ∧
      Rows base mem (done ++ [cur]) [] := by
  rw [nameSize] at hcur
  refine ⟨store_zero (h.zero _ (Nat.le_refl _) (by rw [nameAt, nameSize]; omega)), ?_, ?_⟩
  · intro r hr
    rw [getD_concat_nil]
    exact h.strings r hr
  · intro i hi hlt
    rw [nameAt, List.length_append, List.length_singleton, List.length_nil] at hi
    exact h.zero i (by rw [nameAt, nameSize] at *; omega) hlt

/-- The name being read grows by a character. -/
theorem Rows.keep (h : Rows base mem done cur) (hline : done.length < 10)
    (hdone : ∀ n ∈ done, n.length < nameSize) (hcur : cur.length + 1 < nameSize) {c : UInt8}
    (hc : c ≠ 0) :
    Rows base (store mem (nameAt base done.length cur.length) [c]) done (cur ++ [c]) where
  strings := by
    intro r hr
    have hrow := h.strings r hr
    rcases Nat.lt_trichotomy r done.length with hlt | rfl | hgt
    · -- a name above ends before the row that is written to
      have hlen := hdone _ (List.getElem_mem hlt)
      rw [getD_concat_of_lt hlt, List.getD_eq_getElem _ _ hlt] at hrow ⊢
      refine hrow.congr fun i _ hi => store_outside (.inl ?_)
      rw [nameAt]
      rw [nameSize] at *
      omega
    · rw [getD_concat_length] at hrow ⊢
      exact hrow.snoc hc (h.zero _ (by rw [nameAt]; omega) (by rw [nameSize] at *; omega))
    · rw [getD_concat_of_gt hgt, StringAt.nil_iff] at hrow ⊢
      rwa [store_outside]
      rw [nameAt, List.length_singleton]
      rw [nameSize] at *
      omega
  zero := by
    intro i hi hlt
    rw [nameAt, List.length_append, List.length_singleton] at hi
    rw [store_outside (by rw [nameAt, List.length_singleton]; omega)]
    exact h.zero i (by rw [nameAt]; omega) hlt

/-- The last row may be "et. al.". -/
theorem Rows.etAl (h : Rows base mem done cur)
    (hnames : ∀ n ∈ done ++ [cur], n.length < nameSize) {r : Nat} (hr : r < 10) :
    StringAt (store mem (nameAt base (done.length + 1) 0) (bytes "et. al." ++ [0]))
      (base + nameSize * r) ((done ++ [cur] ++ [bytes "et. al."]).getD r []) := by
  have hlen : (done ++ [cur]).length = done.length + 1 := by
    rw [List.length_append, List.length_singleton]
  have hwidth : (bytes "et. al." ++ [0]).length = 8 := by decide
  rcases Nat.lt_trichotomy r (done.length + 1) with hlt | rfl | hgt
  · have hrow := h.strings r hr
    rw [getD_concat_of_lt (by omega)]
    refine hrow.congr fun i _ hi => store_outside (.inl ?_)
    have hname := hnames _ (List.getElem_mem (by omega : r < (done ++ [cur]).length))
    rw [List.getD_eq_getElem _ _ (by omega)] at hi
    rw [nameAt]
    rw [nameSize] at *
    omega
  · rw [List.getD_append_right _ _ _ _ (by omega), hlen, Nat.sub_self, nameAt, Nat.add_zero]
    exact StringAt.of_store mem _ (by decide +kernel)
  · have hrow := h.strings r hr
    rw [List.getD_eq_default _ _ (by omega)] at hrow
    rw [List.getD_eq_default _ _ (by rw [List.length_append, hlen]; exact hgt)]
    rw [StringAt.nil_iff] at hrow ⊢
    rwa [store_outside]
    rw [nameAt, hwidth]
    rw [nameSize] at *
    omega

/-- From `mem` to `mem'` the ten rows have come to hold the names: nothing outside them has
changed, and nothing at all where there was no name to write. -/
structure RowsHold (base : Nat) (mem mem' : Nat → UInt8) (names : List (List UInt8)) : Prop where
  strings : ∀ r, r < 10 → StringAt mem' (base + nameSize * r) (names.getD r [])
  outside : ∀ i, i < base ∨ base + 500 ≤ i → mem' i = mem i
  silent : (∀ n ∈ names, n = []) → mem' = mem

/-- At the end of the text the rows hold what they held. -/
theorem Rows.hold_stop (h : Rows base mem done cur) :
    RowsHold base mem mem (if done.length < 10 then done ++ [cur] else done) where
  strings := by
    intro r hr
    have hrow := h.strings r hr
    by_cases hline : done.length < 10
    · rwa [if_pos hline]
    · rw [if_neg hline]
      rwa [List.getD_append _ _ _ _ (by omega)] at hrow
  outside := fun _ _ => rfl
  silent := fun _ => rfl

/-- At "et al" the rest of the text is given up for a row of its own, if there is one left. -/
theorem Rows.hold_etAl (h : Rows base mem done cur)
    (hnames : ∀ n ∈ done ++ [cur], n.length < nameSize) :
    RowsHold base mem
      (if done.length + 1 < 10 then
        store mem (nameAt base (done.length + 1) 0) (bytes "et. al." ++ [0])
      else mem)
      (done ++ [cur] ++ if done.length + 1 < 10 then [bytes "et. al."] else []) := by
  by_cases hten : done.length + 1 < 10
  · rw [if_pos hten, if_pos hten]
    refine ⟨fun r hr => h.etAl hnames hr, fun i hi => ?_, fun hnil => ?_⟩
    · have hwidth : (bytes "et. al." ++ [0]).length = 8 := by decide
      rw [store_outside (by rw [nameAt, hwidth, nameSize]; omega)]
    · have hal := hnil (bytes "et. al.") List.mem_concat_self
      exact absurd hal (by decide +kernel)
  · rw [if_neg hten, if_neg hten, List.append_nil]
    exact ⟨h.strings, fun _ _ => rfl, fun _ => rfl⟩

/-- A character written inside the rows, for a name that is not empty, adds to what they come
to hold. -/
theorem RowsHold.keep {mem' : Nat → UInt8} {names : List (List UInt8)} {line j : Nat} {c : UInt8}
    (h : RowsHold base (store mem (nameAt base line j) [c]) mem' names) (hline : line < 10)
    (hj : j < nameSize) {n : List UInt8} (hn : n ∈ names) (hne : n ≠ []) :
    RowsHold base mem mem' names where
  strings := h.strings
  outside := by
    intro i hi
    rw [h.outside i hi, store_outside]
    rw [nameAt, List.length_singleton]
    rw [nameSize] at *
    omega
  silent := fun hnil => absurd (hnil n hn) hne

end Rows

/-- Splitting into rows is splitting into names, as long as every name fits its row. -/
theorem run_namePass {src : List UInt8} (hsrc : ∀ c ∈ src, c ≠ 0) {base fuel : Nat}
    {s : NameSplit} {mem : Nat → UInt8} {names : List (List UInt8)}
    (hrows : Rows base mem s.done s.cur) (hrun : run (collectPass src) fuel s = some names)
    (hfit : ∀ n ∈ names, n.length < nameSize) :
    ∃ mem', run (namePass src base) fuel ⟨s.i, s.done.length, s.cur.length, mem⟩ = some mem' ∧
      RowsHold base mem mem' names := by
  induction fuel generalizing s mem with
  | zero => contradiction
  | succ fuel ih =>
      obtain ⟨hdone, hcur⟩ := run_collectPass_extends hrun
      cases hmove : nameMove src s.i s.done.length (s.cur.length == 0) with
      | stop =>
          rw [run_exit (by rw [collectPass, hmove]), Option.some.injEq] at hrun
          exact ⟨mem, run_exit (by rw [namePass, hmove]) fuel, hrun ▸ hrows.hold_stop⟩
      | next i' =>
          obtain ⟨-, hline⟩ := nameMove_inside (by rw [hmove]; exact NameMove.noConfusion)
          obtain ⟨n, hn, hle⟩ := hcur hline
          obtain ⟨hsame, hrows'⟩ := hrows.next hline (Nat.lt_of_le_of_lt hle (hfit n hn))
          rw [run_next (by rw [collectPass, hmove])] at hrun
          obtain ⟨mem', hmem', hhold⟩ := ih hrows' hrun
          refine ⟨mem', ?_, hhold⟩
          rw [run_next (by rw [namePass, hmove]), hsame, ← hmem', List.length_append,
            List.length_singleton, List.length_nil]
      | etAl =>
          obtain ⟨-, hline⟩ := nameMove_inside (by rw [hmove]; exact NameMove.noConfusion)
          obtain ⟨n, hn, hle⟩ := hcur hline
          obtain ⟨hsame, -⟩ := hrows.next hline (Nat.lt_of_le_of_lt hle (hfit n hn))
          rw [run_exit (by rw [collectPass, hmove]), Option.some.injEq] at hrun
          subst hrun
          refine ⟨_, run_exit (by rw [namePass, hmove]) fuel, ?_⟩
          rw [hsame]
          exact hrows.hold_etAl fun m hm => hfit m (List.mem_append_left _ hm)
      | drop =>
          rw [run_next (by rw [collectPass, hmove])] at hrun
          obtain ⟨mem', hmem', hhold⟩ := @ih { s with i := s.i + 1 } mem hrows hrun
          exact ⟨mem', (run_next (by rw [namePass, hmove]) fuel).trans hmem', hhold⟩
      | keep c =>
          obtain ⟨hi, hline⟩ := nameMove_inside (by rw [hmove]; exact NameMove.noConfusion)
          have hc : c ≠ 0 := by
            rw [nameMove_keep hmove, charAt, List.getD_eq_getElem _ _ hi]
            exact hsrc _ (List.getElem_mem hi)
          rw [run_next (by rw [collectPass, hmove])] at hrun
          obtain ⟨n, hn, hle⟩ := (run_collectPass_extends hrun).2 hline
          rw [List.length_append, List.length_singleton] at hle
          have hfull := Nat.lt_of_le_of_lt hle (hfit n hn)
          have hrows' := hrows.keep hline (fun m hm => hfit m (hdone m hm)) hfull hc
          obtain ⟨mem', hmem', hhold⟩ := ih hrows' hrun
          refine ⟨mem', ?_, hhold.keep hline (Nat.lt_of_succ_lt hfull) hn ?_⟩
          · rw [run_next (by rw [namePass, hmove]), ← hmem', List.length_append,
              List.length_singleton]
          · exact List.ne_nil_of_length_pos (Nat.lt_of_lt_of_le (Nat.succ_pos _) hle)

/-- A pass that goes round is made inside the text, moves on and ends at most one name. -/
theorem collectPass_next {src : List UInt8} {s s' : NameSplit}
    (h : collectPass src s = .next s') :
    s.i < src.length ∧ s.i < s'.i ∧ s'.done.length ≤ 10 := by
  have hin : collectPass src s ≠ .exit (if s.done.length < 10 then s.done ++ [s.cur] else s.done) →
      s.i < src.length ∧ s.done.length < 10 := by
    intro hne
    refine @nameMove_inside src s.i s.done.length (s.cur.length == 0) fun hstop => hne ?_
    rw [collectPass, hstop]
  rw [h] at hin
  obtain ⟨hi, hline⟩ := hin (by simp only [ne_eq, reduceCtorEq, not_false_eq_true])
  refine ⟨hi, ?_⟩
  rw [collectPass] at h
  cases hmove : nameMove src s.i s.done.length (s.cur.length == 0) with
  | stop => simp only [hmove, reduceCtorEq] at h
  | next i' =>
      simp only [hmove, Outcome.next.injEq] at h
      rw [← h]
      exact ⟨nameMove_next hmove, by rw [List.length_append, List.length_singleton]; omega⟩
  | etAl => simp only [hmove, reduceCtorEq] at h
  | drop =>
      simp only [hmove, Outcome.next.injEq] at h
      rw [← h]
      exact ⟨Nat.lt_succ_self _, hline.le⟩
  | keep c =>
      simp only [hmove, Outcome.next.injEq] at h
      rw [← h]
      exact ⟨Nat.lt_succ_self _, hline.le⟩

/-- Leaving the loop gives at most ten names. -/
theorem collectPass_exit {src : List UInt8} {s : NameSplit} {names : List (List UInt8)}
    (hs : s.done.length ≤ 10) (h : collectPass src s = .exit names) : names.length ≤ 10 := by
  rw [collectPass] at h
  cases hmove : nameMove src s.i s.done.length (s.cur.length == 0) with
  | stop =>
      simp only [hmove, Outcome.exit.injEq] at h
      rw [← h]
      by_cases hline : s.done.length < 10
      · rw [if_pos hline, List.length_append, List.length_singleton]
        exact hline
      · rwa [if_neg hline]
  | next i' => simp only [hmove, reduceCtorEq] at h
  | etAl =>
      obtain ⟨-, hline⟩ := nameMove_inside (by rw [hmove]; exact NameMove.noConfusion)
      simp only [hmove, Outcome.exit.injEq] at h
      rw [← h, List.length_append, List.length_append, List.length_singleton]
      by_cases hten : s.done.length + 1 < 10
      · rw [if_pos hten, List.length_singleton]
        exact hten
      · rw [if_neg hten]
        exact hline
  | drop => simp only [hmove, reduceCtorEq] at h
  | keep c => simp only [hmove, reduceCtorEq] at h

/-- The names of a segment are always found, ten at most. -/
theorem run_collectPass (src : List UInt8) :
    run (collectPass src) (src.length + 1) ⟨0, [], []⟩ = some (splitNames src) ∧
      (splitNames src).length ≤ 10 := by
  obtain ⟨names, hrun, hlen⟩ := run_rule (collectPass src) (src.length + 1) ⟨0, [], []⟩
    (fun s => s.done.length ≤ 10) (fun s => src.length - s.i) (fun names => names.length ≤ 10)
    (fun s s' _ hnext => by
      obtain ⟨hi, hlt, hline⟩ := collectPass_next hnext
      exact ⟨hline, by omega⟩)
    (fun s names hs hexit => collectPass_exit hs hexit) (Nat.zero_le 10) (Nat.lt_succ_self _)
  have hnames : splitNames src = names := by
    rw [splitNames, hrun]
    rfl
  rw [hnames]
  exact ⟨hrun, hlen⟩

/-- A segment without letters, digits and commas holds no name, and none is ended. -/
theorem nameMove_silent {src : List UInt8}
    (h : ∀ c ∈ src, isAsciiOrDigit c = false ∧ c ≠ ','.toUInt8) (i line : Nat) :
    nameMove src i line true = .stop ∨ nameMove src i line true = .drop := by
  unfold nameMove
  by_cases hstop : src.length ≤ i ∨ 10 ≤ line
  · exact .inl (if_pos hstop)
  · have hi : i < src.length := by omega
    have hchar : charAt src i = src[i] := List.getD_eq_getElem _ _ hi
    obtain ⟨hletter, hcomma⟩ := h _ (List.getElem_mem hi)
    have hword : ∀ (n : Nat) (c : UInt8) (w : List UInt8), isAsciiOrDigit c = true →
        strncmpEq (n + 1) (src.drop i) (c :: w) = false := by
      intro n c w hc
      rw [List.drop_eq_getElem_cons hi, strncmpEq, Bool.and_eq_false_iff, beq_eq_false_iff_ne]
      refine .inl fun he => ?_
      rw [he, hc] at hletter
      contradiction
    have hand : strncmpEq 3 (src.drop i) (bytes "and") = false := hword 2 _ _ (by decide)
    have het : strncmpEq 2 (src.drop i) (bytes "et") = false := hword 1 _ _ (by decide)
    rw [← hchar] at hletter hcomma
    rw [if_neg hstop, if_neg hcomma, hand, het, hletter]
    exact .inr rfl

/-- Such a segment has no name. -/
theorem splitNames_silent {src : List UInt8}
    (h : ∀ c ∈ src, isAsciiOrDigit c = false ∧ c ≠ ','.toUInt8) : splitNames src = [[]] := by
  obtain ⟨names, hrun, hnames⟩ := run_rule (collectPass src) (src.length + 1) ⟨0, [], []⟩
    (fun s => s.done = [] ∧ s.cur = []) (fun s => src.length - s.i) (fun names => names = [[]])
    (fun s s' hs hnext => by
      have hmeasure := collectPass_next hnext
      rw [collectPass, hs.1, hs.2] at hnext
      rcases nameMove_silent h s.i 0 with hmove | hmove
      · simp only [List.length_nil, beq_self_eq_true, hmove, reduceCtorEq] at hnext
      · simp only [List.length_nil, beq_self_eq_true, hmove, Outcome.next.injEq] at hnext
        exact ⟨by rw [← hnext]; exact ⟨rfl, rfl⟩, by omega⟩)
    (fun s names hs hexit => by
      rw [collectPass, hs.1, hs.2] at hexit
      rcases nameMove_silent h s.i 0 with hmove | hmove
      · simp only [List.length_nil, beq_self_eq_true, hmove, Outcome.exit.injEq] at hexit
        exact hexit.symm
      · simp only [List.length_nil, beq_self_eq_true, hmove, reduceCtorEq] at hexit)
    ⟨rfl, rfl⟩ (Nat.lt_succ_self _)
  rw [splitNames, hrun]
  exact hnames

/-- Such a segment leaves the rows as they are. -/
theorem spilitName_silent {src : List UInt8}
    (h : ∀ c ∈ src, isAsciiOrDigit c = false ∧ c ≠ ','.toUInt8) (mem : Nat → UInt8)
    (base : Nat) : spilitName mem base src = mem := by
  obtain ⟨mem', hrun, hmem⟩ := run_rule (namePass src base) (src.length + 1) ⟨0, 0, 0, mem⟩
    (fun s => s.j = 0 ∧ s.mem = mem) (fun s => src.length - s.i) (fun m => m = mem)
    (fun s s' hs hnext => by
      rw [namePass, hs.1, hs.2] at hnext
      have hin := @nameMove_inside src s.i s.line true
      rcases nameMove_silent h s.i s.line with hmove | hmove
      · simp only [beq_self_eq_true, hmove, reduceCtorEq] at hnext
      · simp only [beq_self_eq_true, hmove, Outcome.next.injEq] at hnext
        rw [hmove] at hin
        obtain ⟨hi, -⟩ := hin NameMove.noConfusion
        rw [← hnext]
        exact ⟨⟨rfl, rfl⟩, Nat.sub_succ_lt_self _ _ hi⟩)
    (fun s m hs hexit => by
      rw [namePass, hs.1, hs.2] at hexit
      rcases nameMove_silent h s.i s.line with hmove | hmove
      · simp only [beq_self_eq_true, hmove, Outcome.exit.injEq] at hexit
        exact hexit.symm
      · simp only [beq_self_eq_true, hmove, reduceCtorEq] at hexit)
    ⟨rfl, rfl⟩ (Nat.lt_succ_self _)
  rw [spilitName, hrun]
  exact hmem

/-- What `spilitName` does to ten empty rows when every name fits its row. -/
theorem spilitName_spec {src : List UInt8} (hsrc : ∀ c ∈ src, c ≠ 0) {base : Nat}
    {mem : Nat → UInt8} (hzero : ∀ i, base ≤ i → i < base + 500 → mem i = 0)
    (hfit : ∀ n ∈ splitNames src, n.length < nameSize) :
    RowsHold base mem (spilitName mem base src) (splitNames src) := by
  obtain ⟨mem', hrun, hhold⟩ :=
    run_namePass hsrc (rows_nil hzero) (run_collectPass src).1 hfit
  have hmem : spilitName mem base src = mem' := by
    rw [spilitName]
    exact congrArg (fun o => Option.getD o mem) hrun
  rwa [hmem]

end CiteParser
