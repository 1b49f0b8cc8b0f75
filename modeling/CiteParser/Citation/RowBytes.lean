import CiteParser.Citation.Names

/-!
# Rows byte by byte

A name of 50 bytes fills its row to the end, and its terminator is the first byte of the next
row; the next name is written over it. So the bytes of the rows are those of the names
as long as no name is longer than its row, whatever becomes of the rows behind.
-/

namespace CiteParser

open Loop

/-- Up to row `r` the rows at `base` hold the bytes of the names, zeros behind each. -/
def RowBytes (base r : Nat) (mem : Nat → UInt8) (names : List (List UInt8)) : Prop :=
  ∀ k j, k ≤ r → j < nameSize → mem (nameAt base k j) = (names.getD k []).getD j 0

section Rows

variable {base r : Nat} {mem : Nat → UInt8} {done : List (List UInt8)} {cur : List UInt8}

/-- Writing behind row `r` leaves the rows up to it. -/
theorem RowBytes.store_behind {names : List (List UInt8)} (h : RowBytes base r mem names) {a : Nat}
    {bs : List UInt8} (ha : nameAt base (r + 1) 0 ≤ a) :
    RowBytes base r (store mem a bs) names := by
  intro k j hk hj
  rw [store_outside, h k j hk hj]
  rw [nameAt, nameSize] at *
  omega

/-- A terminator stands behind the name already, in its row or at the start of the next one. -/
theorem RowBytes.terminator (h : RowBytes base r mem (done ++ [cur]))
    (hcur : done.length ≤ r → cur.length ≤ nameSize) :
    RowBytes base r (store mem (nameAt base done.length cur.length) [0]) (done ++ [cur]) := by
  rcases Nat.lt_or_ge r done.length with hlt | hge
  · refine h.store_behind ?_
    rw [nameAt, nameAt, nameSize]
    omega
  · intro k j hk hj
    have hlen := hcur hge
    by_cases ha : nameAt base k j = nameAt base done.length cur.length
    · -- the cell that is written to
      rw [ha, store_singleton]
      rw [nameAt, nameAt, nameSize] at ha
      rw [nameSize] at hj hlen
      rcases Nat.lt_trichotomy k done.length with hlt | rfl | hgt
      · omega
      · rw [getD_concat_length, List.getD_eq_default _ _ (by omega)]
      · rw [getD_concat_of_gt hgt, List.getD_nil]
    · rw [store_outside (by rw [List.length_singleton]; omega)]
      exact h k j hk hj

/-- A character that is kept extends the name being read. -/
theorem RowBytes.keep (h : RowBytes base r mem (done ++ [cur]))
    (hcur : done.length ≤ r → cur.length < nameSize) (c : UInt8) :
    RowBytes base r (store mem (nameAt base done.length cur.length) [c])
      (done ++ [cur ++ [c]]) := by
  rcases Nat.lt_or_ge r done.length with hlt | hge
  · intro k j hk hj
    have hbehind : RowBytes base r (store mem (nameAt base done.length cur.length) [c])
        (done ++ [cur]) := h.store_behind (by rw [nameAt, nameAt, nameSize]; omega)
    rw [hbehind k j hk hj, getD_concat_of_lt (by omega), getD_concat_of_lt (by omega)]
  · intro k j hk hj
    have hlen := hcur hge
    rw [nameSize] at hlen hj
    rcases Nat.lt_trichotomy k done.length with hlt | rfl | hgt
    · rw [store_outside (by rw [nameAt, nameAt, nameSize]; omega), h k j hk hj,
        getD_concat_of_lt hlt, getD_concat_of_lt hlt]
    · rw [getD_concat_length]
      rcases Nat.lt_trichotomy j cur.length with hj' | rfl | hj'
      · rw [store_outside (by rw [nameAt, nameAt]; omega), h _ j hk hj, getD_concat_length,
          List.getD_append _ _ _ _ hj']
      · rw [store_singleton, List.getD_append_right _ _ _ _ (Nat.le_refl _), Nat.sub_self]
        rfl
      · rw [store_outside (by rw [nameAt, nameAt, List.length_singleton]; omega), h _ j hk hj,
          getD_concat_length, List.getD_eq_default _ _ hj'.le, List.getD_eq_default]
        rw [List.length_append, List.length_singleton]
        exact hj'
    · rw [store_outside (by rw [nameAt, nameAt, nameSize, List.length_singleton]; omega),
        h k j hk hj, getD_concat_of_gt hgt, getD_concat_of_gt hgt]

/-- A whole name is written to the row behind the others. -/
theorem RowBytes.storeRow {names : List (List UInt8)} (h : RowBytes base r mem names)
    {text : List UInt8} (htext : text.length < nameSize) :
    RowBytes base r (store mem (nameAt base names.length 0) (text ++ [0])) (names ++ [text]) := by
  have hlen : (text ++ [0]).length = text.length + 1 := by
    rw [List.length_append, List.length_singleton]
  intro k j hk hj
  rw [nameSize] at htext hj
  rcases Nat.lt_trichotomy k names.length with hlt | rfl | hgt
  · rw [store_outside (by rw [nameAt, nameAt, nameSize]; omega), h k j hk hj,
      getD_concat_of_lt hlt]
  · rw [getD_concat_length]
    have hat : nameAt base names.length j = nameAt base names.length 0 + j := rfl
    rcases Nat.lt_or_ge j (text.length + 1) with hj' | hj'
    · rw [hat, store_inside (by omega)]
      rcases Nat.lt_or_ge j text.length with hin | hend
      · rw [List.getD_append _ _ _ _ hin]
      · rw [List.getD_append_right _ _ _ _ hend, List.getD_eq_default _ _ hend]
        cases j - text.length <;> rfl
    · rw [store_outside (by omega), h _ j hk hj, List.getD_eq_default _ _ (Nat.le_refl _),
        List.getD_nil, List.getD_eq_default _ _ (by omega)]
  · rw [store_outside (by rw [nameAt, nameAt, nameSize]; omega), h k j hk hj,
      getD_concat_of_gt hgt, List.getD_eq_default _ _ hgt.le]

end Rows

/-- The entry behind a prefix. -/
theorem getD_of_begins {names done : List (List UInt8)} {n : List UInt8}
    (h : done ++ [n] <+: names) : names.getD done.length [] = n := by
  obtain ⟨more, rfl⟩ := h
  rw [List.append_assoc, List.getD_append_right _ _ _ _ (Nat.le_refl _), Nat.sub_self]
  rfl

/-- The bytes of the rows are those of the names, up to any row before which no name is longer
than its row. -/
theorem run_rowBytes {src : List UInt8} {base r fuel : Nat} {s : NameSplit} {mem : Nat → UInt8}
    {names : List (List UInt8)} (hr : r < 10) (hrows : RowBytes base r mem (s.done ++ [s.cur]))
    (hrun : run (collectPass src) fuel s = some names)
    (hfit : ∀ k, k ≤ r → (names.getD k []).length ≤ nameSize) :
    ∃ mem', run (namePass src base) fuel ⟨s.i, s.done.length, s.cur.length, mem⟩ = some mem' ∧
      RowBytes base r mem' names := by
  induction fuel generalizing s mem with
  | zero => contradiction
  | succ fuel ih =>
      have hin := @nameMove_inside src s.i s.done.length (s.cur.length == 0)
      have hlen (n : List UInt8) (hn : s.done ++ [n] <+: names) (hline : s.done.length ≤ r) :
          n.length ≤ nameSize := by
        have hget := getD_of_begins hn
        rw [← hget]
        exact hfit _ hline
      cases hmove : nameMove src s.i s.done.length (s.cur.length == 0) with
      | stop =>
          rw [run_exit (by rw [collectPass, hmove]), Option.some.injEq] at hrun
          refine ⟨mem, run_exit (by rw [namePass, hmove]) fuel, ?_⟩
          subst hrun
          by_cases hline : s.done.length < 10
          · rwa [if_pos hline]
          · rw [if_neg hline]
            intro k j hk hj
            rw [hrows k j hk hj, getD_concat_of_lt (by omega)]
      | next i' =>
          obtain ⟨-, hline⟩ := hin (by rw [hmove]; exact NameMove.noConfusion)
          rw [run_next (by rw [collectPass, hmove])] at hrun
          have hended : s.done ++ [s.cur] <+: names := (run_collectPass_begins hrun).1
          have hrows' := hrows.terminator (hlen _ hended)
          have hnext : RowBytes base r (store mem (nameAt base s.done.length s.cur.length) [0])
              (s.done ++ [s.cur] ++ [[]]) := by
            intro k j hk hj
            rw [getD_concat_nil]
            exact hrows' k j hk hj
          obtain ⟨mem', hmem', hhold⟩ := @ih ⟨i', s.done ++ [s.cur], []⟩ _ hnext hrun
          refine ⟨mem', ?_, hhold⟩
          rw [run_next (by rw [namePass, hmove]), ← hmem', List.length_append,
            List.length_singleton, List.length_nil]
      | etAl =>
          rw [run_exit (by rw [collectPass, hmove]), Option.some.injEq] at hrun
          refine ⟨_, run_exit (by rw [namePass, hmove]) fuel, ?_⟩
          have hended : s.done ++ [s.cur] <+: names := by
            rw [← hrun]
            exact List.prefix_append _ _
          have hrows' := hrows.terminator (hlen _ hended)
          subst hrun
          by_cases hten : s.done.length + 1 < 10
          · rw [if_pos hten, if_pos hten]
            have hwidth : (bytes "et. al.").length < nameSize := by decide
            have hrow := hrows'.storeRow hwidth
            rwa [List.length_append, List.length_singleton] at hrow
          · rw [if_neg hten, if_neg hten, List.append_nil]
            exact hrows'
      | drop =>
          rw [run_next (by rw [collectPass, hmove])] at hrun
          obtain ⟨mem', hmem', hhold⟩ := @ih { s with i := s.i + 1 } mem hrows hrun
          exact ⟨mem', (run_next (by rw [namePass, hmove]) fuel).trans hmem', hhold⟩
      | keep c =>
          obtain ⟨-, hline⟩ := hin (by rw [hmove]; exact NameMove.noConfusion)
          rw [run_next (by rw [collectPass, hmove])] at hrun
          obtain ⟨n, hn, hpre⟩ := (run_collectPass_begins hrun).2 hline
          have hgrow := hpre.length_le
          rw [List.length_append, List.length_singleton] at hgrow
          have hroom : s.done.length ≤ r → s.cur.length < nameSize := fun hle =>
            Nat.lt_of_lt_of_le hgrow (hlen n hn hle)
          obtain ⟨mem', hmem', hhold⟩ :=
            @ih { s with i := s.i + 1, cur := s.cur ++ [c] } _ (hrows.keep hroom c) hrun
          refine ⟨mem', ?_, hhold⟩
          rw [run_next (by rw [namePass, hmove]), ← hmem', List.length_append,
            List.length_singleton]

/-- The rows of zeros that `spilitName` is given hold, up to any row before which no name is
longer than its row, the bytes of the names. -/
theorem spilitName_rowBytes {src : List UInt8} {base r : Nat} {mem : Nat → UInt8} (hr : r < 10)
    (hzero : ∀ i, base ≤ i → i < base + 500 → mem i = 0)
    (hfit : ∀ k, k ≤ r → ((splitNames src).getD k []).length ≤ nameSize) :
    RowBytes base r (spilitName mem base src) (splitNames src) := by
  have hempty : RowBytes base r mem ([] ++ [[]]) := by
    intro k j hk hj
    rw [getD_concat_nil, List.getD_nil, List.getD_nil]
    refine hzero _ ?_ ?_
    · rw [nameAt]
      omega
    · rw [nameAt]
      rw [nameSize] at *
      omega
  obtain ⟨mem', hrun, hhold⟩ :=
    @run_rowBytes src base r _ ⟨0, [], []⟩ mem _ hr hempty (run_collectPass src).1 hfit
  have hmem : spilitName mem base src = mem' := by
    rw [spilitName]
    exact congrArg (fun o => Option.getD o mem) hrun
  rwa [hmem]

end CiteParser
