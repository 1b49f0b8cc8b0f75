import CiteParser.Citation.Writes

/-!
# Where the writes go

The cells of the ten name rows that `spilitName` writes to, and the limits that the prints
are given. The row is bounded at the top of the loop; the column is bounded by nothing, so
whether it stays inside the row is decided by the lengths of the names, read here without
the rows: a name that a separator ends needs room for its terminator, the one that the end
of the text leaves open does not.
-/

namespace CiteParser

open Loop

/-- The cells `name[line][j]` that a pass writes to. -/
def passCells (src : List UInt8) (s : NameState) : List (Nat × Nat) :=
  match nameMove src s.i s.line (s.j == 0) with
  | .stop => []
  | .next _ => [(s.line, s.j)]
  | .etAl =>
      (s.line, s.j) ::
        if s.line + 1 < 10 then (List.range 8).map fun j => (s.line + 1, j) else []
  | .drop => []
  | .keep _ => [(s.line, s.j)]

/-- The cells that `spilitName` writes to, in the order of the writes. -/
def nameCells (mem : Nat → UInt8) (base : Nat) (src : List UInt8) : List (Nat × Nat) :=
  (visited (namePass src base) (src.length + 1) ⟨0, 0, 0, mem⟩).flatMap (passCells src)

/-- A call keeps its writes to the array it addresses: a name cell lies in one of the ten rows
of 50 bytes, and a print is given no more than the size of its array. -/
def WritesInside (node : CitationNode) (c : InfoCall) : Prop :=
  (splitsNames c.id → ∀ cell ∈ nameCells node Field.author.offset (cstr c.str),
    cell.1 < 10 ∧ cell.2 < 50) ∧
  ∀ p, infoPrint c = some p → p.limit ≤ p.field.size

/-- A pass that collects the names and tells the ended ones from the open one. -/
def readPass (src : List UInt8) (s : NameSplit) :
    Outcome NameSplit (List (List UInt8) × List UInt8) :=
  match nameMove src s.i s.done.length (s.cur.length == 0) with
  | .stop => .exit (s.done, s.cur)
  | .next i => .next ⟨i, s.done ++ [s.cur], []⟩
  | .etAl => .exit (s.done ++ [s.cur], [])
  | .drop => .next { s with i := s.i + 1 }
  | .keep c => .next { s with i := s.i + 1, cur := s.cur ++ [c] }

/-- The names of a segment that a separator ends, and the one behind the last separator. -/
def readNames (src : List UInt8) : List (List UInt8) × List UInt8 :=
  (run (readPass src) (src.length + 1) ⟨0, [], []⟩).getD ([], [])

/-- The names fit their rows: an ended one with its terminator, the open one without. -/
def NamesFit (names : List (List UInt8) × List UInt8) : Prop :=
  (∀ n ∈ names.1, n.length ≤ 49) ∧ names.2.length ≤ 50

instance (names : List (List UInt8) × List UInt8) : Decidable (NamesFit names) :=
  inferInstanceAs (Decidable (_ ∧ _))

section Cells

variable {src : List UInt8} {base fuel : Nat}

/-- What a pass leaves outside its cells. -/
theorem namePass_outside {s : NameState} {a : Nat}
    (h : ∀ cell ∈ passCells src s, a ≠ nameAt base cell.1 cell.2) :
    (∀ s', namePass src base s = .next s' → s'.mem a = s.mem a) ∧
      ∀ mem, namePass src base s = .exit mem → mem a = s.mem a := by
  unfold passCells at h
  unfold namePass
  cases hmove : nameMove src s.i s.line (s.j == 0) with
  | stop =>
      refine ⟨fun s' hs' => by contradiction, fun mem hmem => ?_⟩
      cases hmem
      rfl
  | next i' =>
      rw [hmove] at h
      refine ⟨fun s' hs' => ?_, fun mem hmem => by contradiction⟩
      cases hs'
      have hne : a ≠ nameAt base s.line s.j := h _ List.mem_cons_self
      exact store_outside (by rw [List.length_singleton]; omega)
  | etAl =>
      rw [hmove] at h
      refine ⟨fun s' hs' => by contradiction, fun mem hmem => ?_⟩
      have hne : a ≠ nameAt base s.line s.j := h _ List.mem_cons_self
      have hstop : store s.mem (nameAt base s.line s.j) [0] a = s.mem a :=
        store_outside (by rw [List.length_singleton]; omega)
      cases hmem
      by_cases hten : s.line + 1 < 10
      · simp only [hten, if_true] at h ⊢
        have hwidth : (bytes "et. al." ++ [0]).length = 8 := by decide
        rw [← hstop]
        refine store_outside ?_
        by_contra hin
        rw [hwidth] at hin
        refine h (s.line + 1, a - nameAt base (s.line + 1) 0) (List.mem_cons_of_mem _ ?_) ?_
        · refine List.mem_map.mpr ⟨_, List.mem_range.mpr ?_, rfl⟩
          omega
        · simp only [nameAt] at hin ⊢
          omega
      · simp only [hten, if_false]
        exact hstop
  | drop =>
      refine ⟨fun s' hs' => ?_, fun mem hmem => by contradiction⟩
      cases hs'
      rfl
  | keep c =>
      rw [hmove] at h
      refine ⟨fun s' hs' => ?_, fun mem hmem => by contradiction⟩
      cases hs'
      have hne : a ≠ nameAt base s.line s.j := h _ List.mem_cons_self
      exact store_outside (by rw [List.length_singleton]; omega)

/-- What the loop leaves outside the cells of its passes. -/
theorem run_namePass_outside {s : NameState} {mem : Nat → UInt8} {a : Nat}
    (hrun : run (namePass src base) fuel s = some mem)
    (h : ∀ cell ∈ (visited (namePass src base) fuel s).flatMap (passCells src),
      a ≠ nameAt base cell.1 cell.2) : mem a = s.mem a := by
  induction fuel generalizing s with
  | zero => contradiction
  | succ fuel ih =>
      rw [visited, List.flatMap_cons] at h
      obtain ⟨hnext, hexit⟩ :=
        @namePass_outside src base s a fun cell hcell => h cell (List.mem_append_left _ hcell)
      cases hpass : namePass src base s with
      | next s' =>
          rw [run_next hpass] at hrun
          rw [hpass] at h
          rw [ih hrun fun cell hcell => h cell (List.mem_append_right _ hcell)]
          exact hnext s' hpass
      | exit mem' =>
          rw [run_exit hpass] at hrun
          cases hrun
          exact hexit mem hpass

/-- The cells are all that `spilitName` writes to. -/
theorem spilitName_outside {mem : Nat → UInt8} {a : Nat}
    (h : ∀ cell ∈ nameCells mem base src, a ≠ nameAt base cell.1 cell.2) :
    spilitName mem base src a = mem a := by
  unfold spilitName
  cases hrun : run (namePass src base) (src.length + 1) ⟨0, 0, 0, mem⟩ with
  | none => rfl
  | some mem' => exact run_namePass_outside hrun h

end Cells

section Names

variable {src : List UInt8} {fuel : Nat}

/-- The names ended so far stay, and the one being read only grows. -/
theorem run_readPass_extends {s : NameSplit} {names : List (List UInt8) × List UInt8}
    (h : run (readPass src) fuel s = some names) :
    (∀ n ∈ s.done, n ∈ names.1) ∧
      (s.cur.length ≤ names.2.length ∨ ∃ n ∈ names.1, s.cur.length ≤ n.length) := by
  induction fuel generalizing s with
  | zero => contradiction
  | succ fuel ih =>
      cases hmove : nameMove src s.i s.done.length (s.cur.length == 0) with
      | stop =>
          rw [run_exit (by rw [readPass, hmove]), Option.some.injEq] at h
          subst h
          exact ⟨fun n hn => hn, .inl (Nat.le_refl _)⟩
      | next i' =>
          rw [run_next (by rw [readPass, hmove])] at h
          have hall := (ih h).1
          exact ⟨fun n hn => hall n (List.mem_append_left _ hn),
            .inr ⟨s.cur, hall _ List.mem_concat_self, Nat.le_refl _⟩⟩
      | etAl =>
          rw [run_exit (by rw [readPass, hmove]), Option.some.injEq] at h
          subst h
          exact ⟨fun n hn => List.mem_append_left _ hn,
            .inr ⟨s.cur, List.mem_concat_self, Nat.le_refl _⟩⟩
      | drop =>
          rw [run_next (by rw [readPass, hmove])] at h
          exact @ih { s with i := s.i + 1 } h
      | keep c =>
          rw [run_next (by rw [readPass, hmove])] at h
          obtain ⟨hall, hcur⟩ := ih h
          rw [List.length_append, List.length_singleton] at hcur
          refine ⟨hall, hcur.imp (fun hle => by omega) ?_⟩
          rintro ⟨n, hn, hle⟩
          exact ⟨n, hn, by omega⟩

/-- The reading ends. -/
theorem run_readPass (src : List UInt8) :
    run (readPass src) (src.length + 1) ⟨0, [], []⟩ = some (readNames src) := by
  obtain ⟨names, hrun, -⟩ := run_rule (readPass src) (src.length + 1) ⟨0, [], []⟩
    (fun _ => True) (fun s => src.length - s.i) (fun _ => True)
    (fun s s' _ hnext => by
      have hin := @nameMove_inside src s.i s.done.length (s.cur.length == 0)
      refine ⟨trivial, ?_⟩
      rw [readPass] at hnext
      cases hmove : nameMove src s.i s.done.length (s.cur.length == 0) with
      | stop => simp only [hmove, reduceCtorEq] at hnext
      | etAl => simp only [hmove, reduceCtorEq] at hnext
      | next i' =>
          obtain ⟨hi, -⟩ := hin (by rw [hmove]; exact NameMove.noConfusion)
          have hlt := nameMove_next hmove
          simp only [hmove, Outcome.next.injEq] at hnext
          rw [← hnext]
          exact Nat.sub_lt_sub_left hi hlt
      | drop =>
          obtain ⟨hi, -⟩ := hin (by rw [hmove]; exact NameMove.noConfusion)
          simp only [hmove, Outcome.next.injEq] at hnext
          rw [← hnext]
          exact Nat.sub_succ_lt_self _ _ hi
      | keep c =>
          obtain ⟨hi, -⟩ := hin (by rw [hmove]; exact NameMove.noConfusion)
          simp only [hmove, Outcome.next.injEq] at hnext
          rw [← hnext]
          exact Nat.sub_succ_lt_self _ _ hi)
    (fun _ _ _ _ => trivial) trivial (Nat.lt_succ_self _)
  rw [readNames, hrun]
  rfl

/-- One more ended name fits when it has a place for its terminator. -/
theorem forall_concat_fits {names : List (List UInt8)} {name : List UInt8}
    (h : ∀ n ∈ names, n.length ≤ 49) :
    (∀ n ∈ names ++ [name], n.length ≤ 49) ↔ name.length < 50 := by
  rw [List.forall_mem_append, List.forall_mem_singleton, and_iff_right h]
  exact Nat.lt_succ_iff.symm

/-- The row of "et. al." is written inside the rows, if there is one left. -/
theorem etAl_inside (line : Nat) :
    ∀ cell ∈ (if line + 1 < 10 then (List.range 8).map fun j => (line + 1, j) else []),
      cell.1 < 10 ∧ cell.2 < 50 := by
  intro cell hcell
  split at hcell
  · rename_i hten
    obtain ⟨j, hj, rfl⟩ := List.mem_map.mp hcell
    have hlt := List.mem_range.mp hj
    exact ⟨hten, by show j < 50; omega⟩
  · exact absurd hcell List.not_mem_nil

/-- While nothing has gone wrong so far, the passes that are left write inside the rows
exactly when the names come to fit. -/
theorem cells_inside_iff {base : Nat} {s : NameSplit} {mem : Nat → UInt8}
    {names : List (List UInt8) × List UInt8} (hrun : run (readPass src) fuel s = some names)
    (hdone : ∀ n ∈ s.done, n.length ≤ 49) (hcur : s.cur.length ≤ 50) :
    (∀ cell ∈ (visited (namePass src base) fuel
        ⟨s.i, s.done.length, s.cur.length, mem⟩).flatMap (passCells src),
      cell.1 < 10 ∧ cell.2 < 50) ↔ NamesFit names := by
  induction fuel generalizing s mem with
  | zero => contradiction
  | succ fuel ih =>
      have hin := @nameMove_inside src s.i s.done.length (s.cur.length == 0)
      have hnil : ∀ cell ∈ ([] : List (Nat × Nat)), cell.1 < 10 ∧ cell.2 < 50 :=
        fun _ h => absurd h List.not_mem_nil
      rw [visited, List.flatMap_cons, List.forall_mem_append]
      cases hmove : nameMove src s.i s.done.length (s.cur.length == 0) with
      | stop =>
          rw [run_exit (by rw [readPass, hmove]), Option.some.injEq] at hrun
          subst hrun
          simp only [passCells, namePass, hmove, List.flatMap_nil]
          exact iff_of_true ⟨hnil, hnil⟩ ⟨hdone, hcur⟩
      | next i' =>
          obtain ⟨-, hline⟩ := hin (by rw [hmove]; exact NameMove.noConfusion)
          rw [run_next (by rw [readPass, hmove])] at hrun
          simp only [passCells, namePass, hmove, List.forall_mem_singleton, hline, true_and]
          have hmem := (run_readPass_extends hrun).1 s.cur List.mem_concat_self
          by_cases hfull : s.cur.length < 50
          · have hrest := @ih ⟨i', s.done ++ [s.cur], []⟩
              (store mem (nameAt base s.done.length s.cur.length) [0]) hrun
              ((forall_concat_fits hdone).mpr hfull) (Nat.zero_le _)
            rw [List.length_append, List.length_singleton] at hrest
            rw [← hrest]
            exact and_iff_right hfull
          · refine iff_of_false (fun h => hfull h.1) fun h => ?_
            have hle := h.1 _ hmem
            omega
      | etAl =>
          obtain ⟨-, hline⟩ := hin (by rw [hmove]; exact NameMove.noConfusion)
          rw [run_exit (by rw [readPass, hmove]), Option.some.injEq] at hrun
          subst hrun
          simp only [passCells, namePass, hmove, List.flatMap_nil, List.forall_mem_cons, hline,
            true_and]
          rw [and_iff_left hnil, and_iff_left (etAl_inside _), NamesFit,
            forall_concat_fits hdone]
          exact (and_iff_left (Nat.zero_le _)).symm
      | drop =>
          rw [run_next (by rw [readPass, hmove])] at hrun
          simp only [passCells, namePass, hmove]
          rw [and_iff_right hnil]
          exact @ih { s with i := s.i + 1 } mem hrun hdone hcur
      | keep c =>
          obtain ⟨-, hline⟩ := hin (by rw [hmove]; exact NameMove.noConfusion)
          rw [run_next (by rw [readPass, hmove])] at hrun
          simp only [passCells, namePass, hmove, List.forall_mem_singleton, hline, true_and]
          have hgrow := (run_readPass_extends hrun).2
          rw [List.length_append, List.length_singleton] at hgrow
          by_cases hfull : s.cur.length < 50
          · have hrest := @ih { s with i := s.i + 1, cur := s.cur ++ [c] }
              (store mem (nameAt base s.done.length s.cur.length) [c]) hrun hdone (by
                rw [List.length_append, List.length_singleton]
                exact hfull)
            rw [List.length_append, List.length_singleton] at hrest
            rw [← hrest]
            exact and_iff_right hfull
          · refine iff_of_false (fun h => hfull h.1) fun h => ?_
            rcases hgrow with hle | ⟨n, hn, hle⟩
            · have hopen := h.2
              omega
            · have hended := h.1 n hn
              omega

end Names

/-- The prints whose limit is larger than their array are those of a publisher. -/
theorem infoPrint_limit (c : InfoCall) :
    (∀ p, infoPrint c = some p → p.limit ≤ p.field.size) ↔ c.id ≠ 12 := by
  unfold infoPrint
  constructor
  · intro h hid
    rw [hid] at h
    exact absurd (h _ rfl) (by simp only [Field.size]; omega)
  · intro hid p hp
    split at hp
    all_goals first
      | exact absurd ‹c.id = 12› hid
      | (cases hp; simp only [Field.size]; omega)
      | contradiction

/-- A call keeps its writes to the array it addresses exactly when it is not for a publisher
and, where it splits names, the names fit their rows. -/
theorem writesInside_iff (node : CitationNode) (c : InfoCall) :
    WritesInside node c ↔
      c.id ≠ 12 ∧ (splitsNames c.id → NamesFit (readNames (cstr c.str))) := by
  have hcells := @cells_inside_iff (cstr c.str) _ Field.author.offset ⟨0, [], []⟩ node _
    (run_readPass (cstr c.str)) (fun n hn => absurd hn List.not_mem_nil) (Nat.zero_le _)
  rw [WritesInside, infoPrint_limit, and_comm]
  refine and_congr_right fun _ => forall_congr' fun _ => ?_
  rw [← hcells]
  rfl

/-- A publisher is printed to the date with the limit of a longer array. -/
theorem publisher_writes_outside :
    ¬ ∀ (node : CitationNode) (c : InfoCall), c.str.length < 1024 → WritesInside node c := by
  intro h
  have hpublisher := h (fun _ => 0) ⟨12, bytes "Springer", default⟩ (by decide)
  exact absurd (hpublisher.2 _ rfl) (by decide)

end CiteParser
