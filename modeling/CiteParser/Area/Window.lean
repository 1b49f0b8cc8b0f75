import CiteParser.Core.Loop
import CiteParser.Text.EditDistance

/-!
# Windows of the text

The finders of `hftnpse.c` search the text of `getPcontent` between two offsets, which
`defineStartAndEnd` makes of an offset and a length of either sign. `keysNumber` calls a finder
again and again from where the last call has ended, always with the length that is left up to
one end: behind that end the length is negative and the window lies backwards.
-/

namespace CiteParser

open Loop

/-- The text as `getPcontent` is indexed, inside its bounds or not, and `getPclen`. -/
structure Pcontent where
  char : Int → UInt8
  pclen : Int

/-- A text of its own, with zero bytes around it. -/
def Pcontent.ofText (text : List UInt8) : Pcontent :=
  ⟨fun i => if 0 ≤ i then text.getD i.toNat 0 else 0, text.length⟩

/-- The `n` characters from `i` on. -/
def Pcontent.window (T : Pcontent) (i : Int) (n : Nat) : List UInt8 :=
  (List.range n).map fun k : Nat => T.char (i + k)

/-- `defineStartAndEnd(&offset, &offend, limit)`: the two offsets after the call. -/
def defineStartAndEnd (T : Pcontent) (offset limit : Int) : Int × Int :=
  let offend := offset + limit
  let swapped := if offend < offset then (offend, offset) else (offset, offend)
  (if swapped.1 < 0 then 0 else swapped.1, if T.pclen < swapped.2 then T.pclen else swapped.2)

/-- What a finder makes of one offset: it returns, it leaves its loop or it goes on. -/
inductive Probe where
  | found (ret : Int)
  | stop
  | pass

/-- The loop of a finder over the `n` offsets from `i` on. -/
def scanWindow (probe : Int → Probe) : Nat → Int → Int
  | 0, _ => 0
  | n + 1, i =>
      match probe i with
      | .found ret => ret
      | .stop => 0
      | .pass => scanWindow probe n (i + 1)

/-- A pass of the loop of `keysNumber`, at an offset and with `num` keys behind it. -/
def keyPass (keyFind : Int → Int → Int) (offend : Int) (s : Int × Nat) :
    Outcome (Int × Nat) Nat :=
  let offset := keyFind s.1 (offend - s.1)
  if 0 < offset then .next (offset, s.2 + 1) else .exit s.2

/-- `keysNumber(offset, limit, keyFind)`; `none` stands for a loop that goes on beyond the
bound. -/
def keysNumber (T : Pcontent) (keyFind : Int → Int → Int) (offset limit : Int) (fuel : Nat) :
    Option Nat :=
  run (keyPass keyFind (defineStartAndEnd T offset limit).2) fuel
    ((defineStartAndEnd T offset limit).1, 0)

/-- The offsets from which `keysNumber` calls the finder. -/
def visitedOffsets (T : Pcontent) (keyFind : Int → Int → Int) (offset limit : Int) (fuel : Nat) :
    List Int :=
  (visited (keyPass keyFind (defineStartAndEnd T offset limit).2) fuel
    ((defineStartAndEnd T offset limit).1, 0)).map Prod.fst

/-- The loop of `keysNumber` is left, and each offset it visits lies behind the one before. -/
def Enumerates (T : Pcontent) (keyFind : Int → Int → Int) (offset limit : Int) : Prop :=
  (∃ fuel, (keysNumber T keyFind offset limit fuel).isSome = true) ∧
    ∀ fuel, (visitedOffsets T keyFind offset limit fuel).Pairwise (· < ·)

section Windows

variable {T : Pcontent}

@[simp] theorem length_window (T : Pcontent) (i : Int) (n : Nat) :
    (T.window i n).length = n := by simp [Pcontent.window]

theorem getD_window {i : Int} {n k : Nat} (h : k < n) :
    (T.window i n).getD k 0 = T.char (i + k) := by
  simp [Pcontent.window, h]

/-- Neither end of a window lies outside the text. -/
theorem defineStartAndEnd_bounds (T : Pcontent) (offset limit : Int) :
    0 ≤ (defineStartAndEnd T offset limit).1 ∧
      (defineStartAndEnd T offset limit).2 ≤ T.pclen := by
  unfold defineStartAndEnd
  dsimp only
  split_ifs <;> omega

/-- The window up to an end ahead. -/
theorem defineStartAndEnd_ahead {offset offend : Int} (h0 : 0 ≤ offset) (h : offset ≤ offend)
    (hlen : offend ≤ T.pclen) :
    defineStartAndEnd T offset (offend - offset) = (offset, offend) := by
  unfold defineStartAndEnd
  rw [add_sub_cancel]
  dsimp only
  rw [if_neg (not_lt.mpr h)]
  dsimp only
  rw [if_neg (not_lt.mpr h0), if_neg (not_lt.mpr hlen)]

/-- The window back to an end that has been passed. -/
theorem defineStartAndEnd_behind {offset offend : Int} (h : offend < offset) :
    defineStartAndEnd T offset (offend - offset) = (max offend 0, min offset T.pclen) := by
  unfold defineStartAndEnd
  rw [add_sub_cancel]
  dsimp only
  rw [if_pos h]
  dsimp only
  ext
  · split_ifs <;> omega
  · split_ifs <;> omega

/-- A window that does not begin before its end comes from outside the text; the one made of
it again is empty. -/
theorem defineStartAndEnd_empty {offset limit : Int}
    (h : (defineStartAndEnd T offset limit).2 < (defineStartAndEnd T offset limit).1) :
    let w := defineStartAndEnd T (defineStartAndEnd T offset limit).1
      ((defineStartAndEnd T offset limit).2 - (defineStartAndEnd T offset limit).1)
    w.2 ≤ w.1 := by
  rw [defineStartAndEnd_behind h]
  unfold defineStartAndEnd at h ⊢
  dsimp only at h ⊢
  split_ifs at h ⊢ <;> omega

end Windows

section Scans

variable {probe : Int → Probe} {n : Nat} {i j : Int}

/-- A loop that returns something other than 0 has found it at one of its offsets. -/
theorem scanWindow_found (h : scanWindow probe n i ≠ 0) :
    ∃ j, i ≤ j ∧ j < i + n ∧ probe j = .found (scanWindow probe n i) := by
  induction n generalizing i with
  | zero => exact absurd rfl h
  | succ n ih =>
      rw [scanWindow] at h ⊢
      cases hp : probe i with
      | found ret => exact ⟨i, le_rfl, by omega, hp⟩
      | stop =>
          rw [hp] at h
          exact absurd rfl h
      | pass =>
          rw [hp] at h
          obtain ⟨j, hij, hj, hfound⟩ := ih h
          exact ⟨j, by omega, by omega, hfound⟩

/-- A loop whose probes all find something or go on returns what it finds first. -/
theorem scanWindow_first (hstop : ∀ k, probe k ≠ .stop) {ret : Int} (hij : i ≤ j)
    (hj : j < i + n) (hfound : probe j = .found ret) :
    ∃ k, i ≤ k ∧ k ≤ j ∧ probe k = .found (scanWindow probe n i) ∧
      ∀ l, i ≤ l → l < k → probe l = .pass := by
  induction n generalizing i with
  | zero => omega
  | succ n ih =>
      rw [scanWindow]
      cases hp : probe i with
      | found ret => exact ⟨i, le_rfl, hij, hp, fun l hl hlt => by omega⟩
      | stop => exact absurd hp (hstop i)
      | pass =>
          have hne : i ≠ j := by
            rintro rfl
            rw [hp] at hfound
            contradiction
          obtain ⟨k, hik, hkj, hk, hpass⟩ := ih (i := i + 1) (by omega) (by omega)
          refine ⟨k, by omega, hkj, hk, fun l hl hlt => ?_⟩
          rcases eq_or_lt_of_le hl with rfl | hl
          · exact hp
          · exact hpass l (by omega) hlt

end Scans

section Enumeration

variable {T : Pcontent} {keyFind : Int → Int → Int} {offset limit : Int}

/-- An invariant that makes every offset found lie behind the last one, and a measure it
lowers, make the enumeration end. -/
theorem enumerates_of_rule (I : Int → Prop) (m : Int → Nat)
    (hstart : I (defineStartAndEnd T offset limit).1)
    (hfind : ∀ o, I o →
      0 < keyFind o ((defineStartAndEnd T offset limit).2 - o) →
      o < keyFind o ((defineStartAndEnd T offset limit).2 - o) ∧
        I (keyFind o ((defineStartAndEnd T offset limit).2 - o)) ∧
        m (keyFind o ((defineStartAndEnd T offset limit).2 - o)) < m o) :
    Enumerates T keyFind offset limit := by
  unfold Enumerates keysNumber visitedOffsets
  generalize (defineStartAndEnd T offset limit).1 = start at *
  generalize (defineStartAndEnd T offset limit).2 = offend at *
  have hpass : ∀ s s' : Int × Nat, I s.1 → keyPass keyFind offend s = .next s' →
      s.1 < s'.1 ∧ I s'.1 ∧ m s'.1 < m s.1 := by
    intro s s' hs h
    rw [keyPass] at h
    split at h
    · rename_i hpos
      cases h
      exact hfind s.1 hs hpos
    · contradiction
  constructor
  · obtain ⟨b, hrun, -⟩ := run_rule (keyPass keyFind offend) (m start + 1) (start, 0)
      (fun s => I s.1) (fun s => m s.1) (fun _ => True)
      (fun s s' hs h => (hpass s s' hs h).2) (fun _ _ _ _ => trivial) hstart
      (Nat.lt_succ_self _)
    exact ⟨m start + 1, by rw [hrun]; rfl⟩
  · intro fuel
    rw [List.pairwise_map]
    apply visited_pairwise (fun s : Int × Nat => I s.1) fun s t : Int × Nat => s.1 < t.1
    · exact fun s t u => lt_trans
    · exact fun s s' hs h => ⟨(hpass s s' hs h).2.1, (hpass s s' hs h).1⟩
    · exact hstart

/-- A finder that returns what lies ahead enumerates as long as nothing that it finds in front
of the end reaches over something it would find behind it. -/
theorem enumerates_of_probe (probe : Int → Int → Probe)
    (hfind : ∀ o l, keyFind o l = scanWindow (probe (defineStartAndEnd T o l).2)
      ((defineStartAndEnd T o l).2 - (defineStartAndEnd T o l).1).toNat
      (defineStartAndEnd T o l).1)
    (hahead : ∀ e i r, probe e i = .found r → i < r)
    (hapart : ∀ i r e i' r', (defineStartAndEnd T offset limit).1 ≤ i →
      i < (defineStartAndEnd T offset limit).2 → (defineStartAndEnd T offset limit).2 ≤ i' →
      i' < r → i' < T.pclen → probe (defineStartAndEnd T offset limit).2 i = .found r →
      probe e i' ≠ .found r') :
    Enumerates T keyFind offset limit := by
  obtain ⟨hstart, hend⟩ := defineStartAndEnd_bounds T offset limit
  have hempty := @defineStartAndEnd_empty T offset limit
  refine enumerates_of_rule
    (fun o => (defineStartAndEnd T offset limit).1 ≤ o ∧
      ((defineStartAndEnd T offset limit).2 < o →
        keyFind o ((defineStartAndEnd T offset limit).2 - o) = 0))
    (fun o => ((defineStartAndEnd T offset limit).2 + 1 - o).toNat) ?_ ?_
  · refine ⟨le_rfl, fun hlt => ?_⟩
    rw [hfind, Int.toNat_of_nonpos (by have := hempty hlt; omega)]
    rfl
  · generalize (defineStartAndEnd T offset limit).1 = start at *
    generalize (defineStartAndEnd T offset limit).2 = offend at *
    rintro o ⟨hso, hbehind⟩ hpos
    have hle : o ≤ offend := by
      by_contra hlt
      rw [hbehind (by omega)] at hpos
      omega
    rw [hfind o, defineStartAndEnd_ahead (by omega) hle hend] at hpos ⊢
    generalize hr : scanWindow (probe offend) (offend - o).toNat o = r at hpos ⊢
    obtain ⟨i, hoi, hi, hfound⟩ := scanWindow_found
      (show scanWindow (probe offend) (offend - o).toNat o ≠ 0 by omega)
    rw [hr] at hfound
    have hir := hahead _ _ _ hfound
    refine ⟨by omega, ⟨by omega, fun hover => ?_⟩, by omega⟩
    by_contra hne
    rw [hfind, defineStartAndEnd_behind hover] at hne
    obtain ⟨i', hi', hlt, hfound'⟩ := scanWindow_found hne
    exact hapart i r _ i' _ (by omega) (by omega) (by omega) (by omega) (by omega) hfound hfound'

/-- An offset met from which the finder does not get ahead spoils the enumeration. -/
theorem not_enumerates {n num : Nat} {o : Int}
    (hreach : Passes (keyPass keyFind (defineStartAndEnd T offset limit).2) n
      ((defineStartAndEnd T offset limit).1, 0) (o, num))
    (hpos : 0 < keyFind o ((defineStartAndEnd T offset limit).2 - o))
    (hback : keyFind o ((defineStartAndEnd T offset limit).2 - o) ≤ o) :
    ¬ Enumerates T keyFind offset limit := by
  rintro ⟨-, hpair⟩
  obtain ⟨before, hvisited⟩ := hreach.visited_append 2
  have h := hpair (n + 2)
  rw [visitedOffsets, hvisited, visited, keyPass, if_pos hpos] at h
  simp only [visited, List.map_append, List.map_cons, List.pairwise_append,
    List.pairwise_cons, List.mem_cons] at h
  exact absurd (h.2.1.1 _ (.inl rfl)) (not_lt.mpr hback)

end Enumeration

end CiteParser
