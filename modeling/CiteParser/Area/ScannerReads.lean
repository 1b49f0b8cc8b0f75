import CiteParser.Area.Scanners

/-!
# Where the scanners stay in the text

The tests that a scanner makes at an offset, with the characters they read, and the loops of
the scanners that never leave the text, wherever it is cut.
-/

namespace CiteParser

open Loop Traced

section Tests

variable {T : Pcontent} {i limit : Int} {n : Nat}

/-- The first character of a window, and the others. -/
theorem window_succ (T : Pcontent) (i : Int) (n : Nat) :
    T.window i (n + 1) = T.char i :: T.window (i + 1) n := by
  rw [Pcontent.window, Pcontent.window, List.range_succ_eq_map, List.map_cons, List.map_map]
  congr 1
  · simp
  · apply List.map_congr_left
    intro k _
    apply congrArg T.char
    rw [Nat.cast_succ]
    omega

@[simp] theorem val_read (T : Pcontent) (i : Int) : (T.read i).val = T.char i := rfl

@[simp] theorem within_read {P : Int → Prop} (T : Pcontent) (i : Int) :
    Within P (T.read i) ↔ P i := Traced.within_read _ _

@[simp] theorem val_readWindow (T : Pcontent) (n : Nat) (i : Int) :
    (T.readWindow n i).val = T.window i n := by
  induction n generalizing i with
  | zero => rfl
  | succ n ih =>
      rw [window_succ, ← ih]
      rfl

/-- What a window reads. -/
theorem within_readWindow {P : Int → Prop} :
    Within P (T.readWindow n i) ↔ ∀ k : Nat, k < n → P (i + k) := by
  induction n generalizing i with
  | zero => simp [Pcontent.readWindow]
  | succ n ih =>
      simp only [Pcontent.readWindow, within_bind, within_read, within_pure, and_true, ih]
      constructor
      · rintro ⟨hfirst, hrest⟩ k hk
        cases k with
        | zero => simpa using hfirst
        | succ k =>
            have hlater := hrest k (by omega)
            rwa [add_assoc, add_comm 1] at hlater
      · intro h
        refine ⟨by simpa using h 0 (by omega), fun k hk => ?_⟩
        have hlater := h (k + 1) (by omega)
        rwa [add_assoc, add_comm 1]

/-- A window between two indices of the text. -/
theorem within_window (h0 : 0 ≤ i) (hend : i + n ≤ T.pclen + 1) :
    Within T.Holds (T.readWindow n i) :=
  within_readWindow.mpr fun k hk => ⟨by omega, by omega⟩

/-- A comparison that is given up at the first difference stays in front of the terminator. -/
theorem within_readWord (hterm : T.char T.pclen = 0) {word : List UInt8}
    (hword : 0 ∉ word) (hi : T.Holds i) : Within T.Holds (T.readWord word i) := by
  induction word generalizing i with
  | nil => exact within_pure _
  | cons c word ih =>
      rw [Pcontent.readWord, within_bind, within_read, val_read]
      refine ⟨hi, ?_⟩
      split
      · rename_i heq
        have hne : i ≠ T.pclen := by
          rintro rfl
          exact hword (List.mem_cons.mpr (.inl (hterm.symm.trans heq)))
        obtain ⟨h0, hle⟩ := hi
        exact ih (fun hzero => hword (List.mem_cons_of_mem c hzero)) ⟨by omega, by omega⟩
      · exact within_pure _

@[simp] theorem val_readWord (T : Pcontent) (word : List UInt8) (i : Int) :
    (T.readWord word i).val = (T.window i word.length == word) := by
  induction word generalizing i with
  | nil => rfl
  | cons c word ih =>
      rw [Pcontent.readWord, val_bind, val_read, List.length_cons, window_succ]
      split
      · rename_i heq
        rw [ih, heq]
        simp
      · rename_i hne
        simp [hne]

/-- A test of several characters. -/
theorem within_readAll {test : UInt8 → Bool} (h0 : 0 ≤ i) (hend : i + n ≤ T.pclen + 1) :
    Within T.Holds (T.readAll test n i) := by
  induction n generalizing i with
  | zero => exact within_pure _
  | succ n ih =>
      rw [Pcontent.readAll, within_bind, within_read]
      refine ⟨⟨h0, by omega⟩, ?_⟩
      split
      · exact ih (by omega) (by omega)
      · exact within_pure _

@[simp] theorem val_readAll (T : Pcontent) (test : UInt8 → Bool) (n : Nat) (i : Int) :
    (T.readAll test n i).val = (T.window i n).all test := by
  induction n generalizing i with
  | zero => rfl
  | succ n ih =>
      rw [Pcontent.readAll, val_bind, val_read, window_succ, List.all_cons]
      cases test (T.char i) with
      | true => exact ih (i + 1)
      | false => rfl

/-- A case of `isPageNumber` reads the characters that it covers. -/
theorem PageShape.within_readAccepts {s : PageShape} (hs : s ∈ pageShapes) (h0 : 0 ≤ i)
    (hend : i + s.length ≤ T.pclen + 1) : Within T.Holds (s.readAccepts T i) := by
  have hlen : s.length = s.left + 1 + s.right := rfl
  have hshort := (pageShapes_spec s hs).2.2.2.2.2
  have hfits : Within T.Holds (s.readFits T i) := by
    rw [readFits]
    split
    · rw [within_bind]
      exact ⟨within_window h0 (by omega), within_pure _⟩
    · have hleft := hshort (by omega)
      rw [within_bind, within_read]
      refine ⟨⟨h0, by omega⟩, ?_⟩
      split
      · rw [within_bind, within_read]
        refine ⟨⟨by omega, by omega⟩, ?_⟩
        split
        · exact within_readAll (by omega) (by omega)
        · exact within_pure _
      · exact within_pure _
  rw [readAccepts, within_bind]
  refine ⟨hfits, ?_⟩
  split
  · rw [within_bind, within_bind]
    refine ⟨within_window h0 (by omega), within_window (by omega) (by omega), ?_⟩
    split
    · rw [within_bind, within_read]
      exact ⟨⟨by omega, by omega⟩, within_pure _⟩
    · exact within_pure _
  · exact within_pure _

/-- `isPageNumber` reads no more than its limit. -/
theorem within_readPageNumber (h0 : 0 ≤ i) (hend : i + limit ≤ T.pclen + 1) :
    Within T.Holds (readPageNumber T i limit) := by
  have hshapes : ∀ l, l ≤ limit → ∀ shapes, (∀ s ∈ shapes, s ∈ pageShapes) →
      Within T.Holds (readShapes T i l shapes) := by
    intro l hl shapes
    induction shapes with
    | nil => exact fun _ => within_pure _
    | cons s shapes ih =>
        intro hmem
        have hrest := ih fun t ht => hmem t (List.mem_cons_of_mem s ht)
        rw [readShapes]
        split
        · rw [within_bind]
          refine ⟨s.within_readAccepts (hmem s List.mem_cons_self) h0 (by omega), ?_⟩
          split
          · exact within_pure _
          · exact hrest
        · exact hrest
  rw [readPageNumber]
  split
  · exact within_pure _
  · exact hshapes _ (by split <;> omega) _ fun s hs => hs

end Tests

section Loops

variable {T : Pcontent} {P : Int → Prop} {offend i : Int}

theorem Pcontent.decides_read {σ : Type} {V : Verdict σ} {s : σ}
    {f : UInt8 → Traced Int (Outcome σ Int)} : V.Decides P s (T.read i >>= f) ↔
      (V.safe s → P i) ∧ (P i → V.Decides P s (f (T.char i))) := Verdict.decides_read

/-- A loop over offsets that never leaves the text. -/
def offsetVerdict (offend : Int) : Verdict Int where
  inv i := 0 ≤ i
  safe _ := True
  measure i := (offend - i).toNat

theorem offsetVerdict_next (hi : 0 ≤ i) (hlt : i < offend) :
    (offsetVerdict offend).Decides P i (pure (.next (i + 1)) : Traced Int (Outcome Int Int)) :=
  Verdict.decides_next.mpr
    ⟨by dsimp only [offsetVerdict]; omega, by dsimp only [offsetVerdict]; omega, Iff.rfl⟩

/-- `hasPPafterTheOffset` looks at the rest of the window at most. -/
theorem safe_pagePass (hend : offend ≤ T.pclen) (hi : 0 ≤ i) :
    Safe T.Holds (pagePass T offend) i := by
  refine (Verdict.safe_iff (V := offsetVerdict offend) (fun i hi => ?_) hi).mpr trivial
  rw [pagePass]
  split
  · rename_i hlt
    rw [Pcontent.decides_read]
    refine ⟨fun _ => ⟨hi, by omega⟩, fun _ => ?_⟩
    split
    · rw [Verdict.decides_bind]
      refine ⟨fun _ => within_readPageNumber hi (by omega), fun _ => ?_⟩
      split
      · exact Verdict.decides_exit.mpr trivial
      · exact offsetVerdict_next hi hlt
    · exact offsetVerdict_next hi hlt
  · exact Verdict.decides_exit.mpr trivial

/-- The four characters of a year. -/
theorem within_readYear (h : ∀ k : Int, 0 ≤ k → k ≤ 3 → P (i + k)) :
    Within P (readYear T i) := by
  rw [readYear, within_bind, within_read]
  refine ⟨by simpa using h 0 le_rfl (by decide), ?_⟩
  split
  · rw [within_bind, within_read]
    refine ⟨h 1 (by decide) (by decide), ?_⟩
    split
    · rw [within_bind, within_read]
      refine ⟨h 2 (by decide) (by decide), ?_⟩
      split
      · rw [within_bind, within_read]
        exact ⟨h 3 (by decide) (by decide), within_pure _⟩
      · exact within_pure _
    · exact within_pure _
  · exact within_pure _

/-- A year ends in front of the end of the window. -/
theorem safe_yearPass (hend : offend ≤ T.pclen) (hi : 0 ≤ i) :
    Safe T.Holds (yearPass T offend) i := by
  refine (Verdict.safe_iff (V := offsetVerdict offend) (fun i hi => ?_) hi).mpr trivial
  have h0 : 0 ≤ i := hi
  rw [yearPass]
  split
  · rw [Verdict.decides_bind]
    refine ⟨fun _ => within_readYear fun k _ _ => ⟨by omega, by omega⟩, fun _ => ?_⟩
    split
    · exact Verdict.decides_exit.mpr trivial
    · exact offsetVerdict_next hi (by omega)
  · exact Verdict.decides_exit.mpr trivial

/-- The offset of a point of `hasWords` lies in the text, and among letters in the window. -/
def wordVerdict (offend : Int) : Verdict WordPoint where
  inv
    | .head i _ => 0 ≤ i
    | .letters s => 0 ≤ s.i ∧ s.i < offend
  safe _ := True
  measure
    | .head i _ => 2 * (offend - i).toNat
    | .letters s => 2 * (offend - s.i).toNat - 1

/-- The letters that `hasWords` looks at end at the last offset of the window. -/
theorem safe_wordPass (hend : offend ≤ T.pclen) (hi : 0 ≤ i) (key : UInt8) :
    Safe T.Holds (wordPass T offend) (.head i key) := by
  have hstart : (wordVerdict offend).inv (.head i key) := hi
  refine (Verdict.safe_iff (fun s hs => ?_) hstart).mpr trivial
  cases s with
  | head i key =>
      have h0 : 0 ≤ i := hs
      rw [wordPass]
      split
      · exact Verdict.decides_next.mpr
          ⟨⟨h0, ‹_›⟩, by dsimp only [wordVerdict]; omega, Iff.rfl⟩
      · exact Verdict.decides_exit.mpr trivial
  | letters s =>
      obtain ⟨h0, hlt⟩ := hs
      rw [wordPass, Pcontent.decides_read]
      refine ⟨fun _ => ⟨h0, by omega⟩, fun _ => ?_⟩
      split
      · rename_i hletter
        rw [Bool.and_eq_true, decide_eq_true_eq] at hletter
        have hnext : ∀ s' : WordRun, s'.i = s.i + 1 → (wordVerdict offend).Decides T.Holds
            (.letters s) (pure (.next (.letters s')) : Traced Int (Outcome _ Int)) :=
          fun s' heq => Verdict.decides_next.mpr
            ⟨⟨by omega, by omega⟩, by dsimp only [wordVerdict]; omega, Iff.rfl⟩
        rw [Pcontent.decides_read]
        refine ⟨fun _ => ⟨by omega, by omega⟩, fun _ => hnext _ ?_⟩
        split_ifs <;> rfl
      · split
        · exact Verdict.decides_exit.mpr trivial
        · exact Verdict.decides_next.mpr ⟨by dsimp only [wordVerdict]; omega,
            by dsimp only [wordVerdict]; omega, Iff.rfl⟩

/-- The points of the finders of numbers lie in the text, its terminator included: no digit
stands there. -/
def seqVerdict (T : Pcontent) (offend : Int) : Verdict SeqPoint where
  inv
    | .head i => 0 ≤ i
    | .digits i => T.Holds i
  safe _ := True
  measure
    | .head i => 2 * (max offend T.pclen + 1 - i).toNat
    | .digits i => 2 * (max offend T.pclen + 1 - i).toNat + 1

/-- Behind a bracket the window is looked at. -/
theorem within_readBracket {S : SeqShape} (hend : offend ≤ T.pclen) {n : Nat} {j : Int}
    (hj : 0 ≤ j) : Within T.Holds (readBracket S T offend i n j) := by
  induction n generalizing j with
  | zero => exact within_pure _
  | succ n ih =>
      rw [readBracket]
      split
      · rw [within_bind, within_read]
        refine ⟨⟨hj, by omega⟩, ?_⟩
        split_ifs
        · exact within_pure _
        · exact within_pure _
        · exact within_pure _
        · exact ih (by omega)
      · exact within_pure _

/-- Digits end at the terminator at the latest. -/
theorem seqPass_decides (S : SeqShape) (hterm : T.char T.pclen = 0) (hend : offend ≤ T.pclen)
    (s : SeqPoint) (hs : (seqVerdict T offend).inv s) :
    (seqVerdict T offend).Decides T.Holds s (seqPass S T offend s) := by
  cases s with
  | head i =>
      have h0 : 0 ≤ i := hs
      rw [seqPass]
      split
      · have hnext : (seqVerdict T offend).Decides T.Holds (.head i)
            (pure (.next (.head (i + 1))) : Traced Int (Outcome _ Int)) :=
          Verdict.decides_next.mpr ⟨by dsimp only [seqVerdict]; omega,
            by dsimp only [seqVerdict]; omega, Iff.rfl⟩
        rw [Pcontent.decides_read]
        refine ⟨fun _ => ⟨h0, by omega⟩, fun _ => ?_⟩
        split
        · rw [Verdict.decides_bind]
          refine ⟨fun _ => within_readBracket hend (by omega), fun _ => ?_⟩
          split
          · exact Verdict.decides_exit.mpr trivial
          · exact hnext
        · split
          · exact Verdict.decides_next.mpr ⟨⟨by omega, by omega⟩,
              by dsimp only [seqVerdict]; omega, Iff.rfl⟩
          · exact hnext
      · exact Verdict.decides_exit.mpr trivial
  | digits i =>
      obtain ⟨h0, hle⟩ := hs
      rw [seqPass, Pcontent.decides_read]
      refine ⟨fun _ => ⟨h0, hle⟩, fun _ => ?_⟩
      split
      · rename_i hdigit
        have hne : i ≠ T.pclen := by
          rintro rfl
          rw [hterm] at hdigit
          contradiction
        exact Verdict.decides_next.mpr ⟨⟨by omega, by omega⟩,
          by dsimp only [seqVerdict]; omega, Iff.rfl⟩
      · split
        · exact Verdict.decides_exit.mpr trivial
        · exact Verdict.decides_next.mpr ⟨by dsimp only [seqVerdict]; omega,
            by dsimp only [seqVerdict]; omega, Iff.rfl⟩

theorem safe_seqPass (S : SeqShape) (hterm : T.char T.pclen = 0) (hend : offend ≤ T.pclen)
    (hi : 0 ≤ i) : Safe T.Holds (seqPass S T offend) (.head i) := by
  have hstart : (seqVerdict T offend).inv (.head i) := hi
  exact (Verdict.safe_iff (seqPass_decides S hterm hend) hstart).mpr trivial

end Loops

end CiteParser
