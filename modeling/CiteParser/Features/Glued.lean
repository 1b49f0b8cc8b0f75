import CiteParser.Features.Snapshot

/-!
# Words glued together

Where a recogniser rejects a token, `predftEnQueue` and `ftEnQueue` try it on the runs of
consecutive pieces that the token falls into. The inner loop assigns the result of every run to
the field, so only the run that reaches the end of the token is left for the outer loop to
stop at: a word at the front of a token counts only if the recogniser does not look at
where it ends.
-/

namespace CiteParser

/-- The recognisers that are tried on runs of pieces. -/
inductive Recogniser where
  | procFlag
  | uniFlag
  | ltdFlag
  | namelike
  deriving DecidableEq, Repr

namespace Recogniser

/-- The field of the snapshot that the recogniser sets. -/
def field (t : CrfNodeSnapshot) : Recogniser → Nat
  | procFlag => t.procflag
  | uniFlag => t.uniflag
  | ltdFlag => t.ltdflag
  | namelike => t.namelike

/-- The recogniser on the whole token. -/
def whole (t : CrfNodeSnapshot) : Recogniser → Nat
  | procFlag => CiteParser.procFlag t.str t.slen
  | uniFlag => CiteParser.uniFlag t.str t.slen
  | ltdFlag => CiteParser.ltdFlag t.str
  | namelike => CiteParser.namelike t.str t.slen t.nextdeli t.strtype

/-- The number of pieces of the token. -/
def splen (t : CrfNodeSnapshot) : Nat := (spilitStr t.str).length - 1

/-- The recogniser on the pieces from `z` to `k`. -/
def onRun (t : CrfNodeSnapshot) (z k : Nat) : Recogniser → Nat :=
  let spstr := spilitStr t.str
  let str := t.str.drop (spstr.getD z 0)
  let len := spstr.getD (k + 1) 0 - spstr.getD z 0
  fun
  | procFlag => CiteParser.procFlag str len
  | uniFlag => CiteParser.uniFlag str len
  | ltdFlag => CiteParser.ltdFlag str
  | namelike => CiteParser.namelike str len
      (if k = splen t - 1 then t.nextdeli else ' '.toUInt8) (strfeature str len)

/-- Some run of consecutive pieces is accepted. -/
def AcceptsRun (t : CrfNodeSnapshot) (r : Recogniser) : Prop :=
  ∃ z k, z ≤ k ∧ k < splen t ∧ r.onRun t z k ≠ 0

/-- Some run that reaches the end of the token is accepted. -/
def AcceptsTail (t : CrfNodeSnapshot) (r : Recogniser) : Prop :=
  ∃ z, z < splen t ∧ r.onRun t z (splen t - 1) ≠ 0

end Recogniser

section Retry

/-- A loop that goes on while a flag is 0 ends with the first value that is not. -/
theorem foldl_while_zero (f : Nat → Nat) (l : List Nat) (flag : Nat) :
    l.foldl (fun flag z => if flag = 0 then f z else flag) flag ≠ 0 ↔
      flag ≠ 0 ∨ ∃ z ∈ l, f z ≠ 0 := by
  induction l generalizing flag with
  | nil => simp
  | cons z l ih =>
      rw [List.foldl_cons, ih]
      by_cases hflag : flag = 0
      · simp [hflag]
      · simp [hflag]

/-- A loop that assigns in every pass ends with the last value. -/
theorem foldl_last (f : Nat → Nat) {z n : Nat} (h : z < n) (flag : Nat) :
    (List.range' z (n - z)).foldl (fun _ k => f k) flag = f (n - 1) := by
  rw [show n - z = n - 1 - z + 1 by omega, List.range'_concat, List.foldl_append,
    show z + 1 * (n - 1 - z) = n - 1 by omega]
  rfl

/-- Of the runs from a piece on only the longest one decides. -/
theorem retryPieces_ne_zero_iff (splen : Nat) (test : Nat → Nat → Nat) (flag : Nat) :
    retryPieces splen test flag ≠ 0 ↔ flag ≠ 0 ∨ ∃ z, z < splen ∧ test z (splen - 1) ≠ 0 := by
  have hloop : retryPieces splen test flag =
      (List.range splen).foldl
        (fun flag z => if flag = 0 then test z (splen - 1) else flag) flag := by
    apply List.foldl_ext
    intro flag z hz
    rw [foldl_last (test z) (List.mem_range.mp hz)]
  rw [hloop, foldl_while_zero]
  simp only [List.mem_range]

end Retry

/-- A field is set exactly when the whole token is accepted or a run at its end. -/
theorem Recogniser.field_ne_zero_iff {ref : Reference} {s s' : Nat × UInt8} {t : CrfNodeSnapshot}
    (h : ref.next s = some (t, s')) (r : Recogniser) :
    r.field t ≠ 0 ↔ r.whole t ≠ 0 ∨ r.AcceptsTail t := by
  obtain ⟨-, rfl, -⟩ := Reference.next_eq_some h
  cases r with
  | procFlag => exact retryPieces_ne_zero_iff _ _ _
  | uniFlag => exact retryPieces_ne_zero_iff _ _ _
  | ltdFlag => exact retryPieces_ne_zero_iff _ _ _
  | namelike => exact retryPieces_ne_zero_iff _ _ _

/-- Once the flag of a single capital is lost it stays lost. -/
theorem foldl_strfeatureStep_fl (str : List UInt8) {s : CaseCount} (h : s.fl = false)
    (passes : List Nat) : (passes.foldl (fun s _ => strfeatureStep str s) s).fl = false := by
  induction passes generalizing s with
  | nil => exact h
  | cons _ passes ih =>
      apply ih
      unfold strfeatureStep
      split <;> split <;> first | exact h | rfl

/-- Only a single letter is a single capital. -/
theorem strfeature_eq_two {str : List UInt8} {len : Nat} (h : strfeature str len = 2) :
    len ≤ 1 := by
  by_contra hlong
  obtain ⟨n, hn⟩ : ∃ n, len - 1 = n + 1 := ⟨len - 2, by omega⟩
  rw [strfeature, hn, List.range_succ_eq_map, List.foldl_cons] at h
  have hlost : (strfeatureStep str (if isUppercaseCode (charAt str 0) then ⟨1, 0, true⟩
      else ⟨0, 1, false⟩)).fl = false := by
    unfold strfeatureStep
    split <;> split <;> simp_all
  have hfl := foldl_strfeatureStep_fl str hlost ((List.range n).map Nat.succ)
  rw [hfl, if_neg Bool.false_ne_true] at h
  have hother (hc lc : Nat) :
      (if 0 < hc then if 0 < lc then 3 else 0 else if 0 < lc then 1 else 4) ≠ 2 := by
    split <;> split <;> decide
  exact hother _ _ h

/-- A chain of tests that all return something accepts when one of them does. -/
theorem firstOf_ne_zero_iff {tests : List (Bool × Nat)} (h : ∀ t ∈ tests, t.2 ≠ 0) :
    firstOf tests ≠ 0 ↔ ∃ t ∈ tests, t.1 = true := by
  rw [firstOf]
  cases hfind : tests.find? (·.1) with
  | none =>
      rw [List.find?_eq_none] at hfind
      refine iff_of_false (not_not.mpr rfl) ?_
      rintro ⟨t, ht, htrue⟩
      exact hfind t ht htrue
  | some t =>
      have ht := List.mem_of_find?_eq_some hfind
      exact iff_of_true (h t ht) ⟨t, ht, List.find?_some hfind⟩

/-- What `namelike` looks for. -/
theorem namelike_ne_zero_iff (str : List UInt8) (len : Nat) (next : UInt8) (type : Nat) :
    namelike str len next type ≠ 0 ↔
      (len = 1 ∧ isUppercaseCode (charAt str 0) = true ∧
        (next = '.'.toUInt8 ∨ next = ','.toUInt8)) ∨
      (1 < len ∧ type = 2) ∨ strcasecmpEq str (bytes "and") = true := by
  rw [namelike, firstOf_ne_zero_iff (by simp)]
  simp [and_assoc]

/-- What `ltdFlag` accepts of a run does not depend on where the run ends, and `namelike`
accepts a single capital at the end of the token only. -/
theorem Recogniser.acceptsTail_of_acceptsRun {t : CrfNodeSnapshot} {r : Recogniser}
    (hr : r = .ltdFlag ∨ r = .namelike) (h : r.AcceptsRun t) : r.AcceptsTail t := by
  obtain ⟨z, k, hzk, hk, hrun⟩ := h
  refine ⟨z, Nat.lt_of_le_of_lt hzk hk, ?_⟩
  rcases hr with rfl | rfl
  · exact hrun
  · by_cases hlast : k = splen t - 1
    · rwa [hlast] at hrun
    · apply (namelike_ne_zero_iff _ _ _ _).mpr
      have hrun := (namelike_ne_zero_iff _ _ _ _).mp hrun
      rw [if_neg hlast] at hrun
      rcases hrun with ⟨-, -, hnext⟩ | ⟨hlen, htype⟩ | hand
      · exact absurd hnext (by decide)
      · exact absurd (strfeature_eq_two htype) (Nat.not_le_of_gt hlen)
      · exact .inr (.inr hand)

/-- A recogniser that accepts a token or a run of its pieces sets its field, for `ltdFlag` and
`namelike` always and for the others exactly when a run can only be accepted if the whole
token or a run at its end is. -/
theorem Recogniser.glued_words_iff {ref : Reference} {s s' : Nat × UInt8} {t : CrfNodeSnapshot}
    (h : ref.next s = some (t, s')) (r : Recogniser) :
    (r.whole t ≠ 0 ∨ r.AcceptsRun t → r.field t ≠ 0) ↔
      r = .ltdFlag ∨ r = .namelike ∨
        (r.AcceptsRun t → r.whole t ≠ 0 ∨ r.AcceptsTail t) := by
  rw [field_ne_zero_iff h]
  constructor
  · exact fun hset => .inr (.inr fun hrun => hset (.inr hrun))
  · rintro hr (hwhole | hrun)
    · exact .inl hwhole
    · rcases hr with rfl | rfl | hset
      · exact .inr (acceptsTail_of_acceptsRun (.inl rfl) hrun)
      · exact .inr (acceptsTail_of_acceptsRun (.inr rfl) hrun)
      · exact hset hrun

/-- The token "Univ" is accepted as a whole. -/
theorem glued_words_univ : ∃ t s',
    (plainReference (bytes "Univ")).next (0, ' '.toUInt8) = some (t, s') ∧
      Recogniser.uniFlag.field t ≠ 0 := by
  have hwhole : ((plainReference (bytes "Univ")).next (0, ' '.toUInt8)).map
      (fun r => Recogniser.uniFlag.whole r.1) = some 1 := by decide +kernel
  obtain ⟨⟨t, s'⟩, hnext, hone⟩ := Option.map_eq_some_iff.mp hwhole
  have hset : Recogniser.uniFlag.whole t ≠ 0 := by
    rw [hone]
    decide
  exact ⟨t, s', hnext, (Recogniser.glued_words_iff hnext .uniFlag).mpr
    (.inr (.inr fun _ => .inl hset)) (.inl hset)⟩

/-- "InLREC" begins with a word that `procFlag` accepts, but its field is 0. -/
theorem glued_words_inLREC :
    ¬ ∀ (ref : Reference) (s s' : Nat × UInt8) (t : CrfNodeSnapshot) (r : Recogniser),
      ref.next s = some (t, s') → (r.whole t ≠ 0 ∨ r.AcceptsRun t) → r.field t ≠ 0 := by
  intro h
  have hvalues : ((plainReference (bytes "InLREC")).next (0, ' '.toUInt8)).map
      (fun r => (Recogniser.splen r.1, Recogniser.procFlag.onRun r.1 0 0,
        Recogniser.procFlag.field r.1)) = some (2, 1, 0) := by decide +kernel
  obtain ⟨⟨t, s'⟩, hnext, hvalue⟩ := Option.map_eq_some_iff.mp hvalues
  simp only [Prod.mk.injEq] at hvalue
  obtain ⟨hsplen, hrun, hfield⟩ := hvalue
  refine h _ _ s' t .procFlag hnext (.inr ⟨0, 0, Nat.le_refl 0, ?_, ?_⟩) hfield
  · rw [hsplen]
    decide
  · rw [hrun]
    decide

end CiteParser
