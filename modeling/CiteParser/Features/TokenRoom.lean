import CiteParser.Features.Carried
import CiteParser.Text.TokenText
import Mathlib.Data.List.GetD

/-!
# The buffer of a token

What a call of `spilitContent` stores in `dest`, told beside the call: each pass tests for
room before it stores a character, and nothing tests before the terminator is stored. A call
for a token stays inside `str[SINGLEWORDLEN]`, and brings back a character, exactly when the
text of the token is not as long as the buffer and begins with a character that is kept.
-/

namespace CiteParser

open Loop

/-- The index of `dest` that a pass of the main loop stores to. -/
def splitPassWrites (dlen : Nat) (src : Nat → UInt8) (len : Nat) (s : SplitState) : List Nat :=
  if len ≤ s.i then []
  else
    match splitTest src len s with
    | .next t =>
        if isDelimiter (src t.i) || isConnectCh (src t.i) then []
        else if dlen ≤ t.dest.length then []
        else [t.dest.length]
    | .exit _ => []

/-- The indices of `dest` that a call stores to, its terminator the last. -/
def spilitContentWrites (dlen : Nat) (src : Nat → UInt8) (len : Nat) : List Nat :=
  (visited (splitPass dlen src len) (len + 1) .init).flatMap (splitPassWrites dlen src len) ++
    match splitLoop dlen src len with
    | .ok s => if s.flag then [s.dest.length] else []
    | .error _ => []

/-- Every character is stored inside `dest`. -/
theorem splitPassWrites_lt {dlen : Nat} {src : Nat → UInt8} {len : Nat} {s : SplitState} {j : Nat}
    (h : j ∈ splitPassWrites dlen src len s) : j < dlen := by
  unfold splitPassWrites at h
  split at h
  · exact absurd h List.not_mem_nil
  · split at h
    · split at h
      · exact absurd h List.not_mem_nil
      · split at h
        · exact absurd h List.not_mem_nil
        · rename_i hroom
          rw [List.mem_singleton.mp h]
          exact Nat.lt_of_not_le hroom
    · exact absurd h List.not_mem_nil

section Call

variable {dlen : Nat} {src : Nat → UInt8} {len : Nat}

/-- Without a token nothing but characters is stored. -/
theorem writes_unstarted (h : ∀ w, ¬ TokenOf src len w) :
    ∀ j ∈ spilitContentWrites dlen src len, j < dlen := by
  intro j hj
  obtain ⟨e, he, hflag⟩ := splitLoop_unstarted dlen h
  rw [spilitContentWrites, he] at hj
  simp only [hflag, Bool.false_eq_true, if_false, List.append_nil] at hj
  obtain ⟨s, -, hs⟩ := List.mem_flatMap.mp hj
  exact splitPassWrites_lt hs

/-- With a token the call stays inside `dest` unless the token is as long as `dest`. -/
theorem TokenOf.writes {w : List UInt8} (h : TokenOf src len w) :
    (∀ j ∈ spilitContentWrites dlen src len, j < dlen) ↔ w.length ≠ dlen := by
  have hexit := h.splitLoop_exit dlen
  have hpasses : ∀ j ∈ (visited (splitPass dlen src len) (len + 1) .init).flatMap
      (splitPassWrites dlen src len), j < dlen := by
    intro j hj
    obtain ⟨s, -, hs⟩ := List.mem_flatMap.mp hj
    exact splitPassWrites_lt hs
  unfold spilitContentWrites
  generalize splitLoop dlen src len = b at hexit
  cases hexit with
  | full hroom =>
      refine iff_of_true (fun j hj => hpasses j ?_) (Nat.ne_of_gt hroom)
      rwa [List.append_nil] at hj
  | @fits e hflag hdest hroom =>
      simp only [hflag, if_true, hdest]
      constructor
      · intro hall
        exact Nat.ne_of_lt (hall _ (List.mem_append_right _ (List.mem_singleton.mpr rfl)))
      · intro hne j hj
        rcases List.mem_append.mp hj with hj | hj
        · exact hpasses j hj
        · rw [List.mem_singleton.mp hj]
          omega

end Call

/-- The call for the token at the offset stays inside the token buffer, and the token it
queues has a last character. -/
def Reference.TokenFits (ref : Reference) (s : Nat × UInt8) : Prop :=
  (∀ j ∈ spilitContentWrites SINGLEWORDLEN (ref.textFrom s.1) (ref.refAreaEnd - s.1),
    j < SINGLEWORDLEN) ∧
  ∀ t s', ref.next s = some (t, s') → 1 ≤ t.slen

instance (ref : Reference) (s : Nat × UInt8) : Decidable (ref.TokenFits s) :=
  decidable_of_iff ((∀ j ∈ spilitContentWrites SINGLEWORDLEN (ref.textFrom s.1)
      (ref.refAreaEnd - s.1), j < SINGLEWORDLEN) ∧ ∀ p ∈ ref.next s, 1 ≤ p.1.slen)
    (and_congr_right fun _ => ⟨fun h t s' hnext => h (t, s') hnext, fun h p => h p.1 p.2⟩)

/-- The token at the offset is not as long as the buffer, and a shorter one begins with a
character that is kept: behind the connectors that may open it there is one before the range
ends and before a second number, and it is no zero byte. -/
def Reference.TokenProper (ref : Reference) (s : Nat × UInt8) : Prop :=
  ∀ f w, TokenStart (ref.textFrom s.1) (ref.refAreaEnd - s.1) f →
    TokenText (ref.textFrom s.1) (ref.refAreaEnd - s.1) f false 0 w →
    w.length ≠ SINGLEWORDLEN ∧
      (w.length < SINGLEWORDLEN →
        ∃ g, FirstKept (ref.textFrom s.1) (ref.refAreaEnd - s.1) f g ∧ ref.textFrom s.1 g ≠ 0)

/-- A string has a character exactly when its bytes begin with one that is not zero. -/
theorem cstr_length_pos {bs : List UInt8} :
    1 ≤ (cstr bs).length ↔ ∃ c, bs.head? = some c ∧ c ≠ 0 := by
  cases bs with
  | nil => simp [cstr]
  | cons c rest =>
      rw [cstr, List.takeWhile_cons]
      by_cases hc : c = 0 <;> simp [hc]

/-- The token queued has a last character exactly when the string in the buffer has one. -/
theorem Reference.queued_pos {ref : Reference} {s : Nat × UInt8} :
    (∀ t s', ref.next s = some (t, s') → 1 ≤ t.slen) ↔
      ((ref.token s.1).ret ≠ 0 → 1 ≤ (cstr (ref.token s.1).dest).length) := by
  obtain ⟨cur, mpredeli⟩ := s
  constructor
  · intro hall hret
    exact hall _ _ (by rw [Reference.next]; exact if_neg hret)
  · intro hpos t s' hnext
    obtain ⟨-, -, -, hstr, hslen⟩ := Reference.next_some hnext
    rw [hslen, hstr]
    exact hpos (Reference.next_eq_some hnext).1

/-- A call for a token brings back a character exactly when it has no room for the token, or
the token has a first character that is not zero. -/
theorem TokenOf.queued {src : Nat → UInt8} {len dlen f : Nat} {w : List UInt8} {np : UInt8}
    (hstart : TokenStart src len f) (htext : TokenText src len f false 0 w) :
    ((spilitContent dlen src len np).ret ≠ 0 →
        1 ≤ (cstr (spilitContent dlen src len np).dest).length) ↔
      (w.length ≤ dlen → ∃ g, FirstKept src len f g ∧ src g ≠ 0) := by
  obtain ⟨hret, hdest⟩ := @TokenOf.call src len w dlen np ⟨f, hstart, htext⟩
  have hfirst : 1 ≤ (cstr w).length ↔ ∃ g, FirstKept src len f g ∧ src g ≠ 0 := by
    rw [cstr_length_pos]
    simp only [htext.first rfl (.inr hstart.opens)]
    constructor
    · rintro ⟨c, ⟨g, hg, rfl⟩, hc⟩
      exact ⟨g, hg, hc⟩
    · rintro ⟨g, hg, hc⟩
      exact ⟨_, ⟨g, hg, rfl⟩, hc⟩
  rw [← hfirst, ← hret]
  exact imp_congr_right fun h => by rw [hdest h]

/-- One call keeps to its buffer and brings back a character exactly when its token is
proper. -/
theorem Reference.tokenFits_iff (ref : Reference) (s : Nat × UInt8) :
    ref.TokenFits s ↔ ref.TokenProper s := by
  unfold Reference.TokenFits Reference.TokenProper
  rw [Reference.queued_pos]
  have htoken : ref.token s.1 =
      spilitContent SINGLEWORDLEN (ref.textFrom s.1) (ref.refAreaEnd - s.1) (ref.nextpre s.1) :=
    rfl
  rw [htoken]
  generalize ref.textFrom s.1 = src
  generalize ref.refAreaEnd - s.1 = len
  by_cases htoken : ∃ f, TokenStart src len f
  · obtain ⟨f, hstart⟩ := htoken
    obtain ⟨w, htext⟩ := exists_tokenText src len f false 0
    have hwrites := @TokenOf.writes SINGLEWORDLEN src len w ⟨f, hstart, htext⟩
    rw [hwrites, TokenOf.queued hstart htext]
    constructor
    · rintro ⟨hne, hfirst⟩ f' w' hstart' htext'
      obtain rfl := hstart.unique hstart'
      obtain rfl := htext.unique htext'
      exact ⟨hne, fun hlt => hfirst hlt.le⟩
    · intro hproper
      obtain ⟨hne, hfirst⟩ := hproper f w hstart htext
      exact ⟨hne, fun hle => hfirst (lt_of_le_of_ne hle hne)⟩
  · have hnone : ∀ w, ¬ TokenOf src len w := fun w h => htoken (h.imp fun _ hf => hf.1)
    refine iff_of_true ⟨writes_unstarted hnone, fun hret => ?_⟩ fun f w hstart => ?_
    · obtain ⟨e, he, hflag⟩ := splitLoop_unstarted SINGLEWORDLEN hnone
      exact absurd (spilitContent_eq_zero _ he hflag) hret
    · exact absurd ⟨f, hstart⟩ htoken

/-- In a run over a range every call keeps to its buffer and queues a token with a character
in it exactly when all the tokens of the range are proper. -/
theorem Reference.tokensFit_iff (ref : Reference) (start : Nat × UInt8) :
    (∀ s ∈ ref.snapshots.path start, ref.TokenFits s) ↔
      ∀ s ∈ ref.snapshots.path start, ref.TokenProper s :=
  forall₂_congr fun s _ => ref.tokenFits_iff s

/-- The terminator of one word as long as the buffer is stored behind it. -/
theorem Reference.not_tokenFits_of_class {ref : Reference} {s : Nat × UInt8} {k : Nat}
    (hlen : ref.refAreaEnd - s.1 = SINGLEWORDLEN)
    (h : ∀ j, j < SINGLEWORDLEN →
      isSeparator (ref.textFrom s.1 j) = false ∧ checkCharType (ref.textFrom s.1 j) = k) :
    ¬ ref.TokenFits s := by
  rintro ⟨hwrites, -⟩
  rw [hlen] at hwrites
  have hopens : isDelimiter (ref.textFrom s.1 0) = false :=
    (Bool.or_eq_false_iff.mp (h 0 (by decide)).1).1
  have hstart : TokenStart (ref.textFrom s.1) SINGLEWORDLEN 0 :=
    ⟨by decide, fun m hm => absurd hm (Nat.not_lt_zero m), hopens, fun hnum => hnum.2.1.false⟩
  obtain ⟨w, hw, htext⟩ := tokenText_of_class (fun j _ hj => h j hj) false (.inl rfl)
  exact (TokenOf.writes ⟨0, hstart, htext⟩).mp hwrites hw

/-- A hyphen before a blank is queued as a token without a character, and the terminator of a
word as long as the buffer is stored behind it. -/
theorem not_tokensFit_hyphen :
    (¬ ∀ s ∈ (plainReference (bytes "- ")).snapshots.path (0, 32),
      (plainReference (bytes "- ")).TokenFits s) ∧
    ¬ ∀ s ∈ (plainReference (List.replicate 256 'a'.toUInt8)).snapshots.path (0, 32),
      (plainReference (List.replicate 256 'a'.toUInt8)).TokenFits s := by
  constructor
  · intro hall
    have hqueued := Reference.queued_pos.mp (hall _ (Source.start_mem_path _ _)).2
    exact absurd (hqueued (by decide +kernel)) (by decide +kernel)
  · intro hall
    have hend : (plainReference (List.replicate 256 'a'.toUInt8)).refAreaEnd = SINGLEWORDLEN :=
      List.length_replicate
    refine absurd (hall _ (Source.start_mem_path _ _))
      (Reference.not_tokenFits_of_class (k := 2) (by rw [hend]; rfl) fun j hj => ?_)
    have hletter : (plainReference (List.replicate 256 'a'.toUInt8)).textFrom 0 j =
        'a'.toUInt8 := by
      rw [Reference.textFrom, Nat.zero_add]
      exact List.getD_replicate _ hj
    rw [hletter]
    decide

end CiteParser
