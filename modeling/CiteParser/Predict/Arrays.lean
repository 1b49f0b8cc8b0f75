import CiteParser.Features.Digits
import CiteParser.Features.TokenRoom
import CiteParser.Predict.Loop
import CiteParser.Predict.Scratch

/-!
# The arrays of a prediction

`CitationInfoPredict` works in arrays of fixed size, and nothing but the tokens of the range decides
how far they are filled. Here is what has to hold of the tokens for all that is done before the
tagger is asked to be defined.
-/

namespace CiteParser

/-- The length of `partStr`. -/
def partStrSize : Nat := 1024

/-- The length of `combinedStr`. -/
def combinedStrSize : Nat := 1024

/-- The length of `strpart`. -/
def strpartSize : Nat := 1024

/-- The length of `samplestr`. -/
def samplestrSize : Nat := 2048

/-- For each token of a range `str`, `partStr`, `spstr`, `data` and `combinedStr` are large enough,
and an `int` for the sums of its digits; `strpart` and `samplestr` are for its columns, with the
zero byte behind them. -/
structure ArraysFit (ref : Reference) (refAreaStart : Nat) : Prop where
  token : ∀ s ∈ ref.snapshots.path (refAreaStart, ' '.toUInt8), ref.TokenFits s
  scratch : ∀ s ∈ ref.snapshots.path (refAreaStart, ' '.toUInt8), ∀ p ∈ ref.next s,
    ref.ScratchFits s p.2 p.1
  digits : ∀ s ∈ ref.snapshots.path (refAreaStart, ' '.toUInt8), ∀ p ∈ ref.next s,
    (scanText ref.dict ref.content ref.refAreaEnd s.1 p.1.offset).partStr.length < partStrSize
  combined : ∀ s ∈ ref.snapshots.path (refAreaStart, ' '.toUInt8), ∀ p ∈ ref.next s,
    (combinedStr p.1 ((ref.next p.2).map (·.1))).length < combinedStrSize
  sums : ∀ t ∈ tokens ref refAreaStart, Accumulates (tokenSums t.str)
  column : ∀ c ∈ contextsOf ref.dict [] (tokens ref refAreaStart) 0 0, ∀ cols ∈ columns c,
    ∀ col ∈ cols, (col ++ [tab]).length < strpartSize
  line : ∀ c ∈ contextsOf ref.dict [] (tokens ref refAreaStart) 0 0, ∀ cols ∈ columns c,
    (samplestr cols).length < samplestrSize

instance (ref : Reference) (refAreaStart : Nat) : Decidable (ArraysFit ref refAreaStart) :=
  decidable_of_iff
    ((∀ s ∈ ref.snapshots.path (refAreaStart, ' '.toUInt8),
        ref.TokenFits s ∧ ∀ p ∈ ref.next s, ref.ScratchFits s p.2 p.1 ∧
          (scanText ref.dict ref.content ref.refAreaEnd s.1 p.1.offset).partStr.length <
            partStrSize ∧
          (combinedStr p.1 ((ref.next p.2).map (·.1))).length < combinedStrSize) ∧
      (∀ t ∈ tokens ref refAreaStart, Accumulates (tokenSums t.str)) ∧
      ∀ c ∈ contextsOf ref.dict [] (tokens ref refAreaStart) 0 0, ∀ cols ∈ columns c,
        (∀ col ∈ cols, (col ++ [tab]).length < strpartSize) ∧
          (samplestr cols).length < samplestrSize)
    ⟨fun h => ⟨fun s hs => (h.1 s hs).1, fun s hs p hp => ((h.1 s hs).2 p hp).1,
        fun s hs p hp => ((h.1 s hs).2 p hp).2.1, fun s hs p hp => ((h.1 s hs).2 p hp).2.2, h.2.1,
        fun c hc cols hcols => (h.2.2 c hc cols hcols).1,
        fun c hc cols hcols => (h.2.2 c hc cols hcols).2⟩,
      fun h => ⟨fun s hs => ⟨h.token s hs, fun p hp =>
          ⟨h.scratch s hs p hp, h.digits s hs p hp, h.combined s hs p hp⟩⟩, h.sums,
        fun c hc cols hcols => ⟨h.column c hc cols hcols, h.line c hc cols hcols⟩⟩⟩

/-- If `str` is large enough for each token, no token is empty. -/
theorem Reference.str_ne_nil {ref : Reference} {s : Nat × UInt8}
    (h : ∀ v ∈ ref.snapshots.path s, ref.TokenFits v) :
    ∀ t ∈ ref.snapshots.items s, t.str ≠ [] := by
  induction s using ref.snapshots.induct with
  | hnone s hnext =>
      rw [Source.items_none _ hnext]
      exact fun t ht => absurd ht List.not_mem_nil
  | hsome s t s' hnext ih =>
      rw [Source.path_some _ hnext, List.forall_mem_cons] at h
      rw [Source.items_some _ hnext]
      refine List.forall_mem_cons.mpr ⟨fun hnil => ?_, ih h.2⟩
      have hslen := h.1.2 t s' hnext
      rw [(Reference.next_some hnext).2.2.2.2, hnil] at hslen
      exact Nat.not_succ_le_zero 0 hslen

end CiteParser
