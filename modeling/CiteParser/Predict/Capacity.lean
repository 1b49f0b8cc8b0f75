import CiteParser.Citation.Info
import CiteParser.Predict.Decode
import CiteParser.Predict.Streaming

/-!
# The segment buffer

How far `strelem` fills when the labels of a reference range are decoded: the tokens
between two changes of the label are copied one behind the other, and nothing but the
next change of the label ends the copying.
-/

namespace CiteParser

/-- `char strelem[1024]`. -/
def strelemSize : Nat := 1024

/-- Decoding the labels `y2` of the tokens of `e` keeps to its two buffers. -/
def DecodeFits (repo : TokenRepo) (content : Nat → UInt8) (y2 : Nat → List UInt8)
    (e : PredictState) : Prop :=
  (∀ p ∈ partlens (decode repo content y2 e.offsetCpQueue e.rows.length), p < strelemSize) ∧
    ∀ call ∈ addedInfo (decode repo content y2 e.offsetCpQueue e.rows.length),
      call.2.length < srcSize

/-- Wherever consecutive tokens have labels of one id, their text is shorter than `bound`. -/
def BlocksShort (repo : TokenRepo) (y2 : Nat → List UInt8) (bound : Nat)
    (ts : List CrfNodeSnapshot) : Prop :=
  ∀ i n, i + n ≤ ts.length →
    (∀ m, m < n → token2Id repo (y2 (i + m)) = token2Id repo (y2 i)) →
    (((ts.drop i).take n).map (·.offset)).sum < bound

section Labelled

variable (repo : TokenRepo) (content : Nat → UInt8) (y2 : Nat → List UInt8)

/-- The ids of consecutive tokens. -/
theorem map_fst_labelled (i : Nat) (cps : List (Nat × Nat)) :
    (labelled repo content y2 i cps).map (·.1) =
      (List.range' i cps.length).map fun m => token2Id repo (y2 m) := by
  induction cps generalizing i with
  | nil => rfl
  | cons cp rest ih =>
      rw [labelled, List.map_cons, ih, List.length_cons, List.range'_succ, List.map_cons]

/-- There are as many labelled spans as spans. -/
@[simp] theorem length_labelled (i : Nat) (cps : List (Nat × Nat)) :
    (labelled repo content y2 i cps).length = cps.length := by
  rw [← List.length_map (·.1), map_fst_labelled, List.length_map, List.length_range']

/-- The text of consecutive tokens is as long as the tokens together. -/
theorem length_flatMap_labelled (i start : Nat) (ts : List CrfNodeSnapshot) :
    ((labelled repo content y2 i (spans start ts)).flatMap (·.2)).length =
      (ts.map (·.offset)).sum := by
  induction ts generalizing i start with
  | nil => rfl
  | cons t ts ih =>
      rw [spans, labelled, List.flatMap_cons, List.length_append, ih, length_segment,
        Nat.add_sub_cancel_left, List.map_cons, List.sum_cons]

/-- A block of labelled tokens is the block of the tokens, labelled from its place on. -/
theorem drop_take_labelled (i start a n : Nat) (ts : List CrfNodeSnapshot) :
    ∃ start', ((labelled repo content y2 i (spans start ts)).drop a).take n =
      labelled repo content y2 (i + a) (spans start' ((ts.drop a).take n)) := by
  induction a generalizing i start ts with
  | zero =>
      refine ⟨start, ?_⟩
      rw [List.drop_zero, List.drop_zero, Nat.add_zero]
      induction n generalizing i start ts with
      | zero => rfl
      | succ n ih =>
          cases ts with
          | nil => rfl
          | cons t ts =>
              rw [spans, labelled, List.take_succ_cons, List.take_succ_cons, spans, labelled, ih]
  | succ a ih =>
      cases ts with
      | nil => exact ⟨start, by rw [spans, labelled, List.drop_nil, List.drop_nil, List.take_nil,
          List.take_nil, spans, labelled]⟩
      | cons t ts =>
          obtain ⟨start', h⟩ := ih (i + 1) (start + t.offset) ts
          refine ⟨start', ?_⟩
          rw [spans, labelled, List.drop_succ_cons, List.drop_succ_cons, h,
            show i + 1 + a = i + (a + 1) by omega]

/-- Labelled tokens have the one id `k` when all their labels have it. -/
theorem forall_mem_labelled (i start : Nat) (ts : List CrfNodeSnapshot) (k : Nat) :
    (∀ a ∈ labelled repo content y2 i (spans start ts), a.1 = k) ↔
      ∀ m, m < ts.length → token2Id repo (y2 (i + m)) = k := by
  have hids : (∀ a ∈ labelled repo content y2 i (spans start ts), a.1 = k) ↔
      ∀ id ∈ (labelled repo content y2 i (spans start ts)).map (·.1), id = k := by
    rw [List.forall_mem_map]
  rw [hids, map_fst_labelled, length_spans, List.forall_mem_map]
  constructor
  · intro h m hm
    exact h (i + m) (List.mem_range'_1.mpr ⟨Nat.le_add_right i m, by omega⟩)
  · intro h j hj
    obtain ⟨hle, hlt⟩ := List.mem_range'_1.mp hj
    have hj' := h (j - i) (by omega)
    rwa [show i + (j - i) = j by omega] at hj'

/-- The blocks of equal ids among the labelled tokens are those the labels give. -/
theorem blocksShort_iff {bound : Nat} (start : Nat) (ts : List CrfNodeSnapshot) :
    BlocksShort repo y2 bound ts ↔
      ∀ m, m <:+: labelled repo content y2 0 (spans start ts) → ∀ k, (∀ a ∈ m, a.1 = k) →
        (m.flatMap (·.2)).length < bound := by
  constructor
  · rintro h m ⟨before, behind, hm⟩ k hk
    have hlen := congrArg List.length hm
    rw [length_labelled, length_spans, List.length_append, List.length_append] at hlen
    obtain ⟨start', hblock⟩ := drop_take_labelled repo content y2
      0 start before.length m.length ts
    rw [← hm, List.append_assoc, List.drop_left, List.take_left, Nat.zero_add] at hblock
    have hcount : ((ts.drop before.length).take m.length).length = m.length := by
      rw [List.length_take, List.length_drop]
      omega
    rw [hblock, forall_mem_labelled, hcount] at hk
    rw [hblock, length_flatMap_labelled]
    apply h before.length m.length (by omega)
    intro j hj
    rw [hk j hj, ← hk 0 (by omega), Nat.add_zero]
  · intro h i n hle hids
    obtain ⟨start', hblock⟩ := drop_take_labelled repo content y2
      0 start i n ts
    rw [Nat.zero_add] at hblock
    have hcount : ((ts.drop i).take n).length = n := by
      rw [List.length_take, List.length_drop]
      omega
    rw [← length_flatMap_labelled repo content y2 i start',
      ← hblock]
    apply h _ ((List.take_prefix _ _).isInfix.trans (List.drop_suffix _ _).isInfix)
      (token2Id repo (y2 i))
    rw [hblock, forall_mem_labelled, hcount]
    exact hids

end Labelled

/-- The buffers are kept to exactly when the text of any consecutive tokens whose labels have
one id is shorter than `strelem`. -/
theorem decodeFits_iff {ref : Reference} {junk : Nat → CrfNodeSnapshot} {refAreaStart : Nat}
    {e : PredictState} (h : predictLoop ref junk refAreaStart = some e) (repo : TokenRepo)
    (y2 : Nat → List UInt8) :
    DecodeFits repo ref.content y2 e ↔
      BlocksShort repo y2 strelemSize (tokens ref refAreaStart) := by
  obtain ⟨e', he', hrows, hspans⟩ := predictLoop_eq ref junk refAreaStart
  obtain rfl := Option.some.inj (h.symm.trans he')
  have hsize : e.rows.length = e.offsetCpQueue.length := by
    rw [hrows, hspans, length_spans, rowsOf, List.length_map, length_contextsOf]
  rw [DecodeFits, hsize, decode_fits_runs repo ref.content y2 (by decide) (by decide),
    forall_maximalRuns_iff (by decide), hspans, ← blocksShort_iff]

/-- Every reference is decoded within the two buffers exactly when the text of any consecutive
tokens whose labels have one id is shorter than `strelem`. -/
theorem predict_segments_fit_iff (ref : Reference) (junk : Nat → CrfNodeSnapshot)
    (refAreaStart : Nat) (repo : TokenRepo) (y2 : Nat → List UInt8) :
    (∃ e, predictLoop ref junk refAreaStart = some e ∧ DecodeFits repo ref.content y2 e) ↔
      BlocksShort repo y2 strelemSize (tokens ref refAreaStart) := by
  constructor
  · rintro ⟨e, he, hfits⟩
    exact (decodeFits_iff he repo y2).mp hfits
  · intro hshort
    obtain ⟨e, he, -⟩ := predictLoop_eq ref junk refAreaStart
    exact ⟨e, he, (decodeFits_iff he repo y2).mpr hshort⟩

/-- A letter and 1023 blanks: one token, and its text fills `strelem` to the last byte. -/
theorem predict_overfills_blanks :
    let ref := plainReference ('a'.toUInt8 :: List.replicate 1023 ' '.toUInt8)
    ¬ ∃ e, predictLoop ref (fun _ => default) 0 = some e ∧
      DecodeFits (tokenInit tokenIni) ref.content (fun _ => bytes "title") e := by
  rintro ref ⟨e, he, hfits⟩
  have hmemory : memory ('a'.toUInt8 :: List.replicate 1023 ' '.toUInt8) = fun i =>
      if i = 0 then 'a'.toUInt8 else if i < 1024 then ' '.toUInt8 else 0 := by
    funext i
    cases i with
    | zero => rfl
    | succ i =>
        rw [memory, List.getD_cons_succ, List.getD_eq_getElem?_getD, List.getElem?_replicate,
          if_neg (Nat.succ_ne_zero i)]
        by_cases h : i < 1023
        · rw [if_pos h, if_pos (by omega), Option.getD_some]
        · rw [if_neg h, if_neg (by omega), Option.getD_none]
  have hoffsets : (tokens ref 0).map (·.offset) = [1024] := by
    simp only [ref, plainReference, hmemory, List.length_cons, List.length_replicate]
    decide +kernel
  have hshort := (decodeFits_iff he _ _).mp hfits 0 1
    (by rw [← List.length_map (·.offset), hoffsets]; exact Nat.le_refl 1) fun _ _ => rfl
  rw [List.drop_zero, List.map_take, hoffsets] at hshort
  exact Nat.lt_irrefl 1024 hshort

end CiteParser
