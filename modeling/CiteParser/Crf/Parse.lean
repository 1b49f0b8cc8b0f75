import CiteParser.Crf.Viterbi

/-!
# Parsing

`parse` of `tagger.cpp`, which ties the parts together: the features of the lines that have been
added are looked up, the lattice is built from them and searched, and the labels found are worth no
less than any others.
-/

namespace CiteParser.Crf

open Trellis

namespace Rows

/-- The rows after some lines have been added; whether a line is taken is not looked at. -/
def addLines (rows : Rows) (lines : List (List UInt8)) : Rows :=
  lines.foldl (fun rows line => (rows.add line).1) rows

/-- The tagger never holds a row that is shorter than the model asks for. -/
theorem Wide.addLines {rows : Rows} (h : rows.Wide) (lines : List (List UInt8)) :
    (rows.addLines lines).Wide := by
  induction lines generalizing rows with
  | nil => exact h
  | cons line lines ih => exact ih (h.add2 _)

theorem xsize_addLines (rows : Rows) (lines : List (List UInt8)) :
    (rows.addLines lines).xsize = rows.xsize := by
  induction lines generalizing rows with
  | nil => rfl
  | cons line lines ih =>
      rw [addLines, List.foldl_cons, ← addLines, ih, add, add2]
      split <;> rfl

end Rows

variable {W D : Type*}

namespace FeatureIndex

section Parse

variable [Zero W] [Add W] [Mul D] [Add D] [Zero D] [LinearOrder D] (fl : Floats W D)
  (fi : FeatureIndex W D)

/-- `parse`: what it makes of `result_`. The features go behind those in the cache, and the nodes
are taken from the free list. The forward-backward pass and the queue of the n best labellings leave
`result_` as it is. -/
def parse (rows : Rows) (featureCache : FeatureCache) (free : Lattice D) (result : Nat → Nat) :
    Except Failure (Nat → Nat) := do
  let size := rows.x.length
  let cache ← fi.buildFeatures rows featureCache
  if rows.x = [] then return result
  else
    match viterbi fl size fi.y.length (fi.buildLattice fl cache featureCache.length size free)
        result with
    | some labels => return labels
    | none => .error .undefined

end Parse

/-! ## The labels found -/

section Cache

variable {fi : FeatureIndex W D} {rows : Rows} {featureCache : FeatureCache}

/-- The cache as `buildFeatures` leaves it. -/
def filledCache (fi : FeatureIndex W D) (rows : Rows) (featureCache : FeatureCache) :
    FeatureCache :=
  featureCache ++ (List.range rows.x.length).map (fi.features rows fi.unigramTempls) ++
    (List.range' 1 (rows.x.length - 1)).map (fi.features rows fi.bigramTempls)

/-- The features of the tokens are where the lattice looks for them. -/
theorem unigramsAt_filledCache {i : Nat} (hi : i < rows.x.length) :
    unigramsAt (fi.filledCache rows featureCache) featureCache.length i =
      fi.features rows fi.unigramTempls i := by
  rw [unigramsAt, filledCache, List.append_assoc, List.getD_append_right _ _ _ _ (by omega),
    List.getD_append _ _ _ _ (by simp; omega), List.getD_eq_getElem _ _ (by simp; omega)]
  simp

/-- So are those of the pairs of neighbours. -/
theorem bigramsAt_filledCache {i : Nat} (hpos : 0 < i) (hi : i < rows.x.length) :
    bigramsAt (fi.filledCache rows featureCache) featureCache.length rows.x.length i =
      fi.features rows fi.bigramTempls i := by
  have hlength : (featureCache ++
      (List.range rows.x.length).map (fi.features rows fi.unigramTempls)).length =
      featureCache.length + rows.x.length := by
    rw [List.length_append, List.length_map, List.length_range]
  rw [bigramsAt, filledCache, List.getD_append_right _ _ _ _ (by omega), hlength,
    Nat.add_sub_cancel_left, List.getD_eq_getElem _ _ (by simp; omega), List.getElem_map,
    List.getElem_range'_1, Nat.add_sub_cancel' hpos]

end Cache

section Labels

variable [Zero W] [Add W] [Mul D] [Add D] (fl : Floats W D) (fi : FeatureIndex W D) (rows : Rows)

/-- The score of labels, from the features of the text. -/
def textLayers : Layers D :=
  fi.layers fl (fi.features rows fi.unigramTempls) (fi.features rows fi.bigramTempls)

variable {fl fi rows} {featureCache : FeatureCache}

/-- The score from the cache is the score from the text. -/
theorem score_cachedLayers (featureCache : FeatureCache) (y : Nat → Nat) {i : Nat}
    (hi : i < rows.x.length) :
    (cachedLayers fl fi (fi.filledCache rows featureCache) featureCache.length
      rows.x.length).score y i = (fi.textLayers fl rows).score y i := by
  induction i with
  | zero => simp only [Layers.score, cachedLayers, textLayers, layers, unigramsAt_filledCache hi]
  | succ i ih =>
      have hbefore := ih (Nat.lt_of_succ_lt hi)
      rw [Layers.score, Layers.score, hbefore]
      simp only [cachedLayers, textLayers, layers, unigramsAt_filledCache hi,
        bigramsAt_filledCache (Nat.succ_pos i) hi]

variable [Zero D] [LinearOrder D] {free : Lattice D}

/-- If the templates that the text needs are applied, parsing ends with labels that are worth no
less than any others. -/
theorem parse_greatest [AddRightMono D] (hy : fi.y.length ≤ 2 ^ 16) (hlabels : 0 < fi.y.length)
    (hwide : rows.Wide) (happlies : fi.Applies rows) (hsize : rows.x ≠ [])
    (hfloor : ∀ y : Nat → Nat, (∀ l, y l < fi.y.length) → ∀ i < rows.x.length,
      fl.lowest < (fi.textLayers fl rows).score y i)
    (result : Nat → Nat) :
    ∃ labels, fi.parse fl rows featureCache free result = .ok labels ∧
      (∀ i < rows.x.length, labels i < fi.y.length) ∧
      (∀ i, rows.x.length ≤ i → labels i = result i) ∧
      ∀ y : Nat → Nat, (∀ i < rows.x.length, y i < fi.y.length) →
        (fi.textLayers fl rows).score y (rows.x.length - 1) ≤
          (fi.textLayers fl rows).score labels (rows.x.length - 1) := by
  have hpos : 0 < rows.x.length := List.length_pos_of_ne_nil hsize
  have hbuild : fi.buildFeatures rows featureCache = .ok (fi.filledCache rows featureCache) :=
    buildFeatures_eq hwide happlies featureCache
  have habove : ∀ y : Nat → Nat, (∀ l, y l < fi.y.length) → ∀ i < rows.x.length,
      fl.lowest < (cachedLayers fl fi (fi.filledCache rows featureCache) featureCache.length
        rows.x.length).score y i := by
    intro y hylt i hi
    rw [score_cachedLayers featureCache y hi]
    exact hfloor y hylt i hi
  obtain ⟨labels, hrun, hlt, hrest, hgreatest⟩ := @viterbi_greatest W D _ _ _ _ _ _ fl fi
    (fi.filledCache rows featureCache) featureCache.length rows.x.length free _ hy hlabels hpos
    habove result
  refine ⟨labels, ?_, hlt, hrest, fun y hylt => ?_⟩
  · simp only [parse, hbuild, bind, Except.bind, hsize, if_false, hrun]
    rfl
  · have hlast := Nat.sub_one_lt_of_lt hpos
    rw [← score_cachedLayers featureCache y hlast, ← score_cachedLayers featureCache labels hlast]
    exact hgreatest y hylt

/-- `parse` succeeds exactly if the templates that the text needs are made of references within
reach. -/
theorem parse_ok_iff [AddRightMono D] (hy : fi.y.length ≤ 2 ^ 16) (hlabels : 0 < fi.y.length)
    (hwide : rows.Wide)
    (hfloor : ∀ y : Nat → Nat, (∀ l, y l < fi.y.length) → ∀ i < rows.x.length,
      fl.lowest < (fi.textLayers fl rows).score y i)
    (featureCache : FeatureCache) (free : Lattice D) (result : Nat → Nat) :
    (∃ labels, fi.parse fl rows featureCache free result = .ok labels) ↔
      (rows.x ≠ [] → ∀ t ∈ fi.unigramTempls, Reaches rows.xsize t) ∧
        (1 < rows.x.length → ∀ t ∈ fi.bigramTempls, Reaches rows.xsize t) := by
  constructor
  · rintro ⟨labels, h⟩
    obtain ⟨cache, hbuild, -⟩ := bind_eq_ok.mp h
    exact applies_of_buildFeatures hbuild
  · intro happlies
    by_cases hsize : rows.x = []
    · -- no line has been taken as a row, and nothing is looked for
      have hbuild := buildFeatures_eq hwide happlies featureCache
      refine ⟨result, ?_⟩
      simp only [parse, hbuild, bind, Except.bind, hsize, if_true]
      rfl
    · obtain ⟨labels, hparse, -⟩ := @parse_greatest W D _ _ _ _ fl fi rows featureCache _ _ free
        _ hy hlabels hwide happlies hsize hfloor result
      exact ⟨labels, hparse⟩

end Labels

/-! ## A model of whole numbers -/

/-- Two labels, and the token itself as the only feature. -/
def wholeModel : FeatureIndex ℕ ℤ where
  unigramTempls := [bytes "U00:%x[0,0]"]
  bigramTempls := []
  y := [bytes "author", bytes "title"]
  xsize := 1
  getID := fun key => if key = bytes "U00:Bagga" then some 1 else some 3
  alphaFloat := id
  costFactor := 1

/-- The template refers to the first column of the token looked at. -/
theorem reaches_wholeModel : ∀ t ∈ wholeModel.unigramTempls ++ wholeModel.bigramTempls,
    Reaches wholeModel.xsize t := by
  rw [wholeModel, List.append_nil, List.forall_mem_singleton]
  refine ⟨[.lit 'U'.toUInt8 (by decide), .lit '0'.toUInt8 (by decide), .lit '0'.toUInt8 (by decide),
    .lit ':'.toUInt8 (by decide), .ref false [0] [0]], by decide +kernel, ?_⟩
  simp only [List.forall_mem_cons, Piece.Fits, true_and]
  exact ⟨by decide +kernel, fun q hq => absurd hq List.not_mem_nil⟩

/-- No score is negative. -/
theorem score_wholeModel (rows : Rows) (y : Nat → Nat) (i : Nat) :
    -1 < (wholeModel.textLayers ⟨Nat.cast, -1⟩ rows).score y i := by
  have hcost : ∀ fvector offset, 0 ≤ wholeModel.costOf ⟨Nat.cast, -1⟩ fvector offset := by
    intro fvector offset
    simp only [FeatureIndex.costOf, wholeModel, one_mul]
    exact Int.natCast_nonneg _
  induction i with
  | zero =>
      have hzero := hcost (wholeModel.features rows wholeModel.unigramTempls 0) (y 0)
      simp only [Layers.score, FeatureIndex.textLayers, FeatureIndex.layers]
      omega
  | succ i ih =>
      have hpath := hcost (wholeModel.features rows wholeModel.bigramTempls (i + 1))
        (y i * wholeModel.y.length + y (i + 1))
      have hnode := hcost (wholeModel.features rows wholeModel.unigramTempls (i + 1)) (y (i + 1))
      simp only [Layers.score, FeatureIndex.textLayers, FeatureIndex.layers] at ih ⊢
      omega

/-- Two tokens are parsed. -/
theorem parse_whole : ∃ labels, wholeModel.parse ⟨Nat.cast, -1⟩
    ⟨1, [[bytes "A."], [bytes "Bagga"]]⟩ [] (fun _ _ => ⟨0, 0, 0, 0, none, [], []⟩) (fun _ => 0) =
      .ok labels := by
  have hwide : (Rows.mk 1 [[bytes "A."], [bytes "Bagga"]]).Wide :=
    List.forall_mem_cons.mpr ⟨le_rfl, List.forall_mem_singleton.mpr le_rfl⟩
  have happlies : wholeModel.Applies ⟨1, [[bytes "A."], [bytes "Bagga"]]⟩ :=
    (applies_iff (by decide)).mpr reaches_wholeModel
  exact (parse_ok_iff (by decide) (by decide) hwide (fun y _ i _ => score_wholeModel _ y i) [] _
    _).mpr happlies

end FeatureIndex

end CiteParser.Crf
