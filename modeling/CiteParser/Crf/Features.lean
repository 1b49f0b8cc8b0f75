import CiteParser.Crf.Template

/-!
# The features of a text

`buildFeatures` of `feature.cpp`: the templates are applied to the tokens one by one, and the
features that the model knows are put into the cache as lists of their numbers, first those of the
tokens and then those of the pairs of neighbours. Whether that succeeds is up to the templates.
-/

namespace CiteParser.Crf

/-- A model: its templates and labels, the numbers of its features, and the weights, which are
`float`s, while costs are `double`s. `getID` is the lookup in the double array. -/
structure FeatureIndex (W D : Type*) where
  unigramTempls : List (List UInt8)
  bigramTempls : List (List UInt8)
  y : List (List UInt8)
  xsize : Nat
  getID : List UInt8 → Option Nat
  alphaFloat : Nat → W
  costFactor : D

/-- The lists of feature numbers in the order in which they have been added. -/
abbrev FeatureCache := List (List Nat)

namespace FeatureIndex

variable {W D : Type*} (fi : FeatureIndex W D)

/-- A loop over templates: the features of the token at `cur` that the model knows. -/
def addFeatures (rows : Rows) (templs : List (List UInt8)) (cur : Nat) :
    Except Failure (List Nat) :=
  templs.foldlM
    (fun feature it => do
      let os ← applyRule rows cur (cstr it)
      return feature ++ (fi.getID (cstr os)).toList)
    []

/-- A pass over a token: its features are put into the cache. -/
def addToken (rows : Rows) (templs : List (List UInt8)) (featureCache : FeatureCache) (cur : Nat) :
    Except Failure FeatureCache := do
  let feature ← fi.addFeatures rows templs cur
  return featureCache ++ [feature]

/-- `buildFeatures`: the cache after it. -/
def buildFeatures (rows : Rows) (featureCache : FeatureCache) : Except Failure FeatureCache := do
  let featureCache ←
    (List.range rows.x.length).foldlM (fi.addToken rows fi.unigramTempls) featureCache
  (List.range' 1 (rows.x.length - 1)).foldlM (fi.addToken rows fi.bigramTempls) featureCache

/-! ## Known features -/

/-- A template that is applied to the tokens of any text: it is made of references within reach. -/
def Reaches (xsize : Nat) (templ : List UInt8) : Prop :=
  ∃ pieces : List Piece, cstr templ = pieces.flatMap Piece.print ∧ ∀ q ∈ pieces, q.Fits xsize

/-- The feature that a template is for a token, if it is applied. -/
def featureOf (rows : Rows) (cur : Nat) (templ : List UInt8) : List UInt8 :=
  match applyRule rows cur (cstr templ) with
  | .ok s => s
  | .error _ => []

/-- The numbers of the features of a token. -/
def features (rows : Rows) (templs : List (List UInt8)) (cur : Nat) : List Nat :=
  templs.filterMap fun t => fi.getID (cstr (featureOf rows cur t))

/-- The templates that a text needs are made of references within reach: those of the tokens if it
has one, and those of the pairs of neighbours if it has two. -/
def Applies (rows : Rows) : Prop :=
  (rows.x ≠ [] → ∀ t ∈ fi.unigramTempls, Reaches rows.xsize t) ∧
    (1 < rows.x.length → ∀ t ∈ fi.bigramTempls, Reaches rows.xsize t)

variable {fi} {rows : Rows} {cur : Nat} {templs : List (List UInt8)}

/-- Whether a template is applied is the same for all tokens of all texts. -/
theorem applyRule_featureOf (hwide : rows.Wide) (hcur : cur < rows.x.length) {templ : List UInt8}
    (h : Reaches rows.xsize templ) :
    applyRule rows cur (cstr templ) = .ok (featureOf rows cur templ) := by
  obtain ⟨pieces, hprint, hfits⟩ := h
  rw [featureOf, hprint, applyRule_print hwide hcur hfits]

/-- A loop whose passes succeed is a fold. -/
theorem foldlM_eq_ok {σ α : Type} {f : σ → α → Except Failure σ} {g : σ → α → σ} {l : List α}
    (h : ∀ a ∈ l, ∀ s, f s a = .ok (g s a)) (s : σ) : l.foldlM f s = .ok (l.foldl g s) := by
  induction l generalizing s with
  | nil => rfl
  | cons a l ih =>
      rw [List.forall_mem_cons] at h
      rw [List.foldlM_cons, h.1 s, List.foldl_cons]
      exact ih h.2 (g s a)

/-- A loop that succeeds has got through each of its passes. -/
theorem exists_of_foldlM_eq_ok {σ α : Type} {f : σ → α → Except Failure σ} {l : List α} {s s' : σ}
    (h : l.foldlM f s = .ok s') : ∀ a ∈ l, ∃ t t', f t a = .ok t' := by
  induction l generalizing s with
  | nil => exact fun a ha => absurd ha List.not_mem_nil
  | cons b l ih =>
      rw [List.foldlM_cons] at h
      obtain ⟨t, ht, hrest⟩ := bind_eq_ok.mp h
      exact List.forall_mem_cons.mpr ⟨⟨s, t, ht⟩, ih hrest⟩

/-- The features of a token, if all templates are applied. -/
theorem addFeatures_eq (hwide : rows.Wide) (hcur : cur < rows.x.length)
    (h : ∀ t ∈ templs, Reaches rows.xsize t) :
    fi.addFeatures rows templs cur = .ok (fi.features rows templs cur) := by
  have hpass : ∀ t ∈ templs, ∀ feature : List Nat,
      (do
        let os ← applyRule rows cur (cstr t)
        return feature ++ (fi.getID (cstr os)).toList : Except Failure (List Nat)) =
      .ok (feature ++ (fi.getID (cstr (featureOf rows cur t))).toList) := by
    intro t ht feature
    rw [applyRule_featureOf hwide hcur (h t ht)]
    rfl
  rw [addFeatures, foldlM_eq_ok hpass, features, List.filterMap_eq_flatMap_toList,
    List.flatMap_eq_foldl]

/-- Templates that have been applied to one token are applied to the tokens of any text. -/
theorem reaches_of_addFeatures {feature : List Nat}
    (h : fi.addFeatures rows templs cur = .ok feature) :
    ∀ t ∈ templs, Reaches rows.xsize t := by
  intro t ht
  obtain ⟨before, after, hpass⟩ := exists_of_foldlM_eq_ok h t ht
  obtain ⟨os, happly, -⟩ := bind_eq_ok.mp hpass
  exact exists_pieces_of_applyRule happly

section Loops

variable {l : List Nat} {cache : FeatureCache}

/-- A loop over tokens puts the features of each into the cache, if all templates are applied. -/
theorem foldlM_addToken (hwide : rows.Wide) (hl : ∀ cur ∈ l, cur < rows.x.length)
    (h : l ≠ [] → ∀ t ∈ templs, Reaches rows.xsize t) (cache : FeatureCache) :
    l.foldlM (fi.addToken rows templs) cache = .ok (cache ++ l.map (fi.features rows templs)) := by
  have hpass : ∀ cur ∈ l, ∀ cache : FeatureCache,
      fi.addToken rows templs cache cur = .ok (cache ++ [fi.features rows templs cur]) := by
    intro cur hcur cache
    rw [addToken, addFeatures_eq hwide (hl cur hcur) (h (List.ne_nil_of_mem hcur))]
    rfl
  rw [foldlM_eq_ok hpass, List.foldl_append_eq_append, ← List.flatMap_def,
    ← List.map_eq_flatMap]

/-- A loop over tokens, if there is any, gets through only if all templates are applied. -/
theorem reaches_of_foldlM_addToken {cache' : FeatureCache} (hl : l ≠ [])
    (h : l.foldlM (fi.addToken rows templs) cache = .ok cache') :
    ∀ t ∈ templs, Reaches rows.xsize t := by
  obtain ⟨cur, hcur⟩ := List.exists_mem_of_ne_nil l hl
  obtain ⟨before, after, hpass⟩ := exists_of_foldlM_eq_ok h cur hcur
  obtain ⟨feature, hfeature, -⟩ := bind_eq_ok.mp hpass
  exact reaches_of_addFeatures hfeature

end Loops

theorem range_length_ne_nil : List.range rows.x.length ≠ [] ↔ rows.x ≠ [] := by
  rw [ne_eq, List.range_eq_nil, List.length_eq_zero_iff]

theorem range'_length_ne_nil : List.range' 1 (rows.x.length - 1) ≠ [] ↔ 1 < rows.x.length := by
  rw [ne_eq, List.range'_eq_nil_iff]
  omega

/-- The cache after `buildFeatures`, if the templates are applied. -/
theorem buildFeatures_eq (hwide : rows.Wide) (h : fi.Applies rows) (cache : FeatureCache) :
    fi.buildFeatures rows cache = .ok (cache ++
      (List.range rows.x.length).map (fi.features rows fi.unigramTempls) ++
      (List.range' 1 (rows.x.length - 1)).map (fi.features rows fi.bigramTempls)) := by
  have hfirst : ∀ cur ∈ List.range rows.x.length, cur < rows.x.length := fun _ =>
    List.mem_range.mp
  have hsecond : ∀ cur ∈ List.range' 1 (rows.x.length - 1), cur < rows.x.length := by
    intro cur hcur
    rw [List.mem_range'_1] at hcur
    omega
  rw [buildFeatures, foldlM_addToken hwide hfirst fun hl => h.1 (range_length_ne_nil.mp hl)]
  exact foldlM_addToken hwide hsecond (fun hl => h.2 (range'_length_ne_nil.mp hl)) _

/-- `buildFeatures` gets through only if the templates that the text needs are made of references
within reach. -/
theorem applies_of_buildFeatures {cache cache' : FeatureCache}
    (h : fi.buildFeatures rows cache = .ok cache') : fi.Applies rows := by
  rw [buildFeatures] at h
  obtain ⟨middle, hfirst, hsecond⟩ := bind_eq_ok.mp h
  exact ⟨fun hx => reaches_of_foldlM_addToken (range_length_ne_nil.mpr hx) hfirst,
    fun hx => reaches_of_foldlM_addToken (range'_length_ne_nil.mpr hx) hsecond⟩

/-- A text of two tokens needs all templates. -/
theorem applies_iff (hsize : 1 < rows.x.length) :
    fi.Applies rows ↔ ∀ t ∈ fi.unigramTempls ++ fi.bigramTempls, Reaches rows.xsize t := by
  have hx : rows.x ≠ [] := List.ne_nil_of_length_pos (Nat.zero_lt_of_lt hsize)
  rw [List.forall_mem_append, Applies, imp_iff_right hx, imp_iff_right hsize]

/-- If all templates are used, `buildFeatures` succeeds exactly if all of them are made of
references within reach. -/
theorem buildFeatures_ok_iff (hwide : rows.Wide) (hsize : 1 < rows.x.length)
    (cache : FeatureCache) :
    (∃ cache', fi.buildFeatures rows cache = .ok cache') ↔
      ∀ t ∈ fi.unigramTempls ++ fi.bigramTempls, Reaches rows.xsize t := by
  rw [← applies_iff hsize]
  constructor
  · rintro ⟨cache', h⟩
    exact applies_of_buildFeatures h
  · exact fun h => ⟨_, buildFeatures_eq hwide h cache⟩

/-- A template that refers to the ninth token before reaches no text. -/
theorem not_reaches_far : ¬ Reaches 1 (bytes "U01:%x[-9,0]") := by
  let fi : FeatureIndex ℕ ℤ :=
    ⟨[bytes "U01:%x[-9,0]"], [], [bytes "author"], 1, fun _ => none, id, 1⟩
  let rows : Rows := ⟨1, [[bytes "A."], [bytes "Bagga"]]⟩
  have hwide : rows.Wide :=
    List.forall_mem_cons.mpr ⟨le_rfl, List.forall_mem_singleton.mpr le_rfl⟩
  have hfails : fi.buildFeatures rows [] = .error .refused := by decide +kernel
  intro h
  have hall : ∀ t ∈ fi.unigramTempls ++ fi.bigramTempls, Reaches rows.xsize t :=
    List.forall_mem_singleton.mpr h
  obtain ⟨cache, hcache⟩ := (buildFeatures_ok_iff hwide (by decide) []).mpr hall
  rw [hfails] at hcache
  contradiction

end FeatureIndex

end CiteParser.Crf
