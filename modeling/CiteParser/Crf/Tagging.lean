import CiteParser.Crf.Parse
import CiteParser.Predict.Arrays
import CiteParser.Predict.Capacity
import CiteParser.Predict.Decode
import CiteParser.Predict.Sample
import Mathlib.Algebra.Order.BigOperators.Group.List
import Mathlib.Data.List.ReduceOption

/-!
# From a reference to its labels

The end of `CitationInfoPredict`: the main loop hands the tagger a line for each token, the tagger
parses them, and the tokens are put together by the labels found. If no token is empty the tagger
has a row for each, with all of its columns, so the labels belong to the tokens whose text is taken.
-/

namespace CiteParser

open Crf Crf.FeatureIndex Trellis

/-! ## Lines and rows -/

/-- A column that the tagger reads as one: not empty, and no blank, tab or zero byte in it. -/
def IsWord (col : List UInt8) : Prop :=
  col ≠ [] ∧ ∀ c ∈ col, c ≠ tab ∧ c ≠ ' '.toUInt8 ∧ c ≠ 0

instance (col : List UInt8) : Decidable (IsWord col) := inferInstanceAs (Decidable (_ ∧ _))

theorem isWord_append {a b : List UInt8} (ha : IsWord a) (hb : IsWord b) : IsWord (a ++ b) :=
  ⟨List.append_ne_nil_of_left_ne_nil ha.1 b, List.forall_mem_append.mpr ⟨ha.2, hb.2⟩⟩

/-- A printed number is a word. -/
theorem isWord_dec (n : Int) : IsWord (dec n) := by
  refine ⟨?_, fun c hc => ?_⟩
  · have hdigits : (Nat.toDigits 10 n.natAbs).map Char.toUInt8 ≠ [] := by
      rw [ne_eq, List.map_eq_nil_iff]
      exact Nat.toDigits_ne_nil
    exact List.append_ne_nil_of_right_ne_nil _ hdigits
  · rcases mem_dec hc with rfl | ⟨hlow, -⟩
    · decide
    · refine ⟨?_, ?_, ?_⟩ <;> rintro rfl <;> exact absurd hlow (by decide)

/-- Words with slashes between them are a word. -/
theorem isWord_slashed {parts : List (List UInt8)} (hne : parts ≠ [])
    (h : ∀ p ∈ parts, IsWord p) : IsWord (slashed parts) := by
  have hslash : IsWord (bytes "/") := ⟨by decide +kernel, by decide +kernel⟩
  rw [slashed]
  induction parts with
  | nil => exact absurd rfl hne
  | cons p ps ih =>
      rw [List.forall_mem_cons] at h
      cases ps with
      | nil =>
          rw [List.intercalate_singleton]
          exact h.1
      | cons q qs =>
          rw [List.intercalate_cons_cons]
          exact isWord_append (isWord_append h.1 hslash) (ih (List.cons_ne_nil q qs) h.2)

/-- Lower case makes no delimiter. -/
theorem toLower_word : ∀ c : UInt8, (c ≠ tab ∧ c ≠ ' '.toUInt8 ∧ c ≠ 0) →
    toLower c ≠ tab ∧ toLower c ≠ ' '.toUInt8 ∧ toLower c ≠ 0 := by decide +kernel

/-- What holds of the token, of numbers, of characters of the token and of what is put together
with slashes holds of every column. -/
theorem forall_mem_columns {Q : List UInt8 → Prop} {c : Context} {cols : List (List UInt8)}
    (h : columns c = some cols) (hne : 0 < c.pCNS.slen) (hlen : c.pCNS.slen = c.pCNS.str.length)
    (hstr : Q c.pCNS.str) (hdec : ∀ n, Q (dec n)) (hX : Q ['X'.toUInt8])
    (hchar : ∀ a ∈ c.pCNS.str, Q [toLower a])
    (hslashed : ∀ parts, parts ≠ [] → (∀ p ∈ parts, Q p) → Q (slashed parts)) :
    ∀ col ∈ cols, Q col := by
  simp only [columns, Option.bind_eq_bind, Option.bind_eq_some_iff, Option.pure_def,
    Option.some.injEq] at h
  obtain ⟨phdflag, -, inName, -, rfl⟩ := h
  have hcharAt : ∀ i < c.pCNS.str.length, Q [toLower (charAt c.pCNS.str i)] := by
    intro i hi
    refine hchar _ ?_
    rw [charAt, List.getD_eq_getElem _ _ hi]
    exact List.getElem_mem hi
  have hpair : ∀ a b, Q [a] → Q [b] → Q (slashed [[a], [b]]) := fun a b ha hb =>
    hslashed _ (List.cons_ne_nil _ _) (List.forall_mem_cons.mpr
      ⟨ha, List.forall_mem_singleton.mpr hb⟩)
  have hnumbers : ∀ (n : Int) (ns : List Int), Q (slashed ((n :: ns).map dec)) := fun n ns =>
    hslashed _ (List.cons_ne_nil _ _) (List.forall_mem_map.mpr fun m _ => hdec m)
  have hnil : ∀ col ∈ ([] : List (List UInt8)), Q col := fun col hcol =>
    absurd hcol List.not_mem_nil
  have hbasic : ∀ col ∈ basicColumns c, Q col := by
    simp only [basicColumns, List.forall_mem_cons, decBool, decChar, hdec, true_and]
    refine ⟨hstr, hpair _ _ (hcharAt 0 (by omega)) ?_, hpair _ _ ?_ (hcharAt _ (by omega)), hnil⟩
    · split
      · exact hcharAt 1 (by omega)
      · exact hX
    · split
      · exact hcharAt _ (by omega)
      · exact hX
  have hstatus : ∀ col ∈ statusColumns c, Q col := by
    intro col hcol
    obtain ⟨st, -, hcol⟩ := List.mem_flatMap.mp hcol
    simp only [List.mem_cons, List.not_mem_nil, or_false] at hcol
    rcases hcol with rfl | rfl | rfl <;> exact hdec _
  have hflag : ∀ col ∈ flagColumns c phdflag, Q col := by
    simp only [flagColumns, List.forall_mem_cons, decBool, hdec, true_and]
    exact ⟨hnumbers _ [_, _, _], hnumbers _ [_], hnumbers _ [_], hnumbers _ [_], hnil⟩
  have heffect : ∀ col ∈ effectColumns c inName, Q col := by
    simp only [effectColumns, List.forall_mem_cons, decBool, decChar, hdec, true_and]
    exact ⟨hnumbers _ [_], hnumbers _ [_], hnil⟩
  simp only [List.forall_mem_append]
  exact ⟨⟨⟨hbasic, hstatus⟩, hflag⟩, heffect⟩

/-- The columns of a token that is not empty are words. -/
theorem isWord_columns {c : Context} {cols : List (List UInt8)} (h : columns c = some cols)
    (hstr : IsWord c.pCNS.str) (hlen : c.pCNS.slen = c.pCNS.str.length) :
    ∀ col ∈ cols, IsWord col := by
  refine forall_mem_columns h ?_ hlen hstr isWord_dec (by decide +kernel) (fun a ha => ?_)
    fun parts => isWord_slashed
  · rw [hlen]
    exact List.length_pos_of_ne_nil hstr.1
  · exact ⟨List.cons_ne_nil _ _, List.forall_mem_singleton.mpr (toLower_word a (hstr.2 a ha))⟩

/-- The tagger reads back the columns of a line. -/
theorem add_samplestr (rows : Crf.Rows) {cols : List (List UInt8)}
    (hcols : ∀ col ∈ cols, IsWord col) (hlen : cols.length ≤ 8192) (hx : rows.xsize ≤ cols.length) :
    (rows.add (samplestr cols)).1 = { rows with x := rows.x ++ [cols] } := by
  have hclean : ∀ col ∈ cols, CleanColumn col := fun col hcol c hc =>
    ⟨((hcols col hcol).2 c hc).1, ((hcols col hcol).2 c hc).2.2⟩
  have hline : cstr (samplestr cols) = cols.flatMap fun col => col ++ [tab] := by
    rw [samplestr_eq hclean]
    refine cstr_eq_self fun c hc => ?_
    obtain ⟨col, hcol, hc⟩ := List.mem_flatMap.mp hc
    rcases List.mem_append.mp hc with hc | hc
    · exact ((hcols col hcol).2 c hc).2.2
    · rw [List.mem_singleton.mp hc]
      decide
  have hread : tokenize2 ['\t'.toUInt8, ' '.toUInt8] 8192 (cstr (samplestr cols)) = cols := by
    have hplain : ∀ col ∈ cols, ∀ c ∈ col, c ∉ ['\t'.toUInt8, ' '.toUInt8] := by
      intro col hcol c hc hmem
      obtain ⟨htab, hblank, -⟩ := (hcols col hcol).2 c hc
      rcases List.mem_pair.mp hmem with rfl | rfl
      · exact htab rfl
      · exact hblank rfl
    rw [hline]
    refine (tokenize2_columns tab hplain List.mem_cons_self 8192).trans ?_
    rw [List.filter_eq_self.mpr fun col hcol => by simpa using (hcols col hcol).1,
      List.take_of_length_le hlen]
  rw [Crf.Rows.add, hread, Crf.Rows.add2, if_neg (not_lt.mpr hx)]

/-- No token of a range has a delimiter or a zero byte in it. -/
theorem plain_tokens (ref : Reference) (refAreaStart : Nat) :
    ∀ t ∈ tokens ref refAreaStart, ∀ c ∈ t.str, isDelimiter c = false ∧ c ≠ 0 := by
  have hplain : ∀ s, ∀ t ∈ ref.snapshots.items s, ∀ c ∈ t.str, isDelimiter c = false ∧ c ≠ 0 := by
    intro s
    induction s using ref.snapshots.induct with
    | hnone s h =>
        rw [Source.items_none _ h]
        exact fun t ht => absurd ht List.not_mem_nil
    | hsome s t s' h ih =>
        rw [Source.items_some _ h]
        exact List.forall_mem_cons.mpr ⟨Reference.str_clean h, ih⟩
  exact hplain (refAreaStart, ' '.toUInt8)

/-- A token that is not empty is a word. -/
theorem isWord_tokens (ref : Reference) (refAreaStart : Nat) :
    ∀ t ∈ tokens ref refAreaStart, t.str ≠ [] → IsWord t.str := by
  intro t ht hne
  refine ⟨hne, fun c hc => ?_⟩
  obtain ⟨hplain, hzero⟩ := plain_tokens ref refAreaStart t ht c hc
  have htab : isDelimiter tab = true := by decide
  have hblank : isDelimiter ' '.toUInt8 = true := by decide
  refine ⟨?_, ?_, hzero⟩ <;> rintro rfl
  · exact Bool.false_ne_true (hplain.symm.trans htab)
  · exact Bool.false_ne_true (hplain.symm.trans hblank)

/-- The token of a context is a token of the range. -/
theorem exists_token_of_context {dict : Dict} {ts : List CrfNodeSnapshot} {c : Context}
    (hc : c ∈ contextsOf dict [] ts 0 0) : ∃ t ∈ ts, c.pCNS.str = t.str ∧ c.pCNS.slen = t.slen := by
  have hmem : c.pCNS ∈ updated dict ts := by
    rw [← map_pCNS_contextsOf dict [] ts 0 0]
    exact List.mem_map_of_mem hc
  obtain ⟨k, hk⟩ := List.mem_iff_getElem?.mp hmem
  rw [getElem?_updated] at hk
  obtain ⟨t, ht, heq⟩ := Option.map_eq_some_iff.mp hk
  exact ⟨t, List.mem_of_getElem? ht, by rw [← heq]; rfl, by rw [← heq]; rfl⟩

/-- The rows of the tagger are the columns of the tokens. -/
theorem addLines_rowsOf {cs : List Context} {rows : Crf.Rows}
    (hx : rows.xsize ≤ sampleLabels.length)
    (hcs : ∀ c ∈ cs, ∀ cols, columns c = some cols → ∀ col ∈ cols, IsWord col) :
    rows.addLines (rowsOf (fun _ => samplestr) cs).reduceOption =
      { rows with x := rows.x ++ cs.filterMap columns } := by
  induction cs generalizing rows with
  | nil => exact (congrArg (Crf.Rows.mk rows.xsize) (List.append_nil rows.x)).symm
  | cons c cs ih =>
      rw [List.forall_mem_cons] at hcs
      cases hcols : columns c with
      | none =>
          rw [rowsOf, List.map_cons, hcols, Option.map_none, List.reduceOption_cons_of_none,
            List.filterMap_cons_none hcols]
          exact ih hx hcs.2
      | some cols =>
          have hlen := length_columns hcols
          have hadd := add_samplestr rows (hcs.1 cols hcols)
            (hlen.trans_le (by decide)) (hx.trans_eq hlen.symm)
          have hrest := @ih { rows with x := rows.x ++ [cols] } hx hcs.2
          rw [List.append_assoc, List.singleton_append] at hrest
          rw [rowsOf, List.map_cons, hcols, Option.map_some, List.reduceOption_cons_of_some,
            List.filterMap_cons_some hcols, Crf.Rows.addLines, List.foldl_cons, hadd]
          exact hrest

/-- The columns of the tokens of a range. -/
def tokenColumns (ref : Reference) (refAreaStart : Nat) : List (List (List UInt8)) :=
  (contextsOf ref.dict [] (tokens ref refAreaStart) 0 0).filterMap columns

/-- The tagger has the columns of the tokens if no token is empty. -/
theorem addLines_predict (ref : Reference) (refAreaStart : Nat) {xsize : Nat}
    (hxsize : xsize ≤ sampleLabels.length)
    (hne : ∀ t ∈ tokens ref refAreaStart, t.str ≠ []) :
    (Crf.Rows.mk xsize []).addLines (rowsOf (fun _ => samplestr)
      (contextsOf ref.dict [] (tokens ref refAreaStart) 0 0)).reduceOption =
    ⟨xsize, tokenColumns ref refAreaStart⟩ := by
  refine addLines_rowsOf hxsize fun c hc cols hcols => ?_
  obtain ⟨t, ht, hstr, hslen⟩ := exists_token_of_context hc
  have hlen := (cleanColumn_tokens ref refAreaStart t ht).2
  exact isWord_columns hcols (hstr ▸ isWord_tokens ref refAreaStart t ht (hne t ht))
    (by rw [hslen, hlen, hstr])

/-- There are columns for each token, if none is read through NULL. -/
theorem length_tokenColumns (ref : Reference) (refAreaStart : Nat)
    (hrows : none ∉ rowsOf (fun _ => samplestr)
      (contextsOf ref.dict [] (tokens ref refAreaStart) 0 0)) :
    (tokenColumns ref refAreaStart).length = (tokens ref refAreaStart).length := by
  have hsome : ∀ c ∈ contextsOf ref.dict [] (tokens ref refAreaStart) 0 0,
      (columns c).isSome = true := by
    intro c hc
    rw [Option.isSome_iff_ne_none]
    intro hnone
    exact hrows (List.mem_map.mpr ⟨c, hc, by rw [hnone, Option.map_none]⟩)
  rw [tokenColumns, List.length_filterMap_eq_countP, List.countP_eq_length.mpr hsome,
    length_contextsOf]

/-! ## Labels and segments -/

section Predict

variable {W D : Type*}

/-- The end of `CitationInfoPredict`, with the labels of `size` tokens: `y_` is read at each label
that is asked for, and `strelem` is filled up to each `partlen`. -/
def decodedCalls (fi : FeatureIndex W D) (repo : TokenRepo) (content : Nat → UInt8)
    (labels : Nat → Nat) (offsetCpQueue : List (Nat × Nat)) (size : Nat) :
    Except Failure (List (Nat × List UInt8)) :=
  let trace := decode repo content (fun i => fi.y.getD (labels i) []) offsetCpQueue size
  if (∀ i ∈ consulted trace, labels i < fi.y.length) ∧ ∀ p ∈ partlens trace, p ≤ strelemSize then
    .ok (addedInfo trace)
  else .error .undefined

/-- The labels of tokens are decoded exactly if the one behind them has a name and no run of one
label is longer than `strelem`, and then the calls are the runs. -/
theorem decodedCalls_eq_ok_iff (fi : FeatureIndex W D) (repo : TokenRepo)
    (content : Nat → UInt8) {labels : Nat → Nat} {y2 : Nat → List UInt8}
    (hy2 : (fun i => fi.y.getD (labels i) []) = y2) {ts : List CrfNodeSnapshot} (hts : ts ≠ [])
    (hlt : ∀ i < ts.length, labels i < fi.y.length)
    (start : Nat) (calls : List (Nat × List UInt8)) :
    decodedCalls fi repo content labels (spans start ts) ts.length = .ok calls ↔
      labels ts.length < fi.y.length ∧ BlocksShort repo y2 (strelemSize + 1) ts ∧
        calls = maximalRuns (labelled repo content y2 0 (spans start ts)) ++
          if token2Id repo (y2 ts.length) = token2Id repo (y2 (ts.length - 1)) then []
          else [(token2Id repo (y2 ts.length), [])] := by
  have hpos : 0 < ts.length := List.length_pos_of_ne_nil hts
  have hnames : (∀ i ∈ consulted (decode repo content y2 (spans start ts) ts.length),
      labels i < fi.y.length) ↔ labels ts.length < fi.y.length := by
    have hasked := @consulted_decode repo content y2 (spans start ts)
    rw [length_spans] at hasked
    rw [hasked, List.forall_mem_cons]
    constructor
    · intro h
      exact h.2 _ (List.mem_range'_1.mpr ⟨hpos, by omega⟩)
    · intro h
      refine ⟨hlt 0 hpos, fun i hi => ?_⟩
      have hle : i < ts.length + 1 := by
        have hend := (List.mem_range'_1.mp hi).2
        omega
      rcases Nat.lt_succ_iff_lt_or_eq.mp hle with hlow | rfl
      · exact hlt i hlow
      · exact h
  have hroom : (∀ p ∈ partlens (decode repo content y2 (spans start ts) ts.length),
      p ≤ strelemSize) ↔ BlocksShort repo y2 (strelemSize + 1) ts := by
    have hfill := @partlens_decode_iff repo content y2 (strelemSize + 1) (spans start ts)
    rw [length_spans, forall_maximalRuns_iff (Nat.succ_pos strelemSize)] at hfill
    rw [blocksShort_iff repo content y2 start, ← hfill]
    exact forall₂_congr fun p _ => Nat.lt_succ_iff.symm
  have hadded : addedInfo (decode repo content y2 (spans start ts) ts.length) =
      maximalRuns (labelled repo content y2 0 (spans start ts)) ++
        if token2Id repo (y2 ts.length) = token2Id repo (y2 (ts.length - 1)) then []
        else [(token2Id repo (y2 ts.length), [])] := by
    obtain ⟨t, rest, rfl⟩ := List.exists_cons_of_ne_nil hts
    rw [List.length_cons, spans, ← length_spans (start + t.offset) rest, addedInfo_decode,
      Nat.add_sub_cancel]
  rw [decodedCalls, hy2, ← hadded, ← hnames, ← hroom, ← and_assoc]
  split
  next hdefined => rw [Except.ok.injEq, and_iff_right hdefined, eq_comm]
  next hundefined => exact iff_of_false (fun h => by contradiction) fun h => hundefined h.1

variable [Zero W] [Add W] [Mul D] [Add D] [Zero D] [LinearOrder D]

/-- `CitationInfoPredict` up to the calls of `addCitationInfo`; `behind` is what stands in memory
behind `result_`. -/
def predictCalls (fl : Floats W D) (fi : FeatureIndex W D) (repo : TokenRepo) (ref : Reference)
    (junk : Nat → CrfNodeSnapshot) (refAreaStart : Nat) (free : Crf.Lattice D)
    (behind : Nat → Nat) : Except Failure (List (Nat × List UInt8)) :=
  match predictLoop ref junk refAreaStart with
  | none => .error .undefined
  | some e =>
      -- a row that is missing has been read through NULL
      if none ∈ e.rows ∨ ¬ ArraysFit ref refAreaStart then .error .undefined
      else do
        let rows := (Crf.Rows.mk fi.xsize []).addLines e.rows.reduceOption
        let size := rows.x.length
        let labels ← fi.parse fl rows [] free fun i => if i < size then 0 else behind i
        decodedCalls fi repo ref.content labels e.offsetCpQueue size

variable {fl : Floats W D} {fi : FeatureIndex W D} {ref : Reference} {refAreaStart : Nat}

/-- What the prediction comes to: the columns of the tokens are parsed, and the labels found are
decoded. -/
theorem predictCalls_eq (hxsize : fi.xsize ≤ sampleLabels.length)
    (hfits : ArraysFit ref refAreaStart)
    (hlast : ∀ t, (tokens ref refAreaStart).getLast? = some t → ¬ ReadsNext t)
    (repo : TokenRepo) (junk : Nat → CrfNodeSnapshot) (free : Crf.Lattice D) (behind : Nat → Nat) :
    (tokenColumns ref refAreaStart).length = (tokens ref refAreaStart).length ∧
      predictCalls fl fi repo ref junk refAreaStart free behind =
        fi.parse fl ⟨fi.xsize, tokenColumns ref refAreaStart⟩ [] free
            (fun i => if i < (tokens ref refAreaStart).length then 0 else behind i) >>=
          fun labels => decodedCalls fi repo ref.content labels
            (spans refAreaStart (tokens ref refAreaStart)) (tokens ref refAreaStart).length := by
  obtain ⟨e, hloop, hrows, hspans⟩ := predictLoop_eq ref junk refAreaStart
  have hnull : none ∉ e.rows := by
    rw [hrows, none_mem_rowsOf]
    rintro ⟨t, ht, hreads⟩
    exact hlast t ht hreads
  have hlength := length_tokenColumns ref refAreaStart (hrows ▸ hnull)
  have hadd := addLines_predict ref refAreaStart hxsize (Reference.str_ne_nil hfits.token)
  rw [← hrows] at hadd
  have hdefined : ¬ (none ∈ e.rows ∨ ¬ ArraysFit ref refAreaStart) := by
    rw [not_or, not_not]
    exact ⟨hnull, hfits⟩
  refine ⟨hlength, ?_⟩
  simp only [predictCalls, hloop, if_neg hdefined, hadd, hlength, hspans]

/-- What becomes of a reference: the tagger has a row of columns for each token, and labels the
tokens as well as their columns allow. There are calls exactly if the label that is read behind the
last has a name and no run of one label is longer than `strelem`, and these are the maximal runs of
tokens with one label, and perhaps one more, for the label behind the last. -/
theorem predictCalls_best [AddRightMono D] (hy : fi.y.length ≤ 2 ^ 16) (hlabels : 0 < fi.y.length)
    (hxsize : fi.xsize ≤ sampleLabels.length)
    (htempls : ∀ t ∈ fi.unigramTempls ++ fi.bigramTempls, FeatureIndex.Reaches fi.xsize t)
    (htokens : tokens ref refAreaStart ≠ []) (hfits : ArraysFit ref refAreaStart)
    (hlast : ∀ t, (tokens ref refAreaStart).getLast? = some t → ¬ ReadsNext t)
    (hfloor : ∀ y : Nat → Nat, (∀ l, y l < fi.y.length) →
      ∀ i < (tokens ref refAreaStart).length,
        fl.lowest < (fi.textLayers fl ⟨fi.xsize, tokenColumns ref refAreaStart⟩).score y i)
    (repo : TokenRepo) (junk : Nat → CrfNodeSnapshot) (free : Crf.Lattice D) (behind : Nat → Nat) :
    let ts := tokens ref refAreaStart
    let n := ts.length
    let score := (fi.textLayers fl ⟨fi.xsize, tokenColumns ref refAreaStart⟩).score
    (Crf.Rows.mk fi.xsize []).addLines (rowsOf (fun _ => samplestr)
        (contextsOf ref.dict [] ts 0 0)).reduceOption = ⟨fi.xsize, tokenColumns ref refAreaStart⟩ ∧
      (tokenColumns ref refAreaStart).length = n ∧
      ∃ labels : Nat → Nat, (∀ i < n, labels i < fi.y.length) ∧
        (∀ y : Nat → Nat, (∀ i < n, y i < fi.y.length) → score y (n - 1) ≤ score labels (n - 1)) ∧
        let y2 := fun i => fi.y.getD (if i < n then labels i else behind i) []
        ∀ calls, predictCalls fl fi repo ref junk refAreaStart free behind = .ok calls ↔
          behind n < fi.y.length ∧ BlocksShort repo y2 (strelemSize + 1) ts ∧
            calls = maximalRuns (labelled repo ref.content y2 0 (spans refAreaStart ts)) ++
              if token2Id repo (y2 n) = token2Id repo (y2 (n - 1)) then []
              else [(token2Id repo (y2 n), [])] := by
  intro ts n score
  obtain ⟨hlength, heq⟩ := @predictCalls_eq W D _ _ _ _ _ _ fl fi ref refAreaStart hxsize hfits
    hlast repo junk free behind
  have hadd := addLines_predict ref refAreaStart hxsize (Reference.str_ne_nil hfits.token)
  have hwide : (Crf.Rows.mk fi.xsize (tokenColumns ref refAreaStart)).Wide := by
    rw [← hadd]
    exact Crf.Rows.Wide.addLines (fun row hrow => absurd hrow List.not_mem_nil) _
  have happlies : fi.Applies ⟨fi.xsize, tokenColumns ref refAreaStart⟩ :=
    ⟨fun _ => (List.forall_mem_append.mp htempls).1, fun _ => (List.forall_mem_append.mp htempls).2⟩
  have hx : tokenColumns ref refAreaStart ≠ [] :=
    List.ne_nil_of_length_pos (hlength.symm ▸ List.length_pos_of_ne_nil htokens)
  obtain ⟨labels, hparse, hlt, hrest, hbest⟩ := @FeatureIndex.parse_greatest W D _ _ _ _ fl fi
    ⟨fi.xsize, tokenColumns ref refAreaStart⟩ [] _ _ free _ hy hlabels hwide happlies hx
    (fun y hylt i hi => hfloor y hylt i (hi.trans_eq hlength))
    fun i => if i < n then 0 else behind i
  dsimp only at hlt hrest hbest
  rw [hlength] at hlt hrest hbest
  refine ⟨hadd, hlength, labels, hlt, hbest, ?_⟩
  intro y2 calls
  have hbehind : labels n = behind n := (hrest n le_rfl).trans (if_neg (lt_irrefl n))
  have hy2 : (fun i => fi.y.getD (labels i) []) = y2 := by
    funext i
    refine congrArg (fi.y.getD · []) ?_
    split
    next => rfl
    next hi => exact (hrest i (not_lt.mp hi)).trans (if_neg hi)
  rw [heq, hparse, ← hbehind]
  exact decodedCalls_eq_ok_iff fi repo ref.content hy2 htokens hlt refAreaStart calls

end Predict

/-- If the text is short, so is the text of consecutive tokens. -/
theorem blocksShort_of_sum_lt {repo : TokenRepo} {y2 : Nat → List UInt8} {bound : Nat}
    {ts : List CrfNodeSnapshot} (h : (ts.map (·.offset)).sum < bound) :
    BlocksShort repo y2 bound ts := by
  intro i n _ _
  have hpart : ((ts.drop i).take n).Sublist ts :=
    (List.take_sublist _ _).trans (List.drop_sublist _ _)
  exact ((hpart.map _).sum_le_sum fun _ _ => Nat.zero_le _).trans_lt h

/-- The last token of two is not compared with the one behind it. -/
theorem not_readsNext_bagga : ∀ t,
    (tokens (plainReference (bytes "A. Bagga")) 0).getLast? = some t → ¬ ReadsNext t := by
  have hlast : ((tokens (plainReference (bytes "A. Bagga")) 0).getLast?).map
      (fun t => (strcasecmpEq (bytes "ph") t.str, t.procflag)) = some (false, 0) := by
    decide +kernel
  intro t ht
  rw [ht, Option.map_some, Option.some.injEq, Prod.mk.injEq] at hlast
  rintro (hph | hproc)
  · rw [hlast.1] at hph
    contradiction
  · rw [hlast.2] at hproc
    contradiction

/-- A reference of two tokens gets its labels. -/
theorem predictCalls_bagga : ∃ y2 : Nat → List UInt8,
    predictCalls ⟨Nat.cast, -1⟩ wholeModel (tokenInit tokenIni) (plainReference (bytes "A. Bagga"))
      (fun _ => default) 0 (fun _ _ => ⟨0, 0, 0, 0, none, [], []⟩) (fun _ => 0) = .ok
      (maximalRuns (labelled (tokenInit tokenIni) (plainReference (bytes "A. Bagga")).content y2 0
        (spans 0 (tokens (plainReference (bytes "A. Bagga")) 0))) ++
        if token2Id (tokenInit tokenIni)
            (y2 (tokens (plainReference (bytes "A. Bagga")) 0).length) =
          token2Id (tokenInit tokenIni)
            (y2 ((tokens (plainReference (bytes "A. Bagga")) 0).length - 1)) then []
        else [(token2Id (tokenInit tokenIni)
          (y2 (tokens (plainReference (bytes "A. Bagga")) 0).length), [])]) := by
  obtain ⟨-, -, labels, -, -, hcalls⟩ := @predictCalls_best ℕ ℤ _ _ _ _ _ _ ⟨Nat.cast, -1⟩
    wholeModel (plainReference (bytes "A. Bagga")) 0 _ (by decide) (by decide) (by decide +kernel)
    reaches_wholeModel (by decide +kernel) (by decide +kernel) not_readsNext_bagga
    (fun y _ i _ => score_wholeModel _ y i) (tokenInit tokenIni) (fun _ => default)
    (fun _ _ => ⟨0, 0, 0, 0, none, [], []⟩) (fun _ => 0)
  have hshort : (((tokens (plainReference (bytes "A. Bagga")) 0).map (·.offset)).sum) <
      strelemSize + 1 := by decide +kernel
  exact ⟨_, (hcalls _).mpr ⟨by decide, blocksShort_of_sum_lt hshort, rfl⟩⟩

end CiteParser
