import CiteParser.Core.Runs
import CiteParser.Predict.Loop
import CiteParser.Store.Tokens

/-!
# Assembling segments from labels

The end of `CitationInfoPredict`: the labels the tagger has found are read one by one and
the text of consecutive tokens with one label is handed on in one piece. The loop compares
the label at `i` with the one at `i - 1` while it copies the span at `i - 1`, from 1 to the
number of tokens, and so reads one label more than there are.
-/

namespace CiteParser

/-- What the loop does that is seen outside it: a label is asked for, a span has been
copied and fills `strelem` up to `partlen`, or `addCitationInfo` is called. -/
inductive DecodeEvent where
  | consult (i : Nat)
  | copied (partlen : Nat)
  | addInfo (id : Nat) (segment : List UInt8)
  deriving DecidableEq, Repr

/-- The variables of the loop; `strelem` is `strelem[0..partlen)`. -/
structure DecodeState where
  nowid : Nat
  lastid : Nat
  strelem : List UInt8
  offsetCpQueue : List (Nat × Nat)
  trace : List DecodeEvent
  deriving DecidableEq, Repr

section Decode

variable (repo : TokenRepo) (content : Nat → UInt8) (y2 : Nat → List UInt8)

/-- A pass of the loop. -/
def decodeStep (s : DecodeState) (i : Nat) : DecodeState :=
  let nowid := token2Id repo (y2 i)
  let offsetCp := s.offsetCpQueue.headD (0, 0)
  let strelem := s.strelem ++ segment content offsetCp.1 offsetCp.2
  let trace := s.trace ++ [.consult i, .copied strelem.length]
  { nowid := nowid
    lastid := nowid
    strelem := if nowid ≠ s.lastid then [] else strelem
    offsetCpQueue := s.offsetCpQueue.tail
    trace := if nowid ≠ s.lastid then trace ++ [.addInfo s.lastid strelem] else trace }

/-- The variables before the loop. -/
def DecodeState.init (offsetCpQueue : List (Nat × Nat)) : DecodeState where
  nowid := 0
  lastid := token2Id repo (y2 0)
  strelem := []
  offsetCpQueue := offsetCpQueue
  trace := [.consult 0]

/-- All that the decoding of `size` labels does. -/
def decode (offsetCpQueue : List (Nat × Nat)) (size : Nat) : List DecodeEvent :=
  let s := (List.range' 1 size).foldl (decodeStep repo content y2) (.init repo y2 offsetCpQueue)
  s.trace ++ [.addInfo s.nowid s.strelem]

end Decode

/-- The labels asked for. -/
def consulted (trace : List DecodeEvent) : List Nat :=
  trace.filterMap fun
    | .consult i => some i
    | _ => none

/-- The calls of `addCitationInfo`. -/
def addedInfo (trace : List DecodeEvent) : List (Nat × List UInt8) :=
  trace.filterMap fun
    | .addInfo id segment => some (id, segment)
    | _ => none

/-- The values of `partlen` after each copy. -/
def partlens (trace : List DecodeEvent) : List Nat :=
  trace.filterMap fun
    | .copied n => some n
    | _ => none

/-- The spans from number `i` on, each as its label's id and its text. -/
def labelled (repo : TokenRepo) (content : Nat → UInt8) (y2 : Nat → List UInt8) :
    Nat → List (Nat × Nat) → List (Nat × List UInt8)
  | _, [] => []
  | i, cp :: rest =>
      (token2Id repo (y2 i), segment content cp.1 cp.2) :: labelled repo content y2 (i + 1) rest

section Facts

variable {repo : TokenRepo} {content : Nat → UInt8} {y2 : Nat → List UInt8}

/-- A pass over the span `cp` whose label is the last one read. -/
theorem decodeStep_eq {s : DecodeState} {cp : Nat × Nat} {rest : List (Nat × Nat)}
    (hq : s.offsetCpQueue = cp :: rest) (i : Nat) :
    decodeStep repo content y2 s i =
      { nowid := token2Id repo (y2 i)
        lastid := token2Id repo (y2 i)
        strelem :=
          if token2Id repo (y2 i) ≠ s.lastid then []
          else s.strelem ++ segment content cp.1 cp.2
        offsetCpQueue := rest
        trace := s.trace ++ (.consult i ::
          .copied (s.strelem ++ segment content cp.1 cp.2).length ::
          if token2Id repo (y2 i) ≠ s.lastid then
            [.addInfo s.lastid (s.strelem ++ segment content cp.1 cp.2)]
          else []) } := by
  rw [decodeStep, hq]
  simp only [List.headD_cons, List.tail_cons]
  split <;> simp only [List.append_assoc, List.cons_append, List.nil_append]

/-- The labels asked for in one pass. -/
theorem consulted_decodeStep {s : DecodeState} {cp : Nat × Nat} {rest : List (Nat × Nat)}
    (hq : s.offsetCpQueue = cp :: rest) (i : Nat) :
    consulted (decodeStep repo content y2 s i).trace = consulted s.trace ++ [i] := by
  rw [decodeStep_eq hq, consulted, consulted, List.filterMap_append]
  split <;> rfl

/-- The buffer's filling in one pass. -/
theorem partlens_decodeStep {s : DecodeState} {cp : Nat × Nat} {rest : List (Nat × Nat)}
    (hq : s.offsetCpQueue = cp :: rest) (i : Nat) :
    partlens (decodeStep repo content y2 s i).trace =
      partlens s.trace ++ [(s.strelem ++ segment content cp.1 cp.2).length] := by
  rw [decodeStep_eq hq, partlens, partlens, List.filterMap_append]
  split <;> rfl

/-- The call of one pass, if its label is not the last one read. -/
theorem addedInfo_decodeStep {s : DecodeState} {cp : Nat × Nat} {rest : List (Nat × Nat)}
    (hq : s.offsetCpQueue = cp :: rest) (i : Nat) :
    addedInfo (decodeStep repo content y2 s i).trace = addedInfo s.trace ++
      if token2Id repo (y2 i) ≠ s.lastid then
        [(s.lastid, s.strelem ++ segment content cp.1 cp.2)]
      else [] := by
  rw [decodeStep_eq hq, addedInfo, addedInfo, List.filterMap_append]
  split <;> rfl

/-- The labels asked for in the passes from `i + 1` on. -/
theorem consulted_foldl (cps : List (Nat × Nat)) (s : DecodeState) (i : Nat)
    (hq : s.offsetCpQueue = cps) :
    consulted ((List.range' (i + 1) cps.length).foldl (decodeStep repo content y2) s).trace =
      consulted s.trace ++ List.range' (i + 1) cps.length := by
  induction cps generalizing s i with
  | nil => exact (List.append_nil _).symm
  | cons cp rest ih =>
      rw [List.length_cons, List.range'_succ, List.foldl_cons,
        ih _ (i + 1) (by rw [decodeStep_eq hq]), consulted_decodeStep hq, List.append_assoc,
        List.singleton_append]

/-- The runs from pass `i + 1` on, while the text before its span is gathered: a pass
either adds its span to the pending run or closes the run with it. -/
theorem runsFrom_decodeStep {s : DecodeState} {cp cp' : Nat × Nat} {rest : List (Nat × Nat)}
    (hq : s.offsetCpQueue = cp :: cp' :: rest) (i : Nat) :
    runsFrom s.lastid (s.strelem ++ segment content cp.1 cp.2)
        (labelled repo content y2 i (cp' :: rest)) =
      (if token2Id repo (y2 i) ≠ s.lastid then
        [(s.lastid, s.strelem ++ segment content cp.1 cp.2)]
      else []) ++
      runsFrom (decodeStep repo content y2 s i).lastid
        ((decodeStep repo content y2 s i).strelem ++ segment content cp'.1 cp'.2)
        (labelled repo content y2 (i + 1) rest) := by
  rw [decodeStep_eq hq, labelled, runsFrom]
  by_cases h : token2Id repo (y2 i) = s.lastid
  · simp only [h, ne_eq, not_true_eq_false, ite_false, ite_true, List.nil_append]
  · simp only [h, ne_eq, not_false_eq_true, ite_false, ite_true, List.nil_append,
      List.singleton_append]

/-- The calls from the pass that reads label `i + 1` on. The text gathered so far opens a run;
a last label of its own opens one more, which gets no text. -/
theorem addedInfo_foldl (rest : List (Nat × Nat)) (cp : Nat × Nat) (s : DecodeState) (i : Nat)
    (hq : s.offsetCpQueue = cp :: rest) (hid : s.lastid = token2Id repo (y2 i)) :
    let e := (List.range' (i + 1) (rest.length + 1)).foldl (decodeStep repo content y2) s
    addedInfo (e.trace ++ [.addInfo e.nowid e.strelem]) = addedInfo s.trace ++
      runsFrom s.lastid (s.strelem ++ segment content cp.1 cp.2)
        (labelled repo content y2 (i + 1) rest) ++
      if token2Id repo (y2 (i + rest.length + 1)) = token2Id repo (y2 (i + rest.length)) then []
      else [(token2Id repo (y2 (i + rest.length + 1)), [])] := by
  intro e
  induction rest generalizing cp s i with
  | nil =>
      have he : e = decodeStep repo content y2 s (i + 1) := rfl
      rw [addedInfo, List.filterMap_append, ← addedInfo, he, addedInfo_decodeStep hq,
        decodeStep_eq hq]
      simp only [labelled, runsFrom, List.length_nil, Nat.add_zero, ← hid]
      by_cases h : token2Id repo (y2 (i + 1)) = s.lastid
      · simp only [h, ne_eq, not_true_eq_false, ite_false, ite_true, List.append_nil]
        rfl
      · simp only [h, ne_eq, not_false_eq_true, ite_false, ite_true]
        rfl
  | cons cp' rest ih =>
      have he : e = (List.range' (i + 1 + 1) (rest.length + 1)).foldl
          (decodeStep repo content y2) (decodeStep repo content y2 s (i + 1)) := rfl
      rw [he, ih cp' _ (i + 1) (by rw [decodeStep_eq hq]) (by rw [decodeStep_eq hq]),
        addedInfo_decodeStep hq, runsFrom_decodeStep hq, List.length_cons,
        show i + 1 + rest.length = i + (rest.length + 1) by omega]
      simp only [List.append_assoc]

/-- The buffer never fills up to `bound` exactly when no run is that long: each filling is
the start of a run, and each run is a filling. -/
theorem partlens_foldl (bound : Nat) (rest : List (Nat × Nat)) (cp : Nat × Nat)
    (s : DecodeState) (i : Nat) (hq : s.offsetCpQueue = cp :: rest) :
    (∀ p ∈ partlens ((List.range' (i + 1) (rest.length + 1)).foldl
        (decodeStep repo content y2) s).trace, p < bound) ↔
      (∀ p ∈ partlens s.trace, p < bound) ∧
      ∀ r ∈ runsFrom s.lastid (s.strelem ++ segment content cp.1 cp.2)
        (labelled repo content y2 (i + 1) rest), r.2.length < bound := by
  induction rest generalizing cp s i with
  | nil =>
      rw [List.length_nil, List.range'_one, List.foldl_cons, List.foldl_nil,
        partlens_decodeStep hq, List.forall_mem_append, labelled, runsFrom,
        List.forall_mem_singleton, List.forall_mem_singleton]
  | cons cp' rest ih =>
      rw [List.length_cons, List.range'_succ, List.foldl_cons,
        ih cp' _ (i + 1) (by rw [decodeStep_eq hq]), partlens_decodeStep hq,
        List.forall_mem_append, List.forall_mem_singleton, and_assoc]
      refine and_congr_right fun _ => ?_
      rw [runsFrom_decodeStep hq, List.forall_mem_append]
      refine and_congr_left fun hruns => ?_
      by_cases h : token2Id repo (y2 (i + 1)) = s.lastid
      · simp only [h, ne_eq, not_true_eq_false, ite_false, List.not_mem_nil, false_implies,
          implies_true, iff_true]
        -- the filling is the start of a run that goes on
        rw [decodeStep_eq hq] at hruns
        simp only [h, ne_eq, not_true_eq_false, ite_false] at hruns
        obtain ⟨r, hr, hle⟩ := exists_runsFrom_ge s.lastid
          (s.strelem ++ segment content cp.1 cp.2 ++ segment content cp'.1 cp'.2)
          (labelled repo content y2 (i + 1 + 1) rest)
        have hlt := hruns r hr
        rw [List.length_append] at hle
        omega
      · simp only [h, ne_eq, not_false_eq_true, ite_true, List.forall_mem_singleton]

end Facts

/-! ## Runs -/

section Results

variable (repo : TokenRepo) (content : Nat → UInt8) (y2 : Nat → List UInt8)

/-- The calls of `addCitationInfo`: one for each maximal run, and one more when the label
behind the last is another one. -/
theorem addedInfo_decode (cp : Nat × Nat) (cps : List (Nat × Nat)) :
    addedInfo (decode repo content y2 (cp :: cps) (cps.length + 1)) =
      maximalRuns (labelled repo content y2 0 (cp :: cps)) ++
      if token2Id repo (y2 (cps.length + 1)) = token2Id repo (y2 cps.length) then []
      else [(token2Id repo (y2 (cps.length + 1)), [])] := by
  have h := @addedInfo_foldl repo content y2 cps cp (.init repo y2 (cp :: cps)) 0 rfl rfl
  simp only [Nat.zero_add] at h
  rw [decode, labelled, maximalRuns_cons]
  exact h

/-- The labels asked for are those of the tokens and the one behind the last. -/
theorem consulted_decode (cps : List (Nat × Nat)) :
    consulted (decode repo content y2 cps cps.length) = 0 :: List.range' 1 cps.length := by
  rw [decode, consulted, List.filterMap_append, ← consulted,
    consulted_foldl cps (.init repo y2 cps) 0 rfl]
  exact List.append_nil _

/-- The label behind the last is always asked for. The calls are one for each maximal run
exactly when there is a token and that label has the id of the last token's label. -/
theorem decode_consults_past_end (cps : List (Nat × Nat)) :
    ¬ (∀ i ∈ consulted (decode repo content y2 cps cps.length), i < cps.length) ∧
    (addedInfo (decode repo content y2 cps cps.length) =
        maximalRuns (labelled repo content y2 0 cps) ↔
      cps ≠ [] ∧ token2Id repo (y2 cps.length) = token2Id repo (y2 (cps.length - 1))) := by
  constructor
  · intro hall
    refine Nat.lt_irrefl cps.length (hall cps.length ?_)
    rw [consulted_decode, List.mem_cons, List.mem_range'_1]
    omega
  · cases cps with
    | nil =>
        -- without tokens the call after the loop still comes, with id 0
        simp only [ne_eq, not_true_eq_false, false_and, iff_false]
        exact List.cons_ne_nil _ _
    | cons cp cps =>
        rw [List.length_cons, addedInfo_decode, Nat.add_sub_cancel]
        by_cases h : token2Id repo (y2 (cps.length + 1)) = token2Id repo (y2 cps.length)
        · simp only [h, ite_true, List.append_nil, ne_eq, reduceCtorEq, not_false_eq_true,
            and_self]
        · simp only [h, ite_false, List.append_right_eq_self, reduceCtorEq, and_false]

/-- The buffer keeps below `bound` exactly when no maximal run is as long as `bound`. -/
theorem partlens_decode_iff (bound : Nat) (cps : List (Nat × Nat)) :
    (∀ p ∈ partlens (decode repo content y2 cps cps.length), p < bound) ↔
      ∀ r ∈ maximalRuns (labelled repo content y2 0 cps), r.2.length < bound := by
  cases cps with
  | nil =>
      have hfill : partlens (decode repo content y2 [] 0) = [] := rfl
      rw [List.length_nil, hfill, labelled, maximalRuns_nil]
      simp only [List.not_mem_nil, false_implies, implies_true]
  | cons cp cps =>
      rw [List.length_cons, decode, partlens, List.filterMap_append, ← partlens, labelled,
        maximalRuns_cons]
      have h := @partlens_foldl repo content y2 bound cps cp (.init repo y2 (cp :: cps)) 0 rfl
      simpa only [DecodeState.init, partlens, List.filterMap_cons, List.filterMap_nil,
        List.not_mem_nil, false_implies, implies_true, true_and, List.append_nil,
        List.nil_append] using h

/-- The buffer keeps below `bound` and every call below a larger bound exactly when no
maximal run is as long as `bound`. -/
theorem decode_fits_runs {bound bound' : Nat} (hbound : 0 < bound) (hle : bound ≤ bound')
    (cps : List (Nat × Nat)) :
    ((∀ p ∈ partlens (decode repo content y2 cps cps.length), p < bound) ∧
      ∀ call ∈ addedInfo (decode repo content y2 cps cps.length), call.2.length < bound') ↔
      ∀ r ∈ maximalRuns (labelled repo content y2 0 cps), r.2.length < bound := by
  rw [partlens_decode_iff]
  refine and_iff_left_of_imp fun hruns call hcall => ?_
  cases cps with
  | nil =>
      have hcalls : addedInfo (decode repo content y2 [] 0) = [(0, [])] := rfl
      rw [List.length_nil, hcalls, List.mem_singleton] at hcall
      rw [hcall]
      exact Nat.lt_of_lt_of_le hbound hle
  | cons cp cps =>
      rw [List.length_cons, addedInfo_decode] at hcall
      rcases List.mem_append.mp hcall with hcall | hcall
      · exact Nat.lt_of_lt_of_le (hruns call hcall) hle
      · split at hcall
        · exact absurd hcall List.not_mem_nil
        · rw [List.mem_singleton.mp hcall]
          exact Nat.lt_of_lt_of_le hbound hle

end Results

/-- One token, labelled as an author: the label behind it is asked for, and where that is a
title a title without text is handed on as well. -/
theorem decode_past_end_author :
    let y2 : Nat → List UInt8 := fun i => if i = 0 then bytes "author" else bytes "title"
    let trace := decode (tokenInit tokenIni) (memory (bytes "A. Bagga")) y2 [(0, 8)] 1
    ¬ ((∀ i ∈ consulted trace, i < 1) ∧ addedInfo trace =
      maximalRuns (labelled (tokenInit tokenIni) (memory (bytes "A. Bagga")) y2 0 [(0, 8)])) := by
  decide +kernel

end CiteParser
