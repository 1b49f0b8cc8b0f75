import CiteParser.Predict.Loop

/-!
# Streaming against batch

What the main loop of `CitationInfoPredict` does with the tokens of a range: it dequeues
exactly these, with the next eleven ahead and the last twelve behind, and reads through a
NULL pointer only behind the last one.
-/

namespace CiteParser

open Loop

/-- A snapshot without the three flags that the main loop updates. -/
def eraseDicts (t : CrfNodeSnapshot) : CrfNodeSnapshot :=
  { t with isPlaceNameDict := 0, isCountryDict := 0, isPubliserDict := 0 }

@[simp] theorem eraseDicts_updateDicts (dict : Dict) (np : Option CrfNodeSnapshot)
    (t : CrfNodeSnapshot) : eraseDicts (updateDicts dict np t) = eraseDicts t := rfl

/-- The updates change the three flags only. -/
theorem map_eraseDicts_updated (dict : Dict) (ts : List CrfNodeSnapshot) :
    (updated dict ts).map eraseDicts = ts.map eraseDicts := by
  induction ts with
  | nil => rfl
  | cons t ts ih => rw [updated, List.map_cons, List.map_cons, eraseDicts_updateDicts, ih]

/-- The spans of consecutive tokens from a text offset on. -/
def spans : Nat → List CrfNodeSnapshot → List (Nat × Nat)
  | _, [] => []
  | start, t :: ts => (start, start + t.offset) :: spans (start + t.offset) ts

/-- Every token has one span. -/
@[simp] theorem length_spans (start : Nat) (ts : List CrfNodeSnapshot) :
    (spans start ts).length = ts.length := by
  induction ts generalizing start with
  | nil => rfl
  | cons t ts ih => rw [spans, List.length_cons, List.length_cons, ih]

/-- Each span starts where the one before it ends. -/
def Contiguous : Nat → List (Nat × Nat) → Prop
  | _, [] => True
  | start, cp :: rest => cp.1 = start ∧ Contiguous cp.2 rest

theorem contiguous_spans (start : Nat) (ts : List CrfNodeSnapshot) :
    Contiguous start (spans start ts) := by
  induction ts generalizing start with
  | nil => trivial
  | cons t ts ih => exact ⟨rfl, ih _⟩

/-- No token of a range is empty, and none reaches beyond the range. -/
theorem spans_items (ref : Reference) (s : Nat × UInt8) :
    (∀ t ∈ ref.snapshots.items s, 0 < t.offset) ∧
      ∀ cp ∈ spans s.1 (ref.snapshots.items s), cp.2 ≤ ref.refAreaEnd := by
  induction s using ref.snapshots.induct with
  | hnone s h =>
      rw [Source.items_none _ h]
      exact ⟨fun t ht => absurd ht List.not_mem_nil, fun cp hcp => absurd hcp List.not_mem_nil⟩
  | hsome s t s' h ih =>
      obtain ⟨hmove, hpos, hle, -, -⟩ := Reference.next_some h
      rw [Source.items_some _ h, spans, ← hmove]
      refine ⟨fun u hu => ?_, fun cp hcp => ?_⟩
      · rcases List.mem_cons.mp hu with rfl | hu
        · exact hpos
        · exact ih.1 u hu
      · rcases List.mem_cons.mp hcp with rfl | hcp
        · exact hle
        · exact ih.2 cp hcp

/-- The loop of `CitationInfoPredict` is the shared one. -/
theorem isMainLoop_predict (ref : Reference) :
    IsMainLoop ref (fun _ => samplestr) PredictState.toWindowState (predictStep ref) where
  leave := fun s h => by simp only [predictStep, h]
  pass := fun s p Q h => ⟨_, by simp only [predictStep, h]; rfl, rfl⟩

/-- A pass pushes the span of the token it dequeues. -/
theorem predictStep_spans {ref : Reference} {cps : List (Nat × Nat)} {t : CrfNodeSnapshot}
    {ts : List CrfNodeSnapshot} {s s' : PredictState} {p : Nat} {Q : CNSQ}
    (hpop : ftDeQueue s.feed.queue = some (p, Q)) (hdata : Q.data p = t)
    (hnext : predictStep ref s = .next s')
    (h : (∀ u ∈ t :: ts, 0 < u.offset) ∧
      cps = s.offsetCpQueue ++ spans s.lastOffset (t :: ts)) :
    (∀ u ∈ ts, 0 < u.offset) ∧ cps = s'.offsetCpQueue ++ spans s'.lastOffset ts := by
  have hne : t.offset ≠ 0 := Nat.pos_iff_ne_zero.mp (h.1 t List.mem_cons_self)
  simp only [predictStep, hpop, hdata, offsetCp, if_neg hne, Outcome.next.injEq] at hnext
  refine ⟨fun u hu => h.1 u (List.mem_cons_of_mem _ hu), ?_⟩
  rw [h.2, ← hnext]
  simp only [spans, List.append_assoc, List.singleton_append]

/-- The main loop ends with a row and a span for each token. -/
theorem predictLoop_eq (ref : Reference) (junk : Nat → CrfNodeSnapshot) (refAreaStart : Nat) :
    ∃ e, predictLoop ref junk refAreaStart = some e ∧
      e.rows = rowsOf (fun _ => samplestr)
        (contextsOf ref.dict [] (tokens ref refAreaStart) 0 0) ∧
      e.offsetCpQueue = spans refAreaStart (tokens ref refAreaStart) := by
  have hlen := length_tokens_le ref refAreaStart
  obtain ⟨e, hrun, ⟨-, hspans⟩, hrows⟩ := (isMainLoop_predict ref).run
    (fun todo s => (∀ u ∈ todo, 0 < u.offset) ∧
      spans refAreaStart (tokens ref refAreaStart) = s.offsetCpQueue ++ spans s.lastOffset todo)
    (fun _ _ _ _ _ _ hpop hdata hnext h => predictStep_spans hpop hdata hnext h)
    [] (tokens ref refAreaStart) (.init ref junk refAreaStart)
    (windowInv_filled ref junk refAreaStart) ⟨(spans_items ref _).1, rfl⟩
    (show _ < ref.refAreaEnd + 2 by omega)
  refine ⟨e, hrun, hrows, ?_⟩
  rw [hspans, spans, List.append_nil]

/-- The slot of the dequeued token still holds it at the end of the pass, updated. -/
theorem tokenStep_slot (ref : Reference) (write : Writer) (w : WindowState) (Q : CNSQ) :
    (tokenStep ref write Q.front Q w).feed.queue.data Q.front =
      updateDicts ref.dict (nextNElem Q 1) (Q.data Q.front) := by
  simp only [tokenStep]
  generalize updateDicts ref.dict (nextNElem Q 1) (Q.data Q.front) = e
  rcases enQueueNext_cases ref { w.feed with queue := Q.set Q.front e } with
    ⟨_, he⟩ | ⟨_, _, he⟩ | ⟨t, s, _, _, he⟩
  · rw [he]
    exact Ring.set_data_self Q _ e
  · rw [he]
    exact Ring.set_data_self Q _ e
  · rw [he]
    exact (Ring.push_data_front t).trans (Ring.set_data_self Q _ e)

/-- Streaming equals batch: pass `k` dequeues token `k` of the range, with the next eleven
tokens in one queue and the last twelve in the other; the slot it was dequeued from holds
it to the end of the pass, and it is what is copied; the spans pushed join up. -/
theorem predict_streams_tokens (ref : Reference) (junk : Nat → CrfNodeSnapshot)
    (refAreaStart : Nat) :
    (∃ e, predictLoop ref junk refAreaStart = some e ∧
      e.offsetCpQueue = spans refAreaStart (tokens ref refAreaStart) ∧
      Contiguous refAreaStart e.offsetCpQueue ∧
      ∀ cp ∈ e.offsetCpQueue, cp.2 ≤ ref.refAreaEnd) ∧
    (predictStates ref junk refAreaStart).length = (tokens ref refAreaStart).length + 1 ∧
    ∀ k t, (tokens ref refAreaStart)[k]? = some t →
      ∃ s s' p Q, (predictStates ref junk refAreaStart)[k]? = some s ∧
        predictStep ref s = .next s' ∧ ftDeQueue s.feed.queue = some (p, Q) ∧
        Q.data p = t ∧ Q.elems = ((tokens ref refAreaStart).drop (k + 1)).take 11 ∧
        s.preCNSQ.elems.map eraseDicts =
          (recent 12 ((tokens ref refAreaStart).take k)).map eraseDicts ∧
        eraseDicts (s'.feed.queue.data p) = eraseDicts t ∧
        s'.preCNSQ.elems.getLast? = some (s'.feed.queue.data p) := by
  have hlen := length_tokens_le ref refAreaStart
  obtain ⟨e, hloop, -, hspans⟩ := predictLoop_eq ref junk refAreaStart
  obtain ⟨hcount, hall⟩ := (isMainLoop_predict ref).visited [] (tokens ref refAreaStart)
    (.init ref junk refAreaStart) (windowInv_filled ref junk refAreaStart)
    (show _ < ref.refAreaEnd + 2 by omega)
  refine ⟨⟨e, hloop, hspans, ?_, ?_⟩, hcount, fun k t hk => ?_⟩
  · rw [hspans]
    exact contiguous_spans _ _
  · rw [hspans]
    exact (spans_items ref (refAreaStart, ' '.toUInt8)).2
  · have hlt : k < (tokens ref refAreaStart).length := (List.getElem?_eq_some_iff.mp hk).1
    obtain ⟨s, hs, hinv⟩ := hall k hlt.le
    rw [List.nil_append] at hinv
    have hdrop : (tokens ref refAreaStart).drop k = t :: (tokens ref refAreaStart).drop (k + 1) :=
      List.drop_eq_getElem?_toList_append.trans (by rw [hk]; rfl)
    obtain ⟨p, Q, s', hpop, hdata, helems, hfront, hnext, hview⟩ :=
      (isMainLoop_predict ref).next (hdrop ▸ hinv)
    have hslot : s'.feed.queue.data p = updateDicts ref.dict (nextNElem Q 1) (Q.data p) := by
      rw [hview, hfront]
      exact tokenStep_slot ref _ s.toWindowState Q
    refine ⟨s, s', p, Q, hs, hnext, hpop, hdata, helems, ?_, ?_, ?_⟩
    · rw [hinv.behind, map_recent, List.map_take, map_eraseDicts_updated, ← List.map_take,
        ← map_recent]
    · rw [hslot, eraseDicts_updateDicts, hdata]
    · have hcopy : s'.preCNSQ = enQueueWithDrop s.preCNSQ
          ((Q.set p (updateDicts ref.dict (nextNElem Q 1) (Q.data p))).data p) := by
        rw [hview]
        rfl
      rw [hslot, hcopy, Ring.set_data_self, elems_enQueueWithDrop hinv.behind]
      exact getLast?_recent_append 12 (by decide) _ _

/-- The second pass over a short text dequeues its second token. -/
theorem predict_streams_tokens_plain :
    ∃ s p Q, (predictStates (plainReference (bytes "A. Bagga")) (fun _ => default) 0)[1]? =
      some s ∧ ftDeQueue s.feed.queue = some (p, Q) ∧ (Q.data p).str = bytes "Bagga" := by
  have hstr : ((tokens (plainReference (bytes "A. Bagga")) 0)[1]?).map (·.str) =
      some (bytes "Bagga") := by decide +kernel
  obtain ⟨t, ht, hs⟩ := Option.map_eq_some_iff.mp hstr
  obtain ⟨s, s', p, Q, hstate, -, hpop, hdata, -⟩ :=
    (predict_streams_tokens _ (fun _ => default) 0).2.2 1 t ht
  exact ⟨s, p, Q, hstate, hpop, by rw [hdata, hs]⟩

/-! ## NULL pointers -/

/-- The words behind which the source reads the next token without asking for it: "ph"
in any case, and what its recognisers take for the word "in". -/
def ReadsNext (t : CrfNodeSnapshot) : Prop :=
  strcasecmpEq (bytes "ph") t.str = true ∨ t.procflag = 1

/-- A row is missing exactly when the last token is one of these words. -/
theorem none_mem_rowsOf (write : Writer) (dict : Dict) (done todo : List CrfNodeSnapshot)
    (isbnEffect : Nat) (quotTime : Int) :
    none ∈ rowsOf write (contextsOf dict done todo isbnEffect quotTime) ↔
      ∃ t, todo.getLast? = some t ∧ ReadsNext t := by
  induction todo generalizing done isbnEffect quotTime with
  | nil =>
      simp only [contextsOf, rowsOf, List.map_nil, List.not_mem_nil, List.getLast?_nil,
        reduceCtorEq, false_and, exists_false]
  | cons t ts ih =>
      have hhead : none = (columns (contextOf dict (recent 12 done).reverse t (ts.take 11)
          isbnEffect quotTime).1).map (write (contextOf dict (recent 12 done).reverse t
          (ts.take 11) isbnEffect quotTime).1) ↔ ts = [] ∧ ReadsNext t := by
        rw [eq_comm, Option.map_eq_none_iff, columns_eq_none_iff]
        have htake : ts.take 11 = [] ↔ ts = [] :=
          List.take_eq_nil_iff.trans (or_iff_right (by decide))
        simp only [contextOf, List.head?_eq_none_iff, htake]
        rfl
      rw [contextsOf, rowsOf, List.map_cons, List.mem_cons, hhead]
      have htail := ih (done ++ [updateDicts dict ts.head? t])
        (contextOf dict (recent 12 done).reverse t (ts.take 11) isbnEffect
          quotTime).1.trav.isbnEffect
        (contextOf dict (recent 12 done).reverse t (ts.take 11) isbnEffect quotTime).2
      rw [rowsOf] at htail
      rw [htail]
      cases ts with
      | nil =>
          simp only [List.getLast?_singleton, List.getLast?_nil, reduceCtorEq, false_and,
            exists_false, or_false, true_and, Option.some.injEq, exists_eq_left']
      | cons u us =>
          simp only [reduceCtorEq, false_and, false_or, List.getLast?_cons_cons]

/-- No NULL snapshot is read in the main loop exactly when the last token of the range, if
there is one, is not a word behind which the next token is read unconditionally. -/
theorem predict_reads_null_iff (ref : Reference) (junk : Nat → CrfNodeSnapshot)
    (refAreaStart : Nat) :
    (∃ e, predictLoop ref junk refAreaStart = some e ∧ ∀ row ∈ e.rows, row ≠ none) ↔
      ∀ t, (tokens ref refAreaStart).getLast? = some t → ¬ ReadsNext t := by
  obtain ⟨e, hloop, hrows, -⟩ := predictLoop_eq ref junk refAreaStart
  have hmem := none_mem_rowsOf (fun _ => samplestr) ref.dict [] (tokens ref refAreaStart) 0 0
  rw [← hrows] at hmem
  constructor
  · rintro ⟨e', he', hall⟩ t ht hread
    obtain rfl := Option.some.inj (hloop.symm.trans he')
    exact hall none (hmem.mpr ⟨t, ht, hread⟩) rfl
  · intro hlast
    refine ⟨e, hloop, fun row hrow hnone => ?_⟩
    obtain ⟨t, ht, hread⟩ := hmem.mp (hnone ▸ hrow)
    exact hlast t ht hread

/-- A text that is the word "in" makes the loop read through a NULL pointer. -/
theorem predict_reads_null_in :
    ¬ ∃ e, predictLoop (plainReference (bytes "in")) (fun _ => default) 0 = some e ∧
      ∀ row ∈ e.rows, row ≠ none := by
  rintro ⟨e, he, hall⟩
  obtain ⟨e', he', hrows, -⟩ := predictLoop_eq (plainReference (bytes "in")) (fun _ => default) 0
  obtain rfl := Option.some.inj (he.symm.trans he')
  have hlast : ((tokens (plainReference (bytes "in")) 0).getLast?).map (·.procflag) =
      some 1 := by decide +kernel
  obtain ⟨t, ht, hproc⟩ := Option.map_eq_some_iff.mp hlast
  refine hall none ?_ rfl
  rw [hrows, none_mem_rowsOf]
  exact ⟨t, ht, Or.inr hproc⟩

end CiteParser
