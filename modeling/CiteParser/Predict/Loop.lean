import CiteParser.Predict.Columns

/-!
# The main loop

`CitationInfoPredict` takes one token after another off `nextCNSQ`, describes it by what
the two queues hold around it, moves it to `preCNSQ` and enqueues one more token. The
body is shared with `genCRFSampleCtl`; `write` is what is done with the columns.
-/

namespace CiteParser

open Loop

/-- What a copy of the loop does with the columns of a token. -/
abbrev Writer := Context → List (List UInt8) → List UInt8

/-- The variables of the loop that both copies have. A row is `none` if describing the
token reads through a NULL pointer; what the program does from there on is undefined,
and the model goes on without a row. -/
structure WindowState where
  feed : Feed
  preCNSQ : CNSQ
  isbnEffect : Nat
  quotTime : Int
  rows : List (Option (List UInt8))

/-- Parts 0.0 to 0.2 of the body: the context of the token and `quotTime` after it. -/
def prepare (dict : Dict) (nextCNSQ preCNSQ : CNSQ) (isbnEffect : Nat) (quotTime : Int)
    (pCNS : CrfNodeSnapshot) : Option (Context × Int) := do
  let lpCNS := pastNElem preCNSQ 1
  let npCNS := nextNElem nextCNSQ 1
  let v ← lookAhead nextCNSQ (.init isbnEffect)
  let v ← lookBack preCNSQ pCNS v.turn
  let quot := quotStep quotTime pCNS.quotflag
  let pare := bracketStatus v.paraFlag pCNS.pareSflag pCNS.pareEflag
  let connect ← contentConnect preCNSQ (pare.within == 1)
  let context : Context :=
    { pCNS := updateDicts dict npCNS pCNS
      lpCNS := lpCNS
      npCNS := npCNS
      trav := v
      quot := quot.1
      pare := pare
      sqb := bracketStatus v.sqbFlag pCNS.sqbSflag pCNS.sqbEflag
      bra := bracketStatus v.braFlag pCNS.braSflag pCNS.braEflag
      connect := connect }
  return (context, quot.2)

/-- The body of the loop once the token in slot `p` has been dequeued. -/
def tokenStep (ref : Reference) (write : Writer) (p : Nat) (nextCNSQ : CNSQ)
    (w : WindowState) : WindowState :=
  let prepared := prepare ref.dict nextCNSQ w.preCNSQ w.isbnEffect w.quotTime (nextCNSQ.data p)
  -- `*pCNS` is the slot: the updates are made there and copied from there
  let nextCNSQ := nextCNSQ.set p
    (updateDicts ref.dict (nextNElem nextCNSQ 1) (nextCNSQ.data p))
  { feed := (enQueueNext ref { w.feed with queue := nextCNSQ }).1
    preCNSQ := enQueueWithDrop w.preCNSQ (nextCNSQ.data p)
    isbnEffect := (prepared.map (·.1.trav.isbnEffect)).getD w.isbnEffect
    quotTime := (prepared.map (·.2)).getD w.quotTime
    rows := w.rows ++ [prepared.bind fun c => (columns c.1).map (write c.1)] }

/-- The variables before the first `fillQueue`; the slots of the queues are junk. -/
def WindowState.start (junk : Nat → CrfNodeSnapshot) (refAreaStart : Nat) : WindowState where
  feed := ⟨clearQueue junk, refAreaStart, ' '.toUInt8⟩
  preCNSQ := clearQueue junk
  isbnEffect := 0
  quotTime := 0
  rows := []

/-- The variables when the main loop is reached. -/
def WindowState.filled (ref : Reference) (junk : Nat → CrfNodeSnapshot) (refAreaStart : Nat) :
    WindowState :=
  let w := WindowState.start junk refAreaStart
  { w with feed := fillQueue ref w.feed }

/-- The variables of `CitationInfoPredict`: those shared, and the spans of the tokens. -/
structure PredictState extends WindowState where
  lastOffset : Nat
  offsetCpQueue : List (Nat × Nat)

/-- The span pushed for a token. -/
def offsetCp (refAreaEnd lastOffset : Nat) (pCNS : CrfNodeSnapshot) : Nat × Nat :=
  (lastOffset, if pCNS.offset = 0 then refAreaEnd else lastOffset + pCNS.offset)

/-- A pass of the main loop of `CitationInfoPredict`. -/
def predictStep (ref : Reference) (s : PredictState) : Outcome PredictState PredictState :=
  match ftDeQueue s.feed.queue with
  | none => .exit s
  | some (p, nextCNSQ) =>
      let cp := offsetCp ref.refAreaEnd s.lastOffset (nextCNSQ.data p)
      .next
        { toWindowState := tokenStep ref (fun _ => samplestr) p nextCNSQ s.toWindowState
          lastOffset := cp.2
          offsetCpQueue := s.offsetCpQueue ++ [cp] }

def PredictState.init (ref : Reference) (junk : Nat → CrfNodeSnapshot) (refAreaStart : Nat) :
    PredictState :=
  { toWindowState := WindowState.filled ref junk refAreaStart
    lastOffset := refAreaStart
    offsetCpQueue := [] }

/-- The states at the head of the main loop; the range bounds their number. -/
def predictStates (ref : Reference) (junk : Nat → CrfNodeSnapshot) (refAreaStart : Nat) :
    List PredictState :=
  visited (predictStep ref) (ref.refAreaEnd + 2) (.init ref junk refAreaStart)

/-- The state in which the main loop of `CitationInfoPredict(refAreaStart, refAreaEnd)`
is left. -/
def predictLoop (ref : Reference) (junk : Nat → CrfNodeSnapshot) (refAreaStart : Nat) :
    Option PredictState :=
  run (predictStep ref) (ref.refAreaEnd + 2) (.init ref junk refAreaStart)

/-! ## One pass, on lists -/

/-- The context of a token from the tokens behind it, newest first, and those ahead. -/
def contextOf (dict : Dict) (past : List CrfNodeSnapshot) (t : CrfNodeSnapshot)
    (ahead : List CrfNodeSnapshot) (isbnEffect : Nat) (quotTime : Int) : Context × Int :=
  let v := behindOf t past (aheadOf ahead (.init isbnEffect)).turn
  let pare := bracketStatus v.paraFlag t.pareSflag t.pareEflag
  let context : Context :=
    { pCNS := updateDicts dict ahead.head? t
      lpCNS := past.head?
      npCNS := ahead.head?
      trav := v
      quot := (quotStep quotTime t.quotflag).1
      pare := pare
      sqb := bracketStatus v.sqbFlag t.sqbSflag t.sqbEflag
      bra := bracketStatus v.braFlag t.braSflag t.braEflag
      connect := if pare.within == 1 then connectOf past else 0 }
  (context, (quotStep quotTime t.quotflag).2)

/-- The context is found on the queues without reading through a NULL pointer. -/
theorem prepare_eq (dict : Dict) (nextCNSQ preCNSQ : CNSQ) (isbnEffect : Nat) (quotTime : Int)
    (t : CrfNodeSnapshot) :
    prepare dict nextCNSQ preCNSQ isbnEffect quotTime t =
      some (contextOf dict preCNSQ.elems.reverse t nextCNSQ.elems isbnEffect quotTime) := by
  have hnext : nextNElem nextCNSQ 1 = nextCNSQ.elems.head? := by
    rw [List.head?_eq_getElem?]
    exact Ring.next_succ nextCNSQ 0
  have hpast : pastNElem preCNSQ 1 = preCNSQ.elems.reverse.head? := by
    rw [List.head?_eq_getElem?]
    exact Ring.past_succ preCNSQ 0
  simp only [prepare, lookAhead_eq, lookBack_eq, contentConnect_eq, hnext, hpast,
    Option.bind_eq_bind, Option.bind_some, Option.pure_def, contextOf]

/-- The two windows of the loop: the next tokens of `todo` are at hand, and the last
tokens of `done` are kept. -/
structure WindowInv (ref : Reference) (done todo : List CrfNodeSnapshot) (w : WindowState) :
    Prop where
  ahead : Prefetched ref.snapshots 12 todo w.feed.queue.elems w.feed.at
  behind : w.preCNSQ.elems = recent 12 done

/-- The loop is left exactly when no token is left. -/
theorem WindowInv.dequeue_nil {ref : Reference} {done : List CrfNodeSnapshot} {w : WindowState}
    (h : WindowInv ref done [] w) : ftDeQueue w.feed.queue = none :=
  Ring.pop_none.mpr ((h.ahead.eq_nil_iff (by decide)).mpr rfl)

/-- The token dequeued is the next one, and the queue then holds those behind it. -/
theorem WindowInv.dequeue_cons {ref : Reference} {done ts : List CrfNodeSnapshot}
    {t : CrfNodeSnapshot} {w : WindowState} (h : WindowInv ref done (t :: ts) w) :
    ∃ p Q, ftDeQueue w.feed.queue = some (p, Q) ∧ Q.data p = t ∧ Q.elems = ts.take 11 ∧
      p = Q.front := by
  cases hpop : w.feed.queue.pop with
  | none =>
      have hnil := (h.ahead.eq_nil_iff (by decide)).mp (Ring.pop_none.mp hpop)
      contradiction
  | some pQ =>
      obtain ⟨p, Q⟩ := pQ
      obtain ⟨helems, hfront, hdata⟩ := Ring.pop_some hpop
      rw [h.ahead.window, List.take_succ_cons] at helems
      obtain ⟨ht, hts⟩ := List.cons.inj helems
      exact ⟨p, Q, hpop, by rw [hdata, ht], hts.symm, hfront⟩

/-- Storing a token among those behind keeps the last twelve. -/
theorem elems_enQueueWithDrop {Q : CNSQ} {done : List CrfNodeSnapshot}
    (h : Q.elems = recent 12 done) (t : CrfNodeSnapshot) :
    (enQueueWithDrop Q t).elems = recent 12 (done ++ [t]) := by
  have hdrop := Ring.elems_pushDrop Q (by decide) t
  rw [h] at hdrop
  exact hdrop.trans (recent_append 12 (by decide) done t)

/-- What a pass leaves behind: the windows have moved on by one token, the variables
carried over are those of the token's context and its row has been written. -/
theorem WindowInv.step {ref : Reference} {done ts : List CrfNodeSnapshot} {t : CrfNodeSnapshot}
    {w : WindowState} (write : Writer) (h : WindowInv ref done (t :: ts) w) {p : Nat} {Q : CNSQ}
    (hpop : ftDeQueue w.feed.queue = some (p, Q)) :
    WindowInv ref (done ++ [updateDicts ref.dict ts.head? t]) ts (tokenStep ref write p Q w) ∧
    ((tokenStep ref write p Q w).isbnEffect =
        (contextOf ref.dict (recent 12 done).reverse t (ts.take 11)
          w.isbnEffect w.quotTime).1.trav.isbnEffect ∧
      (tokenStep ref write p Q w).quotTime =
        (contextOf ref.dict (recent 12 done).reverse t (ts.take 11)
          w.isbnEffect w.quotTime).2 ∧
      (tokenStep ref write p Q w).rows = w.rows ++
        [(columns (contextOf ref.dict (recent 12 done).reverse t (ts.take 11)
            w.isbnEffect w.quotTime).1).map
          (write (contextOf ref.dict (recent 12 done).reverse t (ts.take 11)
            w.isbnEffect w.quotTime).1)]) := by
  obtain ⟨p', Q', hpop', hdata, helems, hfront⟩ := h.dequeue_cons
  rw [hpop, Option.some.injEq, Prod.mk.injEq] at hpop'
  obtain ⟨rfl, rfl⟩ := hpop'
  have hprep := prepare_eq ref.dict Q w.preCNSQ w.isbnEffect w.quotTime (Q.data p)
  rw [hdata, h.behind, helems] at hprep
  have hhead : nextNElem Q 1 = ts.head? := by
    have hnext : nextNElem Q 1 = Q.elems[0]? := Ring.next_succ Q 0
    rw [hnext, helems, List.getElem?_take_of_lt (by decide), List.head?_eq_getElem?]
  have hahead : Prefetched ref.snapshots 12 (t :: ts) (t :: Q.elems) w.feed.at := by
    rw [helems, ← List.take_succ_cons, ← h.ahead.window]
    exact h.ahead
  refine ⟨⟨?_, ?_⟩, ?_, ?_, ?_⟩
  · refine Prefetched.refill t ?_
    rwa [hfront, Ring.elems_set_front]
  · simp only [tokenStep, Ring.set_data_self, hdata, hhead]
    exact elems_enQueueWithDrop h.behind _
  · simp only [tokenStep, hdata, hprep, Option.map_some, Option.getD_some]
  · simp only [tokenStep, hdata, hprep, Option.map_some, Option.getD_some]
  · simp only [tokenStep, hdata, hprep, Option.bind_some]

/-! ## The loop as a function of the tokens -/

/-- The contexts of the tokens `todo`, given those already done. -/
def contextsOf (dict : Dict) :
    List CrfNodeSnapshot → List CrfNodeSnapshot → Nat → Int → List Context
  | _, [], _, _ => []
  | done, t :: ts, isbnEffect, quotTime =>
      let c := contextOf dict (recent 12 done).reverse t (ts.take 11) isbnEffect quotTime
      c.1 :: contextsOf dict (done ++ [updateDicts dict ts.head? t]) ts c.1.trav.isbnEffect c.2

/-- Every token has one context. -/
@[simp] theorem length_contextsOf (dict : Dict) (done todo : List CrfNodeSnapshot)
    (isbnEffect : Nat) (quotTime : Int) :
    (contextsOf dict done todo isbnEffect quotTime).length = todo.length := by
  induction todo generalizing done isbnEffect quotTime with
  | nil => rfl
  | cons t ts ih => rw [contextsOf, List.length_cons, List.length_cons, ih]

/-- A row for each context. -/
def rowsOf (write : Writer) (contexts : List Context) : List (Option (List UInt8)) :=
  contexts.map fun c => (columns c).map (write c)

/-- The tokens as they are copied into `preCNSQ`, each updated by its successor. -/
def updated (dict : Dict) : List CrfNodeSnapshot → List CrfNodeSnapshot
  | [] => []
  | t :: ts => updateDicts dict ts.head? t :: updated dict ts

/-- The token of each context is the one that is copied into `preCNSQ`. -/
theorem map_pCNS_contextsOf (dict : Dict) (done todo : List CrfNodeSnapshot) (isbnEffect : Nat)
    (quotTime : Int) :
    (contextsOf dict done todo isbnEffect quotTime).map (·.pCNS) = updated dict todo := by
  induction todo generalizing done isbnEffect quotTime with
  | nil => rfl
  | cons t ts ih =>
      rw [contextsOf, List.map_cons, ih, updated]
      cases ts <;> rfl

/-- Each token is updated by the one behind it. -/
theorem getElem?_updated (dict : Dict) (ts : List CrfNodeSnapshot) (k : Nat) :
    (updated dict ts)[k]? = (ts[k]?).map (updateDicts dict ts[k + 1]?) := by
  induction ts generalizing k with
  | nil => rfl
  | cons t ts ih =>
      cases k with
      | zero => rw [updated, List.head?_eq_getElem?]; rfl
      | succ k => rw [updated, List.getElem?_cons_succ, ih, List.getElem?_cons_succ,
          List.getElem?_cons_succ]

/-- A loop whose body is the shared one, on the shared part of its state. -/
structure IsMainLoop {σ : Type} (ref : Reference) (write : Writer) (view : σ → WindowState)
    (body : σ → Outcome σ σ) : Prop where
  leave : ∀ s, ftDeQueue (view s).feed.queue = none → body s = .exit s
  pass : ∀ s p Q, ftDeQueue (view s).feed.queue = some (p, Q) →
    ∃ s', body s = .next s' ∧ view s' = tokenStep ref write p Q (view s)

section MainLoop

variable {σ : Type} {ref : Reference} {write : Writer} {view : σ → WindowState}
  {body : σ → Outcome σ σ}

/-- A pass takes the next token. -/
theorem IsMainLoop.next (hloop : IsMainLoop ref write view body) {done ts : List CrfNodeSnapshot}
    {t : CrfNodeSnapshot} {s : σ} (h : WindowInv ref done (t :: ts) (view s)) :
    ∃ p Q s', ftDeQueue (view s).feed.queue = some (p, Q) ∧ Q.data p = t ∧
      Q.elems = ts.take 11 ∧ p = Q.front ∧ body s = .next s' ∧
      view s' = tokenStep ref write p Q (view s) := by
  obtain ⟨p, Q, hpop, hdata, helems, hfront⟩ := h.dequeue_cons
  obtain ⟨s', hnext, hview⟩ := hloop.pass s p Q hpop
  exact ⟨p, Q, s', hpop, hdata, helems, hfront, hnext, hview⟩

/-- The loop ends with a row for each token; `J` is whatever else its passes keep, said
of the tokens still to come. -/
theorem IsMainLoop.run (hloop : IsMainLoop ref write view body)
    (J : List CrfNodeSnapshot → σ → Prop)
    (hJ : ∀ t ts s s' p Q, ftDeQueue (view s).feed.queue = some (p, Q) → Q.data p = t →
      body s = .next s' → J (t :: ts) s → J ts s')
    (done todo : List CrfNodeSnapshot) (s : σ) (h : WindowInv ref done todo (view s))
    (hs : J todo s) {fuel : Nat} (hf : todo.length < fuel) :
    ∃ e, Loop.run body fuel s = some e ∧ J [] e ∧
      (view e).rows = (view s).rows ++
        rowsOf write (contextsOf ref.dict done todo (view s).isbnEffect (view s).quotTime) := by
  induction todo generalizing done s fuel with
  | nil =>
      obtain ⟨fuel, rfl⟩ : ∃ k, fuel = k + 1 := ⟨fuel - 1, by omega⟩
      refine ⟨s, run_exit (hloop.leave s h.dequeue_nil) fuel, hs, ?_⟩
      rw [contextsOf, rowsOf, List.map_nil, List.append_nil]
  | cons t ts ih =>
      obtain ⟨fuel, rfl⟩ : ∃ k, fuel = k + 1 := ⟨fuel - 1, by omega⟩
      obtain ⟨p, Q, s', hpop, hdata, -, -, hnext, hview⟩ := hloop.next h
      obtain ⟨hinv, hisbn, hquot, hrows⟩ := h.step write hpop
      rw [← hview] at hinv hisbn hquot hrows
      obtain ⟨e, hrun, hend, herows⟩ := ih _ s' hinv
        (hJ t ts s s' p Q hpop hdata hnext hs) (Nat.lt_of_succ_lt_succ hf)
      refine ⟨e, ?_, hend, ?_⟩
      · rw [run_next hnext]
        exact hrun
      · rw [herows, hisbn, hquot, hrows]
        simp only [contextsOf, rowsOf, List.map_cons, List.append_assoc, List.singleton_append]

/-- What the two queues hold at the head of pass `k`, for every pass and at the end. -/
theorem IsMainLoop.visited (hloop : IsMainLoop ref write view body)
    (done todo : List CrfNodeSnapshot) (s : σ) (h : WindowInv ref done todo (view s))
    {fuel : Nat} (hf : todo.length < fuel) :
    (Loop.visited body fuel s).length = todo.length + 1 ∧
      ∀ k, k ≤ todo.length → ∃ v, (Loop.visited body fuel s)[k]? = some v ∧
        WindowInv ref (done ++ (updated ref.dict todo).take k) (todo.drop k) (view v) := by
  induction todo generalizing done s fuel with
  | nil =>
      obtain ⟨fuel, rfl⟩ : ∃ k, fuel = k + 1 := ⟨fuel - 1, by omega⟩
      have hexit := hloop.leave s h.dequeue_nil
      simp only [Loop.visited, hexit, List.length_cons, List.length_nil, true_and]
      intro k hk
      obtain rfl : k = 0 := Nat.le_zero.mp hk
      refine ⟨s, rfl, ?_⟩
      rwa [List.take_zero, List.append_nil, List.drop_zero]
  | cons t ts ih =>
      obtain ⟨fuel, rfl⟩ : ∃ k, fuel = k + 1 := ⟨fuel - 1, by omega⟩
      obtain ⟨p, Q, s', hpop, -, -, -, hnext, hview⟩ := hloop.next h
      obtain ⟨hinv, -⟩ := h.step write hpop
      rw [← hview] at hinv
      obtain ⟨hlen, hall⟩ := ih _ s' hinv (Nat.lt_of_succ_lt_succ hf)
      simp only [Loop.visited, hnext, List.length_cons, hlen, true_and]
      intro k hk
      cases k with
      | zero =>
          refine ⟨s, rfl, ?_⟩
          rwa [List.take_zero, List.append_nil, List.drop_zero]
      | succ k =>
          obtain ⟨v, hv, hvinv⟩ := hall k (Nat.le_of_succ_le_succ hk)
          refine ⟨v, hv, ?_⟩
          rwa [updated, List.take_succ_cons, List.drop_succ_cons, List.append_cons]

end MainLoop

/-- The snapshots `T_1` to `T_n` of a reference range, taken without any queue. -/
def tokens (ref : Reference) (refAreaStart : Nat) : List CrfNodeSnapshot :=
  ref.snapshots.items (refAreaStart, ' '.toUInt8)

/-- When the main loop is reached its windows are in place. -/
theorem windowInv_filled (ref : Reference) (junk : Nat → CrfNodeSnapshot) (refAreaStart : Nat) :
    WindowInv ref [] (tokens ref refAreaStart) (WindowState.filled ref junk refAreaStart) where
  ahead := by
    refine prefetched_fillQueue ref (WindowState.start junk refAreaStart).feed ?_
    have hempty : (clearQueue junk).elems = [] := Ring.elems_clear junk (by decide)
    simp only [WindowState.start, hempty, List.nil_append, tokens, Feed.at]
  behind := (Ring.elems_clear junk (by decide)).trans (recent_nil 12).symm

/-- A range has no more tokens than characters. -/
theorem length_tokens_le (ref : Reference) (refAreaStart : Nat) :
    (tokens ref refAreaStart).length ≤ ref.refAreaEnd - refAreaStart := by
  have hlen : ∀ s, (ref.snapshots.items s).length ≤ ref.refAreaEnd - s.1 := by
    intro s
    induction s using ref.snapshots.induct with
    | hnone s h =>
        rw [Source.items_none _ h]
        exact Nat.zero_le _
    | hsome s t s' h ih =>
        obtain ⟨hmove, hpos, hle, -, -⟩ := Reference.next_some h
        rw [Source.items_some _ h, List.length_cons]
        omega
  exact hlen (refAreaStart, ' '.toUInt8)

end CiteParser
