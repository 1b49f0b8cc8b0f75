import CiteParser.Predict.Streaming
import CiteParser.Store.Tokens

/-!
# Training samples

`genCRFSampleCtl` runs the same loop over the same text as `CitationInfoPredict`, fills in
the field `token` from the tags and prints a line for each token: a label and a value for
each column, and the answer. The two loops agree on every value; the labels make every
line differ from the observation that prediction passes to the tagger.
-/

namespace CiteParser

open Loop

/-- `filteredTokenId`: the outermost tag at an offset that is not `RefA`, `SinRef` or
`note`, 0 if there is none or the offset lies behind the text. -/
def filteredTokenId (mypclen : Nat) (tags : Nat → UInt32) (offset : Nat) : Nat :=
  if mypclen ≤ offset then 0
  else ((popAll 8 (tags offset)).filter fun id => id != 1 && id != 2 && id != 10).getLastD 0

/-- What `genCRFSampleCtl` reads: the reference with the tags of its text. -/
def sampleReference (ref : Reference) (mypclen : Nat) (tags : Nat → UInt32) : Reference :=
  { ref with tokenId := fun _ tkcheck => filteredTokenId mypclen tags (tkcheck.getD 0) }

/-- An answer is a digit of a packed stack, so the table has a cell for it. -/
theorem filteredTokenId_lt (mypclen : Nat) (tags : Nat → UInt32) (offset : Nat) :
    filteredTokenId mypclen tags offset < TOKEN_MAX_LEN := by
  have hdigits : ∀ n tp, ∀ id ∈ popAll n tp, id < TOKEN_MAX_LEN := by
    intro n
    induction n with
    | zero => exact fun tp id hid => absurd hid List.not_mem_nil
    | succ n ih =>
        intro tp
        rw [popAll]
        split
        · exact fun id hid => absurd hid List.not_mem_nil
        · refine List.forall_mem_cons.mpr ⟨?_, ih _⟩
          rw [tokenPop, UInt32.toNat_mod]
          exact Nat.mod_lt _ (by decide)
  have hpos : 0 < TOKEN_MAX_LEN := by decide
  rw [filteredTokenId]
  split
  · exact hpos
  · rw [List.getLastD_eq_getLast?]
    generalize hlast : ((popAll 8 (tags offset)).filter fun id =>
      id != 1 && id != 2 && id != 10).getLast? = last
    cases last with
    | none => exact hpos
    | some id => exact hdigits _ _ id (List.mem_of_mem_filter (List.mem_of_getLast? hlast))

/-- `%s` of a name of the table. -/
def nameOf (repo : TokenRepo) (id : Nat) : List UInt8 :=
  if h : id < TOKEN_MAX_LEN then (id2Token repo ⟨id, h⟩).getD (bytes "(null)")
  else [] -- there are no such answers

/-- The answer column: a token between two authors or two editors counts as theirs. -/
def answer (repo : TokenRepo) (c : Context) : List UInt8 :=
  let own := if c.pCNS.token = 0 then bytes "other" else nameOf repo c.pCNS.token
  match c.lpCNS, c.npCNS with
  | some lp, some np =>
      if (lp.token = 3 ∧ np.token = 3) ∨ (lp.token = 6 ∧ np.token = 6) then nameOf repo lp.token
      else own
  | _, _ => own

/-- The line printed for a token. -/
def sampleWriter (repo : TokenRepo) : Writer := fun c cols =>
  sampleLine cols ++ answer repo c ++ ['\n'.toUInt8]

/-- A pass of the main loop of `genCRFSampleCtl`. -/
def sampleStep (ref : Reference) (repo : TokenRepo) (w : WindowState) :
    Outcome WindowState WindowState :=
  match ftDeQueue w.feed.queue with
  | none => .exit w
  | some (p, nextCNSQ) => .next (tokenStep ref (sampleWriter repo) p nextCNSQ w)

/-- The state in which the main loop of `genCRFSampleCtl` is left. -/
def sampleLoop (ref : Reference) (repo : TokenRepo) (junk : Nat → CrfNodeSnapshot)
    (refAreaStart : Nat) : Option WindowState :=
  run (sampleStep ref repo) (ref.refAreaEnd + 2) (.filled ref junk refAreaStart)

/-- The loop of `genCRFSampleCtl` is the shared one. -/
theorem isMainLoop_sample (ref : Reference) (repo : TokenRepo) :
    IsMainLoop ref (sampleWriter repo) id (sampleStep ref repo) where
  leave := fun w h => by
    have h' : ftDeQueue w.feed.queue = none := h
    simp only [sampleStep, h']
  pass := fun w p Q h => by
    have h' : ftDeQueue w.feed.queue = some (p, Q) := h
    exact ⟨_, by simp only [sampleStep, h']; rfl, rfl⟩

/-- The training loop ends with a line for each token. -/
theorem sampleLoop_eq (ref : Reference) (repo : TokenRepo) (junk : Nat → CrfNodeSnapshot)
    (refAreaStart : Nat) :
    ∃ e, sampleLoop ref repo junk refAreaStart = some e ∧
      e.rows = rowsOf (sampleWriter repo)
        (contextsOf ref.dict [] (tokens ref refAreaStart) 0 0) := by
  have hlen := length_tokens_le ref refAreaStart
  obtain ⟨e, hrun, -, hrows⟩ := (isMainLoop_sample ref repo).run (fun _ _ => True)
    (fun _ _ _ _ _ _ _ _ _ _ => trivial) [] (tokens ref refAreaStart)
    (.filled ref junk refAreaStart) (windowInv_filled ref junk refAreaStart) trivial
    (show _ < ref.refAreaEnd + 2 by omega)
  exact ⟨e, hrun, hrows⟩

/-! ## The columns do not depend on the tags -/

/-- A snapshot without its answer. -/
def eraseToken (t : CrfNodeSnapshot) : CrfNodeSnapshot := { t with token := 0 }

/-- A context without the answers in it. -/
def eraseTokens (c : Context) : Context :=
  { c with
    pCNS := eraseToken c.pCNS
    lpCNS := c.lpCNS.map eraseToken
    npCNS := c.npCNS.map eraseToken }

theorem foldFrom_map {α β γ : Type*} (f : Nat → β → α → β) (g : γ → α) (i : Nat) (l : List γ)
    (v : β) : foldFrom f i (l.map g) v = foldFrom (fun i v t => f i v (g t)) i l v := by
  induction l generalizing i v with
  | nil => rfl
  | cons t l ih => exact ih (i + 1) (f i v (g t))

theorem aheadOf_erase (ahead : List CrfNodeSnapshot) (v : Traversal) :
    aheadOf (ahead.map eraseToken) v = aheadOf ahead v := by
  rw [aheadOf, ← List.map_dropLast, foldFrom_map]
  rfl

theorem behindOf_erase (t : CrfNodeSnapshot) (past : List CrfNodeSnapshot) (v : Traversal) :
    behindOf (eraseToken t) (past.map eraseToken) v = behindOf t past v := by
  rw [behindOf, ← List.map_cons, ← List.map_dropLast, foldFrom_map]
  rfl

theorem connectOf_erase (past : List CrfNodeSnapshot) :
    connectOf (past.map eraseToken) = connectOf past := by
  induction past with
  | nil => rfl
  | cons t rest ih =>
      cases rest with
      | nil => rfl
      | cons t' rest =>
          simp only [List.map_cons, connectOf] at ih ⊢
          rw [ih]
          rfl

theorem updateDicts_erase (dict : Dict) (np : Option CrfNodeSnapshot) (t : CrfNodeSnapshot) :
    updateDicts dict (np.map eraseToken) (eraseToken t) = eraseToken (updateDicts dict np t) := by
  cases np <;> rfl

/-- The context of tokens without answers is the context without answers. -/
theorem contextOf_erase (dict : Dict) (past : List CrfNodeSnapshot) (t : CrfNodeSnapshot)
    (ahead : List CrfNodeSnapshot) (isbnEffect : Nat) (quotTime : Int) :
    contextOf dict (past.map eraseToken) (eraseToken t) (ahead.map eraseToken) isbnEffect
        quotTime =
      (eraseTokens (contextOf dict past t ahead isbnEffect quotTime).1,
        (contextOf dict past t ahead isbnEffect quotTime).2) := by
  simp only [contextOf, aheadOf_erase, behindOf_erase, connectOf_erase, List.head?_map,
    updateDicts_erase, eraseTokens]
  rfl

/-- The contexts of tokens without answers are the contexts without answers. -/
theorem contextsOf_erase (dict : Dict) (done todo : List CrfNodeSnapshot) (isbnEffect : Nat)
    (quotTime : Int) :
    contextsOf dict (done.map eraseToken) (todo.map eraseToken) isbnEffect quotTime =
      (contextsOf dict done todo isbnEffect quotTime).map eraseTokens := by
  induction todo generalizing done isbnEffect quotTime with
  | nil => rfl
  | cons t ts ih =>
      rw [List.map_cons, contextsOf, contextsOf, List.map_cons]
      have hdone : done.map eraseToken ++ [updateDicts dict (ts.map eraseToken).head?
          (eraseToken t)] = (done ++ [updateDicts dict ts.head? t]).map eraseToken := by
        rw [List.head?_map, updateDicts_erase, List.map_append, List.map_singleton]
      simp only [hdone, ← map_recent, ← List.map_reverse, ← List.map_take, contextOf_erase]
      rw [← ih]
      rfl

/-- The columns do not depend on the answers. -/
theorem columns_eraseTokens (c : Context) : columns (eraseTokens c) = columns c := by
  obtain ⟨pCNS, lpCNS, npCNS, _⟩ := c
  cases lpCNS <;> cases npCNS <;> rfl

/-! ## Reading columns back -/

/-- The columns of a line: what stands before each of its first 74 tabs. -/
def columnsIn (line : List UInt8) : List (List UInt8) :=
  (line.splitOn tab).take sampleLabels.length

/-- A column that a tab ends and no zero byte cuts short. -/
def CleanColumn (col : List UInt8) : Prop := ∀ c ∈ col, c ≠ tab ∧ c ≠ 0

instance (col : List UInt8) : Decidable (CleanColumn col) :=
  inferInstanceAs (Decidable (∀ c ∈ col, c ≠ tab ∧ c ≠ 0))

theorem cleanColumn_append {a b : List UInt8} (ha : CleanColumn a) (hb : CleanColumn b) :
    CleanColumn (a ++ b) := by
  intro c hc
  rcases List.mem_append.mp hc with hc | hc
  · exact ha c hc
  · exact hb c hc

/-- A printed number is clean. -/
theorem cleanColumn_dec (n : Int) : CleanColumn (dec n) := by
  intro c hc
  refine ⟨?_, ne_zero_of_mem_dec hc⟩
  rintro rfl
  rcases mem_dec hc with he | ⟨hlow, -⟩
  · contradiction
  · exact absurd hlow (by decide)

/-- Clean parts with slashes between them are clean. -/
theorem cleanColumn_slashed {parts : List (List UInt8)} (h : ∀ p ∈ parts, CleanColumn p) :
    CleanColumn (slashed parts) := by
  have hslash : CleanColumn (bytes "/") := by decide +kernel
  rw [slashed]
  induction parts with
  | nil => exact fun c hc => absurd hc List.not_mem_nil
  | cons p ps ih =>
      cases ps with
      | nil =>
          rw [List.intercalate_singleton]
          exact h p List.mem_cons_self
      | cons q qs =>
          rw [List.intercalate_cons_cons]
          exact cleanColumn_append (cleanColumn_append (h p List.mem_cons_self) hslash)
            (ih fun r hr => h r (List.mem_cons_of_mem _ hr))

/-- Lower case is as clean as the character. -/
theorem toLower_clean :
    ∀ c : UInt8, (c ≠ tab ∧ c ≠ 0) → toLower c ≠ tab ∧ toLower c ≠ 0 := by decide +kernel

/-- A character of a clean token is a clean column part, in lower case. -/
theorem cleanColumn_charAt {str : List UInt8} (h : CleanColumn str) {i : Nat}
    (hi : i < str.length) : CleanColumn [toLower (charAt str i)] := by
  intro c hc
  obtain rfl := List.mem_singleton.mp hc
  refine toLower_clean _ (h _ ?_)
  rw [charAt, List.getD_eq_getElem?_getD, List.getElem?_eq_getElem hi]
  exact List.getElem_mem hi

/-- The columns of a token that is not empty are clean. -/
theorem cleanColumn_columns {c : Context} {cols : List (List UInt8)} (h : columns c = some cols)
    (hstr : CleanColumn c.pCNS.str) (hne : 0 < c.pCNS.slen)
    (hlen : c.pCNS.slen = c.pCNS.str.length) : ∀ col ∈ cols, CleanColumn col := by
  simp only [columns, Option.bind_eq_bind, Option.bind_eq_some_iff, Option.pure_def,
    Option.some.injEq] at h
  obtain ⟨phdflag, -, inName, -, rfl⟩ := h
  have hX : CleanColumn ['X'.toUInt8] := by decide +kernel
  have hpair : ∀ a b, CleanColumn [a] → CleanColumn [b] → CleanColumn (slashed [[a], [b]]) :=
    fun a b ha hb => cleanColumn_slashed fun p hp => by
      rcases List.mem_pair.mp hp with rfl | rfl
      · exact ha
      · exact hb
  have hnumbers : ∀ ns : List Int, CleanColumn (slashed (ns.map dec)) :=
    fun ns => cleanColumn_slashed fun p hp => by
      obtain ⟨n, -, rfl⟩ := List.mem_map.mp hp
      exact cleanColumn_dec n
  have hnil : ∀ col ∈ ([] : List (List UInt8)), CleanColumn col :=
    fun col hcol => absurd hcol List.not_mem_nil
  have hbasic : ∀ col ∈ basicColumns c, CleanColumn col := by
    simp only [basicColumns, List.forall_mem_cons, decBool, decChar, cleanColumn_dec, true_and]
    refine ⟨hstr, hpair _ _ ?_ ?_, hpair _ _ ?_ ?_, hnil⟩
    · exact cleanColumn_charAt hstr (by omega)
    · split
      · exact cleanColumn_charAt hstr (by omega)
      · exact hX
    · split
      · exact cleanColumn_charAt hstr (by omega)
      · exact hX
    · exact cleanColumn_charAt hstr (by omega)
  have hstatus : ∀ col ∈ statusColumns c, CleanColumn col := by
    intro col hcol
    obtain ⟨st, -, hcol⟩ := List.mem_flatMap.mp hcol
    simp only [List.mem_cons, List.not_mem_nil, or_false] at hcol
    rcases hcol with rfl | rfl | rfl <;> exact cleanColumn_dec _
  have hflag : ∀ col ∈ flagColumns c phdflag, CleanColumn col := by
    simp only [flagColumns, List.forall_mem_cons, decBool, cleanColumn_dec, true_and]
    exact ⟨hnumbers [_, _, _, _], hnumbers [_, _], hnumbers [_, _], hnumbers [_, _], hnil⟩
  have heffect : ∀ col ∈ effectColumns c inName, CleanColumn col := by
    simp only [effectColumns, List.forall_mem_cons, decBool, decChar, cleanColumn_dec, true_and]
    exact ⟨hnumbers [_, _], hnumbers [_, _], hnil⟩
  intro col hcol
  simp only [List.mem_append] at hcol
  rcases hcol with ((hcol | hcol) | hcol) | hcol
  · exact hbasic col hcol
  · exact hstatus col hcol
  · exact hflag col hcol
  · exact heffect col hcol

/-- Clean columns are read back as they were printed. -/
theorem splitOn_columns {cols : List (List UInt8)} (h : ∀ col ∈ cols, tab ∉ col)
    (rest : List UInt8) :
    (cols.flatMap (fun col => col ++ [tab]) ++ rest).splitOn tab = cols ++ rest.splitOn tab := by
  induction cols with
  | nil => rfl
  | cons col cols ih =>
      rw [List.flatMap_cons, List.append_assoc, List.append_assoc, List.singleton_append,
        List.splitOn_append_cons_self_of_not_mem (h col List.mem_cons_self),
        ih fun c hc => h c (List.mem_cons_of_mem _ hc)]
      rfl

/-- A clean column is appended to the observation whole. -/
theorem cstr_column {col : List UInt8} (h : CleanColumn col) :
    cstr (col ++ [tab]) = col ++ [tab] := by
  refine cstr_eq_self fun b hb => ?_
  rcases List.mem_append.mp hb with hb | hb
  · exact (h b hb).2
  · exact List.mem_singleton.mp hb ▸ by decide

/-- Clean columns reach the tagger whole. -/
theorem samplestr_eq {cols : List (List UInt8)} (h : ∀ col ∈ cols, CleanColumn col) :
    samplestr cols = cols.flatMap fun col => col ++ [tab] :=
  List.flatMap_congr fun col hcol => cstr_column (h col hcol)

/-- No label ends a column. -/
theorem tab_not_mem_sampleLabels : ∀ label ∈ sampleLabels, tab ∉ label := by decide +kernel

/-- The tokens of a range are clean. -/
theorem cleanColumn_tokens (ref : Reference) (refAreaStart : Nat) :
    ∀ t ∈ tokens ref refAreaStart, CleanColumn t.str ∧ t.slen = t.str.length := by
  have hclean : ∀ s, ∀ t ∈ ref.snapshots.items s, CleanColumn t.str ∧ t.slen = t.str.length := by
    intro s
    induction s using ref.snapshots.induct with
    | hnone s h =>
        rw [Source.items_none _ h]
        exact fun t ht => absurd ht List.not_mem_nil
    | hsome s t s' h ih =>
        rw [Source.items_some _ h]
        intro u hu
        rcases List.mem_cons.mp hu with rfl | hu
        · refine ⟨fun c hc => ?_, (Reference.next_some h).2.2.2.2⟩
          obtain ⟨hdel, hzero⟩ := Reference.str_clean h c hc
          refine ⟨fun he => ?_, hzero⟩
          rw [he] at hdel
          exact absurd hdel (by decide)
        · exact ih u hu
  exact hclean (refAreaStart, ' '.toUInt8)

/-! ## The two copies side by side -/

/-- Apart from the answers the two copies see the same tokens. -/
theorem map_eraseToken_tokens (ref : Reference) (tokenId : Nat → Option Nat → Nat)
    (refAreaStart : Nat) :
    (tokens { ref with tokenId := tokenId } refAreaStart).map eraseToken =
      (tokens ref refAreaStart).map eraseToken := by
  have herase : ∀ f : Nat → Option Nat → Nat,
      tokens { ref with tokenId := fun _ _ => 0 } refAreaStart =
        (tokens { ref with tokenId := f } refAreaStart).map eraseToken := by
    intro f
    refine Source.items_map _ _ eraseToken (fun s => ?_) _
    have htoken : ∀ (g : Nat → Option Nat → Nat) (cur : Nat),
        Reference.token { ref with tokenId := g } cur = ref.token cur := fun _ _ => rfl
    simp only [Reference.snapshots, Reference.next, htoken]
    split <;> rfl
  rw [← herase tokenId, ← herase ref.tokenId]

/-- Apart from the answers the two copies see the same contexts. -/
theorem map_eraseTokens_contexts (ref : Reference) (tokenId : Nat → Option Nat → Nat)
    (refAreaStart : Nat) :
    (contextsOf ref.dict [] (tokens { ref with tokenId := tokenId } refAreaStart) 0 0).map
        eraseTokens =
      (contextsOf ref.dict [] (tokens ref refAreaStart) 0 0).map eraseTokens := by
  have h := contextsOf_erase ref.dict [] (tokens ref refAreaStart) 0 0
  have h' := contextsOf_erase ref.dict [] (tokens { ref with tokenId := tokenId } refAreaStart) 0 0
  rw [map_eraseToken_tokens] at h'
  rw [← h, ← h']

/-- The columns that both copies find for the token at one position: the training line
and the observation are printed from the same values. -/
theorem rows_at (ref : Reference) (tokenId : Nat → Option Nat → Nat) {refAreaStart k : Nat}
    {write : Writer} {line obs : List UInt8}
    (hline : (rowsOf write (contextsOf ref.dict []
      (tokens { ref with tokenId := tokenId } refAreaStart) 0 0))[k]? = some (some line))
    (hobs : (rowsOf (fun _ => samplestr) (contextsOf ref.dict []
      (tokens ref refAreaStart) 0 0))[k]? = some (some obs)) :
    ∃ c c' cols t, columns c = some cols ∧ (tokens ref refAreaStart)[k]? = some t ∧
      c.pCNS.str = t.str ∧ c.pCNS.slen = t.slen ∧ line = write c' cols ∧
      obs = samplestr cols := by
  simp only [rowsOf, List.getElem?_map, Option.map_eq_some_iff] at hline hobs
  obtain ⟨c', hc', cols', hcols', rfl⟩ := hline
  obtain ⟨c, hc, cols, hcols, rfl⟩ := hobs
  have herase := congrArg (·[k]?) (map_eraseTokens_contexts ref tokenId refAreaStart)
  simp only [List.getElem?_map, hc, hc', Option.map_some, Option.some.injEq] at herase
  have hsame : columns c' = columns c := by
    rw [← columns_eraseTokens c', herase, columns_eraseTokens]
  rw [hcols, hcols'] at hsame
  have hpCNS := congrArg (·[k]?) (map_pCNS_contextsOf ref.dict [] (tokens ref refAreaStart) 0 0)
  simp only [List.getElem?_map, hc, getElem?_updated, Option.map_some] at hpCNS
  obtain ⟨t, ht, hupd⟩ := Option.map_eq_some_iff.mp hpCNS.symm
  refine ⟨c, c', cols, t, hcols, ht, ?_, ?_, ?_, rfl⟩
  · rw [← hupd]
    rfl
  · rw [← hupd]
    rfl
  · rw [Option.some.inj hsame]

/-- Column 0 is the token. -/
theorem columns_eq_cons {c : Context} {cols : List (List UInt8)} (h : columns c = some cols) :
    ∃ len rest, cols = c.pCNS.str :: dec len :: rest := by
  simp only [columns, Option.bind_eq_bind, Option.bind_eq_some_iff, Option.pure_def,
    Option.some.injEq] at h
  obtain ⟨phdflag, -, inName, -, rfl⟩ := h
  exact ⟨_, _, rfl⟩

/-- The first two columns of a line. -/
theorem columnsIn_cons_cons {a b : List UInt8} (ha : tab ∉ a) (hb : tab ∉ b)
    (rest : List UInt8) :
    columnsIn (a ++ tab :: (b ++ tab :: rest)) = a :: b :: (rest.splitOn tab).take 72 := by
  have hlength : sampleLabels.length = 72 + 1 + 1 := by
    rw [sampleLabels, List.length_map]
    rfl
  rw [columnsIn, hlength, List.splitOn_append_cons_self_of_not_mem ha,
    List.splitOn_append_cons_self_of_not_mem hb, List.take_succ_cons, List.take_succ_cons]

/-- Column 1 of a training line opens with a label, and column 1 of the observation does
not; the columns therefore differ, whatever stands behind them. -/
theorem columnsIn_ne {str : List UInt8} (hstr : CleanColumn str) (len : Int)
    (cols : List (List UInt8)) (rest : List UInt8) :
    columnsIn (sampleLine (str :: dec len :: cols) ++ rest) ≠
      columnsIn (samplestr (str :: dec len :: cols)) := by
  have hlen := cleanColumn_dec len
  have htab : tab ∉ str := fun h => (hstr tab h).1 rfl
  have htab' : tab ∉ dec len := fun h => (hlen tab h).1 rfl
  have hlabel : tab ∉ bytes "串长/" ++ dec len := by
    rw [List.mem_append, not_or]
    exact ⟨by decide +kernel, htab'⟩
  obtain ⟨more, hlabels⟩ : ∃ more, sampleLabels = [] :: bytes "串长/" :: more := ⟨_, rfl⟩
  have hline : sampleLine (str :: dec len :: cols) ++ rest = str ++ tab ::
      ((bytes "串长/" ++ dec len) ++ tab ::
        ((more.zipWith (· ++ ·) cols).flatMap (fun col => col ++ [tab]) ++ rest)) := by
    rw [sampleLine, hlabels]
    simp only [List.zipWith_cons_cons, List.flatMap_cons, List.nil_append, List.append_assoc,
      List.cons_append]
  have hobs : samplestr (str :: dec len :: cols) =
      str ++ tab :: (dec len ++ tab :: samplestr cols) := by
    rw [samplestr, List.flatMap_cons, List.flatMap_cons, cstr_column hstr, cstr_column hlen]
    simp only [List.append_assoc, List.cons_append, List.nil_append]
    rfl
  rw [hline, hobs, columnsIn_cons_cons htab hlabel, columnsIn_cons_cons htab htab']
  intro heq
  have hsecond := (List.cons.inj (List.cons.inj heq).2).1
  have hlength := congrArg List.length hsecond
  rw [List.length_append] at hlength
  have hpos : 0 < (bytes "串长/").length := by decide +kernel
  omega

/-- Clean columns of full number are read back from a training line with their labels. -/
theorem columnsIn_sampleLine_clean {cols : List (List UInt8)}
    (hlen : cols.length = sampleLabels.length) (h : ∀ col ∈ cols, CleanColumn col)
    (rest : List UInt8) :
    columnsIn (sampleLine cols ++ rest) = sampleLabels.zipWith (· ++ ·) cols := by
  rw [columnsIn, sampleLine, splitOn_columns]
  · exact List.take_left' (by rw [List.length_zipWith, hlen, Nat.min_self])
  · intro col hcol
    obtain ⟨i, hi, rfl⟩ := List.getElem_of_mem hcol
    rw [List.getElem_zipWith, List.mem_append, not_or]
    exact ⟨tab_not_mem_sampleLabels _ (List.getElem_mem _),
      fun hc => (h _ (List.getElem_mem _) tab hc).1 rfl⟩

/-- Clean columns of full number are read back from an observation as they are. -/
theorem columnsIn_samplestr_clean {cols : List (List UInt8)}
    (hlen : cols.length = sampleLabels.length) (h : ∀ col ∈ cols, CleanColumn col) :
    columnsIn (samplestr cols) = cols := by
  have hsplit := splitOn_columns (fun col hcol hc => (h col hcol tab hc).1 rfl) []
  rw [List.append_nil] at hsplit
  rw [columnsIn, samplestr_eq h, hsplit]
  exact List.take_left' hlen

/-- At every token of every text the columns of the training line differ from those of
the observation; where the token is not empty, by the labels and nothing else. -/
theorem sample_columns_ne_predict (ref : Reference) (repo : TokenRepo) (mypclen : Nat)
    (tags : Nat → UInt32) (junk junk' : Nat → CrfNodeSnapshot) (refAreaStart : Nat) :
    ∃ e e', sampleLoop (sampleReference ref mypclen tags) repo junk refAreaStart = some e ∧
      predictLoop ref junk' refAreaStart = some e' ∧
      ∀ (k : Nat) (line obs : List UInt8), e.rows[k]? = some (some line) →
        e'.rows[k]? = some (some obs) →
        columnsIn line ≠ columnsIn obs ∧
        ∀ t, (tokens ref refAreaStart)[k]? = some t → t.str ≠ [] →
          columnsIn line = sampleLabels.zipWith (· ++ ·) (columnsIn obs) := by
  obtain ⟨e, hsample, hrows⟩ := sampleLoop_eq (sampleReference ref mypclen tags) repo junk
    refAreaStart
  obtain ⟨e', hpredict, hrows', -⟩ := predictLoop_eq ref junk' refAreaStart
  refine ⟨e, e', hsample, hpredict, fun k line obs hline hobs => ?_⟩
  rw [hrows] at hline
  rw [hrows'] at hobs
  obtain ⟨c, c', cols, t, hcols, ht, hstr, hslen, rfl, rfl⟩ := rows_at ref _ hline hobs
  obtain ⟨hclean, hlen⟩ := cleanColumn_tokens ref refAreaStart t (List.mem_of_getElem? ht)
  rw [← hstr] at hclean
  constructor
  · obtain ⟨len, rest, rfl⟩ := columns_eq_cons hcols
    rw [sampleWriter, List.append_assoc]
    exact columnsIn_ne hclean len rest _
  · intro u hu hne
    obtain rfl := Option.some.inj (ht.symm.trans hu)
    have hpos : 0 < c.pCNS.slen := by
      rw [hslen, hlen]
      exact List.length_pos_of_ne_nil hne
    have hall := cleanColumn_columns hcols hclean hpos (by rw [hslen, hlen, hstr])
    rw [sampleWriter, List.append_assoc,
      columnsIn_sampleLine_clean (length_columns hcols) hall,
      columnsIn_samplestr_clean (length_columns hcols) hall]

/-- Whether the rows that both copies have at a position hold the same columns. -/
def sameColumnsAt (k : Nat) (e : Option WindowState) (e' : Option PredictState) :
    Option Bool := do
  let line ← (← e).rows[k]?.join
  let obs ← (← e').rows[k]?.join
  return columnsIn line == columnsIn obs

/-- The first token of a short text, without tags. -/
theorem sample_columns_ne_plain :
    sameColumnsAt 0
      (sampleLoop (sampleReference (plainReference (bytes "A. Bagga")) 9 fun _ => 0)
        (tokenInit tokenIni) (fun _ => default) 0)
      (predictLoop (plainReference (bytes "A. Bagga")) (fun _ => default) 0) = some false := by
  decide +kernel

end CiteParser
