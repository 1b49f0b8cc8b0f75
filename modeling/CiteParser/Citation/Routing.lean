import CiteParser.Citation.Record

/-!
# Routing labels to fields

As long as every call of `addCitationInfo` meets a condition on its segment, the list of
nodes holds exactly the record of what has been labelled with what, and the reply shows it.
The segments that do not meet it are those of editors, which are split into the authors,
those of publishers, which are printed over the date, names that do not fit their rows, and
numbers that are printed from an uninitialised variable.
-/

namespace CiteParser

/-- The rows of `f` hold names, ten at most, and the first is empty only if all bytes are. -/
structure ShowsNames (node : CitationNode) (f : Field) (names : List (List UInt8)) : Prop where
  count : names.length ≤ 10
  fits : ∀ n ∈ names, n.length < nameSize
  rows : ∀ i, i < 10 → StringAt node (f.row i) (names.getD i [])
  blank : names.headD [] = [] → ∀ i, f.Holds i → node i = 0

/-- The array `f` holds a text and its terminator. -/
structure ShowsText (node : CitationNode) (f : Field) (text : List UInt8) : Prop where
  fits : text.length < f.size
  string : StringAt node f.offset text

/-- A field that is a string. -/
def Field.IsText (f : Field) : Prop := f ≠ .author ∧ f ≠ .editor

instance (f : Field) : Decidable f.IsText := inferInstanceAs (Decidable (_ ∧ _))

/-- A node holds a record. -/
structure Shows (node : CitationNode) (r : Record) : Prop where
  texts : ∀ f, f.IsText → ∃ text, ShowsText node f text ∧ r f = textValue text
  names : ∀ f, ¬ f.IsText → ∃ names, ShowsNames node f names ∧ r f = names.filter (· ≠ [])
  editors : r .editor = []

/-- A list of nodes holds the citations. -/
structure ShowsList (l : NodeList) (rs : RecordList) : Prop where
  done : List.Forall₂ Shows l.done rs.done
  now : Shows l.now rs.now

section Frame

variable {node node' : CitationNode} {f : Field}

theorem not_isText_iff : ¬ f.IsText ↔ f = .author ∨ f = .editor := by
  rw [Field.IsText, not_and_or, not_not, not_not]

/-- The rows of names fill their array. -/
theorem size_names (h : ¬ f.IsText) : f.size = 500 := by
  rcases not_isText_iff.mp h with rfl | rfl <;> rfl

/-- An array shows the names in it whatever happens to the others. -/
theorem ShowsNames.frame {names : List (List UInt8)} (h : ShowsNames node f names)
    (hf : ¬ f.IsText) (hsame : ∀ i, f.Holds i → node' i = node i) : ShowsNames node' f names where
  count := h.count
  fits := h.fits
  rows := by
    intro r hr
    refine (h.rows r hr).congr fun i hlo hhi => hsame i ?_
    have hlen : (names.getD r []).length < nameSize := by
      rcases Nat.lt_or_ge r names.length with hlt | hge
      · rw [List.getD_eq_getElem _ _ hlt]
        exact h.fits _ (List.getElem_mem hlt)
      · rw [List.getD_eq_default _ _ hge]
        decide
    rw [Field.Holds, size_names hf]
    rw [Field.row, nameSize] at *
    omega
  blank := fun hnil i hi => (hsame i hi).trans (h.blank hnil i hi)

/-- An array shows its text whatever happens to the others. -/
theorem ShowsText.frame {text : List UInt8} (h : ShowsText node f text)
    (hsame : ∀ i, f.Holds i → node' i = node i) : ShowsText node' f text where
  fits := h.fits
  string := h.string.congr fun i hlo hhi => hsame i ⟨hlo, by have hlt := h.fits; omega⟩

/-- The first name is empty exactly when the first byte of the array is zero. -/
theorem ShowsNames.headD_eq_nil_iff {names : List (List UInt8)} (h : ShowsNames node f names) :
    names.headD [] = [] ↔ node f.offset = 0 := by
  have hrow := h.rows 0 (by decide)
  have hhead : names.getD 0 [] = names.headD [] := by cases names <;> rfl
  rw [hhead, Field.row, Nat.mul_zero, Nat.add_zero] at hrow
  exact hrow.eq_nil_iff

/-- All names are empty exactly when the first byte of their array is zero. -/
theorem ShowsNames.filter_eq_nil_iff {names : List (List UInt8)} (h : ShowsNames node f names)
    (hf : ¬ f.IsText) : names.filter (· ≠ []) = [] ↔ node f.offset = 0 := by
  rw [← h.headD_eq_nil_iff, List.filter_eq_nil_iff]
  constructor
  · intro hall
    cases names with
    | nil => rfl
    | cons n rest => simpa only [ne_eq, decide_not, Bool.not_eq_true', decide_eq_false_iff_not,
        not_not, List.headD_cons] using hall n List.mem_cons_self
  · intro hnil n hn
    -- without a first name every row is cleared
    obtain ⟨i, hi, rfl⟩ := List.getElem_of_mem hn
    have hlt := Nat.lt_of_lt_of_le hi h.count
    have hrow := h.rows i hlt
    rw [List.getD_eq_getElem _ _ hi] at hrow
    have hzero : node (f.row i) = 0 := by
      refine h.blank hnil _ ?_
      rw [Field.Holds, size_names hf, Field.row, nameSize]
      omega
    simp only [ne_eq, hrow.eq_nil_iff, hzero, not_true_eq_false, decide_false,
      Bool.false_eq_true, not_false_eq_true]

/-- A text is empty exactly when its first byte is zero. -/
theorem ShowsText.value_eq_nil_iff {text : List UInt8} (h : ShowsText node f text) :
    textValue text = [] ↔ node f.offset = 0 := by
  rw [← h.string.eq_nil_iff, textValue]
  by_cases hnil : text = []
  · simp only [hnil, ite_true]
  · simp only [hnil, ite_false, reduceCtorEq]

/-- A field has no value exactly when its array starts with a zero byte. -/
theorem Shows.eq_nil_iff {r : Record} (h : Shows node r) (f : Field) :
    r f = [] ↔ node f.offset = 0 := by
  by_cases hf : f.IsText
  · obtain ⟨text, htext, hr⟩ := h.texts f hf
    rw [hr, htext.value_eq_nil_iff]
  · obtain ⟨names, hnames, hr⟩ := h.names f hf
    rw [hr, hnames.filter_eq_nil_iff hf]

/-- A change of one array that shows the field's new value changes the record so. -/
theorem Shows.update {r : Record} (h : Shows node r) {values : List (List UInt8)}
    (heditor : f ≠ .editor)
    (hsame : ∀ i, ¬ f.Holds i → node' i = node i)
    (htext : f.IsText → ∃ text, ShowsText node' f text ∧ values = textValue text)
    (hnames : ¬ f.IsText → ∃ names, ShowsNames node' f names ∧ values = names.filter (· ≠ [])) :
    Shows node' (Function.update r f values) where
  texts := by
    intro g hg
    by_cases hgf : g = f
    · subst hgf
      rw [Function.update_self]
      exact htext hg
    · rw [Function.update_of_ne hgf]
      obtain ⟨text, hshows, hr⟩ := h.texts g hg
      exact ⟨text, hshows.frame fun i hi => hsame i fun hf => hgf (hi.ne hf), hr⟩
  names := by
    intro g hg
    by_cases hgf : g = f
    · subst hgf
      rw [Function.update_self]
      exact hnames hg
    · rw [Function.update_of_ne hgf]
      obtain ⟨names, hshows, hr⟩ := h.names g hg
      exact ⟨names, hshows.frame hg fun i hi => hsame i fun hf => hgf (hi.ne hf), hr⟩
  editors := by rw [Function.update_of_ne heditor.symm, h.editors]

/-- A new node holds the empty record. -/
theorem shows_init (node : CitationNode) : Shows (initCitationNode node) Record.empty where
  texts := by
    intro f _
    refine ⟨[], ⟨?_, StringAt.nil_iff.mpr (initCitationNode_offset node f)⟩, rfl⟩
    cases f <;> decide
  names := by
    intro f hf
    have hzero : ∀ i, f.Holds i → initCitationNode node i = 0 := by
      intro i hi
      rcases not_isText_iff.mp hf with rfl | rfl
      · exact initCitationNode_names node (.inl hi)
      · exact initCitationNode_names node (.inr hi)
    refine ⟨[], ⟨Nat.zero_le _, fun n hn => absurd hn List.not_mem_nil, fun r hr => ?_,
      fun _ => hzero⟩, rfl⟩
    rw [List.getD_nil, StringAt.nil_iff]
    refine hzero _ ?_
    rw [Field.Holds, size_names hf, Field.row, nameSize]
    omega
  editors := rfl

end Frame

/-! ## Steps -/

/-- Nothing but the array `f` of the current node differs. -/
def OnlyField (f : Field) (l l' : NodeList) : Prop :=
  l'.done = l.done ∧ ∀ i, ¬ f.Holds i → l'.now i = l.now i

section Steps

variable (heap : Nat → CitationNode) {l : NodeList} {rs : RecordList}

/-- The list before a segment is stored: authors may have opened a node. -/
def opened (f : Field) (l : NodeList) : NodeList :=
  if f = .author then addCitationNode heap l else l

/-- The first node holds the first record. -/
theorem showsList_start : ShowsList (.start heap) ⟨[], Record.empty⟩ :=
  ⟨.nil, shows_init _⟩

/-- A node is opened when a record is. -/
theorem ShowsList.open (h : ShowsList l rs) : ShowsList (addCitationNode heap l) rs.open := by
  have hempty : cnIsEmpty l.now = true ↔ ∀ f, rs.now f = [] := by
    rw [cnIsEmpty_iff]
    exact forall_congr' fun f => (h.now.eq_nil_iff f).symm
  unfold addCitationNode RecordList.open
  by_cases hnow : cnIsEmpty l.now = true
  · rwa [if_pos hnow, if_pos (hempty.mp hnow)]
  · rw [if_neg hnow, if_neg fun hall => hnow (hempty.mpr hall)]
    exact ⟨List.rel_append h.done (.cons h.now .nil), shows_init _⟩

/-- A text printed with the bound of its array becomes the value of its field. -/
theorem ShowsList.print (h : ShowsList l rs) {f : Field} (hf : f.IsText) {text : List UInt8}
    (htext : ∀ c ∈ text, c ≠ 0) :
    ShowsList (l.print f f.size text) (rs.put f (textValue (text.take (f.size - 1)))) ∧
      OnlyField f l (l.print f f.size text) := by
  have hsize : 0 < f.size := by cases f <;> decide
  have hsame : ∀ i, ¬ f.Holds i → snprintf l.now f.offset f.size text i = l.now i := by
    intro i hi
    exact snprintf_outside hsize (by rw [Field.Holds] at hi; omega)
  refine ⟨⟨h.done, h.now.update hf.2 hsame (fun _ => ?_) fun hnot => absurd hf hnot⟩, rfl, hsame⟩
  refine ⟨_, ⟨?_, stringAt_snprintf l.now f.offset f.size htext⟩, rfl⟩
  rw [List.length_take]
  omega

/-- Names that fit their rows become the authors of an empty citation. -/
theorem ShowsList.authors (h : ShowsList l rs) (hempty : rs.now .author = []) {src : List UInt8}
    (hsrc : ∀ c ∈ src, c ≠ 0) (hfit : ∀ n ∈ splitNames src, n.length < nameSize)
    (hfirst : (splitNames src).headD [] = [] → ∀ n ∈ splitNames src, n = []) :
    ShowsList { l with now := spilitName l.now Field.author.offset src }
        (rs.put .author ((splitNames src).filter (· ≠ []))) ∧
      OnlyField .author l { l with now := spilitName l.now Field.author.offset src } := by
  have hauthor : ¬ Field.author.IsText := fun h => h.1 rfl
  have hzero : ∀ i, Field.author.Holds i → l.now i = 0 := by
    obtain ⟨names, hnames, -⟩ := h.now.names .author hauthor
    have hoffset := (h.now.eq_nil_iff .author).mp hempty
    exact hnames.blank (hnames.headD_eq_nil_iff.mpr hoffset)
  obtain ⟨hrows, hframe, hnil⟩ := spilitName_spec hsrc
    (fun i hlo hhi => hzero i ⟨hlo, hhi⟩) hfit
  have hsame : ∀ i, ¬ Field.author.Holds i →
      spilitName l.now Field.author.offset src i = l.now i := by
    intro i hi
    refine hframe i ?_
    rw [Field.Holds, size_names hauthor] at hi
    omega
  refine ⟨⟨h.done, h.now.update (by decide) hsame (fun ht => absurd ht hauthor) fun _ => ?_⟩,
    rfl, hsame⟩
  refine ⟨splitNames src, ⟨(run_collectPass src).2, hfit, hrows, fun hhead i hi => ?_⟩, rfl⟩
  rw [hnil (hfirst hhead)]
  exact hzero i hi

/-- An opened citation has no value yet. -/
theorem RecordList.open_now (rs : RecordList) (f : Field) : rs.open.now f = [] := by
  unfold RecordList.open
  split
  · rename_i hall
    exact hall f
  · rfl

end Steps

/-! ## Labels -/

/-- The fields that the ids of `token.ini` name. -/
theorem fieldOf_ini : ∀ id : Fin 18, fieldOf id =
    [none, none, none, some .author, some .booktitle, some .date, some .editor,
      some .institution, some .journal, some .location, none, some .pages, some .publisher,
      some .tech, some .title, some .volume, some .url, some .isbn].getD id none := by
  decide +kernel

/-- No label of `token.ini` has a larger id than the last. -/
theorem fieldOf_eq_none (id : Nat) : fieldOf (id + 18) = none := by
  match id with
  | 0 => decide +kernel
  | 1 => decide +kernel
  | id + 2 => exact dif_neg (Nat.not_lt.mpr (Nat.le_add_left 20 id))

/-- What a call has to meet for its segment to reach its own field and no other. -/
structure Routable (c : InfoCall) : Prop where
  size : c.str.length < srcSize
  authors : c.id = 3 → ∀ n ∈ splitNames (cstr c.str), n.length < nameSize
  firstAuthor : c.id = 3 → (splitNames (cstr c.str)).headD [] = [] →
    ∀ n ∈ splitNames (cstr c.str), n = []
  editors : c.id = 6 → ∀ x ∈ cstr c.str, isAsciiOrDigit x = false ∧ x ≠ ','.toUInt8
  publisher : c.id ≠ 12
  numbers : c.id = 11 ∨ c.id = 15 → ReadsNumber c.str

instance (c : InfoCall) : Decidable (Routable c) :=
  decidable_of_iff (c.str.length < srcSize ∧
      (c.id = 3 → ∀ n ∈ splitNames (cstr c.str), n.length < nameSize) ∧
      (c.id = 3 → (splitNames (cstr c.str)).headD [] = [] →
        ∀ n ∈ splitNames (cstr c.str), n = []) ∧
      (c.id = 6 → ∀ x ∈ cstr c.str, isAsciiOrDigit x = false ∧ x ≠ ','.toUInt8) ∧
      c.id ≠ 12 ∧ (c.id = 11 ∨ c.id = 15 → ReadsNumber c.str))
    ⟨fun ⟨h₁, h₂, h₃, h₄, h₅, h₆⟩ => ⟨h₁, h₂, h₃, h₄, h₅, h₆⟩,
      fun h => ⟨h.size, h.authors, h.firstAuthor, h.editors, h.publisher, h.numbers⟩⟩

section Step

variable (heap : Nat → CitationNode) {l : NodeList} {rs : RecordList}

/-- What a call does to the nodes is what its segment is for: it changes the field of its
label only, and the citations stay shown. -/
def Routes (l l' : NodeList) (rs : RecordList) (c : InfoCall) : Prop :=
  ShowsList l' (rs.add c) ∧ ∀ f, fieldOf c.id = some f → OnlyField f (opened heap f l) l'

/-- A text segment is routed when it is printed to the array of its label with its size. -/
theorem ShowsList.routes_text (h : ShowsList l rs) {c : InfoCall} {f : Field}
    (hid : fieldOf c.id = some f) (hf : f.IsText) {text : List UInt8} (htext : ∀ x ∈ text, x ≠ 0)
    (hcontent : contentOf f c.str = textValue (text.take (f.size - 1))) :
    Routes heap l (l.print f f.size text) rs c := by
  obtain ⟨hshows, honly⟩ := h.print hf htext
  have hadd : rs.add c = rs.put f (contentOf f c.str) := by
    unfold RecordList.add
    rw [hid]
    cases f <;> first | rfl | exact absurd rfl hf.1
  refine ⟨by rw [hadd, hcontent]; exact hshows, fun g hg => ?_⟩
  obtain rfl : f = g := Option.some.inj (hid.symm.trans hg)
  rw [opened, if_neg hf.1]
  exact honly

/-- A segment without a field is routed when it opens a node as it opens a citation. -/
theorem ShowsList.routes_none (h : ShowsList l rs) {c : InfoCall} (hid : fieldOf c.id = none)
    (hopen : ¬ (c.id = 0 ∧ bracketed c = true)) : Routes heap l l rs c := by
  have hadd : rs.add c = rs := by
    unfold RecordList.add
    rw [hid]
    exact if_neg hopen
  refine ⟨by rwa [hadd], fun f hf => ?_⟩
  rw [hid] at hf
  contradiction

/-- A segment of authors that meets the condition is routed to a citation of its own. -/
theorem ShowsList.routes_authors (h : ShowsList l rs) {str : List UInt8} {locals : Locals}
    (hc : Routable ⟨3, str, locals⟩) :
    Routes heap l { addCitationNode heap l with
        now := spilitName (addCitationNode heap l).now Field.author.offset (cstr str) }
      rs ⟨3, str, locals⟩ := by
  have hid : fieldOf 3 = some .author := fieldOf_ini 3
  obtain ⟨hshows, honly⟩ := (h.open heap).authors (rs.open_now .author)
    (fun x hx => ne_zero_of_mem_cstr hx) (hc.authors rfl) (hc.firstAuthor rfl)
  have hadd : rs.add ⟨3, str, locals⟩ = rs.open.put .author (contentOf .author str) := by
    unfold RecordList.add
    rw [hid]
  refine ⟨by rw [hadd]; exact hshows, fun f hf => ?_⟩
  obtain rfl : Field.author = f := Option.some.inj (hid.symm.trans hf)
  rw [opened, if_pos rfl]
  exact honly

/-- A segment of editors that meets the condition says nothing and does nothing. -/
theorem ShowsList.routes_editors (h : ShowsList l rs) {str : List UInt8} {locals : Locals}
    (hc : Routable ⟨6, str, locals⟩) :
    Routes heap l { l with now := spilitName l.now Field.author.offset (cstr str) }
      rs ⟨6, str, locals⟩ := by
  have hid : fieldOf 6 = some .editor := fieldOf_ini 6
  have hcontent : contentOf .editor str = [] := by
    rw [contentOf, splitNames_silent (hc.editors rfl)]
    rfl
  have hadd : rs.add ⟨6, str, locals⟩ = rs := by
    unfold RecordList.add
    rw [hid]
    simp only [RecordList.put, hcontent, ← h.now.editors, Function.update_eq_self]
  rw [spilitName_silent (hc.editors rfl)]
  refine ⟨by rwa [hadd], fun f hf => ?_⟩
  obtain rfl : Field.editor = f := Option.some.inj (hid.symm.trans hf)
  exact ⟨rfl, fun _ _ => rfl⟩

/-- Every call that meets the condition is routed. -/
theorem ShowsList.routes (h : ShowsList l rs) {c : InfoCall} (hc : Routable c) :
    ∃ l', addCitationInfo heap l c = some l' ∧ Routes heap l l' rs c := by
  obtain ⟨id, str, locals⟩ := c
  have hfinished : ∀ x ∈ finished str, x ≠ 0 := fun x => ne_zero_of_mem_finished
  have hnumber : ∀ v, ∀ x ∈ numberText v, x ≠ 0 := fun v x => ne_zero_of_mem_numberText
  unfold addCitationInfo
  rw [if_neg (Nat.not_le_of_lt hc.size)]
  refine ⟨_, rfl, ?_⟩
  match id, hc with
  | 0, hc =>
      have hid : fieldOf 0 = none := fieldOf_ini 0
      by_cases hopen : bracketed ⟨0, str, locals⟩ = true
      · have hadd : rs.add ⟨0, str, locals⟩ = rs.open := by
          unfold RecordList.add
          rw [hid]
          exact if_pos ⟨rfl, hopen⟩
        rw [if_pos hopen]
        refine ⟨by rw [hadd]; exact h.open heap, fun f hf => ?_⟩
        rw [hid] at hf
        contradiction
      · rw [if_neg hopen]
        exact h.routes_none heap hid fun hzero => hopen hzero.2
  | 1, hc => exact h.routes_none heap (fieldOf_ini 1) fun hzero => nomatch hzero.1
  | 2, hc => exact h.routes_none heap (fieldOf_ini 2) fun hzero => nomatch hzero.1
  | 3, hc => exact h.routes_authors heap hc
  | 4, hc => exact h.routes_text heap (fieldOf_ini 4) (by decide) hfinished rfl
  | 5, hc => exact h.routes_text heap (fieldOf_ini 5) (by decide) hfinished rfl
  | 6, hc => exact h.routes_editors heap hc
  | 7, hc => exact h.routes_text heap (fieldOf_ini 7) (by decide) hfinished rfl
  | 8, hc => exact h.routes_text heap (fieldOf_ini 8) (by decide) hfinished rfl
  | 9, hc => exact h.routes_text heap (fieldOf_ini 9) (by decide) hfinished rfl
  | 10, hc => exact h.routes_none heap (fieldOf_ini 10) fun hzero => nomatch hzero.1
  | 11, hc =>
      exact h.routes_text heap (fieldOf_ini 11) (by decide) (hnumber _)
        (by rw [numberText_twovalue (hc.numbers (.inl rfl))]; rfl)
  | 12, hc => exact absurd rfl hc.publisher
  | 13, hc => exact h.routes_text heap (fieldOf_ini 13) (by decide) hfinished rfl
  | 14, hc => exact h.routes_text heap (fieldOf_ini 14) (by decide) hfinished rfl
  | 15, hc =>
      exact h.routes_text heap (fieldOf_ini 15) (by decide) (hnumber _)
        (by rw [numberText_twovalue (hc.numbers (.inr rfl))]; rfl)
  | 16, hc => exact h.routes_text heap (fieldOf_ini 16) (by decide) hfinished rfl
  | 17, hc => exact h.routes_text heap (fieldOf_ini 17) (by decide) hfinished rfl
  | id + 18, hc =>
      exact h.routes_none heap (fieldOf_eq_none id) fun hzero => Nat.succ_ne_zero _ hzero.1

/-- A run of calls that meet the condition shows what the segments are for. -/
theorem ShowsList.run {calls : List InfoCall} (hcalls : ∀ c ∈ calls, Routable c)
    (h : ShowsList l rs) :
    ∃ l', calls.foldlM (addCitationInfo heap) l = some l' ∧
      ShowsList l' (calls.foldl RecordList.add rs) := by
  induction calls generalizing l rs with
  | nil => exact ⟨l, rfl, h⟩
  | cons c rest ih =>
      obtain ⟨l₁, hstep, hshows, -⟩ := h.routes heap (hcalls c List.mem_cons_self)
      obtain ⟨l', hrun, hshows'⟩ := ih (fun c' hc' => hcalls c' (List.mem_cons_of_mem c hc')) hshows
      refine ⟨l', ?_, hshows'⟩
      rw [List.foldlM_cons, hstep]
      exact hrun

end Step

/-! ## The reply -/

section Reply

variable {node : CitationNode} {f : Field}

/-- The slots that are not empty hold the names that are not. -/
theorem filterMap_range_names (names : List (List UInt8)) {k : Nat} (h : names.length ≤ k) :
    ((List.range k).filterMap fun i =>
      if names.getD i [] ≠ [] then some (names.getD i []) else none) = names.filter (· ≠ []) := by
  induction names generalizing k with
  | nil =>
      rw [List.filterMap_eq_nil_iff.mpr fun i _ => ?_]
      · rfl
      · rw [List.getD_nil]
        rfl
  | cons n rest ih =>
      obtain ⟨k, rfl⟩ : ∃ j, k = j + 1 := ⟨k - 1, by rw [List.length_cons] at h; omega⟩
      rw [List.length_cons] at h
      rw [List.range_succ_eq_map, List.filterMap_cons, List.filterMap_map, List.filter_cons]
      have hrest := ih (Nat.le_of_succ_le_succ h)
      by_cases hn : n = []
      · simp only [hn, List.getD_cons_zero, ne_eq, not_true_eq_false, ite_false, decide_false,
          Bool.false_eq_true]
        exact hrest
      · simp only [hn, List.getD_cons_zero, ne_eq, not_false_eq_true, ite_true, decide_true]
        exact congrArg (n :: ·) hrest

/-- A slot is read as its name. -/
theorem ShowsNames.stringIn_row {names : List (List UInt8)} (h : ShowsNames node f names)
    (hf : ¬ f.IsText) {i : Nat} (hi : i < 10) :
    stringIn node (f.row i) nodeSize = names.getD i [] := by
  have hend := f.le_nodeSize
  rw [size_names hf] at hend
  have hlen : (names.getD i []).length < nameSize := by
    rcases Nat.lt_or_ge i names.length with hlt | hge
    · rw [List.getD_eq_getElem _ _ hlt]
      exact h.fits _ (List.getElem_mem hlt)
    · rw [List.getD_eq_default _ _ hge]
      decide
  refine (h.rows i hi).stringIn_eq ?_
  rw [Field.row]
  rw [nameSize] at *
  omega

/-- The array of the reply holds the names that are not empty. -/
theorem ShowsNames.namesItem_eq {names : List (List UInt8)} (h : ShowsNames node f names)
    (hf : ¬ f.IsText) (key : String) :
    namesItem node key f = if names.filter (· ≠ []) = [] then []
      else [(key, .array (names.filter (· ≠ [])))] := by
  have hslots : ((List.range 10).filterMap fun i =>
      if node (f.row i) ≠ 0 then some (stringIn node (f.row i) nodeSize) else none) =
      names.filter (· ≠ []) := by
    rw [← filterMap_range_names names h.count]
    refine List.filterMap_congr fun i hi => ?_
    have hlt := List.mem_range.mp hi
    rw [h.stringIn_row hf hlt]
    exact if_congr (not_congr (h.rows i hlt).eq_nil_iff.symm) rfl rfl
  unfold namesItem
  rw [hslots]
  by_cases hzero : node f.offset = 0
  · rw [if_neg (not_not.mpr hzero), if_pos ((h.filter_eq_nil_iff hf).mpr hzero)]
  · rw [if_pos hzero, if_neg fun hnil => hzero ((h.filter_eq_nil_iff hf).mp hnil)]

/-- The string of the reply is the text, if it is not empty. -/
theorem ShowsText.textItem_eq {text : List UInt8} (h : ShowsText node f text) (key : String) :
    textItem node key f = (textValue text).map fun t => (key, .string t) := by
  have hread : stringIn node f.offset nodeSize = text := by
    refine h.string.stringIn_eq ?_
    have hlt := h.fits
    have hle := f.le_nodeSize
    omega
  unfold textItem
  rw [hread]
  by_cases hnil : text = []
  · rw [if_neg (not_not.mpr (h.string.eq_nil_iff.mp hnil)), textValue, if_pos hnil]
    rfl
  · rw [if_pos (fun hzero => hnil (h.string.eq_nil_iff.mpr hzero)), textValue, if_neg hnil]
    rfl

/-- The object of a node shows its record. -/
theorem Shows.resultItem_eq {r : Record} (h : Shows node r) : resultItem node = r.item := by
  obtain ⟨authors, hauthors, hra⟩ := h.names .author (by decide)
  obtain ⟨editors, heditors, hre⟩ := h.names .editor (by decide)
  have htexts : ∀ k ∈ textKeys, textItem node k.1 k.2 =
      (r k.2).map fun text => (k.1, JsonValue.string text) := by
    intro k hk
    have htext : ∀ k ∈ textKeys, k.2.IsText := by decide
    obtain ⟨text, hshows, hr⟩ := h.texts k.2 (htext k hk)
    rw [hshows.textItem_eq, hr]
  unfold resultItem Record.item
  rw [hauthors.namesItem_eq (by decide), heditors.namesItem_eq (by decide), ← hra, ← hre,
    List.flatMap_congr htexts]

/-- Every node of the list holds its citation. -/
theorem ShowsList.nodes {l : NodeList} {rs : RecordList} (h : ShowsList l rs) :
    List.Forall₂ Shows l.nodes rs.records :=
  List.rel_append h.done (.cons h.now .nil)

/-- The reply shows the citations. -/
theorem ShowsList.rpcQuery_eq {l : NodeList} {rs : RecordList} (h : ShowsList l rs) :
    rpcQuery l = rs.records.map Record.item := by
  have hall : ∀ {nodes rs}, List.Forall₂ Shows nodes rs →
      nodes.map resultItem = rs.map Record.item := by
    intro nodes rs hrel
    induction hrel with
    | nil => rfl
    | cons hhead _ ih => rw [List.map_cons, List.map_cons, hhead.resultItem_eq, ih]
  exact hall h.nodes

/-- Every slot of a name that is not empty is in the reply. -/
def EmitsSlots (l : NodeList) : Prop :=
  ∀ node ∈ l.nodes, ∀ k ∈ [("authors", Field.author), ("editors", Field.editor)], ∀ i, i < 10 →
    node (k.2.row i) ≠ 0 → ∃ items, (k.1, JsonValue.array items) ∈ resultItem node ∧
      stringIn node (k.2.row i) nodeSize ∈ items

/-- A list that shows citations emits every slot. -/
theorem ShowsList.emitsSlots {l : NodeList} {rs : RecordList} (h : ShowsList l rs) :
    EmitsSlots l := by
  have hall : ∀ {nodes rs}, List.Forall₂ Shows nodes rs → ∀ node ∈ nodes, ∃ r, Shows node r := by
    intro nodes rs hrel
    induction hrel with
    | nil => exact fun node hnode => absurd hnode List.not_mem_nil
    | cons hhead _ ih =>
        intro node hnode
        rcases List.mem_cons.mp hnode with rfl | hnode
        · exact ⟨_, hhead⟩
        · exact ih node hnode
  intro node hnode k hk i hi hslot
  obtain ⟨r, hr⟩ := hall h.nodes node hnode
  have hnames : ∀ k ∈ [("authors", Field.author), ("editors", Field.editor)], ¬ k.2.IsText := by
    decide
  have hf := hnames k hk
  obtain ⟨names, hshows, -⟩ := hr.names k.2 hf
  have hfirst : node k.2.offset ≠ 0 := by
    intro hzero
    refine hslot (hshows.blank (hshows.headD_eq_nil_iff.mpr hzero) _ ?_)
    rw [Field.Holds, size_names hf, Field.row, nameSize]
    omega
  let items := (List.range 10).filterMap fun i =>
    if node (k.2.row i) ≠ 0 then some (stringIn node (k.2.row i) nodeSize) else none
  have hitem : namesItem node k.1 k.2 = [(k.1, .array items)] := if_pos hfirst
  refine ⟨items, ?_, List.mem_filterMap.mpr ⟨i, List.mem_range.mpr hi, if_pos hslot⟩⟩
  rcases List.mem_cons.mp hk with rfl | hk
  · exact List.mem_append_left _ (List.mem_append_left _ (hitem ▸ List.mem_cons_self))
  · obtain rfl := List.mem_singleton.mp hk
    exact List.mem_append_right _ (hitem ▸ List.mem_cons_self)

end Reply

/-! ## Runs -/

/-- After every call of a sequence the reply shows the record of what has been labelled with
what, every slot is emitted, and a labelled segment that follows changes its own field only. -/
def Routed (heap : Nat → CitationNode) (calls : List InfoCall) : Prop :=
  ∀ before, before <+: calls → ∃ l, infoRun heap before = some l ∧
    rpcQuery l = (recordRun before).records.map Record.item ∧ EmitsSlots l ∧
    ∀ c, before ++ [c] <+: calls → ∀ f, fieldOf c.id = some f →
      ∃ l', addCitationInfo heap l c = some l' ∧ OnlyField f (opened heap f l) l'

/-- Labels are routed to their fields in every sequence of calls that meet the condition. -/
theorem routed_of_routable (heap : Nat → CitationNode) (calls : List InfoCall)
    (h : ∀ c ∈ calls, Routable c) : Routed heap calls := by
  intro before hbefore
  obtain ⟨l, hrun, hshows⟩ := (showsList_start heap).run heap fun c hc => h c (hbefore.subset hc)
  refine ⟨l, hrun, hshows.rpcQuery_eq, hshows.emitsSlots, fun c hc f hf => ?_⟩
  obtain ⟨l', hstep, -, honly⟩ := hshows.routes heap
    (h c (hc.subset (List.mem_append_right _ (List.mem_singleton.mpr rfl))))
  exact ⟨l', hstep, honly f hf⟩

/-- A reference with two authors, a title, pages and a date. -/
theorem routed_bagga :
    ∃ l, infoRun (fun _ _ => 170) [⟨3, bytes "A. Bagga and B. Baldwin. ", default⟩,
        ⟨14, bytes "Entity-based cross-document coreferencing, ", default⟩,
        ⟨11, bytes "79-85, ", default⟩, ⟨5, bytes "1998.", default⟩] = some l ∧
      rpcQuery l = [[("authors", .array [bytes "A. Bagga ", bytes "B. Baldwin. "]),
        ("title", .string (bytes "Entity-based cross-document coreferencing")),
        ("pages", .string (bytes "79,85")), ("date", .string (bytes "1998."))]] := by
  obtain ⟨l, hrun, hreply, -⟩ := routed_of_routable (fun _ _ => 170) _ (by decide +kernel)
    [⟨3, bytes "A. Bagga and B. Baldwin. ", default⟩,
      ⟨14, bytes "Entity-based cross-document coreferencing, ", default⟩,
      ⟨11, bytes "79-85, ", default⟩, ⟨5, bytes "1998.", default⟩] (List.prefix_refl _)
  exact ⟨l, hrun, by rw [hreply]; decide +kernel⟩

/-- A publisher behind a date is shown as the date. -/
theorem not_routed_publisher :
    ¬ Routed (fun _ _ => 0) [⟨5, bytes "1998", default⟩, ⟨12, bytes "Springer", default⟩] := by
  intro h
  obtain ⟨l, hrun, hreply, -⟩ := h _ (List.prefix_refl _)
  have hshown : (infoRun (fun _ _ => 0)
      [⟨5, bytes "1998", default⟩, ⟨12, bytes "Springer", default⟩]).map rpcQuery =
      some [[("date", .string (bytes "Springer"))]] := by decide +kernel
  have hrecord : (recordRun [⟨5, bytes "1998", default⟩,
      ⟨12, bytes "Springer", default⟩]).records.map Record.item =
      [[("publisher", .string (bytes "Springer")), ("date", .string (bytes "1998"))]] := by
    decide +kernel
  rw [hrun, Option.map_some, hreply, hrecord] at hshown
  exact absurd hshown (by decide +kernel)

end CiteParser
