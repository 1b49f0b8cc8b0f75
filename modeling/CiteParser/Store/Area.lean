import CiteParser.Store.Reading

/-!
# The annotated reference area

`getReferenceHeadOffset` and `getReferenceEndOffset` scan the words kept for the characters. The
head is the first character inside an element with id 1; the end is the first character behind
it that is inside no element at all, so an area that another element contains or follows does
not end where it should.
-/

namespace CiteParser

open Loop

/-- `getPclen`: the `unsigned int` is returned as an `int`. -/
def getPclen (vc : VirtualContent) : Int := Int.bmod vc.pclen (2 ^ 32)

/-- Popping meets the id 1; eight pops empty every stack. -/
def hasReference (myTags : UInt32) : Bool := (popAll 8 myTags).contains 1

/-- `*(getTags()+i)`; the cells that were not written are zero. -/
def tagsAt (vc : VirtualContent) (i : Nat) : UInt32 := vc.tags.getD i 0

/-- `getReferenceHeadOffset`. -/
def getReferenceHeadOffset (vc : VirtualContent) : Nat :=
  ((List.range (getPclen vc).toNat).find? fun i => hasReference (tagsAt vc i)).getD 0

/-- The loop of `getReferenceEndOffset` from `i` on, with so many passes left; `inside` is the
variable `in`. -/
def endScan (tags : Nat → UInt32) : Nat → Nat → Bool → Nat
  | 0, _, _ => 0
  | n + 1, i, inside =>
      if inside && tags i == 0 then i else endScan tags n (i + 1) (inside || hasReference (tags i))

/-- `getReferenceEndOffset`. -/
def getReferenceEndOffset (vc : VirtualContent) : Nat :=
  endScan (tagsAt vc) (getPclen vc).toNat 0 false

/-- The parts of the text inside elements with id 1, but for those without any text. -/
def referenceAreas (d : Markup Nat UInt8) : List (Nat × Nat) :=
  (d.spans 0).filterMap fun (id, a, b) => if id = 1 ∧ a < b then some (a, b) else none

section Scans

variable {tags : Nat → UInt32} {n i : Nat} {inside : Bool}

/-- Where the scan stops no element is open. -/
theorem endScan_stops (h : endScan tags n i inside ≠ 0) :
    endScan tags n i inside < i + n ∧ tags (endScan tags n i inside) = 0 := by
  induction n generalizing i inside with
  | zero => exact absurd rfl h
  | succ n ih =>
      rw [endScan] at h ⊢
      split
      · rename_i hstop
        rw [Bool.and_eq_true, beq_iff_eq] at hstop
        exact ⟨by omega, hstop.2⟩
      · rename_i hgo
        rw [if_neg hgo] at h
        obtain ⟨hlt, hzero⟩ := ih h
        exact ⟨by omega, hzero⟩

/-- The scan stops at the first place behind the head at which no element is open. -/
theorem endScan_eq {a b : Nat} (hi : i ≤ b) (hn : b < i + n) (hab : a < b)
    (hinside : inside = decide (a < i)) (hbefore : ∀ j < a, hasReference (tags j) = false)
    (hhead : hasReference (tags a) = true) (hopen : ∀ j, a ≤ j → j < b → tags j ≠ 0)
    (hend : tags b = 0) : endScan tags n i inside = b := by
  induction n generalizing i inside with
  | zero => omega
  | succ n ih =>
      rw [endScan, hinside]
      rcases Nat.lt_or_eq_of_le hi with hlt | rfl
      · have hgo : ¬ (decide (a < i) && tags i == 0) = true := by
          rw [Bool.and_eq_true, decide_eq_true_iff, beq_iff_eq]
          exact fun h => hopen i h.1.le hlt h.2
        rw [if_neg hgo]
        apply ih hlt (by omega)
        rcases Nat.lt_trichotomy i a with hia | rfl | hai
        · rw [hbefore i hia, Bool.or_false, decide_eq_decide]
          omega
        · rw [hhead, Bool.or_true]
          exact (decide_eq_true (Nat.lt_succ_self _)).symm
        · rw [decide_eq_true hai, Bool.true_or]
          exact (decide_eq_true (Nat.lt_succ_of_lt hai)).symm
      · rw [if_pos (by rw [decide_eq_true hab, hend]; rfl)]

end Scans

/-- A word is 0 when nothing is on the stack. -/
theorem Fits.pack_eq_zero_iff {stack : List Nat} (h : Fits stack) :
    pack stack = 0 ↔ stack = [] := by
  constructor
  · intro hzero
    rw [← h.popAll, hzero]
    rfl
  · rintro rfl
    rfl

/-- The id 1 is met when it is on the stack. -/
theorem Fits.hasReference_iff {stack : List Nat} (h : Fits stack) :
    hasReference (pack stack) = true ↔ 1 ∈ stack := by
  rw [hasReference, h.popAll, List.contains_iff_mem]

/-- A single area is what elements with id 1 enclose. -/
theorem encloses_iff_of_referenceAreas {d : Markup Nat UInt8} {a b : Nat}
    (harea : referenceAreas d = [(a, b)]) (j : Nat) : d.Encloses 0 1 j ↔ a ≤ j ∧ j < b := by
  have hmem (r : Nat × Nat) :
      r ∈ referenceAreas d ↔ (1, r.1, r.2) ∈ d.spans 0 ∧ r.1 < r.2 := by
    rw [referenceAreas, List.mem_filterMap]
    constructor
    · rintro ⟨⟨id, x, y⟩, hspan, hr⟩
      simp only [Option.ite_none_right_eq_some, Option.some.injEq] at hr
      obtain ⟨⟨rfl, hlt⟩, rfl⟩ := hr
      exact ⟨hspan, hlt⟩
    · rintro ⟨hspan, hlt⟩
      exact ⟨(1, r.1, r.2), hspan, if_pos ⟨rfl, hlt⟩⟩
  rw [harea] at hmem
  constructor
  · rintro ⟨x, y, hspan, hlow, hhigh⟩
    have hxy := (hmem (x, y)).mpr ⟨hspan, by omega⟩
    rw [List.mem_singleton, Prod.mk.injEq] at hxy
    exact ⟨by omega, by omega⟩
  · intro hpos
    exact ⟨a, b, ((hmem (a, b)).mp (List.mem_singleton.mpr rfl)).1, hpos⟩

/-- A pass copies a character at most. -/
theorem length_pcontent_of_next {repo : TokenRepo} {content : Nat → UInt8} {flen : Nat}
    {s s' : ParseState} (h : parsePass repo content flen s = .next s') :
    s'.pcontent.length ≤ s.pcontent.length + 1 := by
  have hlt : s.i < flen := by
    by_contra hend
    rw [parsePass_end hend] at h
    contradiction
  rw [parsePass_eq hlt] at h
  split at h
  · cases h
    exact Nat.le_succ _
  · split at h
    · contradiction
    · cases h
      exact Nat.le_succ _
  · cases h
    exact (List.length_append).le

/-- The loop is left with the state it has reached. -/
theorem eq_of_exit {repo : TokenRepo} {content : Nat → UInt8} {flen ret : Nat}
    {s out : ParseState} (h : parsePass repo content flen s = .exit (ret, out)) : out = s := by
  by_cases hlt : s.i < flen
  · rw [parsePass_eq hlt] at h
    split at h
    · contradiction
    · split at h
      · cases h
        rfl
      · contradiction
    · contradiction
  · rw [parsePass_end hlt] at h
    cases h
    rfl

/-- A run copies no more characters than it makes passes. -/
theorem length_pcontent_of_run {repo : TokenRepo} {content : Nat → UInt8} {flen fuel ret : Nat}
    {s out : ParseState} (h : run (parsePass repo content flen) fuel s = some (ret, out)) :
    out.pcontent.length < s.pcontent.length + fuel := by
  induction fuel generalizing s with
  | zero => contradiction
  | succ fuel ih =>
      cases hpass : parsePass repo content flen s with
      | next s' =>
          rw [run_next hpass] at h
          have hlen := ih h
          have hstep := length_pcontent_of_next hpass
          omega
      | exit r =>
          rw [run_exit hpass, Option.some.injEq] at h
          subst h
          rw [eq_of_exit hpass]
          omega

/-- The area ends inside the text. -/
theorem bounds_of_referenceAreas {d : Markup Nat UInt8} {a b : Nat}
    (harea : referenceAreas d = [(a, b)]) : a < b ∧ b ≤ d.text.length := by
  have hmem : (a, b) ∈ referenceAreas d := by
    rw [harea]
    exact List.mem_singleton.mpr rfl
  rw [referenceAreas, List.mem_filterMap] at hmem
  obtain ⟨⟨id, x, y⟩, hspan, hr⟩ := hmem
  simp only [Option.ite_none_right_eq_some, Option.some.injEq, Prod.mk.injEq] at hr
  obtain ⟨⟨-, hlt⟩, rfl, rfl⟩ := hr
  have hbounds := Markup.bounds_of_mem_spans hspan
  exact ⟨hlt, by omega⟩

section Accepted

variable {repo : TokenRepo} {vc vc' : VirtualContent} {text : List UInt8} {heap : Nat → UInt8}
  {d : Markup Nat UInt8} {a b : Nat}

/-- The length that is kept of an accepted document. -/
theorem pclen_of_accepted (hparse : vc.noparse = false)
    (haccept : parseFile repo vc (some text) heap = some (1, vc'))
    (hdoc : IsDocument repo (fileBuffer text (uint text.length) heap) (uint text.length) d) :
    vc'.pclen = d.text.length + 1 ∧ d.text.length < 2 ^ 32 := by
  obtain ⟨out, hrun, -, hpclen⟩ := parseFile_accepts hparse haccept
  have hlen := length_pcontent_of_run hrun
  have hstart : ParseState.start.pcontent.length = 0 := rfl
  have hword : uint text.length < 2 ^ 32 := by
    rw [uint]
    omega
  rw [(hdoc.tags_eq ⟨_, hrun⟩).1] at hlen hpclen
  exact ⟨hpclen, by omega⟩

/-- The words that are kept of an accepted document are read as its stacks. -/
theorem tagsAt_of_accepted (hparse : vc.noparse = false)
    (haccept : parseFile repo vc (some text) heap = some (1, vc'))
    (hdoc : IsDocument repo (fileBuffer text (uint text.length) heap) (uint text.length) d)
    (j : Nat) :
    tagsAt vc' j = pack ((d.scopes []).getD j []) ∧ Fits ((d.scopes []).getD j []) := by
  obtain ⟨out, hrun, htags, -⟩ := parseFile_accepts hparse haccept
  obtain ⟨-, hwords, hfits⟩ := hdoc.tags_eq ⟨_, hrun⟩
  constructor
  · rw [tagsAt, htags, hwords]
    exact List.getD_map (d.scopes []) [] pack
  · rcases Nat.lt_or_ge j (d.scopes []).length with hlt | hge
    · rw [List.getD_eq_getElem _ _ hlt]
      exact hfits _ (List.getElem_mem hlt)
    · rw [List.getD_eq_default _ _ hge]
      exact .nil

/-- The loops of the two functions go over the whole text, unless its length is no `int`. -/
theorem toNat_getPclen {n : Nat} (hpclen : vc.pclen = n + 1) (hn : n < 2 ^ 32) :
    (getPclen vc).toNat = if n + 1 < 2 ^ 31 then n + 1 else 0 := by
  have hword : ((2 ^ 32 : Nat) : Int) = 4294967296 := by decide
  unfold getPclen
  rw [hpclen, Int.bmod_def, hword]
  split_ifs <;> omega

/-- The two offsets are the ends of the only area exactly when the character behind it, if there
is one, is inside no element and the length of the text is an `int`. -/
theorem referenceArea_exact_iff (hparse : vc.noparse = false)
    (haccept : parseFile repo vc (some text) heap = some (1, vc'))
    (hdoc : IsDocument repo (fileBuffer text (uint text.length) heap) (uint text.length) d)
    (harea : referenceAreas d = [(a, b)]) :
    (getReferenceHeadOffset vc' = a ∧ getReferenceEndOffset vc' = b) ↔
      d.text.length + 1 < 2 ^ 31 ∧ (d.scopes []).getD b [] = [] := by
  obtain ⟨hpclen, hlong⟩ := pclen_of_accepted hparse haccept hdoc
  obtain ⟨hab, hb⟩ := bounds_of_referenceAreas harea
  have hcount := toNat_getPclen hpclen hlong
  have hhead (j : Nat) : hasReference (tagsAt vc' j) = true ↔ a ≤ j ∧ j < b := by
    obtain ⟨hword, hfits⟩ := tagsAt_of_accepted hparse haccept hdoc j
    have hscope := d.mem_scope_iff [] 0 j 1
    rw [Nat.zero_add, encloses_iff_of_referenceAreas harea] at hscope
    rw [hword, hfits.hasReference_iff, hscope]
    simp
  have hzero (j : Nat) : tagsAt vc' j = 0 ↔ (d.scopes []).getD j [] = [] := by
    obtain ⟨hword, hfits⟩ := tagsAt_of_accepted hparse haccept hdoc j
    rw [hword, hfits.pack_eq_zero_iff]
  rw [← hzero]
  constructor
  · rintro ⟨-, hend⟩
    -- the end is not 0, so the scan has stopped there
    have hstop := @endScan_stops (tagsAt vc') (getPclen vc').toNat 0 false
      (by rw [← getReferenceEndOffset, hend]; omega)
    rw [← getReferenceEndOffset, hend, hcount] at hstop
    refine ⟨?_, hstop.2⟩
    by_contra hover
    rw [if_neg hover] at hstop
    omega
  · rintro ⟨hint, hout⟩
    rw [if_pos hint] at hcount
    constructor
    · rw [getReferenceHeadOffset, hcount]
      have hfind : (List.range (d.text.length + 1)).find?
          (fun i => hasReference (tagsAt vc' i)) = some a := by
        rw [List.find?_range_eq_some]
        refine ⟨(hhead a).mpr ⟨Nat.le_refl a, hab⟩, List.mem_range.mpr (by omega), fun j hj => ?_⟩
        rw [Bool.not_eq_true', ← Bool.not_eq_true, hhead]
        omega
      rw [hfind]
      rfl
    · rw [getReferenceEndOffset, hcount]
      refine endScan_eq (Nat.zero_le b) (by omega) hab (by simp) (fun j hj => ?_)
        ((hhead a).mpr ⟨Nat.le_refl a, hab⟩) (fun j hlow hhigh hj => ?_) hout
      · rw [← Bool.not_eq_true, hhead]
        omega
      · have href := (hhead j).mpr ⟨hlow, hhigh⟩
        rw [hj] at href
        exact absurd href (by decide)

end Accepted

/-- `<RefA>ab</RefA>.` with the names of `token.ini`. -/
def areaThenText : Document tokenIni :=
  .elem ⟨(bytes "RefA", 1), refA_mem⟩ (.char 'a'.toUInt8 (.char 'b'.toUInt8 .nil))
    (.char '.'.toUInt8 .nil)

/-- `<RefA>x</RefA><title>y</title>` with the names of `token.ini`. -/
def areaThenTitle : Document tokenIni :=
  .elem ⟨(bytes "RefA", 1), refA_mem⟩ (.char 'x'.toUInt8 .nil)
    (.elem ⟨(bytes "title", 14), by decide⟩ (.char 'y'.toUInt8 .nil) .nil)

/-- An area with plain text behind it is found. -/
theorem referenceArea_before_text :
    ∃ vc', parseFile (tokenInit tokenIni) initContent (some (serialise areaThenText))
        (fun _ => 0) = some (1, vc') ∧
      getReferenceHeadOffset vc' = 0 ∧ getReferenceEndOffset vc' = 2 := by
  have htable : Registers tokenIni := by decide +kernel
  obtain ⟨⟨vc', haccept⟩, hdoc⟩ := @Registers.accepts tokenIni htable areaThenText
    ⟨by decide +kernel, by decide +kernel⟩ (by decide +kernel) (by decide +kernel) initContent rfl
    (fun _ => 0)
  exact ⟨vc', haccept, (referenceArea_exact_iff rfl haccept hdoc (by decide +kernel)).mpr
    ⟨by decide +kernel, by decide +kernel⟩⟩

/-- The end of an area with a title right behind it is missed. -/
theorem referenceArea_before_title :
    ¬ ∀ (repo : TokenRepo) (vc vc' : VirtualContent) (text : List UInt8) (heap : Nat → UInt8)
      (d : Markup Nat UInt8) (a b : Nat), vc.noparse = false →
      parseFile repo vc (some text) heap = some (1, vc') →
      IsDocument repo (fileBuffer text (uint text.length) heap) (uint text.length) d →
      referenceAreas d = [(a, b)] →
      getReferenceHeadOffset vc' = a ∧ getReferenceEndOffset vc' = b := by
  intro h
  have htable : Registers tokenIni := by decide +kernel
  obtain ⟨⟨vc', haccept⟩, hdoc⟩ := @Registers.accepts tokenIni htable areaThenTitle
    ⟨by decide +kernel, by decide +kernel⟩ (by decide +kernel) (by decide +kernel) initContent rfl
    (fun _ => 0)
  obtain ⟨-, hend⟩ := h _ _ _ _ _ _ 0 1 rfl haccept hdoc (by decide +kernel)
  have hstop := @endScan_stops (tagsAt vc') (getPclen vc').toNat 0 false
    (by rw [← getReferenceEndOffset, hend]; decide)
  rw [← getReferenceEndOffset, hend, (tagsAt_of_accepted rfl haccept hdoc 1).1] at hstop
  exact absurd hstop.2 (by decide +kernel)

end CiteParser
