import CiteParser.Store.Ini

/-!
# The grammar of a configuration file

A line of a configuration file says nothing, begins a section, is an entry, or goes on with the
value of the entry above it; the grammar gives the ways in which it can say so. A semicolon begins
a comment behind white space only.
-/

namespace CiteParser.Ini

/-! ## Items -/

/-- What a line says. -/
inductive IniItem
  | nothing
  | header (name : List UInt8)
  | entry (name value : List UInt8)
  | more (value : List UInt8)

/-! ## The grammar -/

/-- No semicolon comes behind white space. -/
def commentFree : Bool → List UInt8 → Bool
  | _, [] => true
  | blank, c :: s => !(blank && c == ';'.toUInt8) && commentFree (isspace c) s

/-- There is nothing but white space. -/
def Blank (s : List UInt8) : Prop := ∀ c ∈ s, isspace c = true

/-- The name of an entry and the white space behind it. -/
structure NameText (name ws : List UInt8) : Prop where
  trimmed : Trimmed isspace name
  free : commentFree false name = true
  first : ∀ c ∈ name.head?, c ≠ ';'.toUInt8 ∧ c ≠ '#'.toUInt8 ∧ c ≠ '['.toUInt8
  blank : Blank ws
  none : name = [] → ws = []

/-- The value of an entry with white space on both sides, and a comment that may stand behind. -/
structure ValueText (ws value ws' comment : List UInt8) : Prop where
  blank : Blank ws
  trimmed : Trimmed isspace value
  free : commentFree false value = true
  blank' : Blank ws'
  comment : comment = [] ∨ value ≠ [] ∧ ws' ≠ [] ∧ comment.head? = some ';'.toUInt8

/-- The separator of an entry: the first equals sign or, if there is none or only in a comment, the
first colon. -/
def Separates (sep : UInt8) (name ws value : List UInt8) : Prop :=
  sep ∉ name ∧ (sep = '='.toUInt8 ∨ sep = ':'.toUInt8 ∧ '='.toUInt8 ∉ name ∧
    ('='.toUInt8 ∉ value ∨ ws ≠ [] ∧ value.head? = some ';'.toUInt8))

/-- What a line can be written like that says something; it goes on with an entry only if there
is one above it. -/
inductive Spells (inEntry : Bool) : List UInt8 → IniItem → Prop
  | blank {s : List UInt8} (hs : Blank s) : Spells inEntry s .nothing
  | comment {ws text : List UInt8} {c : UInt8} (hws : Blank ws)
      (hc : c = ';'.toUInt8 ∨ c = '#'.toUInt8) : Spells inEntry (ws ++ c :: text) .nothing
  | more {ws value ws' : List UInt8} (hin : inEntry = true) (hws : Blank ws) (hne : ws ≠ [])
      (hvalue : Trimmed isspace value) (hsome : value ≠ [])
      (hfirst : ∀ c ∈ value.head?, c ≠ ';'.toUInt8 ∧ c ≠ '#'.toUInt8) (hws' : Blank ws') :
      Spells inEntry (ws ++ value ++ ws') (.more value)
  | header {ws name rest : List UInt8} (hws : Blank ws) (hin : inEntry = true → ws = [])
      (hname : ']'.toUInt8 ∉ name) (hfree : commentFree false name = true) :
      Spells inEntry (ws ++ '['.toUInt8 :: (name ++ ']'.toUInt8 :: rest)) (.header name)
  | entry {ws name ws₁ ws₂ value ws₃ comment : List UInt8} {sep : UInt8}
      (hws : Blank ws) (hin : inEntry = true → ws = []) (hname : NameText name ws₁)
      (hsep : Separates sep name ws₂ value) (hvalue : ValueText ws₂ value ws₃ comment) :
      Spells inEntry (ws ++ (name ++ ws₁ ++ sep :: (ws₂ ++ value ++ ws₃ ++ comment)))
        (.entry name value)

/-! ## Scanning -/

section Scan

variable {c d : UInt8} {blank : Bool} {s front rest : List UInt8}

/-- White space comes last, or did before where there is nothing. -/
def endsBlank (blank : Bool) (s : List UInt8) : Bool := (s.getLast?.map isspace).getD blank

theorem endsBlank_cons (blank : Bool) (c : UInt8) (s : List UInt8) :
    endsBlank blank (c :: s) = endsBlank (isspace c) s := by
  cases h : s.getLast? with
  | none =>
      rw [List.getLast?_eq_none_iff] at h
      subst h
      rfl
  | some d => simp [endsBlank, List.getLast?_cons, h]

theorem commentFree_append (blank : Bool) (s s' : List UInt8) :
    commentFree blank (s ++ s') = (commentFree blank s && commentFree (endsBlank blank s) s') := by
  induction s generalizing blank with
  | nil => rfl
  | cons c s ih =>
      rw [List.cons_append, commentFree, commentFree, ih, endsBlank_cons, Bool.and_assoc]

theorem commentFree_of_blank (h : Blank s) (blank : Bool) : commentFree blank s = true := by
  induction s generalizing blank with
  | nil => rfl
  | cons c s ih =>
      rw [Blank, List.forall_mem_cons] at h
      have hc : (c == ';'.toUInt8) = false := by
        rw [beq_eq_false_iff_ne]
        rintro rfl
        exact absurd h.1 (by decide)
      rw [commentFree, hc, Bool.and_false, ih h.2]
      rfl

/-- Where `find_char_or_comment` stops. -/
def StopsAt (c : UInt8) (blank : Bool) (front rest : List UInt8) : Prop :=
  rest = [] ∨ rest.head? = some c ∨ rest.head? = some ';'.toUInt8 ∧ endsBlank blank front = true

theorem stopsAt_cons : StopsAt c blank (d :: front) rest ↔ StopsAt c (isspace d) front rest := by
  rw [StopsAt, StopsAt, endsBlank_cons]

/-- What `find_char_or_comment` finds. -/
theorem findCharOrComment_eq_iff :
    findCharOrComment c blank s = (front, rest) ↔
      s = front ++ rest ∧ c ∉ front ∧ commentFree blank front = true ∧
        StopsAt c blank front rest := by
  induction s generalizing blank front with
  | nil =>
      rw [findCharOrComment, Prod.mk.injEq]
      constructor
      · rintro ⟨rfl, rfl⟩
        exact ⟨rfl, List.not_mem_nil, rfl, .inl rfl⟩
      · rintro ⟨h, -⟩
        obtain ⟨rfl, rfl⟩ := List.append_eq_nil_iff.mp h.symm
        exact ⟨rfl, rfl⟩
  | cons d s ih =>
      rw [findCharOrComment]
      split
      next hstop =>
          rw [Prod.mk.injEq]
          constructor
          · rintro ⟨rfl, rfl⟩
            exact ⟨rfl, List.not_mem_nil, rfl, hstop.elim (fun h => .inr (.inl (congrArg some h)))
              fun h => .inr (.inr ⟨congrArg some h.2, h.1⟩)⟩
          · rintro ⟨hs, hnot, hfree, -⟩
            cases front with
            | nil => exact ⟨rfl, hs⟩
            | cons e front =>
                obtain ⟨rfl, -⟩ := List.cons_eq_cons.mp hs
                rcases hstop with rfl | ⟨rfl, rfl⟩
                · exact absurd List.mem_cons_self hnot
                · rw [commentFree] at hfree
                  simp at hfree
      next hgo =>
          rw [not_or] at hgo
          cases front with
          | nil =>
              constructor
              · intro h
                cases h
              · rintro ⟨rfl, -, -, hstop⟩
                rcases hstop with h | h | ⟨h, hblank⟩
                · cases h
                · exact absurd (Option.some.inj h) hgo.1
                · exact absurd ⟨hblank, Option.some.inj h⟩ hgo.2
          | cons e front =>
              have hnext := @ih (isspace d) front
              rw [Prod.mk.injEq] at hnext ⊢
              rw [List.cons_append, List.cons_eq_cons, List.cons_eq_cons, and_assoc, hnext,
                List.mem_cons, not_or, commentFree, Bool.and_eq_true, stopsAt_cons]
              constructor
              · rintro ⟨rfl, hs, hnot, hfree, hstop⟩
                refine ⟨⟨rfl, hs⟩, ⟨Ne.symm hgo.1, hnot⟩, ⟨?_, hfree⟩, hstop⟩
                by_contra h
                simp only [Bool.not_eq_true', Bool.not_eq_false, Bool.and_eq_true,
                  beq_iff_eq] at h
                exact hgo.2 h
              · rintro ⟨⟨rfl, hs⟩, ⟨-, hnot⟩, ⟨-, hfree⟩, hstop⟩
                exact ⟨rfl, hs, hnot, hfree, hstop⟩

end Scan

/-! ## Values -/

/-- The value behind the separator of an entry. -/
def readValue (s : List UInt8) : List UInt8 := rstrip (findCharOrComment 0 false (lskip s)).1

section Value

variable {c sep : UInt8} {s a b front rest value ws ws' comment name key tail start : List UInt8}

theorem Blank.not_mem (h : Blank s) (hc : isspace c = false) : c ∉ s := by
  intro hmem
  rw [h c hmem] at hc
  contradiction

/-- A semicolon behind white space begins a comment. -/
theorem not_commentFree {blank : Bool} (ha : endsBlank blank a = true) (b : List UInt8) :
    commentFree blank (a ++ ';'.toUInt8 :: b) = false := by
  rw [commentFree_append, ha, commentFree]
  simp

theorem endsBlank_append_blank (h : Blank s) (hne : s ≠ []) (blank : Bool) (a : List UInt8) :
    endsBlank blank (a ++ s) = true := by
  rw [endsBlank, List.getLast?_append, List.getLast?_eq_some_getLast hne]
  exact h _ (List.getLast_mem hne)

/-- What stands in front of a comment. -/
theorem ValueText.shown (h : ValueText ws value ws' comment) (hzero : 0 ∉ value) :
    findCharOrComment 0 false (value ++ ws' ++ comment) = (value ++ ws', comment) := by
  rw [findCharOrComment_eq_iff]
  refine ⟨rfl, ?_, ?_, ?_⟩
  · rw [List.mem_append, not_or]
    exact ⟨hzero, h.blank'.not_mem (by decide)⟩
  · rw [commentFree_append, h.free, commentFree_of_blank h.blank']
    rfl
  · rcases h.comment with hnil | ⟨-, hne, hhead⟩
    · exact .inl hnil
    · exact .inr (.inr ⟨hhead, endsBlank_append_blank h.blank' hne _ _⟩)

/-- A string of white space only has nothing left when it is stripped. -/
theorem eq_nil_of_blank_of_head (hs : Blank s) (hhead : ∀ c ∈ s.head?, isspace c = false) :
    s = [] := by
  cases s with
  | nil => rfl
  | cons c s =>
      have hc := hs c List.mem_cons_self
      rw [hhead c rfl] at hc
      contradiction

/-- The value is what stands between white space, in front of a comment. -/
theorem readValue_eq_iff (hzero : 0 ∉ s) :
    readValue s = value ↔
      ∃ ws ws' comment, s = ws ++ value ++ ws' ++ comment ∧ ValueText ws value ws' comment := by
  constructor
  · rintro rfl
    obtain ⟨front, rest, hfound⟩ :
        ∃ front rest, findCharOrComment 0 false (lskip s) = (front, rest) := ⟨_, _, rfl⟩
    obtain ⟨hcut, -, hfree, hstop⟩ := findCharOrComment_eq_iff.mp hfound
    obtain ⟨ws, hs, hws⟩ := exists_dropWhile isspace s
    obtain ⟨ws', hover, hws'⟩ := exists_rdropWhile isspace front
    have hhead : ∀ c ∈ (lskip s).head?, isspace c = false := head?_dropWhile isspace s
    have hskip : s = ws ++ (front ++ rest) := by rw [← hcut]; exact hs
    have hzero' : 0 ∉ front ++ rest := fun h => hzero (hskip ▸ List.mem_append_right ws h)
    have hvalue : readValue s = rstrip front := by rw [readValue, hfound]
    have hfirst : ∀ c ∈ front.head?, isspace c = false := by
      intro c hc
      refine hhead c ?_
      rw [hcut, List.head?_append, Option.mem_def.mp hc]
      rfl
    rw [hvalue]
    rw [hover] at hskip hfree
    rw [commentFree_append, Bool.and_eq_true] at hfree
    refine ⟨ws, ws', rest, by rw [hskip, rstrip]; simp only [List.append_assoc], hws, ?_, hfree.1,
      hws', ?_⟩
    · refine ⟨fun c hc => hfirst c ?_, getLast?_rdropWhile isspace front⟩
      rw [hover, List.head?_append, ← rstrip, Option.mem_def.mp hc]
      rfl
    · rcases hstop with hnil | hz | ⟨hsemi, hblank⟩
      · exact .inl hnil
      · exact absurd (List.mem_append_right front (List.mem_of_head? hz)) hzero'
      · have hne : front ≠ [] := by
          rintro rfl
          cases hblank
        refine .inr ⟨?_, ?_, hsemi⟩
        · intro hnil
          rw [rstrip, List.rdropWhile_eq_nil_iff] at hnil
          exact hne (eq_nil_of_blank_of_head hnil hfirst)
        · rintro rfl
          rw [List.append_nil] at hover
          have hlast := getLast?_rdropWhile isspace front (front.getLast hne)
          rw [← hover, List.getLast?_eq_some_getLast hne] at hlast
          rw [endsBlank, List.getLast?_eq_some_getLast hne] at hblank
          rw [Option.map_some, Option.getD_some, hlast rfl] at hblank
          contradiction
  · rintro ⟨ws, ws', comment, rfl, h⟩
    have hvalue : 0 ∉ value := by
      intro hmem
      exact hzero (List.mem_append_left _ (List.mem_append_left _ (List.mem_append_right _ hmem)))
    have hskip : lskip (ws ++ value ++ ws' ++ comment) =
        if value = [] then [] else value ++ ws' ++ comment := by
      split
      next hnil =>
          subst hnil
          have hcomment : comment = [] := h.comment.resolve_right fun hne => hne.1 rfl
          rw [hcomment, List.append_nil, List.append_nil, lskip, List.dropWhile_eq_nil_iff]
          exact List.forall_mem_append.mpr ⟨h.blank, h.blank'⟩
      next hne =>
          rw [List.append_assoc, List.append_assoc, List.append_assoc]
          exact h.trimmed.dropWhile_append hne h.blank _
    rw [readValue, hskip]
    split
    next hnil =>
        subst hnil
        rfl
    · rw [h.shown hvalue, rstrip, rdropWhile_append_of_all h.blank']
      exact h.trimmed.rdropWhile_eq

/-- White space at the end makes no difference to the value. -/
theorem readValue_append_blank (hzero : 0 ∉ s) (hb : Blank b) :
    readValue (s ++ b) = readValue s := by
  have hzero' : 0 ∉ s ++ b := by
    rw [List.mem_append, not_or]
    exact ⟨hzero, hb.not_mem (by decide)⟩
  rw [readValue_eq_iff hzero']
  obtain ⟨ws, ws', comment, hs, h⟩ := (readValue_eq_iff hzero).mp rfl
  rcases h.comment with rfl | ⟨hne, hne', hhead⟩
  · refine ⟨ws, ws' ++ b, [], ?_, h.blank, h.trimmed, h.free,
      List.forall_mem_append.mpr ⟨h.blank', hb⟩, .inl rfl⟩
    rw [List.append_nil, ← List.append_assoc]
    rw [List.append_nil] at hs
    exact congrArg (· ++ b) hs
  · refine ⟨ws, ws', comment ++ b, ?_, h.blank, h.trimmed, h.free, h.blank',
      .inr ⟨hne, hne', by rw [List.head?_append, hhead]; rfl⟩⟩
    rw [← List.append_assoc]
    exact congrArg (· ++ b) hs

end Value

end CiteParser.Ini
