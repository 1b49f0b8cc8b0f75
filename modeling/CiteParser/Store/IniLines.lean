import CiteParser.Store.IniGrammar

/-!
# What the lines of a configuration file say

`ini.c` reads what a line says by the grammar, and the lines that it finds fault with say nothing
by it.
-/

namespace CiteParser.Ini

/-! ## Reading a line -/

/-- The name in front of the separator of an entry, and the rest from there on. -/
def splitEntry (start : List UInt8) : List UInt8 × List UInt8 :=
  if (findCharOrComment '='.toUInt8 false start).2.head? ≠ some '='.toUInt8 then
    findCharOrComment ':'.toUInt8 false start
  else findCharOrComment '='.toUInt8 false start

/-- What `ini_parse_file` makes of a line that begins with white space at `start` or not. -/
def readLine (inEntry : Bool) (line : List UInt8) : Option IniItem :=
  let start := trim isspace line
  if start = [] ∨ start.head? = some ';'.toUInt8 ∨ start.head? = some '#'.toUInt8 then
    some .nothing
  else if inEntry = true ∧ line.head?.any isspace = true then some (.more start)
  else if start.head? = some '['.toUInt8 then
    let found := findCharOrComment ']'.toUInt8 false start.tail
    if found.2.head? = some ']'.toUInt8 then some (.header found.1) else none
  else if (splitEntry start).2.head? = some '='.toUInt8 ∨
      (splitEntry start).2.head? = some ':'.toUInt8 then
    some (.entry (rstrip (splitEntry start).1) (readValue (splitEntry start).2.tail))
  else none

section Separator

variable {sep : UInt8} {s b tail name ws ws₂ value ws₃ comment : List UInt8}

theorem commentFree_of_head (h : commentFree false s = true) (hhead : s.head? ≠ some ';'.toUInt8)
    (blank : Bool) : commentFree blank s = true := by
  cases s with
  | nil => rfl
  | cons c s =>
      have hc : (c == ';'.toUInt8) = false := by
        rw [beq_eq_false_iff_ne]
        rintro rfl
        exact hhead rfl
      rw [commentFree, hc, Bool.and_false] at h ⊢
      exact h

theorem NameText.commentFree (h : NameText name ws) : commentFree false (name ++ ws) = true := by
  rw [commentFree_append, h.free, commentFree_of_blank h.blank]
  rfl

/-- The first character of an entry. -/
theorem NameText.head (h : NameText name ws) (hsep : isspace sep = false)
    (hne : sep ≠ ';'.toUInt8 ∧ sep ≠ '#'.toUInt8 ∧ sep ≠ '['.toUInt8) :
    ∃ c, (name ++ ws ++ sep :: tail).head? = some c ∧ isspace c = false ∧
      c ≠ ';'.toUInt8 ∧ c ≠ '#'.toUInt8 ∧ c ≠ '['.toUInt8 := by
  cases name with
  | nil =>
      rw [h.none rfl]
      exact ⟨sep, rfl, hsep, hne⟩
  | cons c name => exact ⟨c, rfl, h.trimmed.head c rfl, h.first c rfl⟩

/-- The search for the equals sign does not find one behind a colon that separates. -/
theorem head?_find_equals (h : NameText name ws) (hvalue : ValueText ws₂ value ws₃ comment)
    (hname : '='.toUInt8 ∉ name)
    (hsep : '='.toUInt8 ∉ value ∨ ws₂ ≠ [] ∧ value.head? = some ';'.toUInt8) :
    (findCharOrComment '='.toUInt8 false
      (name ++ ws ++ ':'.toUInt8 :: (ws₂ ++ value ++ ws₃ ++ comment))).2.head? ≠
        some '='.toUInt8 := by
  have hkey : '='.toUInt8 ∉ name ++ ws ++ [':'.toUInt8] := by
    rw [List.mem_append, List.mem_append, not_or, not_or]
    exact ⟨⟨hname, h.blank.not_mem (by decide)⟩, by decide⟩
  have hfree : commentFree false (name ++ ws ++ [':'.toUInt8]) = true := by
    have hcolon : (':'.toUInt8 == ';'.toUInt8) = false := by decide
    rw [commentFree_append, h.commentFree, commentFree, hcolon, Bool.and_false]
    rfl
  have hblank : endsBlank false (name ++ ws ++ [':'.toUInt8]) = false := by
    rw [endsBlank, List.getLast?_append]
    rfl
  by_cases hfirst : ws₂ ≠ [] ∧ value.head? = some ';'.toUInt8
  · have hhead : (value ++ ws₃ ++ comment).head? = some ';'.toUInt8 := by
      rw [List.append_assoc, List.head?_append, hfirst.2]
      rfl
    have hfound : findCharOrComment '='.toUInt8 false
        (name ++ ws ++ ':'.toUInt8 :: (ws₂ ++ value ++ ws₃ ++ comment)) =
        (name ++ ws ++ [':'.toUInt8] ++ ws₂, value ++ ws₃ ++ comment) := by
      rw [findCharOrComment_eq_iff]
      refine ⟨by simp, ?_, ?_,
        .inr (.inr ⟨hhead, endsBlank_append_blank hvalue.blank hfirst.1 _ _⟩)⟩
      · rw [List.mem_append, not_or]
        exact ⟨hkey, hvalue.blank.not_mem (by decide)⟩
      · rw [commentFree_append, hfree, commentFree_of_blank hvalue.blank]
        rfl
    rw [hfound, hhead]
    decide
  · have hshown : commentFree (endsBlank false ws₂) value = true := by
      by_cases hws : ws₂ = []
      · rw [hws]
        exact hvalue.free
      · exact commentFree_of_head hvalue.free (fun hhead => hfirst ⟨hws, hhead⟩) _
    have hfound : findCharOrComment '='.toUInt8 false
        (name ++ ws ++ ':'.toUInt8 :: (ws₂ ++ value ++ ws₃ ++ comment)) =
        (name ++ ws ++ [':'.toUInt8] ++ (ws₂ ++ value ++ ws₃), comment) := by
      rw [findCharOrComment_eq_iff]
      refine ⟨by simp, ?_, ?_, ?_⟩
      · simp only [List.mem_append, not_or] at hkey ⊢
        exact ⟨hkey, ⟨hvalue.blank.not_mem (by decide), hsep.resolve_right hfirst⟩,
          hvalue.blank'.not_mem (by decide)⟩
      · rw [commentFree_append, hfree, hblank, commentFree_append, commentFree_append,
          commentFree_of_blank hvalue.blank, hshown, commentFree_of_blank hvalue.blank']
        rfl
      · rcases hvalue.comment with hnil | ⟨-, hne, hhead⟩
        · exact .inl hnil
        · refine .inr (.inr ⟨hhead, ?_⟩)
          rw [← List.append_assoc]
          exact endsBlank_append_blank hvalue.blank' hne _ _
    rw [hfound]
    rcases hvalue.comment with hnil | ⟨-, -, hhead⟩
    · rw [hnil]
      exact fun h => by cases h
    · rw [hhead]
      decide

/-- An entry is split at the separator, also without the white space at its end. -/
theorem splitEntry_eq (h : NameText name ws) (hsep : Separates sep name ws₂ value)
    (hvalue : ValueText ws₂ value ws₃ comment)
    (htail : tail ++ b = ws₂ ++ value ++ ws₃ ++ comment) :
    splitEntry (name ++ ws ++ sep :: tail) = (name ++ ws, sep :: tail) := by
  have hspace : isspace sep = false := by
    rcases hsep.2 with rfl | ⟨rfl, -⟩ <;> decide
  have hfound : findCharOrComment sep false (name ++ ws ++ sep :: tail) =
      (name ++ ws, sep :: tail) := by
    rw [findCharOrComment_eq_iff]
    refine ⟨rfl, ?_, h.commentFree, .inr (.inl rfl)⟩
    rw [List.mem_append, not_or]
    exact ⟨hsep.1, h.blank.not_mem hspace⟩
  rcases hsep.2 with rfl | ⟨rfl, hname, hmore⟩
  · rw [splitEntry, hfound, if_neg fun hne => hne rfl]
  · have hnot := head?_find_equals h hvalue hname hmore
    rw [splitEntry, if_pos, hfound]
    intro heq
    apply hnot
    obtain ⟨front, rest, hfind⟩ : ∃ front rest, findCharOrComment '='.toUInt8 false
        (name ++ ws ++ ':'.toUInt8 :: tail) = (front, rest) := ⟨_, _, rfl⟩
    rw [hfind] at heq
    obtain ⟨hcut, hover, hfree, -⟩ := findCharOrComment_eq_iff.mp hfind
    have hlonger : findCharOrComment '='.toUInt8 false
        (name ++ ws ++ ':'.toUInt8 :: (ws₂ ++ value ++ ws₃ ++ comment)) = (front, rest ++ b) := by
      have hhead : (rest ++ b).head? = some '='.toUInt8 := by
        rw [List.head?_append, heq]
        rfl
      refine findCharOrComment_eq_iff.mpr ⟨?_, hover, hfree, .inr (.inl hhead)⟩
      rw [← htail, ← List.append_assoc, ← hcut]
      simp
    rw [hlonger, List.head?_append, heq]
    rfl

end Separator

section Line

variable {inEntry : Bool} {item : IniItem} {c sep : UInt8}
  {line start a b tail name ws ws₂ value ws₃ comment : List UInt8}

/-- A line that begins with no white space is trimmed at its end, behind its first characters. -/
theorem trim_cons (hws : Blank ws) (hc : isspace c = false)
    (hhead : ∀ d ∈ (a ++ c :: b).head?, isspace d = false) :
    trim isspace (ws ++ (a ++ c :: b)) = a ++ c :: rstrip b := by
  have hhead' : ∀ d ∈ (a ++ c :: rstrip b).head?, isspace d = false := by
    intro d hd
    refine hhead d ?_
    rw [List.head?_append] at hd ⊢
    exact hd
  rw [trim, ← List.append_assoc, rdropWhile_append_cons hc, List.append_assoc,
    List.dropWhile_append_of_pos hws]
  exact dropWhile_eq_self hhead'

/-- Behind white space an entry is gone on with, so a line that does something else begins with
none. -/
theorem not_indented (hin : inEntry = true → ws = []) (hc : a.head? = some c)
    (hspace : isspace c = false) :
    ¬ (inEntry = true ∧ (ws ++ a).head?.any isspace = true) := by
  rintro ⟨hentry, hhead⟩
  rw [hin hentry, List.nil_append, hc] at hhead
  rw [Option.any_some, hspace] at hhead
  contradiction

/-- What is written by the grammar is read. -/
theorem Spells.readLine (h : Spells inEntry line item) (hzero : 0 ∉ line) :
    readLine inEntry line = some item := by
  cases h with
  | blank hs =>
      have hnil : trim isspace line = [] := by
        rw [trim, List.rdropWhile_eq_nil_iff.mpr hs, List.dropWhile_nil]
      exact if_pos (.inl hnil)
  | @comment ws text c hws hc =>
      have hspace : isspace c = false := by rcases hc with rfl | rfl <;> decide
      have htrim : trim isspace (ws ++ c :: text) = c :: rstrip text :=
        @trim_cons c [] text ws hws hspace fun d hd => Option.some.inj hd ▸ hspace
      exact if_pos (.inr (htrim ▸ hc.imp (congrArg some) (congrArg some)))
  | @more ws value ws' hin hws hne hvalue hsome hfirst hws' =>
      have htrim : trim isspace (ws ++ value ++ ws') = value := hvalue.trim_append hws hws'
      have hhead : (ws ++ value ++ ws').head?.any isspace = true := by
        cases ws with
        | nil => contradiction
        | cons c ws => exact hws c List.mem_cons_self
      rw [Ini.readLine, htrim, if_neg, if_pos ⟨hin, hhead⟩]
      rintro (hnil | hsemi | hhash)
      · exact hsome hnil
      · exact (hfirst _ hsemi).1 rfl
      · exact (hfirst _ hhash).2 rfl
  | @header ws name rest hws hin hname hfree =>
      have hfound : findCharOrComment ']'.toUInt8 false (name ++ ']'.toUInt8 :: rstrip rest) =
          (name, ']'.toUInt8 :: rstrip rest) :=
        findCharOrComment_eq_iff.mpr ⟨rfl, hname, hfree, .inr (.inl rfl)⟩
      have htrim : trim isspace (ws ++ '['.toUInt8 :: (name ++ ']'.toUInt8 :: rest)) =
          '['.toUInt8 :: (name ++ ']'.toUInt8 :: rstrip rest) :=
        @trim_cons ']'.toUInt8 ('['.toUInt8 :: name) rest ws hws (by decide)
          fun d hd => Option.some.inj hd ▸ by decide
      have hopen : ¬ ('['.toUInt8 = ';'.toUInt8) ∧ ¬ ('['.toUInt8 = '#'.toUInt8) := by decide
      rw [Ini.readLine, htrim, if_neg (by simpa using hopen),
        if_neg (not_indented hin rfl (by decide))]
      simp only [List.head?_cons, List.tail_cons, hfound, if_true]
  | @entry ws name ws₁ ws₂ value ws₃ comment sep hws hin hname hsep hvalue =>
      have hspace : isspace sep = false ∧
          sep ≠ ';'.toUInt8 ∧ sep ≠ '#'.toUInt8 ∧ sep ≠ '['.toUInt8 := by
        rcases hsep.2 with rfl | ⟨rfl, -⟩ <;> decide
      obtain ⟨b, htail, hb⟩ := exists_rdropWhile isspace (ws₂ ++ value ++ ws₃ ++ comment)
      have hhead := fun tail => @NameText.head sep tail name ws₁ hname hspace.1 hspace.2
      obtain ⟨d, hd, hdspace, -⟩ := hhead (ws₂ ++ value ++ ws₃ ++ comment)
      obtain ⟨c, hc, -, hsemi, hhash, hopen⟩ := hhead (rstrip (ws₂ ++ value ++ ws₃ ++ comment))
      have htrim : trim isspace (ws ++ (name ++ ws₁ ++ sep :: (ws₂ ++ value ++ ws₃ ++ comment))) =
          name ++ ws₁ ++ sep :: rstrip (ws₂ ++ value ++ ws₃ ++ comment) := by
        refine trim_cons hws hspace.1 fun e he => ?_
        rw [hd] at he
        exact Option.some.inj he ▸ hdspace
      have hsplit := splitEntry_eq hname hsep hvalue htail.symm
      rw [← rstrip] at hsplit htail
      have hzero' : 0 ∉ ws₂ ++ value ++ ws₃ ++ comment := fun hmem => hzero
        (List.mem_append_right _ (List.mem_append_right _ (List.mem_cons_of_mem _ hmem)))
      have hread : readValue (rstrip (ws₂ ++ value ++ ws₃ ++ comment)) = value := by
        rw [← readValue_append_blank (fun hmem => hzero' (htail ▸ List.mem_append_left _ hmem)) hb,
          ← htail]
        exact (readValue_eq_iff hzero').mpr ⟨ws₂, ws₃, comment, rfl, hvalue⟩
      have hstrip : rstrip (name ++ ws₁) = name := by
        rw [rstrip, rdropWhile_append_of_all hname.blank]
        exact hname.trimmed.rdropWhile_eq
      rw [Ini.readLine, htrim, hc, if_neg, if_neg (not_indented hin hd hdspace),
        if_neg fun h => hopen (Option.some.inj h), hsplit, if_pos, hstrip, List.tail_cons, hread]
      · exact hsep.2.imp (congrArg some) fun h => congrArg some h.1
      · rintro (hnil | h | h)
        · rw [hnil] at hc
          cases hc
        · exact hsemi (Option.some.inj h)
        · exact hhash (Option.some.inj h)

/-- White space at the end of a string that does not end with the other one. -/
theorem endsBlank_append (h : endsBlank false (a ++ b) = true) :
    b ≠ [] ∧ endsBlank false b = true ∨ b = [] ∧ endsBlank false a = true := by
  by_cases hb : b = []
  · rw [hb, List.append_nil] at h
    exact .inr ⟨hb, h⟩
  · rw [endsBlank, List.getLast?_append, List.getLast?_eq_some_getLast hb] at h
    refine .inl ⟨hb, ?_⟩
    rw [endsBlank, List.getLast?_eq_some_getLast hb]
    exact h

/-- An equals sign that the search does not come to stands in a comment, or behind a semicolon
that the search takes for one. -/
theorem equals_of_find (hname : NameText name ws) (hvalue : ValueText ws₂ value ws₃ comment)
    (hb : Blank b) (htail : tail ++ b = ws₂ ++ value ++ ws₃ ++ comment)
    (hfind : (findCharOrComment '='.toUInt8 false (name ++ ws ++ ':'.toUInt8 :: tail)).2.head? ≠
      some '='.toUInt8) :
    '='.toUInt8 ∉ name ∧
      ('='.toUInt8 ∉ value ∨ ws₂ ≠ [] ∧ value.head? = some ';'.toUInt8) := by
  obtain ⟨front, rest, hfound⟩ : ∃ front rest, findCharOrComment '='.toUInt8 false
      (name ++ ws ++ ':'.toUInt8 :: tail) = (front, rest) := ⟨_, _, rfl⟩
  rw [hfound] at hfind
  obtain ⟨hcut, hover, hfree, hstop⟩ := findCharOrComment_eq_iff.mp hfound
  have hcut' : name ++ ws ++ [':'.toUInt8] ++ (ws₂ ++ value ++ ws₃ ++ comment) =
      front ++ (rest ++ b) := by
    rw [← htail, ← List.append_assoc, ← List.append_assoc, ← hcut]
    simp
  rcases hstop with rfl | hequals | ⟨hsemi, hblank⟩
  · rw [List.append_nil] at hcut
    have hnot : '='.toUInt8 ∉ front ++ b := by
      rw [List.mem_append, not_or]
      exact ⟨hover, hb.not_mem (by decide)⟩
    rw [List.nil_append] at hcut'
    rw [← hcut'] at hnot
    simp only [List.mem_append, not_or] at hnot
    exact ⟨hnot.1.1.1, .inl hnot.2.1.1.2⟩
  · exact absurd hequals hfind
  · obtain ⟨r, rfl⟩ : ∃ r, rest = ';'.toUInt8 :: r := List.head?_eq_some_iff.mp hsemi
    -- the search stops at a semicolon behind the colon
    obtain ⟨front', rfl, htail'⟩ : ∃ front', front = name ++ ws ++ [':'.toUInt8] ++ front' ∧
        ws₂ ++ value ++ ws₃ ++ comment = front' ++ ';'.toUInt8 :: (r ++ b) := by
      rcases List.append_eq_append_iff.mp hcut' with ⟨front', hover', htail'⟩ | ⟨x, hkey, hx⟩
      · exact ⟨front', hover', htail'⟩
      · cases x with
        | nil =>
            rw [List.append_nil] at hkey
            exact ⟨[], by rw [hkey, List.append_nil], hx.symm⟩
        | cons c x =>
            obtain ⟨rfl, -⟩ := List.cons_eq_cons.mp hx
            have hcolon : (':'.toUInt8 == ';'.toUInt8) = false := by decide
            have hkeyfree : commentFree false (name ++ ws ++ [':'.toUInt8]) = true := by
              rw [commentFree_append, hname.commentFree, commentFree, hcolon, Bool.and_false]
              rfl
            rw [hkey, not_commentFree hblank] at hkeyfree
            contradiction
    have hends : front' ≠ [] ∧ endsBlank false front' = true := by
      rcases endsBlank_append hblank with h | ⟨-, h⟩
      · exact h
      · rw [endsBlank, List.getLast?_append] at h
        exact absurd (show isspace ':'.toUInt8 = true from h) (by decide)
    simp only [List.mem_append, not_or] at hover
    refine ⟨hover.1.1.1, ?_⟩
    by_cases hmem : '='.toUInt8 ∈ value
    · refine .inr ?_
      have hne : value ≠ [] := List.ne_nil_of_mem hmem
      rw [List.append_assoc, List.append_assoc] at htail'
      rcases List.append_eq_append_iff.mp htail' with ⟨y, rfl, hy⟩ | ⟨x, rfl, hx⟩
      · rcases List.append_eq_append_iff.mp hy with ⟨z, rfl, -⟩ | ⟨z, rfl, hz⟩
        · exact absurd (List.mem_append_left z hmem) fun h => hover.2 (List.mem_append_right _ h)
        · cases z with
          | nil =>
              rw [List.append_nil] at hmem
              exact absurd (List.mem_append_right ws₂ hmem) hover.2
          | cons c z =>
              obtain ⟨rfl, -⟩ := List.cons_eq_cons.mp hz
              rcases endsBlank_append hends.2 with ⟨-, hy'⟩ | ⟨rfl, -⟩
              · have hshown := hvalue.free
                rw [not_commentFree hy'] at hshown
                contradiction
              · rw [List.append_nil] at hends
                exact ⟨hends.1, rfl⟩
      · cases x with
        | nil =>
            rw [List.append_nil]
            refine ⟨hends.1, ?_⟩
            rw [List.nil_append] at hx
            have hhead := congrArg List.head? hx
            rw [List.head?_append_of_ne_nil _ hne] at hhead
            exact hhead.symm
        | cons c x =>
            obtain ⟨rfl, -⟩ := List.cons_eq_cons.mp hx
            have hspace := hvalue.blank ';'.toUInt8 (by simp)
            exact absurd hspace (by decide)
    · exact .inl hmem

/-- An entry that is split has a name in front of its separator. -/
theorem exists_of_splitEntry (htrim : Trimmed isspace start)
    (hfirst : ∀ c ∈ start.head?, c ≠ ';'.toUInt8 ∧ c ≠ '#'.toUInt8 ∧ c ≠ '['.toUInt8)
    (hsep : (splitEntry start).2.head? = some '='.toUInt8 ∨
      (splitEntry start).2.head? = some ':'.toUInt8) :
    ∃ name ws sep tail, splitEntry start = (name ++ ws, sep :: tail) ∧
      start = name ++ ws ++ sep :: tail ∧ rstrip (name ++ ws) = name ∧ NameText name ws ∧
      sep ∉ name ∧ (sep = '='.toUInt8 ∨ sep = ':'.toUInt8 ∧
        (findCharOrComment '='.toUInt8 false start).2.head? ≠ some '='.toUInt8) := by
  obtain ⟨sep, tail, key, hsplit, hfound, hor⟩ : ∃ sep tail key,
      splitEntry start = (key, sep :: tail) ∧
      findCharOrComment sep false start = (key, sep :: tail) ∧
      (sep = '='.toUInt8 ∨ sep = ':'.toUInt8 ∧
        (findCharOrComment '='.toUInt8 false start).2.head? ≠ some '='.toUInt8) := by
    by_cases heq : (findCharOrComment '='.toUInt8 false start).2.head? = some '='.toUInt8
    · obtain ⟨tail, htail⟩ := List.head?_eq_some_iff.mp heq
      have hfound := congrArg (Prod.mk (findCharOrComment '='.toUInt8 false start).1) htail
      exact ⟨_, tail, _, (if_neg fun hne => hne heq).trans hfound, hfound, .inl rfl⟩
    · have hsplit : splitEntry start = findCharOrComment ':'.toUInt8 false start := if_pos heq
      rw [hsplit] at hsep ⊢
      obtain ⟨-, -, -, hstop⟩ := findCharOrComment_eq_iff.mp
        (rfl : findCharOrComment ':'.toUInt8 false start = (_, _))
      have hcolon : (findCharOrComment ':'.toUInt8 false start).2.head? = some ':'.toUInt8 := by
        refine hsep.resolve_left fun hequals => ?_
        rcases hstop with hnil | h | ⟨h, -⟩
        · rw [hnil] at hequals
          cases hequals
        · exact absurd (Option.some.inj (hequals.symm.trans h)) (by decide)
        · exact absurd (Option.some.inj (hequals.symm.trans h)) (by decide)
      obtain ⟨tail, htail⟩ := List.head?_eq_some_iff.mp hcolon
      have hfound := congrArg (Prod.mk (findCharOrComment ':'.toUInt8 false start).1) htail
      exact ⟨_, tail, _, hfound, hfound, .inr ⟨rfl, heq⟩⟩
  obtain ⟨hcut, hnot, hfree, -⟩ := findCharOrComment_eq_iff.mp hfound
  obtain ⟨ws, hkey, hws⟩ := exists_rdropWhile isspace key
  have hlast := getLast?_rdropWhile isspace key
  rw [← rstrip] at hkey hlast
  generalize hname : rstrip key = name at *
  subst hkey
  rw [commentFree_append, Bool.and_eq_true] at hfree
  rw [List.mem_append, not_or] at hnot
  have hheads : ∀ c ∈ name.head?, c ∈ start.head? := by
    intro c hc
    rw [hcut, List.head?_append, List.head?_append, Option.mem_def.mp hc]
    rfl
  refine ⟨name, ws, sep, tail, hsplit, hcut, hname, ?_, hnot.1, hor⟩
  refine ⟨⟨fun c hc => htrim.head c (hheads c hc), hlast⟩, hfree.1,
    fun c hc => hfirst c (hheads c hc), hws, ?_⟩
  rintro rfl
  refine eq_nil_of_blank_of_head hws fun c hc => htrim.head c ?_
  rw [hcut, List.nil_append, List.head?_append, Option.mem_def.mp hc]
  rfl

/-- What is read is written by the grammar. -/
theorem spells_of_readLine (h : readLine inEntry line = some item) (hzero : 0 ∉ line) :
    Spells inEntry line item := by
  obtain ⟨ws, b, hline, hws, hb⟩ := exists_trim isspace line
  have htrim := trimmed_trim isspace line
  rw [readLine] at h
  generalize trim isspace line = start at *
  dsimp only at h
  split at h
  next hnothing =>
      cases h
      rcases hnothing with rfl | hhead
      · rw [List.append_nil] at hline
        exact .blank (hline ▸ List.forall_mem_append.mpr ⟨hws, hb⟩)
      · obtain ⟨c, hc, hor⟩ : ∃ c, start.head? = some c ∧ (c = ';'.toUInt8 ∨ c = '#'.toUInt8) :=
          hhead.elim (fun h => ⟨_, h, .inl rfl⟩) fun h => ⟨_, h, .inr rfl⟩
        obtain ⟨text, rfl⟩ := List.head?_eq_some_iff.mp hc
        rw [hline, List.append_assoc, List.cons_append]
        exact .comment hws hor
  next hsome =>
      simp only [not_or] at hsome
      obtain ⟨c, hc⟩ : ∃ c, start.head? = some c :=
        Option.ne_none_iff_exists'.mp fun h => hsome.1 (List.head?_eq_none_iff.mp h)
      have hspace := htrim.head c hc
      split at h
      next hmore =>
          cases h
          have hne : ws ≠ [] := by
            rintro rfl
            rw [hline, List.nil_append, List.head?_append, hc] at hmore
            exact absurd (hspace.symm.trans hmore.2) (by decide)
          rw [hline]
          refine .more hmore.1 hws hne htrim hsome.1 (fun d hd => ⟨?_, ?_⟩) hb
          · rintro rfl
            exact hsome.2.1 hd
          · rintro rfl
            exact hsome.2.2 hd
      next hnot =>
          have hin : inEntry = true → ws = [] := by
            intro hentry
            by_contra hne
            refine hnot ⟨hentry, ?_⟩
            rw [hline, List.append_assoc, List.head?_append_of_ne_nil _ hne,
              List.head?_eq_some_head hne]
            exact hws _ (List.head_mem hne)
          split at h
          next hopen =>
              obtain ⟨text, rfl⟩ := List.head?_eq_some_iff.mp hopen
              obtain ⟨name, rest, hfound⟩ : ∃ name rest,
                  findCharOrComment ']'.toUInt8 false text = (name, rest) := ⟨_, _, rfl⟩
              rw [List.tail_cons, hfound] at h
              split at h
              next hclose =>
                  cases h
                  obtain ⟨rest, rfl⟩ := List.head?_eq_some_iff.mp hclose
                  obtain ⟨rfl, hname, hfree, -⟩ := findCharOrComment_eq_iff.mp hfound
                  rw [hline, List.append_assoc, List.cons_append, List.append_assoc,
                    List.cons_append]
                  exact .header hws hin hname hfree
              next => cases h
          next hopen =>
              split at h
              next hsep =>
                  cases h
                  have hfirst : ∀ d ∈ start.head?,
                      d ≠ ';'.toUInt8 ∧ d ≠ '#'.toUInt8 ∧ d ≠ '['.toUInt8 := by
                    intro d hd
                    refine ⟨?_, ?_, ?_⟩
                    · rintro rfl
                      exact hsome.2.1 hd
                    · rintro rfl
                      exact hsome.2.2 hd
                    · rintro rfl
                      exact hopen hd
                  obtain ⟨name, ws₁, sep, tail, hsplit, hcut, hname, htext, hnot, hor⟩ :=
                    exists_of_splitEntry htrim hfirst hsep
                  rw [hsplit, hname, List.tail_cons]
                  have hline' : line = ws ++ (name ++ ws₁ ++ sep :: (tail ++ b)) := by
                    rw [hline, hcut]
                    simp
                  have hzero' : 0 ∉ tail ++ b := fun hmem => hzero (hline' ▸
                    List.mem_append_right _ (List.mem_append_right _ (List.mem_cons_of_mem _ hmem)))
                  obtain ⟨ws₂, ws₃, comment, htail, hvalue⟩ := (readValue_eq_iff hzero').mp
                    (readValue_append_blank (fun hmem => hzero' (List.mem_append_left _ hmem)) hb)
                  rw [hline', htail]
                  refine .entry hws hin htext ⟨hnot, hor.imp_right ?_⟩ hvalue
                  rintro ⟨rfl, hfind⟩
                  rw [hcut] at hfind
                  exact ⟨rfl, equals_of_find htext hvalue hb htail hfind⟩
              next => cases h

/-- The line is read as the grammar has it. -/
theorem readLine_eq_some_iff (hzero : 0 ∉ line) :
    readLine inEntry line = some item ↔ Spells inEntry line item :=
  ⟨fun h => spells_of_readLine h hzero, fun h => h.readLine hzero⟩

end Line

end CiteParser.Ini
