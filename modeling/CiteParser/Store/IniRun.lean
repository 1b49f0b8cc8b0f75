import CiteParser.Store.IniLines

/-!
# Reading a configuration file to its end

What `ini_parse_file` does with a file comes down to what the lines of the file say: the handler is
called for the entries in their order, whatever else stands between them, and the number returned
is that of the first line that says nothing or that the handler refuses. Nothing is left out behind
such a line.
-/

namespace CiteParser.Ini

/-- What the lines above a line make of it: its section, and the entry that it may go on with. -/
structure IniPlace where
  sectionName : List UInt8
  prev_name : List UInt8

/-- The place in front of the first line. -/
def IniPlace.start : IniPlace := ⟨[], []⟩

/-- The place behind a line that says something, or that cannot be read. -/
def IniPlace.behind (place : IniPlace) : Option IniItem → IniPlace
  | some (.header name) => ⟨strncpy0 name maxSection, []⟩
  | some (.entry name _) => ⟨place.sectionName, strncpy0 name maxName⟩
  | _ => place

/-- The call that an item is. -/
def IniPlace.call? (place : IniPlace) : IniItem → Option IniCall
  | .entry name value => some ⟨place.sectionName, name, value⟩
  | .more value => some ⟨place.sectionName, place.prev_name, value⟩
  | _ => none

/-- A line that can go on with an entry. -/
def IniPlace.inEntry (place : IniPlace) : Bool := decide (place.prev_name ≠ [])

/-- The line without the mark that the first one may begin with. -/
def withoutBom (first : Bool) (line : List UInt8) : List UInt8 :=
  if first = true ∧ bom <+: line then line.drop 3 else line

/-- The item is what a line says by the grammar, or there is none and the line says nothing. -/
def Says (inEntry : Bool) (line : List UInt8) (item : Option IniItem) : Prop :=
  ∀ i, item = some i ↔ Spells inEntry line i

/-- The items are what the lines from a place on say. -/
inductive SaysAll : Bool → IniPlace → List (List UInt8) → List (Option IniItem) → Prop
  | nil {first : Bool} {place : IniPlace} : SaysAll first place [] []
  | cons {first : Bool} {place : IniPlace} {line : List UInt8} {rest : List (List UInt8)}
      {item : Option IniItem} {items : List (Option IniItem)}
      (hline : Says place.inEntry (withoutBom first line) item)
      (hrest : SaysAll false (place.behind item) rest items) :
      SaysAll first place (line :: rest) (item :: items)

/-- What lines are read as, from a place on. -/
def readLines (first : Bool) (place : IniPlace) : List (List UInt8) → List (Option IniItem)
  | [] => []
  | line :: rest =>
      readLine place.inEntry (withoutBom first line) ::
        readLines false (place.behind (readLine place.inEntry (withoutBom first line))) rest

section Run

variable {U : Type*} (handler : U → IniCall → U × Bool)

/-- What becomes of `user` at an item, and whether the line is in order. -/
def iniTake (user : U) (place : IniPlace) (item : Option IniItem) : U × Bool :=
  match item.map place.call? with
  | none => (user, false)
  | some none => (user, true)
  | some (some call) => handler user call

/-- The calls of the items one after the other, and for each line whether it is in order. -/
def iniRun (user : U) (place : IniPlace) : List (Option IniItem) → U × List Bool
  | [] => (user, [])
  | item :: rest =>
      ((iniRun (iniTake handler user place item).1 (place.behind item) rest).1,
        (iniTake handler user place item).2 ::
          (iniRun (iniTake handler user place item).1 (place.behind item) rest).2)

/-- The number of the first of the lines behind `lineno` that is not in order, or 0. -/
def firstFault (lineno : Nat) (oks : List Bool) : Nat :=
  ((oks.findIdx? (!·)).map (lineno + · + 1)).getD 0

namespace IniState

/-- The place of the next line. -/
def place (st : IniState U) : IniPlace := ⟨st.sectionName, st.prev_name⟩

/-- What an item makes of the variables. -/
def take (st : IniState U) (item : Option IniItem) : IniState U where
  user := (iniTake handler st.user st.place item).1
  sectionName := (st.place.behind item).sectionName
  prev_name := (st.place.behind item).prev_name
  lineno := st.lineno + 1
  error :=
    if (iniTake handler st.user st.place item).2 = true ∨ st.error ≠ 0 then st.error
    else st.lineno + 1

end IniState

/-- A line begins with white space if the pointer to its text has moved. -/
theorem indented_iff {line : List UInt8} (hne : lskip (rstrip line) ≠ []) :
    0 < (rstrip line).length - (lskip (rstrip line)).length ↔
      line.head?.any isspace = true := by
  obtain ⟨b, hline, -⟩ := exists_rdropWhile isspace line
  obtain ⟨a, hstrip, ha⟩ := exists_dropWhile isspace (rstrip line)
  rw [← rstrip] at hline
  have hhead := head?_dropWhile isspace (rstrip line)
  rw [← lskip] at hstrip hhead
  have hlen := congrArg List.length hstrip
  rw [List.length_append] at hlen
  have hfirst : line.head? = (a ++ lskip (rstrip line)).head? := by
    rw [← hstrip]
    conv_lhs => rw [hline]
    refine List.head?_append_of_ne_nil _ fun hnil => hne ?_
    rw [hnil]
    rfl
  cases a with
  | nil =>
      obtain ⟨c, hc⟩ := Option.ne_none_iff_exists'.mp
        fun h => hne (List.head?_eq_none_iff.mp h)
      rw [hfirst, List.nil_append, hc, Option.any_some, hhead c hc]
      simp only [List.length_nil] at hlen
      simp only [Bool.false_eq_true, iff_false]
      omega
  | cons c a =>
      rw [hfirst, List.cons_append, List.head?_cons, Option.any_some,
        ha c List.mem_cons_self]
      simp only [List.length_cons] at hlen
      simp only [iff_true]
      omega

section Take

variable (st : IniState U)

theorem take_none :
    st.take handler none = IniState.fault { st with lineno := st.lineno + 1 } := by
  rw [IniState.take, IniState.fault]
  by_cases herror : st.error = 0 <;> simp [iniTake, IniPlace.behind, IniState.place, herror]

theorem take_nothing :
    st.take handler (some .nothing) = { st with lineno := st.lineno + 1 } := by
  rw [IniState.take]
  simp [iniTake, IniPlace.behind, IniPlace.call?, IniState.place]

theorem take_header (name : List UInt8) :
    st.take handler (some (.header name)) =
      { st with lineno := st.lineno + 1
                sectionName := strncpy0 name maxSection
                prev_name := [] } := by
  rw [IniState.take]
  simp [iniTake, IniPlace.behind, IniPlace.call?]

theorem take_entry (name value : List UInt8) :
    st.take handler (some (.entry name value)) =
      IniState.call handler
        { st with lineno := st.lineno + 1, prev_name := strncpy0 name maxName } name value := by
  rw [IniState.take, IniState.call]
  cases hok : (handler st.user ⟨st.sectionName, name, value⟩).2 <;>
    by_cases herror : st.error = 0 <;>
    simp [iniTake, IniPlace.behind, IniPlace.call?, IniState.place, IniState.fault, hok, herror]

theorem take_more (value : List UInt8) :
    st.take handler (some (.more value)) =
      IniState.call handler { st with lineno := st.lineno + 1 } st.prev_name value := by
  rw [IniState.take, IniState.call]
  cases hok : (handler st.user ⟨st.sectionName, st.prev_name, value⟩).2 <;>
    by_cases herror : st.error = 0 <;>
    simp [iniTake, IniPlace.behind, IniPlace.call?, IniState.place, IniState.fault, hok, herror]

end Take

theorem splitEntry_suffix (start : List UInt8) : (splitEntry start).2 <:+ start := by
  have hsuffix : ∀ c, (findCharOrComment c false start).2 <:+ start := fun c =>
    ⟨_, (findCharOrComment_eq_iff.mp
      (rfl : findCharOrComment c false start = (_, _))).1.symm⟩
  rw [splitEntry]
  split
  · exact hsuffix _
  · exact hsuffix _

/-- Where there is no comment, all of a value is shown. -/
theorem shown_or_all {value : List UInt8} (hzero : 0 ∉ value) :
    (if (findCharOrComment 0 false value).2.head? = some ';'.toUInt8 then
      (findCharOrComment 0 false value).1 else value) = (findCharOrComment 0 false value).1 := by
  obtain ⟨hcut, -, -, hstop⟩ := findCharOrComment_eq_iff.mp
    (rfl : findCharOrComment 0 false value = (_, _))
  split
  · rfl
  next hnot =>
      rcases hstop with hnil | hhead | ⟨hsemi, -⟩
      · rw [hnil, List.append_nil] at hcut
        exact hcut
      · exact absurd (hcut ▸ List.mem_append_right _ (List.mem_of_head? hhead)) hzero
      · exact absurd hsemi hnot

/-- The body of the loop does what the line says. -/
theorem line_eq_take (st : IniState U) (hstart : st.lineno = 0 → st.prev_name = [])
    (line : List UInt8) :
    st.line handler line =
      st.take handler (readLine st.place.inEntry
        (withoutBom (decide (st.lineno = 0)) (cstr line))) := by
  have hbegin : (if st.lineno + 1 = 1 ∧ bom <+: cstr line then (cstr line).drop 3 else cstr line) =
      withoutBom (decide (st.lineno = 0)) (cstr line) := by
    simp [withoutBom]
  have hsame : st.prev_name ≠ [] → withoutBom (decide (st.lineno = 0)) (cstr line) = cstr line := by
    intro hprev
    rw [withoutBom, decide_eq_false fun hzero => hprev (hstart hzero)]
    exact if_neg fun h => Bool.false_ne_true h.1
  rw [IniState.line]
  dsimp only
  rw [hbegin]
  have htext : withoutBom (decide (st.lineno = 0)) (cstr line) ⊆ cstr line := by
    rw [withoutBom]
    split
    · exact List.drop_subset _ _
    · exact List.Subset.refl _
  generalize withoutBom (decide (st.lineno = 0)) (cstr line) = text at hsame htext ⊢
  rw [readLine, show trim isspace text = lskip (rstrip text) from rfl]
  generalize hmoved : cstr line = whole at hsame htext ⊢
  have hmore : (st.prev_name ≠ [] ∧ lskip (rstrip text) ≠ [] ∧
      0 < whole.length - text.length +
        ((rstrip text).length - (lskip (rstrip text)).length)) ↔
      lskip (rstrip text) ≠ [] ∧ st.place.inEntry = true ∧ text.head?.any isspace = true := by
    rw [IniPlace.inEntry, decide_eq_true_iff, and_left_comm]
    refine and_congr_right fun hne => and_congr_right fun hprev => ?_
    rw [hsame hprev, Nat.sub_self, Nat.zero_add, ← hsame hprev, indented_iff hne]
  simp only [hmore]
  have hzero : 0 ∉ lskip (rstrip text) := by
    intro hmem
    have hline : 0 ∈ cstr line := by
      rw [hmoved]
      exact htext ((List.rdropWhile_prefix _ _).subset ((List.dropWhile_sublist _).subset hmem))
    exact ne_zero_of_mem_cstr hline rfl
  generalize lskip (rstrip text) = start at hzero ⊢
  by_cases hsemi : start.head? = some ';'.toUInt8 ∨ start.head? = some '#'.toUInt8
  · rw [if_pos hsemi, if_pos (.inr hsemi), take_nothing]
  · rw [if_neg hsemi]
    by_cases hnil : start = []
    · have hno : ¬ (start ≠ [] ∧ st.place.inEntry = true ∧ text.head?.any isspace = true) :=
        fun h => h.1 hnil
      rw [if_neg hno, if_pos (Or.inl hnil), take_nothing, hnil]
      rfl
    · rw [if_neg (not_or.mpr ⟨hnil, hsemi⟩)]
      by_cases hin : st.place.inEntry = true ∧ text.head?.any isspace = true
      · rw [if_pos hin, if_pos ⟨hnil, hin⟩, take_more]
      · rw [if_neg hin, if_neg fun h => hin h.2]
        by_cases hopen : start.head? = some '['.toUInt8
        · rw [if_pos hopen, if_pos hopen]
          split
          · rw [take_header]
          · rw [take_none]
        · rw [if_neg hopen, if_neg hopen, if_pos ⟨hnil, fun h => hsemi (.inl h)⟩]
          have hsplit : (if (findCharOrComment '='.toUInt8 false start).2.head? ≠ some '='.toUInt8
              then findCharOrComment ':'.toUInt8 false start
              else findCharOrComment '='.toUInt8 false start) = splitEntry start := rfl
          have hvalue : 0 ∉ lskip (splitEntry start).2.tail := fun hmem => hzero
            ((splitEntry_suffix start).subset ((List.tail_sublist _).subset
              ((List.dropWhile_sublist _).subset hmem)))
          rw [hsplit, shown_or_all hvalue]
          split
          · rw [take_entry]
            rfl
          · rw [take_none]

theorem zero_not_mem_withoutBom {line : List UInt8} (hzero : 0 ∉ line) (first : Bool) :
    0 ∉ withoutBom first line := by
  rw [withoutBom]
  split
  · exact fun hmem => hzero (List.mem_of_mem_drop hmem)
  · exact hzero

/-- What a line says is what it is read as. -/
theorem says_iff {inEntry : Bool} {line : List UInt8} {item : Option IniItem} (hzero : 0 ∉ line) :
    Says inEntry line item ↔ item = readLine inEntry line := by
  constructor
  · intro h
    refine Option.ext fun i => ?_
    rw [h i, readLine_eq_some_iff hzero]
  · rintro rfl i
    exact readLine_eq_some_iff hzero

/-- The lines are read one after the other. -/
theorem saysAll_iff {lines : List (List UInt8)} (hzero : ∀ line ∈ lines, 0 ∉ line) (first : Bool)
    (place : IniPlace) (items : List (Option IniItem)) :
    SaysAll first place lines items ↔ items = readLines first place lines := by
  induction lines generalizing first place items with
  | nil =>
      constructor
      · rintro ⟨⟩
        rfl
      · rintro rfl
        exact .nil
  | cons line rest ih =>
      rw [List.forall_mem_cons] at hzero
      have hline := zero_not_mem_withoutBom hzero.1 first
      constructor
      · rintro (_ | ⟨hitems, hrest⟩)
        obtain rfl := (says_iff hline).mp hitems
        rw [(ih hzero.2 _ _ _).mp hrest, readLines]
      · rintro rfl
        exact .cons ((says_iff hline).mpr rfl) ((ih hzero.2 _ _ _).mpr rfl)

theorem firstFault_cons (lineno : Nat) (ok : Bool) (oks : List Bool) :
    firstFault lineno (ok :: oks) =
      if ok = true then firstFault (lineno + 1) oks else lineno + 1 := by
  cases ok with
  | false => simp [firstFault, List.findIdx?_cons]
  | true =>
      simp only [firstFault, List.findIdx?_cons, Bool.not_true, Bool.false_eq_true, if_false,
        Option.map_map, if_true]
      congr 2
      funext i
      simp only [Function.comp_apply]
      omega

/-- The loop over lines does what they say. -/
theorem foldl_line {lines : List (List UInt8)} {items : List (Option IniItem)} {st : IniState U}
    (hstart : st.lineno = 0 → st.prev_name = [])
    (hitems : SaysAll (decide (st.lineno = 0)) st.place (lines.map cstr) items) :
    (lines.foldl (IniState.line handler) st).user = (iniRun handler st.user st.place items).1 ∧
      (lines.foldl (IniState.line handler) st).error =
        if st.error = 0 then firstFault st.lineno (iniRun handler st.user st.place items).2
        else st.error := by
  induction lines generalizing st items with
  | nil =>
      cases hitems
      refine ⟨rfl, ?_⟩
      split
      next hzero => exact hzero
      · rfl
  | cons line rest ih =>
      cases hitems with
      | @cons _ _ _ _ item items hline hrest =>
          have hread : item =
              readLine st.place.inEntry (withoutBom (decide (st.lineno = 0)) (cstr line)) :=
            (says_iff (zero_not_mem_withoutBom
              (fun hmem => ne_zero_of_mem_cstr hmem rfl) _)).mp hline
          have hstep : st.line handler line = st.take handler item := by
            rw [hread]
            exact line_eq_take handler st hstart line
          have hfirst : decide ((st.take handler item).lineno = 0) = false := rfl
          obtain ⟨huser, herror⟩ := @ih items (st.take handler item)
            (fun h => absurd h (Nat.succ_ne_zero _)) (hfirst ▸ hrest)
          rw [List.foldl_cons, hstep, huser, herror, iniRun]
          refine ⟨rfl, ?_⟩
          have hplace : (st.take handler item).place = st.place.behind item := rfl
          have huser' : (st.take handler item).user =
              (iniTake handler st.user st.place item).1 := rfl
          rw [firstFault_cons, hplace, huser']
          have herr : (st.take handler item).error =
            if (iniTake handler st.user st.place item).2 = true ∨ st.error ≠ 0 then st.error
            else st.lineno + 1 := rfl
          rw [herr]
          by_cases hzero : st.error = 0
          · cases hok : (iniTake handler st.user st.place item).2 with
            | true =>
                simp only [true_or, if_true, hzero]
                rfl
            | false => simp [hzero]
          · simp [hzero]

/-- For every file and every handler there is one item for each line that `fgets` gives, or none
where the line says nothing by the grammar, such that the handler is called for the entries in
their order, and what is returned is the number of the first line that says nothing or that the
handler refuses, or 0 if there is none. -/
theorem iniParseFile_spec (user : U) (file : List UInt8) :
    ∃ items,
      (∀ items', SaysAll true .start ((fgetsLines [] file).map cstr) items' ↔ items' = items) ∧
      iniParseFile handler user file =
        ((iniRun handler user .start items).1,
          firstFault 0 (iniRun handler user .start items).2) := by
  have hzero : ∀ line ∈ (fgetsLines [] file).map cstr, 0 ∉ line := by
    intro line hline hmem
    obtain ⟨buf, -, rfl⟩ := List.mem_map.mp hline
    exact ne_zero_of_mem_cstr hmem rfl
  obtain ⟨huser, herror⟩ := @foldl_line _ handler _ _ ⟨user, [], [], 0, 0⟩ (fun _ => rfl)
    ((saysAll_iff hzero true .start _).mpr rfl)
  exact ⟨_, saysAll_iff hzero true .start, Prod.ext huser herror⟩

end Run

end CiteParser.Ini
