import CiteParser.Core.Decimal
import CiteParser.Store.IniRun
import CiteParser.Store.TagNames
import CiteParser.Text.Chars

/-!
# The token file

`tokenInit` of `tokens.c` hands `token.ini` to `ini_parse` and takes the entries of one of its
sections into the token table. However the file is laid out, the table has its entries, each name
under its id.
-/

namespace CiteParser

open Ini

/-- The digits that a string begins with, as a number. -/
def leadingDigits (s : List UInt8) : Nat :=
  decimal ((s.takeWhile isDigitCode).map fun c => c.toNat - 48)

/-- `atoi`, of a number that an `int` holds. -/
def atoi (s : List UInt8) : Int :=
  match lskip s with
  | c :: t =>
      if c = '-'.toUInt8 then -(leadingDigits t : Int)
      else if c = '+'.toUInt8 then leadingDigits t
      else leadingDigits (c :: t)
  | [] => 0

/-- `doTokenInit`, as it is called by `ini_parse`. There is no table any more once a slot has been
written that there is not, or more than a slot holds. -/
def doTokenInitCall (repo : Option TokenRepo) (call : IniCall) : Option TokenRepo × Bool :=
  let id := atoi call.value
  if call.sectionName = bytes "tokens" then
    if id > TOKEN_MAX_LEN - 1 then (repo, false)
    else if id < 0 ∨ MAX_TOKEN_LENGTH ≤ call.name.length then (none, true)
    else (repo.map fun repo => doTokenInit repo call.name id.toNat, true)
  else (repo, true)

/-- `tokenInit`, of a file that can be opened or not: the table, and whether 1 is returned. -/
def tokenInitFile (file : Option (List UInt8)) : Option TokenRepo × Bool :=
  let parsed := iniParse doTokenInitCall (some .empty) file
  (parsed.1, decide (¬ parsed.2 < 0))

/-- The calls that items are. -/
def iniCalls (place : IniPlace) : List (Option IniItem) → List IniCall
  | [] => []
  | item :: rest => (item.bind place.call?).toList ++ iniCalls (place.behind item) rest

/-- The entries of the section `tokens`, with their ids. -/
def tokenEntries (items : List (Option IniItem)) : List (List UInt8 × Int) :=
  ((iniCalls .start items).filter fun call => call.sectionName = bytes "tokens").map fun call =>
    (call.name, atoi call.value)

/-! ## Files of lines -/

section Lines

variable {first inEntry : Bool} {line : List UInt8} {lines : List (List UInt8)}

/-- A line that `fgets` reads as a whole, and that is a string. -/
def IsLine (line : List UInt8) : Prop := 0 ∉ line ∧ 10 ∉ line ∧ line.length + 2 ≤ iniMaxLine

instance (line : List UInt8) : Decidable (IsLine line) := inferInstanceAs (Decidable (_ ∧ _))

theorem fgetsLines_cons (hline : 10 ∉ line) (before : List UInt8)
    (hlen : (before ++ line).length + 2 ≤ iniMaxLine) (s : List UInt8) :
    fgetsLines before (line ++ 10 :: s) = (before ++ line ++ [10]) :: fgetsLines [] s := by
  induction line generalizing before with
  | nil => rw [List.nil_append, fgetsLines, if_pos (.inl rfl), List.append_nil]
  | cons c line ih =>
      rw [List.mem_cons, not_or] at hline
      have hsplit : before ++ c :: line = before ++ [c] ++ line := List.append_cons ..
      rw [hsplit] at hlen ⊢
      have hnot : ¬ (c = 10 ∨ before.length + 2 = iniMaxLine) := by
        rintro (rfl | h)
        · exact hline.1 rfl
        · simp only [List.length_append, List.length_singleton] at hlen
          omega
      rw [List.cons_append, fgetsLines, if_neg hnot, ih hline.2 _ hlen]

/-- Each line of a file is read as a line. -/
theorem fgetsLines_lines (h : ∀ line ∈ lines, IsLine line) :
    fgetsLines [] (lines.flatMap (· ++ [10])) = lines.map (· ++ [10]) := by
  induction lines with
  | nil => rfl
  | cons line lines ih =>
      rw [List.forall_mem_cons] at h
      rw [List.flatMap_cons, List.append_assoc, List.singleton_append,
        fgetsLines_cons h.1.2.1 [] h.1.2.2, ih h.2]
      rfl

/-- The line feed at the end of a line makes no difference to it. -/
theorem readLine_newline (inEntry : Bool) (line : List UInt8) :
    readLine inEntry (line ++ [10]) = readLine inEntry line := by
  have htrim : trim isspace (line ++ [10]) = trim isspace line := by
    rw [trim, rdropWhile_append_of_all (List.forall_mem_singleton.mpr rfl)]
    rfl
  rw [readLine, readLine, htrim]
  by_cases hnil : line = []
  · subst hnil
    rfl
  · rw [List.head?_append_of_ne_nil _ hnil]

theorem withoutBom_newline (first : Bool) (line : List UInt8) :
    withoutBom first (line ++ [10]) = withoutBom first line ++ [10] := by
  have hbom : bom <+: line ++ [10] ↔ bom <+: line := by
    rw [List.prefix_concat_iff]
    refine or_iff_right fun h => ?_
    have hlast := congrArg List.getLast? h
    rw [List.getLast?_concat] at hlast
    exact absurd (Option.some.inj hlast) (by decide)
  simp only [withoutBom, hbom]
  split
  next h => exact List.drop_append_of_le_length h.2.length_le
  · rfl

theorem readLines_newline (first : Bool) (place : IniPlace) (lines : List (List UInt8)) :
    readLines first place (lines.map (· ++ [10])) = readLines first place lines := by
  induction lines generalizing first place with
  | nil => rfl
  | cons line lines ih =>
      rw [List.map_cons, readLines, readLines, withoutBom_newline, readLine_newline, ih]

end Lines

/-! ## The table -/

/-- What becomes of `user` is what the calls make of it. -/
theorem iniRun_fst {U : Type*} (handler : U → IniCall → U × Bool) (user : U) (place : IniPlace)
    (items : List (Option IniItem)) :
    (iniRun handler user place items).1 =
      (iniCalls place items).foldl (fun user call => (handler user call).1) user := by
  induction items generalizing user place with
  | nil => rfl
  | cons item items ih =>
      rw [iniRun, iniCalls, List.foldl_append, ih]
      congr 1
      cases item with
      | none => rfl
      | some item => cases item <;> rfl

/-- The calls put the entries of the section into the table. -/
theorem foldl_doTokenInitCall {calls : List IniCall}
    (hroom : ∀ call ∈ calls, call.sectionName = bytes "tokens" →
      0 ≤ atoi call.value ∧ (atoi call.value < TOKEN_MAX_LEN → call.name.length < MAX_TOKEN_LENGTH))
    (repo : TokenRepo) :
    calls.foldl (fun repo call => (doTokenInitCall repo call).1) (some repo) =
      some ((((calls.filter fun call => call.sectionName = bytes "tokens").map fun call =>
        (call.name, atoi call.value)).map fun e => (e.1, e.2.toNat)).foldl
          (fun repo e => doTokenInit repo e.1 e.2) repo) := by
  induction calls generalizing repo with
  | nil => rfl
  | cons call calls ih =>
      rw [List.forall_mem_cons] at hroom
      rw [List.foldl_cons]
      by_cases hsection : call.sectionName = bytes "tokens"
      · obtain ⟨hpos, hshort⟩ := hroom.1 hsection
        have hcall : (doTokenInitCall (some repo) call).1 =
            some (doTokenInit repo call.name (atoi call.value).toNat) := by
          rw [TOKEN_MAX_LEN] at hshort
          rw [doTokenInitCall, if_pos hsection, TOKEN_MAX_LEN]
          split
          next hid =>
              have hrefused : TOKEN_MAX_LEN - 1 < (atoi call.value).toNat := by
                rw [TOKEN_MAX_LEN]
                omega
              rw [doTokenInit, if_pos hrefused]
          next hid =>
              rw [if_neg]
              · rfl
              · rintro (hneg | hlong)
                · omega
                · have := hshort (by omega)
                  omega
        rw [hcall, ih hroom.2, List.filter_cons_of_pos (by simpa using hsection), List.map_cons,
          List.map_cons, List.foldl_cons]
      · have hcall : (doTokenInitCall (some repo) call).1 = some repo := by
          rw [doTokenInitCall, if_neg hsection]
        rw [hcall, ih hroom.2, List.filter_cons_of_neg (by simpa using hsection)]

/-- However its lines are written, the file fills the table with the entries that they say, and
lines that say nothing are passed over. -/
theorem tokenInitFile_lines {lines : List (List UInt8)} {items : List (Option IniItem)}
    (hlines : ∀ line ∈ lines, IsLine line) (hitems : SaysAll true .start lines items)
    (hroom : ∀ e ∈ tokenEntries items,
      0 ≤ e.2 ∧ (e.2 < TOKEN_MAX_LEN → e.1.length < MAX_TOKEN_LENGTH)) :
    tokenInitFile (some (lines.flatMap (· ++ [10]))) =
      (some (tokenInit ((tokenEntries items).map fun e => (e.1, e.2.toNat))), true) := by
  have hzero : ∀ line ∈ lines, 0 ∉ line := fun line hline => (hlines line hline).1
  have hread : (fgetsLines [] (lines.flatMap (· ++ [10]))).map cstr = lines.map (· ++ [10]) := by
    rw [fgetsLines_lines hlines, List.map_map]
    refine List.map_congr_left fun line hline => cstr_eq_self fun c hc => ?_
    rcases List.mem_append.mp hc with hc | hc
    · rintro rfl
      exact hzero line hline hc
    · rw [List.mem_singleton.mp hc]
      decide
  obtain ⟨items', hfile, hparse⟩ :=
    iniParseFile_spec doTokenInitCall (some .empty) (lines.flatMap (· ++ [10]))
  rw [hread] at hfile
  have hsame : items' = items := by
    have hzero' : ∀ line ∈ lines.map (· ++ [10]), 0 ∉ line := by
      intro line hline
      obtain ⟨text, htext, rfl⟩ := List.mem_map.mp hline
      rw [List.mem_append, not_or]
      exact ⟨hzero text htext, by decide⟩
    have hitem := (saysAll_iff hzero' true .start items').mp ((hfile items').mpr rfl)
    rw [hitem, readLines_newline, (saysAll_iff hzero true .start items).mp hitems]
  subst hsame
  rw [tokenInitFile, iniParse, hparse, iniRun_fst, foldl_doTokenInitCall]
  · simp only [Int.natCast_nonneg, not_lt, decide_true]
    rfl
  · intro call hcall hsection
    exact hroom (call.name, atoi call.value) (List.mem_map_of_mem
      (List.mem_filter.mpr ⟨hcall, decide_eq_true hsection⟩))

/-- A table has the entries of its file and no others: names and ids are looked up both ways. -/
theorem tokens_of_file {lines : List (List UInt8)} {items : List (Option IniItem)}
    {entries : List (List UInt8 × Nat)} (hlines : ∀ line ∈ lines, IsLine line)
    (hitems : SaysAll true .start lines items)
    (hentries : tokenEntries items = entries.map fun e => (e.1, (e.2 : Int)))
    (h : Registers entries) (hnames : (entries.map Prod.fst).Nodup) :
    ∃ repo, tokenInitFile (some (lines.flatMap (· ++ [10]))) = (some repo, true) ∧
      (∀ e ∈ entries, e.1 ≠ [] →
        (∃ h : e.2 < TOKEN_MAX_LEN, id2Token repo ⟨e.2, h⟩ = some e.1) ∧ token2Id repo e.1 = e.2) ∧
      (∀ id : Fin TOKEN_MAX_LEN, id.val ∉ entries.map Prod.snd → id2Token repo id = none) ∧
      ∀ name, name ∉ entries.map Prod.fst → token2Id repo name = 0 := by
  have hroom : ∀ e ∈ tokenEntries items,
      0 ≤ e.2 ∧ (e.2 < TOKEN_MAX_LEN → e.1.length < MAX_TOKEN_LENGTH) := by
    rw [hentries, List.forall_mem_map]
    exact fun e he => ⟨Int.natCast_nonneg _, fun _ => h.length_lt e he⟩
  have hsame : (tokenEntries items).map (fun e => (e.1, e.2.toNat)) = entries := by
    rw [hentries, List.map_map]
    exact List.map_id' _
  refine ⟨_, tokenInitFile_lines hlines hitems hroom, ?_⟩
  rw [hsame]
  refine ⟨fun e he hne => ⟨⟨(h.isId e he).2, ?_⟩, ?_⟩, fun id hid => ?_, fun name hname => ?_⟩
  · rw [id2Token, (h.slot he).2, if_pos rfl, (h.slot he).1]
  · rw [token2Id, find?_range_eq_some (h.isId e he).2]
    · rfl
    · exact beq_iff_eq.mpr (h.slot he).1
    · intro i hi
      have hi' := beq_iff_eq.mp hi
      obtain ⟨f, hf, rfl⟩ := exists_entry_of_tokens (hi' ▸ hne)
      have hname : f.1 = e.1 := (h.slot hf).1 ▸ hi'
      rw [List.inj_on_of_nodup_map hnames hf he hname]
  · have hac : (tokenInit entries).ac id = false := by
      by_contra hne
      obtain ⟨e, he, heq⟩ := exists_entry_of_ac (Bool.not_eq_false _ ▸ hne)
      exact hid (heq ▸ List.mem_map_of_mem he)
    rw [id2Token, hac]
    rfl
  · by_cases hnil : name = []
    · -- the slot 0 is empty
      have hzero : (tokenInit entries).tokens 0 = [] := by
        by_contra hne
        obtain ⟨e, he, hid⟩ := exists_entry_of_tokens hne
        exact absurd hid (h.isId e he).1.ne'
      have hrange : List.range TOKEN_MAX_LEN = 0 :: List.range' 1 19 := rfl
      rw [token2Id, hrange, List.find?_cons_of_pos (by rw [hzero, hnil]; rfl)]
      rfl
    · have hnone : (List.range TOKEN_MAX_LEN).find?
          (fun i => (tokenInit entries).tokens i == name) = none := by
        rw [List.find?_eq_none]
        intro i _ hi
        have hi' := beq_iff_eq.mp hi
        obtain ⟨f, hf, rfl⟩ := exists_entry_of_tokens (hi' ▸ hnil)
        exact hname (List.mem_map.mpr ⟨f, hf, (h.slot hf).1 ▸ hi'⟩)
      rw [token2Id, hnone]
      rfl

/-- The lines of `token.ini`. -/
def tokenIniLines : List (List UInt8) :=
  ["[info]\r", "maxlen=20 ; (1-20)\r",
    "format=\"token=id ; comment , be careful the space before \\';\\' \" ;done(396/103)\r",
    "[tokens]\r", "RefA = 1 ; reference area <RefA></RefA>\r", "SinRef=2 ; single reference\r",
    "author=3\r", "booktitle=4\r", "date=5\r", "editor=6\r", "institution=7\r", "journal=8\r",
    "location=9\r", "note=10\r", "pages=11\r", "publisher=12\r", "tech=13\r", "title=14\r",
    "volume=15\r", "url=16\r", "isbn=17\r"].map bytes

/-- The table of the file that comes with the program. -/
theorem tokens_of_tokenIni :
    ∃ repo, tokenInitFile (some (tokenIniLines.flatMap (· ++ [10]))) = (some repo, true) ∧
      (∀ e ∈ tokenIni, e.1 ≠ [] →
        (∃ h : e.2 < TOKEN_MAX_LEN, id2Token repo ⟨e.2, h⟩ = some e.1) ∧ token2Id repo e.1 = e.2) ∧
      (∀ id : Fin TOKEN_MAX_LEN, id.val ∉ tokenIni.map Prod.snd → id2Token repo id = none) ∧
      ∀ name, name ∉ tokenIni.map Prod.fst → token2Id repo name = 0 := by
  have hlines : ∀ line ∈ tokenIniLines, IsLine line := by decide +kernel
  exact tokens_of_file hlines
    ((saysAll_iff (fun line hline => (hlines line hline).1) true .start _).mpr rfl)
    (by decide +kernel) (by decide +kernel) (by decide +kernel)

end CiteParser
