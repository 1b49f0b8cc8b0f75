import CiteParser.Citation.RowBytes

/-!
# Joining names and splitting them again

A reference lists its authors with a comma between two of them and a comma, an "and" or
both before the last. `spilitName` takes such a list apart again unless a name contains
letters that it takes for a separator, the last separator is two, or the blank before the
"and" fills a row. A name that goes wrong loses a character that is no blank, which no later
pass makes up for.
-/

namespace CiteParser

open Loop

/-- The word stands in the text with no letter or digit on either side. -/
def HasWord (w text : List UInt8) : Prop :=
  ∃ k < text.length, w <+: text.drop k ∧ (k = 0 ∨ isAsciiOrDigit (charAt text (k - 1)) = false) ∧
    isAsciiOrDigit (charAt text (k + w.length)) = false

instance (w text : List UInt8) : Decidable (HasWord w text) :=
  inferInstanceAs (Decidable (∃ k < text.length, w <+: text.drop k ∧
    (k = 0 ∨ isAsciiOrDigit (charAt text (k - 1)) = false) ∧
    isAsciiOrDigit (charAt text (k + w.length)) = false))

/-- The name of an author: it begins with a letter and shows no separator. -/
structure AuthorName where
  text : List UInt8
  letter : ∃ c rest, text = c :: rest ∧ isAsciiCode c = true
  short : text.length ≤ 49
  ascii : ∀ c ∈ text, c ≠ 0 ∧ c < 128
  comma : ∀ c ∈ text, c ≠ ','.toUInt8
  noAnd : ¬ HasWord (bytes "and") text
  noEtAl : ¬ bytes "et al" <:+: text

/-- What stands before the last of several names. -/
inductive LastSeparator where
  | comma
  | and
  | commaAnd
  deriving DecidableEq, Repr

def LastSeparator.text : LastSeparator → List UInt8
  | .comma => bytes ", "
  | .and => bytes " and "
  | .commaAnd => bytes ", and "

/-- What stands behind a name that so many names follow. -/
def separator (last : LastSeparator) : Nat → List UInt8
  | 0 => []
  | 1 => last.text
  | _ => bytes ", "

/-- The names as one text. -/
def joinNames (last : LastSeparator) : List AuthorName → List UInt8
  | [] => []
  | n :: rest => n.text ++ (separator last rest.length ++ joinNames last rest)

/-- How many characters are no blanks. -/
def nonblanks (text : List UInt8) : Nat := text.countP fun c => c != ' '.toUInt8

theorem nonblanks_append (u v : List UInt8) :
    nonblanks (u ++ v) = nonblanks u + nonblanks v :=
  List.countP_append

theorem nonblanks_cons (c : UInt8) (v : List UInt8) :
    nonblanks (c :: v) = nonblanks [c] + nonblanks v :=
  nonblanks_append [c] v

theorem nonblanks_singleton {c : UInt8} (h : c ≠ ' '.toUInt8) : nonblanks [c] = 1 := by
  rw [nonblanks, List.countP_singleton, if_pos (bne_iff_ne.mpr h)]

/-- No separator seems to stand at the cut of a name: what follows does not begin with "et", nor
with "and" unless it begins the whole text. -/
def PlainCut (first : Bool) (u v : List UInt8) : Prop :=
  ¬ bytes "et" <+: v ∧ (bytes "and" <+: v → first = true ∧ u = [])

/-- No cut of the name shows a separator. -/
def Intact (first : Bool) (name : List UInt8) : Prop :=
  ∀ u v, u ++ v = name → PlainCut first u v

/-- All names are intact, the first one as the beginning of the text. -/
def IntactNames : Bool → List AuthorName → Prop
  | _, [] => True
  | first, n :: rest => Intact first n.text ∧ IntactNames false rest

section Moves

variable {src : List UInt8} {i line : Nat} {c : UInt8} {tail : List UInt8}

/-- The first character that is left is the one at the position. -/
theorem charAt_of_drop (h : src.drop i = c :: tail) : i < src.length ∧ charAt src i = c := by
  have hi : i < src.length := by
    by_contra hge
    rw [List.drop_eq_nil_of_le (Nat.le_of_not_lt hge)] at h
    contradiction
  refine ⟨hi, ?_⟩
  rw [List.drop_eq_getElem_cons hi, List.cons_eq_cons] at h
  rw [charAt, List.getD_eq_getElem _ _ hi, h.1]

/-- What is left behind a text that has been read. -/
theorem drop_add_length {u rest : List UInt8} (h : src.drop i = u ++ rest) :
    src.drop (i + u.length) = rest := by
  rw [← List.drop_drop, h, List.drop_left]

/-- The move at a character, told by what is left of the text. -/
theorem nameMove_of_drop (h : src.drop i = c :: tail) (hline : line < 10) (fresh : Bool) :
    nameMove src i line fresh =
      if c = ','.toUInt8 then .next (i + 1)
      else if bytes "and" <+: c :: tail ∧ 0 < i then
        if !isAsciiOrDigit (charAt src (i - 1)) then .next (i + 4) else .drop
      else if bytes "et" <+: c :: tail then
        if alBehind src (i + 2) then .etAl else .drop
      else if fresh && !isAsciiOrDigit c then .drop
      else .keep c := by
  obtain ⟨hi, hc⟩ := charAt_of_drop h
  have hand : strncmpEq 3 (c :: tail) (bytes "and") = true ↔ bytes "and" <+: c :: tail :=
    @strncmpEq_prefix_iff (c :: tail) (bytes "and")
  have het : strncmpEq 2 (c :: tail) (bytes "et") = true ↔ bytes "et" <+: c :: tail :=
    @strncmpEq_prefix_iff (c :: tail) (bytes "et")
  rw [nameMove, if_neg (by omega), hc, h]
  simp only [hand, het]

/-- At the end of the text the loop is left. -/
theorem nameMove_of_drop_nil (h : src.drop i = []) (fresh : Bool) :
    nameMove src i line fresh = .stop :=
  if_pos (.inl (List.drop_eq_nil_iff.mp h))

/-- A blank is dropped before a name and kept in it. -/
theorem nameMove_blank (h : src.drop i = ' '.toUInt8 :: tail) (hline : line < 10) (fresh : Bool) :
    nameMove src i line fresh = if fresh then .drop else .keep ' '.toUInt8 := by
  have hand : ¬ bytes "and" <+: ' '.toUInt8 :: tail := fun hpre =>
    absurd (List.cons_prefix_cons.mp hpre).1 (by decide)
  have het : ¬ bytes "et" <+: ' '.toUInt8 :: tail := fun hpre =>
    absurd (List.cons_prefix_cons.mp hpre).1 (by decide)
  rw [nameMove_of_drop h hline, if_neg (by decide), if_neg (fun hpre => hand hpre.1), if_neg het]
  cases fresh <;> rfl

/-- Behind a blank an "and" ends the name. -/
theorem nameMove_and (h : src.drop i = ' '.toUInt8 :: (bytes "and" ++ tail)) (hline : line < 10)
    (fresh : Bool) : nameMove src (i + 1) line fresh = .next (i + 5) := by
  have hdrop : src.drop (i + 1) = 'a'.toUInt8 :: (bytes "nd" ++ tail) :=
    @drop_add_length src i [' '.toUInt8] _ h
  have hbefore : (!isAsciiOrDigit (charAt src (i + 1 - 1))) = true := by
    rw [Nat.add_sub_cancel, (charAt_of_drop h).2]
    decide
  rw [nameMove_of_drop hdrop hline, if_neg (by decide),
    if_pos ⟨List.prefix_append (bytes "and") tail, Nat.succ_pos i⟩, if_pos hbefore]

/-- A word without commas and blanks does not reach into a separator. -/
theorem prefix_append_iff {w u rest : List UInt8} (hw : ∀ c ∈ w, c ≠ ','.toUInt8 ∧ c ≠ ' '.toUInt8)
    (hrest : ∀ c ∈ rest.head?, c = ','.toUInt8 ∨ c = ' '.toUInt8) :
    w <+: u ++ rest ↔ w <+: u := by
  refine ⟨fun h => ?_, fun h => h.trans (List.prefix_append _ _)⟩
  induction w generalizing u with
  | nil => exact List.nil_prefix
  | cons y w ih =>
      cases u with
      | nil =>
          cases rest with
          | nil => exact h
          | cons c rest =>
              obtain ⟨rfl, -⟩ := List.cons_prefix_cons.mp h
              obtain ⟨hcomma, hblank⟩ := hw y List.mem_cons_self
              rcases hrest y rfl with heq | heq
              · exact absurd heq hcomma
              · exact absurd heq hblank
      | cons x u =>
          obtain ⟨rfl, htail⟩ := List.cons_prefix_cons.mp h
          exact List.cons_prefix_cons.mpr
            ⟨rfl, ih (fun c hc => hw c (List.mem_cons_of_mem _ hc)) htail⟩

end Moves

/-- The names ended so far begin what is collected. -/
theorem done_begins {src : List UInt8} {s : NameSplit} {names : List (List UInt8)}
    (h : Exits (collectPass src) s names) : s.done <+: names :=
  (run_collectPass_begins h.choose_spec).1

/-- What may stand behind a name. -/
def NameEnds (rest : List UInt8) : Prop :=
  rest = [] ∨ (∃ more, rest = ','.toUInt8 :: more) ∨ ∃ more, rest = bytes " and" ++ more

section Scan

variable {src : List UInt8} {i : Nat} {done names : List (List UInt8)} {cur rest : List UInt8}

/-- At the end of a name it becomes a row, as it was read up to a blank. -/
theorem row_of_nameEnds (hdone : done.length < 10) (hrest : NameEnds rest)
    (hdrop : src.drop i = rest) (hexits : Exits (collectPass src) ⟨i, done, cur⟩ names) :
    ∃ row, done ++ [row] <+: names ∧ nonblanks row = nonblanks cur ∧
      row.length ≤ cur.length + 1 := by
  rcases hrest with rfl | ⟨more, rfl⟩ | ⟨more, rfl⟩
  · -- the text is over
    have hmove := @nameMove_of_drop_nil src i done.length hdrop (cur.length == 0)
    have hend := hexits.exit (by rw [collectPass, hmove])
    rw [← hend, if_pos hdone]
    exact ⟨cur, List.prefix_rfl, rfl, Nat.le_succ _⟩
  · have hmove := @nameMove_of_drop src i done.length _ more hdrop hdone (cur.length == 0)
    rw [if_pos rfl] at hmove
    have hnext := hexits.next (by rw [collectPass, hmove])
    exact ⟨cur, done_begins hnext, rfl, Nat.le_succ _⟩
  · -- the blank before the "and" is dropped or kept, then the name ends
    have hblank := @nameMove_blank src i done.length _ hdrop hdone (cur.length == 0)
    have hand (cur' : List UInt8) (hnext : Exits (collectPass src) ⟨i + 1, done, cur'⟩ names) :
        done ++ [cur'] <+: names := by
      have hmove := @nameMove_and src i done.length more hdrop hdone (cur'.length == 0)
      exact done_begins (hnext.next (by rw [collectPass, hmove]))
    cases hfresh : cur.length == 0 with
    | true =>
        rw [hfresh] at hblank
        have hnext := hexits.next (by rw [collectPass, hfresh, hblank, if_pos rfl])
        exact ⟨cur, hand cur hnext, rfl, Nat.le_succ _⟩
    | false =>
        rw [hfresh] at hblank
        have hnext := hexits.next
          (by rw [collectPass, hfresh, hblank, if_neg Bool.false_ne_true])
        refine ⟨cur ++ [' '.toUInt8], hand _ hnext, ?_, ?_⟩
        · rw [nonblanks_append]
          rfl
        · rw [List.length_append, List.length_singleton]

/-- At a character that is not kept the row is ended, or goes on behind the character. -/
theorem row_at_unkept {c : UInt8} {tail : List UInt8} {P : List UInt8 → Prop}
    (hdone : done.length < 10) (hdrop : src.drop i = c :: tail)
    (hlost : ∀ d, nameMove src i done.length (cur.length == 0) ≠ .keep d) (hended : P cur)
    (hrest : Exits (collectPass src) ⟨i + 1, done, cur⟩ names →
      ∃ row, done ++ [row] <+: names ∧ P row)
    (hexits : Exits (collectPass src) ⟨i, done, cur⟩ names) :
    ∃ row, done ++ [row] <+: names ∧ P row := by
  cases hmove : nameMove src i done.length (cur.length == 0) with
  | stop => exact absurd hmove (nameMove_ne_stop (charAt_of_drop hdrop).1 hdone)
  | next i' =>
      have hnext := hexits.next (by rw [collectPass, hmove])
      exact ⟨cur, done_begins hnext, hended⟩
  | etAl =>
      have hend := hexits.exit (by rw [collectPass, hmove])
      refine ⟨cur, ?_, hended⟩
      rw [← hend]
      exact List.prefix_append _ _
  | drop => exact hrest (hexits.next (by rw [collectPass, hmove]))
  | keep d => exact absurd hmove (hlost d)

theorem drop_succ_of_drop {c : UInt8} {tail : List UInt8} (h : src.drop i = c :: tail) :
    src.drop (i + 1) = tail := by
  rw [← List.drop_drop, h]
  rfl

/-- What is left of a name adds to its row no more than it holds. -/
theorem row_of_rest {rem : List UInt8} (hdone : done.length < 10) (hrest : NameEnds rest)
    (hcomma : ∀ c ∈ rem, c ≠ ','.toUInt8) (hdrop : src.drop i = rem ++ rest)
    (hexits : Exits (collectPass src) ⟨i, done, cur⟩ names) :
    ∃ row, done ++ [row] <+: names ∧ nonblanks row ≤ nonblanks cur + nonblanks rem ∧
      row.length ≤ cur.length + rem.length + 1 := by
  induction rem generalizing i cur with
  | nil =>
      obtain ⟨row, hrow, hcount, hlen⟩ := row_of_nameEnds hdone hrest hdrop hexits
      exact ⟨row, hrow, hcount.le, hlen⟩
  | cons c rem ih =>
      have hcomma' := fun d hd => hcomma d (List.mem_cons_of_mem c hd)
      have hcount : nonblanks rem ≤ nonblanks (c :: rem) :=
        List.Sublist.countP_le (List.sublist_cons_self c rem)
      have hlen : rem.length < (c :: rem).length := Nat.lt_succ_self _
      by_cases hkept : ∃ d, nameMove src i done.length (cur.length == 0) = .keep d
      · obtain ⟨d, hmove⟩ := hkept
        have hnext : Exits (collectPass src) ⟨i + 1, done, cur ++ [d]⟩ names :=
          hexits.next (by rw [collectPass, hmove])
        obtain ⟨row, hrow, hle, hlong⟩ := ih hcomma' (drop_succ_of_drop hdrop) hnext
        rw [nonblanks_append, nameMove_keep hmove, (charAt_of_drop hdrop).2] at hle
        rw [List.length_append, List.length_singleton] at hlong
        rw [nonblanks_cons]
        exact ⟨row, hrow, by omega, by omega⟩
      · refine row_at_unkept hdone hdrop (fun d hmove => hkept ⟨d, hmove⟩) (by omega)
          (fun hnext => ?_) hexits
        obtain ⟨row, hrow, hle, hlong⟩ := ih hcomma' (drop_succ_of_drop hdrop) hnext
        exact ⟨row, hrow, by omega, by omega⟩

/-- A character that is not kept is missing in the row. -/
theorem row_of_unkept {c : UInt8} {rem : List UInt8} (hdone : done.length < 10)
    (hrest : NameEnds rest) (hcomma : ∀ d ∈ rem, d ≠ ','.toUInt8)
    (hdrop : src.drop i = c :: (rem ++ rest))
    (hlost : ∀ d, nameMove src i done.length (cur.length == 0) ≠ .keep d)
    (hexits : Exits (collectPass src) ⟨i, done, cur⟩ names) :
    ∃ row, done ++ [row] <+: names ∧ nonblanks row ≤ nonblanks cur + nonblanks rem ∧
      row.length ≤ cur.length + rem.length + 1 :=
  row_at_unkept hdone hdrop hlost (by omega)
    (fun hnext => row_of_rest hdone hrest hcomma (drop_succ_of_drop hdrop) hnext) hexits

end Scan

/-- Behind a name there is nothing that a word in it could go on with. -/
theorem NameEnds.head {rest : List UInt8} (h : NameEnds rest) :
    ∀ c ∈ rest.head?, c = ','.toUInt8 ∨ c = ' '.toUInt8 := by
  rcases h with rfl | ⟨more, rfl⟩ | ⟨more, rfl⟩
  · exact fun c hc => absurd hc (Option.not_mem_none c)
  · exact fun c hc => .inl (Option.some.inj hc).symm
  · exact fun c hc => .inr (Option.some.inj hc).symm

section Name

variable {src : List UInt8} {i : Nat} {first : Bool} {n : AuthorName} {rest u v : List UInt8}
  {done names : List (List UInt8)}

/-- A cut leads to what is left of the text there. -/
theorem drop_of_cut (hdrop : src.drop i = n.text ++ rest) (hcut : u ++ v = n.text) :
    src.drop (i + u.length) = v ++ rest :=
  drop_add_length (by rw [hdrop, ← hcut, List.append_assoc])

/-- A word that is read in a name stands in it. -/
theorem word_of_cut (hrest : NameEnds rest) {w : List UInt8}
    (hw : ∀ c ∈ w, c ≠ ','.toUInt8 ∧ c ≠ ' '.toUInt8) {c : UInt8} :
    w <+: c :: (v ++ rest) ↔ w <+: c :: v :=
  @prefix_append_iff w (c :: v) rest hw hrest.head

/-- Where no separator seems to stand, the character of a name is kept. -/
theorem nameMove_intact (hfirst : first = true ↔ i = 0) (hrest : NameEnds rest)
    (hdrop : src.drop i = n.text ++ rest) {c : UInt8} (hcut : u ++ c :: v = n.text)
    (hplain : PlainCut first u (c :: v)) {line : Nat} (hline : line < 10) :
    nameMove src (i + u.length) line (u.length == 0) = .keep c := by
  obtain ⟨het, hand⟩ := hplain
  have hdrop' : src.drop (i + u.length) = c :: (v ++ rest) := drop_of_cut hdrop hcut
  have hcomma : c ≠ ','.toUInt8 := n.comma c (by rw [← hcut]; simp)
  have hletter : ¬ (u.length == 0 && !isAsciiOrDigit c) = true := by
    intro hdropped
    rw [Bool.and_eq_true, beq_iff_eq, List.length_eq_zero_iff] at hdropped
    obtain ⟨rfl, hno⟩ := hdropped
    obtain ⟨d, tail, htext, hd⟩ := n.letter
    obtain ⟨rfl, -⟩ := List.cons_eq_cons.mp (hcut.trans htext)
    rw [isAsciiOrDigit, hd] at hno
    contradiction
  have hand' : ¬ (bytes "and" <+: c :: (v ++ rest) ∧ 0 < i + u.length) := by
    rintro ⟨hword, hpos⟩
    obtain ⟨hbegin, rfl⟩ := hand ((word_of_cut hrest (by decide +kernel)).mp hword)
    rw [hfirst.mp hbegin] at hpos
    exact absurd hpos (Nat.lt_irrefl 0)
  have het' : ¬ bytes "et" <+: c :: (v ++ rest) := fun hword =>
    het ((word_of_cut hrest (by decide +kernel)).mp hword)
  rw [nameMove_of_drop hdrop' hline, if_neg hcomma, if_neg hand', if_neg het', if_neg hletter]

/-- Where a separator seems to stand, a letter is not kept. -/
theorem nameMove_broken (hfirst : first = true ↔ i = 0) (hdrop : src.drop i = n.text ++ rest)
    {c : UInt8} (hcut : u ++ c :: v = n.text)
    (hbreak : ¬ PlainCut first u (c :: v)) {line : Nat} (hline : line < 10) :
    c ≠ ' '.toUInt8 ∧ ∀ d, nameMove src (i + u.length) line (u.length == 0) ≠ .keep d := by
  have hdrop' : src.drop (i + u.length) = c :: (v ++ rest) := drop_of_cut hdrop hcut
  have hcomma : c ≠ ','.toUInt8 := n.comma c (by rw [← hcut]; simp)
  rw [nameMove_of_drop hdrop' hline, if_neg hcomma]
  have hlong {w : List UInt8} (hw : w <+: c :: v) : w <+: c :: (v ++ rest) :=
    hw.trans (List.prefix_append (c :: v) rest)
  by_cases hand : bytes "and" <+: c :: v ∧ 0 < i + u.length
  · rw [if_pos ⟨hlong hand.1, hand.2⟩]
    obtain ⟨rfl, -⟩ := List.cons_prefix_cons.mp hand.1
    refine ⟨by decide, fun d => ?_⟩
    split <;> exact NameMove.noConfusion
  · have het : bytes "et" <+: c :: v := by
      by_contra het
      refine hbreak ⟨het, fun hword => ?_⟩
      have hpos : i + u.length = 0 := by
        by_contra hne
        exact hand ⟨hword, Nat.pos_of_ne_zero hne⟩
      exact ⟨hfirst.mpr (by omega), List.length_eq_zero_iff.mp (by omega)⟩
    obtain ⟨rfl, -⟩ := List.cons_prefix_cons.mp het
    rw [if_neg (fun h => absurd (List.cons_prefix_cons.mp h.1).1 (by decide)), if_pos (hlong het)]
    refine ⟨by decide, fun d => ?_⟩
    split <;> exact NameMove.noConfusion

/-- An intact name is read to its end. -/
theorem passes_intact (hfirst : first = true ↔ i = 0) (hrest : NameEnds rest)
    (hdrop : src.drop i = n.text ++ rest) (hintact : Intact first n.text)
    (hcut : u ++ v = n.text) (hdone : done.length < 10) :
    Passes (collectPass src) v.length ⟨i + u.length, done, u⟩
      ⟨i + n.text.length, done, n.text⟩ := by
  induction v generalizing u with
  | nil =>
      rw [List.append_nil] at hcut
      rw [hcut]
      rfl
  | cons c v ih =>
      have hmove := nameMove_intact hfirst hrest hdrop hcut (hintact u (c :: v) hcut) hdone
      have hnext : collectPass src ⟨i + u.length, done, u⟩ =
          .next ⟨i + (u ++ [c]).length, done, u ++ [c]⟩ := by
        rw [collectPass, hmove, List.length_append, List.length_singleton, Nat.add_assoc]
      exact .cons hnext (ih (by rw [List.append_assoc]; exact hcut))

/-- In a name that is not intact a character gets lost. -/
theorem row_of_broken (hfirst : first = true ↔ i = 0) (hrest : NameEnds rest)
    (hdrop : src.drop i = n.text ++ rest) (hcut : u ++ v = n.text) (hdone : done.length < 10)
    (hbroken : ∃ w x, w ++ x = v ∧ ¬ PlainCut first (u ++ w) x)
    (hexits : Exits (collectPass src) ⟨i + u.length, done, u⟩ names) :
    ∃ row, done ++ [row] <+: names ∧ nonblanks row < nonblanks n.text ∧
      row.length ≤ n.text.length := by
  induction v generalizing u with
  | nil =>
      obtain ⟨w, x, hw, hbreak⟩ := hbroken
      obtain ⟨rfl, rfl⟩ := List.append_eq_nil_iff.mp hw
      exact absurd ⟨by decide, fun h => absurd h (by decide)⟩ hbreak
  | cons c v ih =>
      by_cases hhere : PlainCut first u (c :: v)
      · -- the character is kept
        have hmove := nameMove_intact hfirst hrest hdrop hcut hhere hdone
        have hnext : Exits (collectPass src) ⟨i + (u ++ [c]).length, done, u ++ [c]⟩ names :=
          hexits.next (by rw [collectPass, hmove, List.length_append, List.length_singleton,
            Nat.add_assoc])
        refine ih (by rw [List.append_assoc]; exact hcut) ?_ hnext
        obtain ⟨w, x, hw, hbreak⟩ := hbroken
        cases w with
        | nil =>
            rw [List.nil_append] at hw
            rw [hw, List.append_nil] at hbreak
            exact absurd hhere hbreak
        | cons d w =>
            rw [List.cons_append, List.cons_eq_cons] at hw
            obtain ⟨rfl, hw⟩ := hw
            refine ⟨w, x, hw, ?_⟩
            rwa [List.append_assoc]
      · obtain ⟨hblank, hlost⟩ := nameMove_broken hfirst hdrop hcut hhere hdone
        have hcount : nonblanks n.text = nonblanks u + 1 + nonblanks v := by
          rw [← hcut, nonblanks_append, nonblanks_cons, nonblanks_singleton hblank, Nat.add_assoc]
        have hlen : n.text.length = u.length + v.length + 1 := by
          rw [← hcut, List.length_append, List.length_cons, Nat.add_assoc]
        obtain ⟨row, hrow, hle, hlong⟩ := row_of_unkept hdone hrest
          (fun d hd => n.comma d (by rw [← hcut]; simp [hd])) (drop_of_cut hdrop hcut) hlost hexits
        exact ⟨row, hrow, by omega, by omega⟩

end Name

/-- The row of a name that so many names follow: the blank before an "and" is kept. -/
def rowText (last : LastSeparator) (n : AuthorName) (behind : Nat) : List UInt8 :=
  if behind = 1 ∧ last = .and then n.text ++ [' '.toUInt8] else n.text

/-- The rows that the joined names are read back to. -/
def rowTexts (last : LastSeparator) : List AuthorName → List (List UInt8)
  | [] => []
  | n :: rest => rowText last n rest.length :: rowTexts last rest

section Names

variable {src : List UInt8} {i : Nat} {first : Bool} {last : LastSeparator}
  {done names : List (List UInt8)}

/-- What is joined behind a name ends it. -/
theorem nameEnds_separator (last : LastSeparator) (rest : List AuthorName) :
    NameEnds (separator last rest.length ++ joinNames last rest) := by
  match rest with
  | [] => exact .inl rfl
  | [m] =>
      cases last with
      | comma => exact .inr (.inl ⟨_, rfl⟩)
      | and => exact .inr (.inr ⟨' '.toUInt8 :: joinNames .and [m], rfl⟩)
      | commaAnd => exact .inr (.inl ⟨_, rfl⟩)
  | m :: m' :: rest => exact .inr (.inl ⟨_, rfl⟩)

/-- A comma ends the name, and the blank behind it is dropped. -/
theorem passes_comma {cur tail : List UInt8} (hdrop : src.drop i = bytes ", " ++ tail)
    (hdone : done.length + 1 < 10) :
    Passes (collectPass src) 2 ⟨i, done, cur⟩ ⟨i + 2, done ++ [cur], []⟩ := by
  have hcomma := @nameMove_of_drop src i done.length ','.toUInt8 (' '.toUInt8 :: tail) hdrop
    (by omega) (cur.length == 0)
  rw [if_pos rfl] at hcomma
  have hdrop' : src.drop (i + 1) = ' '.toUInt8 :: tail :=
    @drop_add_length src i [','.toUInt8] _ hdrop
  have hline : (done ++ [cur]).length < 10 := by
    rw [List.length_append, List.length_singleton]
    exact hdone
  have hblank := nameMove_blank hdrop' hline true
  rw [if_pos rfl] at hblank
  refine .cons (by rw [collectPass, hcomma]) (.cons ?_ rfl)
  rw [collectPass]
  simp only [List.length_nil, beq_self_eq_true, hblank]

/-- An "and" ends the name with the blank before it. -/
theorem passes_and {cur tail : List UInt8} (hdrop : src.drop i = bytes " and " ++ tail)
    (hdone : done.length < 10) (hcur : cur ≠ []) :
    Passes (collectPass src) 2 ⟨i, done, cur⟩ ⟨i + 5, done ++ [cur ++ [' '.toUInt8]], []⟩ := by
  have hblank := @nameMove_blank src i done.length _ hdrop hdone (cur.length == 0)
  have hfresh : (cur.length == 0) = false :=
    beq_false_of_ne fun h => hcur (List.length_eq_zero_iff.mp h)
  rw [hfresh, if_neg Bool.false_ne_true] at hblank
  have hand := @nameMove_and src i done.length (' '.toUInt8 :: tail) hdrop hdone
    ((cur ++ [' '.toUInt8]).length == 0)
  exact .cons (by rw [collectPass, hfresh, hblank]) (.cons (by rw [collectPass, hand]) rfl)

/-- A comma and an "and" end the name and an empty one. -/
theorem passes_commaAnd {cur tail : List UInt8} (hdrop : src.drop i = bytes ", and " ++ tail)
    (hdone : done.length + 1 < 10) :
    Passes (collectPass src) 3 ⟨i, done, cur⟩ ⟨i + 6, done ++ [cur] ++ [[]], []⟩ := by
  have hcomma := @passes_comma src i done cur (bytes "and " ++ tail) hdrop hdone
  have hdrop' : src.drop (i + 1) = ' '.toUInt8 :: (bytes "and" ++ ' '.toUInt8 :: tail) :=
    @drop_add_length src i [','.toUInt8] _ hdrop
  have hline : (done ++ [cur]).length < 10 := by
    rw [List.length_append, List.length_singleton]
    exact hdone
  have hand := nameMove_and hdrop' hline true
  have hnext : collectPass src ⟨i + 2, done ++ [cur], []⟩ =
      .next ⟨i + 6, done ++ [cur] ++ [[]], []⟩ := by
    rw [collectPass]
    simp only [List.length_nil, beq_self_eq_true, hand]
  have hlast : Passes (collectPass src) 1 ⟨i + 2, done ++ [cur], []⟩
      ⟨i + 6, done ++ [cur] ++ [[]], []⟩ := .cons hnext rfl
  exact hcomma.append hlast

/-- Behind a name that others follow, a new row is begun at the next one. -/
theorem passes_separator {n : AuthorName} {rest : List AuthorName}
    (hdrop : src.drop i = separator last rest.length ++ joinNames last rest) (hrest : rest ≠ [])
    (hlast : rest.length = 1 → last ≠ .commaAnd) (hdone : done.length + rest.length < 10) :
    Passes (collectPass src) 2 ⟨i, done, n.text⟩
      ⟨i + (separator last rest.length).length, done ++ [rowText last n rest.length], []⟩ := by
  match rest with
  | [m] =>
      cases last with
      | comma => exact passes_comma hdrop hdone
      | and =>
          refine passes_and hdrop (Nat.lt_of_succ_lt hdone) ?_
          obtain ⟨c, tail, htext, -⟩ := n.letter
          rw [htext]
          exact List.cons_ne_nil c tail
      | commaAnd => exact absurd rfl (hlast rfl)
  | m :: m' :: rest =>
      have hrow : rowText last n (m :: m' :: rest).length = n.text :=
        if_neg fun h => absurd h.1 (by simp only [List.length_cons]; omega)
      rw [hrow]
      exact passes_comma hdrop (by simp only [List.length_cons] at hdone; omega)

/-- What is left of the text behind a name. -/
theorem drop_name {n : AuthorName} {rest : List AuthorName}
    (hdrop : src.drop i = joinNames last (n :: rest)) :
    src.drop (i + n.text.length) = separator last rest.length ++ joinNames last rest :=
  drop_add_length hdrop

/-- No name is empty. -/
theorem AuthorName.length_pos (n : AuthorName) : 0 < n.text.length := by
  obtain ⟨c, tail, htext, -⟩ := n.letter
  rw [htext]
  exact Nat.succ_pos _

/-- Names that are intact are read back one by one. -/
theorem rows_of_intact {l : List AuthorName} (hl : l ≠ []) (hfirst : first = true ↔ i = 0)
    (hdrop : src.drop i = joinNames last l) (hdone : done.length + l.length ≤ 10)
    (hintact : IntactNames first l) (hlast : 2 ≤ l.length → last ≠ .commaAnd)
    (hexits : Exits (collectPass src) ⟨i, done, []⟩ names) :
    names = done ++ rowTexts last l := by
  induction l generalizing i first done with
  | nil => exact absurd rfl hl
  | cons n rest ih =>
      rw [List.length_cons] at hdone
      have hname := hexits.passes (passes_intact hfirst (nameEnds_separator last rest) hdrop
        hintact.1 (List.nil_append n.text) (by omega))
      by_cases hrest : rest = []
      · -- the last name ends with the text
        subst hrest
        have hmove := @nameMove_of_drop_nil src _ done.length (drop_name hdrop)
          (n.text.length == 0)
        have hend := hname.exit (by rw [collectPass, hmove])
        have hline : done.length < 10 := by omega
        rw [← hend, if_pos hline]
        rfl
      · have hpos := List.length_pos_iff.mpr hrest
        have hsep := @passes_separator src _ last done n rest (drop_name hdrop) hrest
          (fun hone => hlast (by rw [List.length_cons]; omega)) (Nat.lt_of_succ_le hdone)
        have hrows := ih hrest (by
            have hn := n.length_pos
            exact iff_of_false Bool.false_ne_true (by omega))
          (drop_add_length (drop_name hdrop))
          (by rw [List.length_append, List.length_singleton]; omega) hintact.2
          (fun htwo => hlast (by rw [List.length_cons]; omega)) (hname.passes hsep)
        rw [hrows, List.append_assoc]
        rfl

/-- A row is a blank longer than its name at most. -/
theorem length_rowText_le (last : LastSeparator) (n : AuthorName) (behind : Nat) :
    (rowText last n behind).length ≤ nameSize := by
  have hshort := n.short
  rw [rowText, nameSize]
  split
  · rw [List.length_append, List.length_singleton]
    omega
  · omega

/-- Among other names, or behind two separators, the row of some name has lost a letter; the
rows before it fill their places at most. -/
theorem row_lost {l : List AuthorName} (hl : l ≠ []) (hfirst : first = true ↔ i = 0)
    (hdrop : src.drop i = joinNames last l) (hdone : done.length + l.length ≤ 10)
    (hbad : ¬ (IntactNames first l ∧ (2 ≤ l.length → last ≠ .commaAnd)))
    (hexits : Exits (collectPass src) ⟨i, done, []⟩ names) :
    ∃ n rows row, l[rows.length]? = some n ∧ done ++ rows ++ [row] <+: names ∧
      (∀ r ∈ rows, r.length ≤ nameSize) ∧ nonblanks row < nonblanks n.text ∧
      row.length < nameSize := by
  induction l generalizing i first done with
  | nil => exact absurd rfl hl
  | cons n rest ih =>
      rw [List.length_cons] at hdone
      have hline : done.length < 10 := by omega
      have hends := nameEnds_separator last rest
      by_cases hintact : Intact first n.text
      · have hname := hexits.passes (passes_intact hfirst hends hdrop hintact
          (List.nil_append n.text) hline)
        have hshort : n.text.length ≤ nameSize := n.short.trans (Nat.le_succ 49)
        by_cases hrest : rest = []
        · subst hrest
          exact absurd ⟨⟨hintact, trivial⟩, fun h => absurd h (Nat.not_succ_le_self 1)⟩ hbad
        · have hpos := List.length_pos_iff.mpr hrest
          by_cases htwo : rest.length = 1 ∧ last = .commaAnd
          · -- the row of the last name is left empty
            obtain ⟨hone, rfl⟩ := htwo
            obtain ⟨m, rfl⟩ := List.length_eq_one_iff.mp hone
            have hempty := done_begins (hname.passes (passes_commaAnd (drop_name hdrop)
              (by omega)))
            obtain ⟨c, tail, htext, hc⟩ := m.letter
            refine ⟨m, [n.text], [], rfl, hempty, List.forall_mem_singleton.mpr hshort, ?_,
              by decide⟩
            rw [htext, nonblanks_cons, nonblanks_singleton (by rintro rfl; contradiction)]
            exact Nat.lt_of_lt_of_le Nat.zero_lt_one (Nat.le_add_right 1 _)
          · have hsep := @passes_separator src _ last done n rest (drop_name hdrop) hrest
              (fun hone hand => htwo ⟨hone, hand⟩) (Nat.lt_of_succ_le hdone)
            obtain ⟨m, rows, row, hm, hprefix, hrows, hrow⟩ := ih hrest (by
                have hn := n.length_pos
                exact iff_of_false Bool.false_ne_true (by omega))
              (drop_add_length (drop_name hdrop))
              (by rw [List.length_append, List.length_singleton]; omega)
              (fun hgood => hbad ⟨⟨hintact, hgood.1⟩, fun hlen hand => by
                rw [List.length_cons] at hlen
                by_cases hone : rest.length = 1
                · exact htwo ⟨hone, hand⟩
                · exact hgood.2 (by omega) hand⟩)
              (hname.passes hsep)
            refine ⟨m, rowText last n rest.length :: rows, row, hm, ?_, ?_, hrow⟩
            · rwa [List.append_assoc done] at hprefix
            · exact List.forall_mem_cons.mpr ⟨length_rowText_le last n _, hrows⟩
      · have hbroken : ∃ u v, u ++ v = n.text ∧ ¬ PlainCut first u v := by
          simpa only [Intact, not_forall, exists_prop] using hintact
        obtain ⟨row, hrow, hcount, hlen⟩ := row_of_broken hfirst hends hdrop
          (List.nil_append n.text) hline hbroken hexits
        have hshort := n.short
        refine ⟨n, [], row, rfl, ?_, fun r hr => absurd hr List.not_mem_nil, hcount, ?_⟩
        · rwa [List.append_nil]
        · rw [nameSize]
          omega

end Names

end CiteParser
