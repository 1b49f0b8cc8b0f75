import CiteParser.Core.CString

/-!
# Words of a shell command

How a POSIX shell splits a simple command into words: blanks outside of quotes end a word, a
backslash quotes the next character, single quotes quote everything, and double quotes everything
but the dollar sign, the backquote, the double quote and a backslash in front of one of these or
of another backslash. A command in which something would be expanded, substituted or taken for an
operator has no words here, and neither has one with a quote that is not closed.
-/

namespace CiteParser.Shell

def dollar : UInt8 := 36
def backquote : UInt8 := 96
def doubleQuote : UInt8 := 34
def singleQuote : UInt8 := 39
def backslash : UInt8 := 92
def newline : UInt8 := 10

/-- What is quoted at a character inside a word: nothing, this character by a backslash, what is
between double quotes, this character there, or what is between single quotes. -/
inductive Quote where
  | plain
  | plainEsc
  | double
  | doubleEsc
  | single
  deriving DecidableEq

/-- What a character does: it adds to the word, ends it, or has the shell do more than that. -/
inductive Move where
  | emit (out : List UInt8) (q : Quote)
  | cut
  | active

/-- A blank. -/
def isBlank (c : UInt8) : Bool := c == 32 || c == 9

/-- An operator, a pattern or an expansion begins with the character. -/
def isActive (c : UInt8) : Bool :=
  (bytes "$*?[|&;<>()").contains c || c == backquote || c == newline

/-- A backslash in double quotes quotes the character. -/
def isDoubleSpecial (c : UInt8) : Bool :=
  c == dollar || c == backquote || c == doubleQuote || c == backslash

/-- A character of a word. -/
def Quote.move (q : Quote) (c : UInt8) : Move :=
  match q with
  | plain =>
      if isBlank c then .cut
      else if c = backslash then .emit [] plainEsc
      else if c = doubleQuote then .emit [] double
      else if c = singleQuote then .emit [] single
      else if isActive c then .active
      else .emit [c] plain
  | plainEsc => if c = newline then .emit [] plain else .emit [c] plain
  | double =>
      if c = doubleQuote then .emit [] plain
      else if c = backslash then .emit [] doubleEsc
      else if isDoubleSpecial c then .active
      else .emit [c] double
  | doubleEsc =>
      if isDoubleSpecial c then .emit [c] double
      else if c = newline then .emit [] double
      else .emit [backslash, c] double
  | single => if c = singleQuote then .emit [] plain else .emit [c] single

/-- A comment or a tilde expansion begins with the character if a word does. -/
def isActiveFirst (c : UInt8) : Bool := (bytes "#~").contains c

/-- The character has no meaning of its own anywhere. -/
def isOrdinary (c : UInt8) : Bool :=
  !isBlank c && !isActiveFirst c && !isActive c && !isDoubleSpecial c && c != singleQuote

/-- Characters in front of the first word. -/
def prepend (out : List UInt8) : List (List UInt8) → List (List UInt8)
  | [] => []
  | w :: ws => (out ++ w) :: ws

/-- The words of the rest of a command, the first of which is the rest of the word at hand if
there is one. -/
def words : Option Quote → List UInt8 → Option (List (List UInt8))
  | none, [] => some []
  | some q, [] => if q = .plain then some [[]] else none
  | none, c :: s =>
      if isBlank c then words none s
      else if isActiveFirst c then none
      else
        match Quote.plain.move c with
        | .emit out q => (words (some q) s).map (prepend out)
        | _ => none
  | some q, c :: s =>
      match q.move c with
      | .emit out q => (words (some q) s).map (prepend out)
      | .cut => (words none s).map ([] :: ·)
      | .active => none

section Words

variable {q q' : Quote} {c : UInt8} {out s : List UInt8} {ws : List (List UInt8)}

@[simp] theorem prepend_nil (ws : List (List UInt8)) : prepend [] ws = ws := by
  cases ws <;> rfl

theorem prepend_append (out out' : List UInt8) (ws : List (List UInt8)) :
    prepend (out ++ out') ws = prepend out (prepend out' ws) := by
  cases ws with
  | nil => rfl
  | cons w ws => simp [prepend]

@[simp] theorem prepend_cons (out w : List UInt8) (ws : List (List UInt8)) :
    prepend out (w :: ws) = (out ++ w) :: ws := rfl

theorem words_emit (h : q.move c = .emit out q') :
    words (some q) (c :: s) = (words (some q') s).map (prepend out) := by
  rw [words, h]

theorem words_cut (h : q.move c = .cut) :
    words (some q) (c :: s) = (words none s).map ([] :: ·) := by
  rw [words, h]

theorem words_active (h : q.move c = .active) : words (some q) (c :: s) = none := by
  rw [words, h]

/-- Inside a word there is a first word. -/
theorem words_ne_nil (h : words (some q) s = some ws) : ws ≠ [] := by
  induction s generalizing q ws with
  | nil =>
      rw [words] at h
      split at h
      · cases h
        simp
      · contradiction
  | cons c s ih =>
      rw [words] at h
      split at h
      · obtain ⟨ws', hws', rfl⟩ := Option.map_eq_some_iff.mp h
        cases ws' with
        | nil => exact absurd rfl (ih hws')
        | cons w ws' => simp
      · obtain ⟨ws', hws', rfl⟩ := Option.map_eq_some_iff.mp h
        simp
      · contradiction

/-- An ordinary character is added to the word, with a backslash that quotes nothing. -/
theorem move_ordinary (hc : isOrdinary c = true) :
    Quote.plain.move c = .emit [c] .plain ∧ Quote.plainEsc.move c = .emit [c] .plain ∧
      Quote.double.move c = .emit [c] .double ∧
      Quote.doubleEsc.move c = .emit [backslash, c] .double ∧
      Quote.single.move c = .emit [c] .single := by
  simp only [isOrdinary, isActive, isDoubleSpecial, Bool.and_eq_true, Bool.not_eq_true',
    Bool.or_eq_false_iff, bne_iff_ne, beq_eq_false_iff_ne] at hc
  obtain ⟨⟨⟨⟨hblank, -⟩, ⟨hactive, hback⟩, hline⟩, ⟨⟨hdollar, -⟩, hdouble⟩, hslash⟩, hsingle⟩ := hc
  have hnot : c ∉ bytes "$*?[|&;<>()" := fun hmem => by
    rw [List.contains_iff_mem.mpr hmem] at hactive
    contradiction
  simp [Quote.move, isDoubleSpecial, isActive, *]

theorem words_none_cons (hblank : isBlank c = false) (hfirst : isActiveFirst c = false)
    (h : Quote.plain.move c = .emit out q) :
    words none (c :: s) = (words (some q) s).map (prepend out) := by
  rw [words, hblank, hfirst, h]
  rfl

theorem words_none_ordinary (hc : isOrdinary c = true) :
    words none (c :: s) = (words (some .plain) s).map (prepend [c]) := by
  have hc' := hc
  simp only [isOrdinary, Bool.and_eq_true, Bool.not_eq_true'] at hc'
  exact words_none_cons hc'.1.1.1.1 hc'.1.1.1.2 (move_ordinary hc).1

theorem prepend_concat (out : List UInt8) (hne : ws ≠ []) (ws' : List (List UInt8)) :
    prepend out (ws ++ ws') = prepend out ws ++ ws' := by
  cases ws with
  | nil => contradiction
  | cons w ws => rfl

/-- An ordinary character and a blank end a word outside of quotes, and no other one. -/
theorem words_end {l : Option Quote} (hc : isOrdinary c = true)
    (h : words l [c, 32] = some ws) (rest : List UInt8) :
    words l (c :: 32 :: rest) = (words none rest).map (ws ++ ·) := by
  obtain ⟨hplain, hplainEsc, hdouble, hdoubleEsc, hsingle⟩ := move_ordinary hc
  have hend : ∀ rest, words (some .plain) (32 :: rest) = (words none rest).map ([] :: ·) :=
    fun rest => words_cut rfl
  have hopen : ∀ q', q' = .double ∨ q' = .single → words (some q') [32] = none := by
    rintro q' (rfl | rfl) <;> rfl
  cases l with
  | none =>
      rw [words_none_ordinary hc, hend] at h ⊢
      cases h
      simp [Function.comp_def]
  | some q =>
      cases q with
      | plain =>
          rw [words_emit hplain, hend] at h ⊢
          cases h
          simp [Function.comp_def]
      | plainEsc =>
          rw [words_emit hplainEsc, hend] at h ⊢
          cases h
          simp [Function.comp_def]
      | double =>
          rw [words_emit hdouble, hopen _ (.inl rfl)] at h
          contradiction
      | doubleEsc =>
          rw [words_emit hdoubleEsc, hopen _ (.inl rfl)] at h
          contradiction
      | single =>
          rw [words_emit hsingle, hopen _ (.inr rfl)] at h
          contradiction

/-- Where a command ends with an ordinary character and a blank, its words are not changed by what
follows. -/
theorem words_append {l : Option Quote} (hc : isOrdinary c = true)
    (h : words l (s ++ [c, 32]) = some ws) (rest : List UInt8) :
    words l (s ++ c :: 32 :: rest) = (words none rest).map (ws ++ ·) := by
  induction s generalizing l ws with
  | nil => exact words_end hc h rest
  | cons d s ih =>
      -- the character does the same in front of both, to what the rest comes to
      have hword : ∀ q out, (words (some q) (s ++ [c, 32])).map (prepend out) = some ws →
          (words (some q) (s ++ c :: 32 :: rest)).map (prepend out) =
            (words none rest).map (ws ++ ·) := by
        intro q out hmap
        obtain ⟨ws', hws', rfl⟩ := Option.map_eq_some_iff.mp hmap
        rw [ih hws', Option.map_map]
        congr 1
        funext ws''
        exact prepend_concat out (words_ne_nil hws') ws''
      cases l with
      | none =>
          rw [List.cons_append, words] at h ⊢
          split at h
          next hblank =>
              rw [if_pos hblank]
              exact ih h
          next hblank =>
              rw [if_neg hblank]
              split at h
              · contradiction
              next hfirst =>
                  rw [if_neg hfirst]
                  split at h
                  · exact hword _ _ h
                  · contradiction
      | some q =>
          rw [List.cons_append, words] at h ⊢
          split at h
          · exact hword _ _ h
          · obtain ⟨ws', hws', rfl⟩ := Option.map_eq_some_iff.mp h
            rw [ih hws', Option.map_map]
            rfl
          · contradiction

/-- The first of the words behind characters in front of them begins with these. -/
theorem map_prepend_eq_some {w : List UInt8}
    (h : (words (some q) s).map (prepend out) = some (w :: ws)) :
    ∃ w', words (some q) s = some (w' :: ws) ∧ w = out ++ w' := by
  obtain ⟨ws', hws', heq⟩ := Option.map_eq_some_iff.mp h
  cases ws' with
  | nil => exact absurd rfl (words_ne_nil hws')
  | cons w' ws' =>
      rw [prepend_cons, List.cons_eq_cons] at heq
      obtain ⟨rfl, rfl⟩ := heq
      exact ⟨w', hws', rfl⟩

/-- A character inside a word of a command that has words adds to the word or ends it. -/
theorem words_some_cons {w : List UInt8} (h : words (some q) (c :: s) = some (w :: ws)) :
    (∃ out q' w', q.move c = .emit out q' ∧ words (some q') s = some (w' :: ws) ∧
      w = out ++ w') ∨ (q.move c = .cut ∧ w = []) := by
  cases hmove : q.move c with
  | emit out q' =>
      rw [words_emit hmove] at h
      obtain ⟨w', hw', rfl⟩ := map_prepend_eq_some h
      exact .inl ⟨out, q', w', rfl, hw', rfl⟩
  | cut =>
      rw [words_cut hmove] at h
      obtain ⟨ws', -, heq⟩ := Option.map_eq_some_iff.mp h
      exact .inr ⟨rfl, (List.cons_eq_cons.mp heq).1.symm⟩
  | active =>
      rw [words_active hmove] at h
      contradiction

end Words

section Backslashes

variable {c : UInt8} {s : List UInt8} {k : Nat}

/-- What is quoted in double quotes behind `k` backslashes in succession. -/
def behind (k : Nat) : Quote := if k % 2 = 0 then .double else .doubleEsc

/-- The words of the rest of a command behind `k` backslashes in double quotes, each two of which
are one. -/
def wordsBehind (k : Nat) (s : List UInt8) : Option (List (List UInt8)) :=
  (words (some (behind k)) s).map (prepend (List.replicate (k / 2) backslash))

/-- Nothing stands behind no backslash. -/
@[simp] theorem wordsBehind_zero (s : List UInt8) : wordsBehind 0 s = words (some .double) s := by
  have hid : prepend (List.replicate (0 / 2) backslash) = id := funext prepend_nil
  rw [wordsBehind, hid, Option.map_id]
  rfl

theorem map_prepend_map_prepend (out out' : List UInt8) (r : Option (List (List UInt8))) :
    (r.map (prepend out')).map (prepend out) = r.map (prepend (out ++ out')) := by
  rw [Option.map_map]
  congr 1
  funext ws
  exact (prepend_append out out' ws).symm

/-- One more backslash. -/
theorem wordsBehind_backslash (k : Nat) (s : List UInt8) :
    wordsBehind k (backslash :: s) = wordsBehind (k + 1) s := by
  rcases Nat.mod_two_eq_zero_or_one k with hk | hk
  · have hstep : (behind k).move backslash = .emit [] (behind (k + 1)) := by
      rw [behind, behind, if_pos hk, if_neg (by omega)]
      rfl
    have hhalf : (k + 1) / 2 = k / 2 := by omega
    rw [wordsBehind, wordsBehind, words_emit hstep, map_prepend_map_prepend, List.append_nil,
      hhalf]
  · have hstep : (behind k).move backslash = .emit [backslash] (behind (k + 1)) := by
      rw [behind, behind, if_neg (by omega), if_pos (by omega)]
      rfl
    have hhalf : (k + 1) / 2 = k / 2 + 1 := by omega
    rw [wordsBehind, wordsBehind, words_emit hstep, map_prepend_map_prepend, hhalf,
      List.replicate_succ']

/-- Behind an odd number of backslashes the last one quotes a special character. -/
theorem wordsBehind_special (hk : k % 2 = 1) (hc : isDoubleSpecial c = true) :
    wordsBehind k (c :: s) =
      (words (some .double) s).map (prepend (List.replicate (k / 2) backslash ++ [c])) := by
  have hstep : (behind k).move c = .emit [c] .double := by
    rw [behind, if_neg (by omega), Quote.move, if_pos hc]
  rw [wordsBehind, words_emit hstep, map_prepend_map_prepend]

/-- A double quote that is not quoted closes the quotes. -/
theorem wordsBehind_close (hk : k % 2 = 0) (s : List UInt8) :
    wordsBehind k (doubleQuote :: s) =
      (words (some .plain) s).map (prepend (List.replicate (k / 2) backslash)) := by
  have hstep : (behind k).move doubleQuote = .emit [] .plain := by
    rw [behind, if_pos hk]
    rfl
  rw [wordsBehind, words_emit hstep, map_prepend_map_prepend, List.append_nil]

/-- A special character that is neither a double quote nor quoted is expanded. -/
theorem wordsBehind_active (hk : k % 2 = 0) (hc : isDoubleSpecial c = true)
    (hdouble : c ≠ doubleQuote) (hslash : c ≠ backslash) : wordsBehind k (c :: s) = none := by
  have hstep : (behind k).move c = .active := by
    rw [behind, if_pos hk, Quote.move, if_neg hdouble, if_neg hslash, if_pos hc]
  rw [wordsBehind, words_active hstep]
  rfl

/-- In front of another character a backslash that is left over stays. -/
theorem wordsBehind_other (hc : isDoubleSpecial c = false) (hline : c ≠ newline) :
    wordsBehind k (c :: s) = (words (some .double) s).map
      (prepend (List.replicate (k / 2 + k % 2) backslash ++ [c])) := by
  rcases Nat.mod_two_eq_zero_or_one k with hk | hk
  · have hne : c ≠ doubleQuote ∧ c ≠ backslash := by
      simp only [isDoubleSpecial, Bool.or_eq_false_iff, beq_eq_false_iff_ne] at hc
      exact ⟨hc.1.2, hc.2⟩
    have hstep : (behind k).move c = .emit [c] .double := by
      rw [behind, if_pos hk, Quote.move, if_neg hne.1, if_neg hne.2, if_neg (by simp [hc])]
    rw [wordsBehind, words_emit hstep, map_prepend_map_prepend, hk, Nat.add_zero]
  · have hstep : (behind k).move c = .emit [backslash, c] .double := by
      rw [behind, if_neg (by omega), Quote.move, if_neg (by simp [hc]), if_neg hline]
    rw [wordsBehind, words_emit hstep, map_prepend_map_prepend, hk, List.replicate_succ']
    simp

end Backslashes

end CiteParser.Shell
