import CiteParser.Service.NameRequest

/-!
# The command of the name service

`ng_popen` in `ng.cc` hands a shell the command that runs the name generator, with each name of a
request between double quotes. `ng_service` has put a backslash in front of the quotes of a name;
between double quotes that is right for a double quote, which would end them, and wrong for a
single quote, which has no meaning there, while a dollar sign, a backquote and a backslash of the
name are left as they are.
-/

namespace CiteParser

open Shell

/-- `query_base`, with the path that `getcwd` has found. -/
def queryBase (path : List UInt8) : List UInt8 :=
  bytes "java -jar " ++ cstr path ++ bytes "/" ++ bytes "ng.jar "

/-- What `ng_popen` appends for a name. -/
def quoted (name : List UInt8) : List UInt8 := doubleQuote :: (name ++ [doubleQuote, 32])

/-- `query`. -/
def ngQuery (path : List UInt8) (name_vect : List (List UInt8)) : List UInt8 :=
  queryBase path ++ name_vect.flatMap quoted

/-- The command that the shell is given. -/
def ngCommand (path : List UInt8) (name_vect : List (List UInt8)) : List UInt8 :=
  cstr (ngQuery path name_vect)

/-- The bytes of a name behind `k` backslashes in succession are quoted right: a dollar sign or a
backquote never is, a double quote only behind no backslash, a single quote only behind one or
two, another byte behind one at most, and a name does not end with a backslash. -/
def quotedRight : Nat → List UInt8 → Bool
  | k, [] => k == 0
  | k, c :: s =>
      if c = backslash then quotedRight (k + 1) s
      else if c = singleQuote then (k == 1 || k == 2) && quotedRight 0 s
      else if c = doubleQuote then k == 0 && quotedRight 0 s
      else !isDoubleSpecial c && decide (k ≤ 1) && quotedRight 0 s

/-- A byte that may be part of a name. -/
def isClient (c : UInt8) : Bool := c != 0 && c != newline && c != carriageReturn

section Inside

variable {name : List UInt8} {rest : List UInt8} {c : UInt8}

/-- What a single quote becomes behind `k` backslashes in double quotes. -/
theorem wordsBehind_single (k : Nat) (s : List UInt8) :
    wordsBehind k (escapeByte singleQuote ++ s) = (words (some .double) s).map
      (prepend (List.replicate ((k + 1) / 2 + (k + 1) % 2) backslash ++ [singleQuote])) := by
  have hescape : escapeByte singleQuote ++ s = backslash :: singleQuote :: s := rfl
  rw [hescape, wordsBehind_backslash, wordsBehind_other (by decide) (by decide)]

/-- A double quote is quoted behind an even number of backslashes. -/
theorem wordsBehind_double {k : Nat} (hk : k % 2 = 0) (s : List UInt8) :
    wordsBehind k (escapeByte doubleQuote ++ s) = (words (some .double) s).map
      (prepend (List.replicate (k / 2) backslash ++ [doubleQuote])) := by
  have hescape : escapeByte doubleQuote ++ s = backslash :: doubleQuote :: s := rfl
  have hhalf : (k + 1) / 2 = k / 2 := by omega
  rw [hescape, wordsBehind_backslash, wordsBehind_special (by omega) (by decide), hhalf]

/-- And ends the quotes behind an odd one. -/
theorem wordsBehind_double_odd {k : Nat} (hk : k % 2 = 1) (s : List UInt8) :
    wordsBehind k (escapeByte doubleQuote ++ s) = (words (some .plain) s).map
      (prepend (List.replicate ((k + 1) / 2) backslash)) := by
  have hescape : escapeByte doubleQuote ++ s = backslash :: doubleQuote :: s := rfl
  rw [hescape, wordsBehind_backslash, wordsBehind_close (by omega)]

/-- A client's byte does not end the line. -/
theorem ne_newline_of_isClient (h : isClient c = true) : c ≠ newline := by
  simp only [isClient, Bool.and_eq_true, bne_iff_ne] at h
  exact h.1.2

theorem escapeByte_other (hsingle : c ≠ singleQuote) (hdouble : c ≠ doubleQuote)
    (s : List UInt8) : escapeByte c ++ s = c :: s := by
  rw [escapeByte, if_neg hsingle, if_neg hdouble]
  rfl

/-- The quotes behind a name that is quoted right close it. -/
theorem words_of_quotedRight {k : Nat} (hclient : ∀ c ∈ name, isClient c = true)
    (h : quotedRight k name = true) (rest : List UInt8) :
    wordsBehind k (escapeName name ++ doubleQuote :: 32 :: rest) =
      (words none rest).map ((List.replicate k backslash ++ name) :: ·) := by
  induction name generalizing k with
  | nil =>
      obtain rfl : k = 0 := by simpa [quotedRight] using h
      rw [escapeName_nil, List.nil_append, wordsBehind_close rfl, words_cut rfl]
      simp [Function.comp_def]
  | cons c name ih =>
      have hname : ∀ d ∈ name, isClient d = true := fun d hd =>
        hclient d (List.mem_cons_of_mem c hd)
      have hbyte : ∀ {out : List UInt8}, quotedRight 0 name = true →
          out = List.replicate k backslash ++ [c] →
          (words (some .double) (escapeName name ++ doubleQuote :: 32 :: rest)).map
            (prepend out) =
            (words none rest).map ((List.replicate k backslash ++ c :: name) :: ·) := by
        rintro out hright rfl
        rw [← wordsBehind_zero, ih hname hright, Option.map_map]
        simp [Function.comp_def]
      have hline := ne_newline_of_isClient (hclient c List.mem_cons_self)
      rw [quotedRight] at h
      rw [escapeName_cons, List.append_assoc]
      split at h
      next hc =>
          subst hc
          rw [escapeByte_other (by decide) (by decide), wordsBehind_backslash, ih hname h]
          simp [List.replicate_succ']
      next hslash =>
          split at h
          next hc =>
              subst hc
              rw [wordsBehind_single]
              obtain ⟨hk, hright⟩ := Bool.and_eq_true_iff.mp h
              refine hbyte hright ?_
              have hcount : (k + 1) / 2 + (k + 1) % 2 = k := by
                simp only [Bool.or_eq_true, beq_iff_eq] at hk
                omega
              rw [hcount]
          next hsingle =>
              split at h
              next hc =>
                  subst hc
                  obtain ⟨hk, hright⟩ := Bool.and_eq_true_iff.mp h
                  obtain rfl : k = 0 := by simpa using hk
                  rw [wordsBehind_double rfl]
                  exact hbyte hright rfl
              next hdouble =>
                  simp only [Bool.and_eq_true, Bool.not_eq_true', decide_eq_true_eq] at h
                  obtain ⟨⟨hspecial, hk⟩, hright⟩ := h
                  rw [escapeByte_other hsingle hdouble, wordsBehind_other hspecial hline]
                  refine hbyte hright ?_
                  have hcount : k / 2 + k % 2 = k := by omega
                  rw [hcount]

end Inside

/-! ## What a name that is not quoted right becomes -/

/-- The bytes that are not backslashes. -/
def visible (s : List UInt8) : List UInt8 := s.filter (· != backslash)

/-- A single or a double quote. -/
def isQuote (c : UInt8) : Bool := c == singleQuote || c == doubleQuote

section Outside

variable {q : Quote} {c : UInt8} {name w s : List UInt8} {ws : List (List UInt8)}

theorem visible_append (a b : List UInt8) : visible (a ++ b) = visible a ++ visible b :=
  List.filter_append ..

theorem visible_cons (hc : c ≠ backslash) (a : List UInt8) : visible (c :: a) = c :: visible a :=
  List.filter_cons_of_pos (by simpa using hc)

/-- A backslash adds nothing but a backslash. -/
theorem words_backslash (h : words (some q) (backslash :: s) = some (w :: ws)) :
    ∃ out q' w', words (some q') s = some (w' :: ws) ∧ w = out ++ w' ∧ visible out = [] := by
  obtain ⟨out, q', hmove, hout⟩ :
      ∃ out q', q.move backslash = .emit out q' ∧ visible out = [] := by
    cases q <;> exact ⟨_, _, rfl, rfl⟩
  rw [words_emit hmove] at h
  obtain ⟨w', hw', hw⟩ := map_prepend_eq_some h
  exact ⟨out, q', w', hw', hw, hout⟩

/-- A quote with a backslash in front of it adds itself or nothing that is not a backslash. -/
theorem words_quote (hc : isQuote c = true) (q : Quote) (s : List UInt8) :
    ∃ out q', words (some q) (escapeByte c ++ s) = (words (some q') s).map (prepend out) ∧
      q' ≠ .plainEsc ∧ (visible out = [c] ∨ visible out = []) := by
  have hstep : ∀ {q₁ q₂ : Quote} {out₁ out₂ : List UInt8}, q.move backslash = .emit out₁ q₁ →
      q₁.move c = .emit out₂ q₂ → words (some q) (backslash :: c :: s) =
        (words (some q₂) s).map (prepend (out₁ ++ out₂)) := by
    intro q₁ q₂ out₁ out₂ h₁ h₂
    rw [words_emit h₁, words_emit h₂, map_prepend_map_prepend]
  simp only [isQuote, Bool.or_eq_true, beq_iff_eq] at hc
  rcases hc with rfl | rfl
  · cases q with
    | plain => exact ⟨_, _, hstep rfl rfl, by decide, .inl rfl⟩
    | plainEsc => exact ⟨_, _, hstep rfl rfl, by decide, .inr rfl⟩
    | double => exact ⟨_, _, hstep rfl rfl, by decide, .inl rfl⟩
    | doubleEsc => exact ⟨_, _, hstep rfl rfl, by decide, .inl rfl⟩
    | single => exact ⟨_, _, hstep rfl rfl, by decide, .inr rfl⟩
  · cases q with
    | plain => exact ⟨_, _, hstep rfl rfl, by decide, .inl rfl⟩
    | plainEsc => exact ⟨_, _, hstep rfl rfl, by decide, .inr rfl⟩
    | double => exact ⟨_, _, hstep rfl rfl, by decide, .inl rfl⟩
    | doubleEsc => exact ⟨_, _, hstep rfl rfl, by decide, .inr rfl⟩
    | single => exact ⟨_, _, hstep rfl rfl, by decide, .inl rfl⟩

/-- Another byte adds itself if it does not end the word. -/
theorem move_other (hquote : isQuote c = false) (hslash : c ≠ backslash) (hline : c ≠ newline)
    {out : List UInt8} {q' : Quote} (h : q.move c = .emit out q') :
    q' ≠ .plainEsc ∧ visible out = [c] := by
  simp only [isQuote, Bool.or_eq_false_iff, beq_eq_false_iff_ne] at hquote
  have hone : visible [c] = [c] := visible_cons hslash []
  have htwo : visible [backslash, c] = [c] := hone
  cases q <;> simp only [Quote.move, if_neg hslash, if_neg hquote.1, if_neg hquote.2,
    if_neg hline] at h
  case plain =>
      split at h
      · contradiction
      · split at h
        · contradiction
        · cases h
          exact ⟨by decide, hone⟩
  case plainEsc =>
      cases h
      exact ⟨by decide, hone⟩
  case double =>
      split at h
      · contradiction
      · cases h
        exact ⟨by decide, hone⟩
  case doubleEsc =>
      split at h
      · cases h
        exact ⟨by decide, hone⟩
      · cases h
        exact ⟨by decide, htwo⟩
  case single =>
      cases h
      exact ⟨by decide, hone⟩

/-- A byte of a name ends the word at hand or adds itself to it, or it is a quote and adds at most
a backslash. -/
theorem words_escapeByte (hslash : c ≠ backslash) (hline : c ≠ newline)
    (h : words (some q) (escapeByte c ++ s) = some (w :: ws)) :
    w = [] ∨ ∃ out q' w', words (some q') s = some (w' :: ws) ∧ w = out ++ w' ∧
      q' ≠ .plainEsc ∧ (visible out = [c] ∨ visible out = [] ∧ isQuote c = true) := by
  cases hquote : isQuote c with
  | true =>
      obtain ⟨out, q', heq, hq', hout⟩ := words_quote hquote q s
      rw [heq] at h
      obtain ⟨w', hw', rfl⟩ := map_prepend_eq_some h
      exact .inr ⟨out, q', w', hw', rfl, hq', hout.imp_right fun h => ⟨h, rfl⟩⟩
  | false =>
      have hne := hquote
      simp only [isQuote, Bool.or_eq_false_iff, beq_eq_false_iff_ne] at hne
      rw [escapeByte_other hne.1 hne.2] at h
      rcases words_some_cons h with ⟨out, q', w', hmove, hw', rfl⟩ | ⟨-, rfl⟩
      · obtain ⟨hq', hout⟩ := move_other hquote hslash hline hmove
        exact .inr ⟨out, q', w', hw', rfl, hq', .inl hout⟩
      · exact .inl rfl

/-- Behind a name nothing is left to make up for the quotes but the double quote there, and that
only with a backslash in front of it. -/
theorem plainEsc_of_owed {owed : List UInt8} (hne : owed ≠ [])
    (howed : ∀ c ∈ owed, isQuote c = true) {rest : List UInt8}
    (h : words (some q) (doubleQuote :: 32 :: rest) = some (w :: ws))
    (hvisible : visible w = owed) :
    w.getLast? = some doubleQuote ∧ q = .plainEsc := by
  have hblank : 32 ∉ w := by
    intro hmem
    have hmem' : 32 ∈ visible w := List.mem_filter.mpr ⟨hmem, by decide⟩
    rw [hvisible] at hmem'
    exact absurd (howed _ hmem') (by decide)
  have hnil : w ≠ [] := by
    rintro rfl
    exact hne hvisible.symm
  cases q with
  | plain =>
      rw [words_emit rfl, words_emit rfl, map_prepend_map_prepend] at h
      obtain ⟨w', -, rfl⟩ := map_prepend_eq_some h
      exact absurd (by simp) hblank
  | plainEsc =>
      rw [words_emit rfl, words_cut rfl, Option.map_map] at h
      obtain ⟨ws', -, heq⟩ := Option.map_eq_some_iff.mp h
      obtain ⟨rfl, -⟩ := List.cons_eq_cons.mp heq
      exact ⟨rfl, rfl⟩
  | double =>
      rw [words_emit rfl, words_cut rfl, Option.map_map] at h
      obtain ⟨ws', -, heq⟩ := Option.map_eq_some_iff.mp h
      exact absurd (List.cons_eq_cons.mp heq).1.symm hnil
  | doubleEsc =>
      rw [words_emit rfl, words_emit rfl, map_prepend_map_prepend] at h
      obtain ⟨w', -, rfl⟩ := map_prepend_eq_some h
      exact absurd (by simp) hblank
  | single =>
      rw [words_emit rfl, words_emit rfl, map_prepend_map_prepend] at h
      obtain ⟨w', -, rfl⟩ := map_prepend_eq_some h
      exact absurd (by simp) hblank

/-- Where the rest of a word would have to make up for quotes that have been left out, it ends
with the double quote behind the name, which the backslash has quoted that the name ends with. -/
theorem getLast_of_owed {owed : List UInt8} (hclient : ∀ c ∈ name, isClient c = true)
    (hne : owed ≠ []) (howed : ∀ c ∈ owed, isQuote c = true) {rest : List UInt8}
    (h : words (some q) (escapeName name ++ doubleQuote :: 32 :: rest) = some (w :: ws))
    (hvisible : visible w = owed ++ visible name) :
    w.getLast? = some doubleQuote ∧
      (name = [] ∧ q = .plainEsc ∨ name.getLast? = some backslash) := by
  induction name generalizing q w owed with
  | nil =>
      rw [escapeName_nil, List.nil_append] at h
      rw [visible, visible, List.filter_nil, List.append_nil] at hvisible
      obtain ⟨hend, hq⟩ := plainEsc_of_owed hne howed h hvisible
      exact ⟨hend, .inl ⟨rfl, hq⟩⟩
  | cons c name ih =>
      have hname : ∀ d ∈ name, isClient d = true := fun d hd =>
        hclient d (List.mem_cons_of_mem c hd)
      have hlast : ∀ {out w' : List UInt8}, w'.getLast? = some doubleQuote →
          (out ++ w').getLast? = some doubleQuote := by
        intro out w' hw'
        rw [List.getLast?_append, hw']
        rfl
      rw [escapeName_cons, List.append_assoc] at h
      by_cases hslash : c = backslash
      · subst hslash
        rw [escapeByte_other (by decide) (by decide)] at h
        obtain ⟨out, q', w', hw', rfl, hout⟩ := words_backslash h
        rw [visible_append, hout, List.nil_append] at hvisible
        obtain ⟨hend, hcase⟩ := ih hname hne howed hw' hvisible
        refine ⟨hlast hend, .inr ?_⟩
        rcases hcase with ⟨rfl, -⟩ | hcase
        · rfl
        · rw [List.getLast?_cons, hcase]
          rfl
      · have hline := ne_newline_of_isClient (hclient c List.mem_cons_self)
        rw [visible_cons hslash] at hvisible
        -- what is owed and the byte are owed in turn
        have hturn : ∀ {owed' : List UInt8} {q' : Quote} {w' : List UInt8} (out : List UInt8),
            (∀ d ∈ owed', isQuote d = true) → isQuote c = true → q' ≠ .plainEsc →
            words (some q') (escapeName name ++ doubleQuote :: 32 :: rest) = some (w' :: ws) →
            visible w' = owed' ++ c :: visible name →
            (out ++ w').getLast? = some doubleQuote ∧
              (c :: name = [] ∧ q = .plainEsc ∨ (c :: name).getLast? = some backslash) := by
          intro owed' q' w' out howed' hc hq' hw' hvis
          rw [List.append_cons] at hvis
          have howed'' : ∀ d ∈ owed' ++ [c], isQuote d = true := by
            intro d hd
            rcases List.mem_append.mp hd with hd | hd
            · exact howed' d hd
            · rw [List.mem_singleton.mp hd]
              exact hc
          obtain ⟨hend, hcase⟩ := ih hname (by simp) howed'' hw' hvis
          refine ⟨hlast hend, .inr ?_⟩
          rcases hcase with ⟨-, hesc⟩ | hcase
          · contradiction
          · rw [List.getLast?_cons, hcase]
            rfl
        rcases words_escapeByte hslash hline h with
          rfl | ⟨out, q', w', hw', rfl, hq', hout | ⟨hout, hc⟩⟩
        · exact absurd (List.append_eq_nil_iff.mp hvisible.symm).1 hne
        · rw [visible_append, hout, List.singleton_append] at hvisible
          cases owed with
          | nil => contradiction
          | cons d owed =>
              rw [List.cons_append, List.cons_eq_cons] at hvisible
              obtain ⟨rfl, hvis⟩ := hvisible
              exact hturn out (fun d hd => howed d (List.mem_cons_of_mem _ hd))
                (howed _ List.mem_cons_self) hq' hw' hvis
        · rw [visible_append, hout, List.nil_append] at hvisible
          exact hturn out howed hc hq' hw' hvisible

end Outside

section Names

variable {name : List UInt8} {ws : List (List UInt8)}

/-- The number of backslashes in front of another byte is read off the word. -/
theorem replicate_append_cons_inj {j k : Nat} {c d : UInt8} {a b : List UInt8}
    (hc : c ≠ backslash) (hd : d ≠ backslash)
    (h : List.replicate j backslash ++ c :: a = List.replicate k backslash ++ d :: b) :
    j = k ∧ c = d ∧ a = b := by
  induction j generalizing k with
  | zero =>
      cases k with
      | zero =>
          obtain ⟨hcd, hab⟩ := List.cons_eq_cons.mp h
          exact ⟨rfl, hcd, hab⟩
      | succ k => exact absurd (List.cons_eq_cons.mp h).1 hc
  | succ j ih =>
      cases k with
      | zero => exact absurd (List.cons_eq_cons.mp h).1.symm hd
      | succ k =>
          rw [List.replicate_succ, List.replicate_succ, List.cons_append, List.cons_append,
            List.cons_eq_cons] at h
          obtain ⟨hjk, hcd, hab⟩ := ih h.2
          exact ⟨by rw [hjk], hcd, hab⟩

/-- The double quote behind backslashes closes a name only if there are none. -/
theorem eq_zero_of_close {k : Nat} {rest : List UInt8}
    (h : wordsBehind k (doubleQuote :: 32 :: rest) = some (List.replicate k backslash :: ws)) :
    k = 0 := by
  rcases Nat.mod_two_eq_zero_or_one k with hk | hk
  · rw [wordsBehind_close hk, words_cut rfl, Option.map_map] at h
    obtain ⟨ws', -, heq⟩ := Option.map_eq_some_iff.mp h
    have hlen := congrArg List.length (List.cons_eq_cons.mp heq).1
    simp only [List.append_nil, List.length_replicate] at hlen
    omega
  · rw [wordsBehind_special hk (by decide)] at h
    obtain ⟨w', -, heq⟩ := map_prepend_eq_some h
    have hmem : doubleQuote ∈ List.replicate k backslash := by
      rw [heq]
      simp
    exact absurd (List.eq_of_mem_replicate hmem) (by decide)

/-- A double quote that has ended the quotes is missing from the word to its end. -/
theorem not_words_of_double_odd {k : Nat} (hclient : ∀ c ∈ name, isClient c = true)
    {rest : List UInt8} :
    (words (some .plain) (escapeName name ++ doubleQuote :: 32 :: rest)).map
      (prepend (List.replicate ((k + 1) / 2) backslash)) ≠
        some ((List.replicate k backslash ++ doubleQuote :: name) :: ws) := by
  intro h
  obtain ⟨w', hw', heq⟩ := map_prepend_eq_some h
  have hcut : List.replicate k backslash =
      List.replicate ((k + 1) / 2) backslash ++
        List.replicate (k - (k + 1) / 2) backslash := by
    rw [← List.replicate_add]
    congr 1
    omega
  rw [hcut, List.append_assoc, List.append_cancel_left_eq] at heq
  have hvisible : visible w' = [doubleQuote] ++ visible name := by
    rw [← heq, visible_append, visible_cons (by decide)]
    simp [visible]
  obtain ⟨hend, ⟨-, hesc⟩ | hend'⟩ := getLast_of_owed hclient
    (List.cons_ne_nil _ _) (by simp [isQuote]) hw' hvisible
  · contradiction
  · rw [← heq, List.getLast?_append, List.getLast?_cons, hend',
      Option.some_or, Option.getD_some] at hend
    exact absurd hend (by decide)

/-- A name that is read back was quoted right. -/
theorem quotedRight_of_words {k : Nat} (hclient : ∀ c ∈ name, isClient c = true)
    {rest : List UInt8}
    (h : wordsBehind k (escapeName name ++ doubleQuote :: 32 :: rest) =
      some ((List.replicate k backslash ++ name) :: ws)) : quotedRight k name = true := by
  induction name generalizing k with
  | nil =>
      rw [escapeName_nil, List.nil_append, List.append_nil] at h
      obtain rfl := eq_zero_of_close h
      rfl
  | cons c name ih =>
      have hname : ∀ d ∈ name, isClient d = true := fun d hd =>
        hclient d (List.mem_cons_of_mem c hd)
      have hline := ne_newline_of_isClient (hclient c List.mem_cons_self)
      rw [quotedRight]
      rw [escapeName_cons, List.append_assoc] at h
      -- the byte is read back behind as many backslashes as it had
      have hbyte : ∀ {j : Nat}, c ≠ backslash →
          (words (some .double) (escapeName name ++ doubleQuote :: 32 :: rest)).map
            (prepend (List.replicate j backslash ++ [c])) =
              some ((List.replicate k backslash ++ c :: name) :: ws) →
          j = k ∧ quotedRight 0 name = true := by
        intro j hslash hmap
        obtain ⟨w', hw', heq⟩ := map_prepend_eq_some hmap
        rw [List.append_assoc, List.singleton_append] at heq
        obtain ⟨rfl, -, rfl⟩ := replicate_append_cons_inj hslash hslash heq
        exact ⟨rfl, ih hname (by rw [wordsBehind_zero]; exact hw')⟩
      split
      next hc =>
          subst hc
          rw [escapeByte_other (by decide) (by decide), wordsBehind_backslash] at h
          refine ih hname ?_
          rw [h, List.replicate_succ']
          simp
      next hslash =>
          split
          next hc =>
              subst hc
              rw [wordsBehind_single] at h
              obtain ⟨hcount, hright⟩ := hbyte hslash h
              rw [hright, Bool.and_true, Bool.or_eq_true, beq_iff_eq, beq_iff_eq]
              omega
          next hsingle =>
              split
              next hc =>
                  subst hc
                  rcases Nat.mod_two_eq_zero_or_one k with hk | hk
                  · rw [wordsBehind_double hk] at h
                    obtain ⟨hcount, hright⟩ := hbyte hslash h
                    obtain rfl : k = 0 := by omega
                    exact hright
                  · rw [wordsBehind_double_odd hk] at h
                    exact absurd h (not_words_of_double_odd hname)
              next hdouble =>
                  rw [escapeByte_other hsingle hdouble] at h
                  cases hspecial : isDoubleSpecial c with
                  | true =>
                      rcases Nat.mod_two_eq_zero_or_one k with hk | hk
                      · rw [wordsBehind_active hk hspecial hdouble hslash] at h
                        contradiction
                      · rw [wordsBehind_special hk hspecial] at h
                        obtain ⟨hcount, -⟩ := hbyte hslash h
                        omega
                  | false =>
                      rw [wordsBehind_other hspecial hline] at h
                      obtain ⟨hcount, hright⟩ := hbyte hslash h
                      rw [hright, Bool.not_false, Bool.true_and, Bool.and_true,
                        decide_eq_true_eq]
                      omega

/-- Names in double quotes are the words of a command exactly if each is quoted right. -/
theorem words_names_iff {names : List (List UInt8)}
    (hclient : ∀ name ∈ names, ∀ c ∈ name, isClient c = true) :
    words none ((names.map escapeName).flatMap quoted) = some names ↔
      ∀ name ∈ names, quotedRight 0 name = true := by
  induction names with
  | nil => exact iff_of_true rfl (List.forall_mem_nil _)
  | cons name names ih =>
      have hname := hclient name List.mem_cons_self
      have hstart : words none (((name :: names).map escapeName).flatMap quoted) =
          wordsBehind 0 (escapeName name ++ doubleQuote :: 32 ::
            (names.map escapeName).flatMap quoted) := by
        rw [List.map_cons, List.flatMap_cons, quoted, List.cons_append,
          words_none_cons (by decide) (by decide) rfl, List.append_assoc]
        rfl
      have hrest := ih fun other hother => hclient other (List.mem_cons_of_mem _ hother)
      rw [hstart, List.forall_mem_cons]
      constructor
      · intro h
        have hright : quotedRight 0 name = true := quotedRight_of_words hname h
        rw [words_of_quotedRight hname hright] at h
        obtain ⟨ws, hws, heq⟩ := Option.map_eq_some_iff.mp h
        obtain ⟨-, rfl⟩ := List.cons_eq_cons.mp heq
        exact ⟨hright, hrest.mp hws⟩
      · rintro ⟨hright, hothers⟩
        rw [words_of_quotedRight hname hright, hrest.mpr hothers]
        rfl

end Names

/-! ## The whole command -/

/-- The command runs the generator with the names. -/
def QuotesNames (path : List UInt8) (base names : List (List UInt8)) : Prop :=
  words none (ngCommand path (names.map escapeName)) = some (base ++ names)

/-- A zero would end the command. -/
theorem ngCommand_eq {path : List UInt8} {names : List (List UInt8)}
    (hclient : ∀ name ∈ names, ∀ c ∈ name, isClient c = true) :
    ngCommand path (names.map escapeName) = ngQuery path (names.map escapeName) := by
  apply cstr_eq_self
  intro c hc
  rw [ngQuery, queryBase, List.mem_append, List.mem_append, List.mem_append,
    List.mem_append] at hc
  rcases hc with ((((hc | hc) | hc) | hc) | hc)
  · exact (show ∀ c ∈ bytes "java -jar ", c ≠ 0 by decide +kernel) c hc
  · exact ne_zero_of_mem_cstr hc
  · exact (show ∀ c ∈ bytes "/", c ≠ 0 by decide +kernel) c hc
  · exact (show ∀ c ∈ bytes "ng.jar ", c ≠ 0 by decide +kernel) c hc
  · obtain ⟨_, hmem, hc⟩ := List.mem_flatMap.mp hc
    obtain ⟨name, hname, rfl⟩ := List.mem_map.mp hmem
    rw [quoted, List.mem_cons, List.mem_append, escapeName, List.mem_flatMap] at hc
    rcases hc with rfl | ⟨d, hd, hc⟩ | hc
    · decide
    · have hlive := hclient name hname d hd
      simp only [isClient, Bool.and_eq_true, bne_iff_ne] at hlive
      rcases escapeByte_eq d with ⟨heq, -⟩ | ⟨heq, -⟩
      · rw [heq] at hc
        rcases List.mem_cons.mp hc with rfl | hc
        · decide
        · rw [List.mem_singleton.mp hc]
          exact hlive.1.1
      · rw [heq] at hc
        rw [List.mem_singleton.mp hc]
        exact hlive.1.1
    · rcases List.mem_pair.mp hc with rfl | rfl <;> decide

/-- The shell runs the generator with exactly the names of the request if and only if each of them
is quoted right. -/
theorem quotesNames_iff {path : List UInt8} {base names : List (List UInt8)}
    (hbase : words none (queryBase path) = some base)
    (hclient : ∀ name ∈ names, ∀ c ∈ name, isClient c = true) :
    QuotesNames path base names ↔ ∀ name ∈ names, quotedRight 0 name = true := by
  have hend : queryBase path =
      (bytes "java -jar " ++ cstr path ++ bytes "/" ++ bytes "ng.ja") ++ [114, 32] := by
    rw [queryBase, List.append_assoc _ (bytes "ng.ja")]
    rfl
  have hlast : isOrdinary 114 = true := by decide +kernel
  rw [hend] at hbase
  rw [← words_names_iff hclient, QuotesNames, ngCommand_eq hclient, ngQuery, hend,
    List.append_assoc, List.cons_append, List.singleton_append, words_append hlast hbase]
  constructor
  · intro h
    obtain ⟨ws, hws, heq⟩ := Option.map_eq_some_iff.mp h
    rw [List.append_cancel_left_eq] at heq
    rw [hws, heq]
  · intro h
    rw [h]
    rfl

/-- A name with a double quote in it, and one with a backslash. -/
theorem quotesNames_two :
    QuotesNames (bytes "/srv") [bytes "java", bytes "-jar", bytes "/srv/ng.jar"]
        [bytes "Ann", bytes "J\x22B", bytes "A\\C"] ↔
      ∀ name ∈ [bytes "Ann", bytes "J\x22B", bytes "A\\C"], quotedRight 0 name = true :=
  quotesNames_iff (by decide +kernel) (by decide +kernel)

/-- A name with a single quote is passed on with a backslash in front of it, and one with a command
in it has the shell run that. -/
theorem not_quotesNames :
    words none (queryBase (bytes "/srv")) =
        some [bytes "java", bytes "-jar", bytes "/srv/ng.jar"] ∧
      words none (ngCommand (bytes "/srv") [escapeName (bytes "O'Neil")]) =
        some [bytes "java", bytes "-jar", bytes "/srv/ng.jar", bytes "O\\'Neil"] ∧
      ¬ QuotesNames (bytes "/srv") [bytes "java", bytes "-jar", bytes "/srv/ng.jar"]
        [bytes "O'Neil"] ∧
      ¬ QuotesNames (bytes "/srv") [bytes "java", bytes "-jar", bytes "/srv/ng.jar"]
        [bytes "$(id)"] := by
  simp only [QuotesNames]
  decide +kernel

end CiteParser
