import CiteParser.Text.Tokenise

/-!
# The text of a token

Which characters of the text make a token, told without the buffer they are copied to. The
main loop of `spilitContent` copies this text if it fits. A token is queued with a character
in it exactly when the text has a first character to keep, and its terminator has room
exactly when the text is not as long as the buffer.
-/

namespace CiteParser

open Loop

/-- The characters that no token keeps. -/
def isSeparator (c : UInt8) : Bool := isDelimiter c || isConnectCh c

/-- Neither connector is a delimiter. -/
theorem not_isDelimiter_of_isConnectCh :
    ∀ c : UInt8, isConnectCh c = true → isDelimiter c = false := by decide +kernel

/-- Separators have no class, so none of them ends a token by its class. -/
theorem checkCharType_of_isSeparator :
    ∀ c : UInt8, isSeparator c = true → checkCharType c = 0 := by decide +kernel

theorem isSeparator_of_isDelimiter {c : UInt8} (h : isDelimiter c = true) :
    isSeparator c = true := by
  rw [isSeparator, h, Bool.true_or]

theorem isSeparator_of_isConnectCh {c : UInt8} (h : isConnectCh c = true) :
    isSeparator c = true := by
  rw [isSeparator, h, Bool.or_true]

/-- No delimiter is a connector. -/
theorem not_isConnectCh_of_isDelimiter {c : UInt8} (h : isDelimiter c = true) :
    isConnectCh c = false := by
  by_contra hcon
  rw [not_isDelimiter_of_isConnectCh c (Bool.not_eq_false _ ▸ hcon)] at h
  contradiction

/-- A connector behind which a number begins; the first character of a call is none. -/
def NumberAhead (src : Nat → UInt8) (i : Nat) : Prop :=
  isConnectCh (src i) = true ∧ 0 < i ∧ digitLike (src (i + 1)) = true

/-- No number is ahead at a delimiter. -/
theorem not_numberAhead {src : Nat → UInt8} {i : Nat} (h : isDelimiter (src i) = true) :
    ¬ NumberAhead src i := by
  rintro ⟨hcon, -⟩
  rw [not_isConnectCh_of_isDelimiter h] at hcon
  contradiction

/-- A character of another class than the last one kept. -/
def TypeChange (kind : Nat) (c : UInt8) : Prop :=
  kind ≠ 0 ∧ checkCharType c ≠ 0 ∧ checkCharType c ≠ kind

/-- What a token keeps of the text from an index on: `pending` behind a connector that no
character kept has followed, `kind` the class of the last character kept. -/
inductive TokenText (src : Nat → UInt8) (len : Nat) : Nat → Bool → Nat → List UInt8 → Prop
  | ends {i pending kind} (hend : len ≤ i) : TokenText src len i pending kind []
  | number {i pending kind} (hlt : i < len) (hnum : NumberAhead src i) :
      TokenText src len i pending kind []
  | gap {i kind} (hlt : i < len) (hdel : isDelimiter (src i) = true)
      (hscan : connectAhead src (len - (i + 1)) (i + 1) = none) :
      TokenText src len i false kind []
  | change {i pending kind} (hlt : i < len) (hword : isSeparator (src i) = false)
      (hkind : TypeChange kind (src i)) : TokenText src len i pending kind []
  | connector {i pending kind w} (hlt : i < len) (hcon : isConnectCh (src i) = true)
      (hnum : ¬ NumberAhead src i) (h : TokenText src len (i + 1) true kind w) :
      TokenText src len i pending kind w
  | separator {i kind w} (hlt : i < len) (hdel : isDelimiter (src i) = true)
      (h : TokenText src len (i + 1) true kind w) : TokenText src len i true kind w
  | bridge {i k kind w} (hlt : i < len) (hdel : isDelimiter (src i) = true)
      (hscan : connectAhead src (len - (i + 1)) (i + 1) = some k)
      (h : TokenText src len (k + 1) true kind w) : TokenText src len i false kind w
  | keep {i pending kind w} (hlt : i < len) (hword : isSeparator (src i) = false)
      (hkind : ¬ TypeChange kind (src i))
      (h : TokenText src len (i + 1) false (checkCharType (src i)) w) :
      TokenText src len i pending kind (src i :: w)

section Loop

variable {dlen : Nat} {src : Nat → UInt8} {len : Nat}

/-- Every text has a token, of no character perhaps. -/
theorem exists_tokenText (src : Nat → UInt8) (len i : Nat) (pending : Bool) (kind : Nat) :
    ∃ w, TokenText src len i pending kind w := by
  generalize hn : len - i = n
  induction n using Nat.strong_induction_on generalizing i pending kind with
  | _ n ih =>
      by_cases hlt : i < len
      · have hnext : ∀ k pending kind, i ≤ k → ∃ w, TokenText src len (k + 1) pending kind w :=
          fun k pending kind hk => ih _ (by omega) (k + 1) pending kind rfl
        by_cases hcon : isConnectCh (src i) = true
        · by_cases hnum : NumberAhead src i
          · exact ⟨[], .number hlt hnum⟩
          · obtain ⟨w, hw⟩ := hnext i true kind (Nat.le_refl i)
            exact ⟨w, .connector hlt hcon hnum hw⟩
        · by_cases hdel : isDelimiter (src i) = true
          · cases pending with
            | true =>
                obtain ⟨w, hw⟩ := hnext i true kind (Nat.le_refl i)
                exact ⟨w, .separator hlt hdel hw⟩
            | false =>
                cases hscan : connectAhead src (len - (i + 1)) (i + 1) with
                | none => exact ⟨[], .gap hlt hdel hscan⟩
                | some k =>
                    have hle := (connectAhead_some hscan).1
                    obtain ⟨w, hw⟩ := hnext k true kind (by omega)
                    exact ⟨w, .bridge hlt hdel hscan hw⟩
          · have hword : isSeparator (src i) = false := by
              rw [isSeparator, Bool.or_eq_false_iff]
              exact ⟨Bool.eq_false_iff.mpr hdel, Bool.eq_false_iff.mpr hcon⟩
            by_cases hkind : TypeChange kind (src i)
            · exact ⟨[], .change hlt hword hkind⟩
            · obtain ⟨w, hw⟩ := hnext i false (checkCharType (src i)) (Nat.le_refl i)
              exact ⟨src i :: w, .keep hlt hword hkind hw⟩
      · exact ⟨[], .ends (Nat.le_of_not_lt hlt)⟩

/-- Characters of one class up to the end of the range are all kept. -/
theorem tokenText_of_class {k i : Nat}
    (h : ∀ j, i ≤ j → j < len → isSeparator (src j) = false ∧ checkCharType (src j) = k)
    (pending : Bool) {kind : Nat} (hkind : kind = 0 ∨ kind = k) :
    ∃ w, w.length = len - i ∧ TokenText src len i pending kind w := by
  generalize hn : len - i = n
  induction n generalizing i pending kind with
  | zero => exact ⟨[], rfl, .ends (by omega)⟩
  | succ n ih =>
      obtain ⟨hword, hclass⟩ := h i (Nat.le_refl i) (by omega)
      obtain ⟨w, hlen, hw⟩ := ih (fun j hj => h j (Nat.le_of_succ_le hj)) false (.inr hclass)
        (by omega)
      refine ⟨src i :: w, by rw [List.length_cons, hlen], .keep (by omega) hword ?_ hw⟩
      rintro ⟨hset, -, hother⟩
      rcases hkind with rfl | rfl
      · exact hset rfl
      · exact hother hclass

/-- How the main loop leaves a token: with its text in `dest`, or short of room. -/
inductive TokenExit (dlen : Nat) (text : List UInt8) : Except SplitState SplitState → Prop
  | fits {e : SplitState} (hflag : e.flag = true) (hdest : e.dest = text)
      (hroom : text.length ≤ dlen) : TokenExit dlen text (.ok e)
  | full {e : SplitState} (hroom : dlen < text.length) : TokenExit dlen text (.error e)

/-- A pass inside a token: `pending` is its `connect`, `kind` its `datatype`. -/
def inside (i : Nat) (pending : Bool) (kind : Nat) (dest : List UInt8) (pre next : UInt8) :
    SplitState :=
  ⟨i, true, pending, kind, dest, pre, next⟩

variable {i kind : Nat} {pending : Bool} {dest : List UInt8} {pre next : UInt8}

/-- The test for a number, as the loop makes it. -/
theorem numberAhead_iff (src : Nat → UInt8) (i : Nat) :
    NumberAhead src i ↔
      (isConnectCh (src i) && decide (0 < i) && digitLike (src (i + 1))) = true := by
  rw [NumberAhead, Bool.and_eq_true, Bool.and_eq_true, decide_eq_true_iff, and_assoc]

/-- A pass whose tests break leaves the loop. -/
theorem splitPass_of_exit {s e : SplitState} (hlt : s.i < len)
    (htest : splitTest src len s = .exit e) : splitPass dlen src len s = .exit (.ok e) := by
  rw [splitPass, if_neg (Nat.not_le.mpr hlt), htest]

/-- A pass whose tests go on reaches its end. -/
theorem splitPass_of_next {s t : SplitState} (hlt : s.i < len)
    (htest : splitTest src len s = .next t) :
    splitPass dlen src len s = splitStore dlen src t := by
  rw [splitPass, if_neg (Nat.not_le.mpr hlt), htest]

/-- Without a number ahead the tests are those of the branches. -/
theorem splitTest_plain {s : SplitState} (hnum : ¬ NumberAhead src s.i) :
    splitTest src len s =
      splitBranch src len { s with connect := s.connect || isConnectCh (src s.i) } := by
  rw [numberAhead_iff] at hnum
  rw [splitTest]
  exact if_neg hnum

/-- The same inside a token. -/
theorem splitTest_inside (hnum : ¬ NumberAhead src i) :
    splitTest src len (inside i pending kind dest pre next) =
      splitBranch src len (inside i (pending || isConnectCh (src i)) kind dest pre next) :=
  splitTest_plain hnum

/-- At a number behind a connector the token ends. -/
theorem splitPass_number (hlt : i < len) (hnum : NumberAhead src i) :
    splitPass dlen src len (inside i pending kind dest pre next) =
      .exit (.ok (inside i false kind dest pre '-'.toUInt8)) := by
  apply splitPass_of_exit hlt
  rw [numberAhead_iff] at hnum
  rw [splitTest]
  exact if_pos hnum

/-- Any other connector is passed over, and so is a delimiter behind one. -/
theorem splitPass_separator (hlt : i < len) (hnum : ¬ NumberAhead src i)
    (hsep : isSeparator (src i) = true) (hcon : (pending || isConnectCh (src i)) = true) :
    splitPass dlen src len (inside i pending kind dest pre next) =
      .next (inside (i + 1) true kind dest pre next) := by
  have hclass := checkCharType_of_isSeparator (src i) hsep
  have htest : splitTest src len (inside i pending kind dest pre next) =
      .next (inside i true kind dest pre next) := by
    rw [splitTest_inside hnum, hcon]
    simp [splitBranch, inside, hclass]
  rw [splitPass_of_next hlt htest]
  exact if_pos hsep

/-- A delimiter inside a token ends it unless a connector follows. -/
theorem splitPass_delimiter (hlt : i < len) (hdel : isDelimiter (src i) = true) :
    splitPass dlen src len (inside i false kind dest pre next) =
      match connectAhead src (len - (i + 1)) (i + 1) with
      | some k => .next (inside (k + 1) true kind dest pre next)
      | none => .exit (.ok (inside i false kind dest pre (src i))) := by
  have hcon := not_isConnectCh_of_isDelimiter hdel
  have hnum := not_numberAhead hdel
  have hbranch : splitTest src len (inside i false kind dest pre next) =
      splitBranch src len (inside i false kind dest pre next) := by
    rw [splitTest_inside hnum, hcon, Bool.false_or]
  cases hscan : connectAhead src (len - (i + 1)) (i + 1) with
  | none =>
      apply splitPass_of_exit hlt
      rw [hbranch]
      simp [splitBranch, inside, hdel, hscan]
  | some k =>
      have hk := (connectAhead_some hscan).2.2.1
      have htest : splitTest src len (inside i false kind dest pre next) =
          .next (inside k true kind dest pre next) := by
        rw [hbranch]
        simp [splitBranch, inside, hdel, hscan]
      rw [splitPass_of_next hlt htest]
      exact if_pos (isSeparator_of_isConnectCh hk)

/-- A character of another class ends the token. -/
theorem splitPass_change (hlt : i < len) (hword : isSeparator (src i) = false)
    (hkind : TypeChange kind (src i)) :
    splitPass dlen src len (inside i pending kind dest pre next) =
      .exit (.ok (inside i pending kind dest pre next)) := by
  rw [isSeparator, Bool.or_eq_false_iff] at hword
  obtain ⟨hset, hclass, hother⟩ := hkind
  apply splitPass_of_exit hlt
  rw [splitTest_inside fun h => by rw [h.1] at hword; exact absurd hword.2 Bool.noConfusion,
    hword.2, Bool.or_false]
  simp [splitBranch, inside, hword.1, hset, hclass, hother]

/-- Any other character is kept while there is room. -/
theorem splitPass_keep (hlt : i < len) (hword : isSeparator (src i) = false)
    (hkind : ¬ TypeChange kind (src i)) :
    splitPass dlen src len (inside i pending kind dest pre next) =
      if dlen ≤ dest.length then .exit (.error (inside i pending kind dest pre next))
      else .next (inside (i + 1) false (checkCharType (src i)) (dest ++ [src i]) pre next) := by
  have htest : splitTest src len (inside i pending kind dest pre next) =
      .next (inside i pending kind dest pre next) := by
    rw [isSeparator, Bool.or_eq_false_iff] at hword
    rw [splitTest_inside fun h => by rw [h.1] at hword; exact absurd hword.2 Bool.noConfusion,
      hword.2, Bool.or_false]
    rw [TypeChange, not_and, not_and] at hkind
    simpa [splitBranch, inside, hword.1] using hkind
  rw [splitPass_of_next hlt htest]
  exact if_neg (by rw [inside, ← isSeparator, hword]; exact Bool.noConfusion)

/-- From inside a token the main loop leaves with its text, or short of room for it. -/
theorem TokenText.exits {w : List UInt8} (h : TokenText src len i pending kind w)
    (hroom : dest.length ≤ dlen) :
    ∃ b, Exits (splitPass dlen src len) (inside i pending kind dest pre next) b ∧
      TokenExit dlen (dest ++ w) b := by
  induction h generalizing dest with
  | ends hend =>
      refine ⟨.ok _, .of_exit (by rw [splitPass]; exact if_pos hend), ?_⟩
      exact .fits rfl (List.append_nil dest).symm (by rwa [List.append_nil])
  | number hlt hnum =>
      refine ⟨.ok _, .of_exit (splitPass_number hlt hnum), ?_⟩
      exact .fits rfl (List.append_nil dest).symm (by rwa [List.append_nil])
  | gap hlt hdel hscan =>
      refine ⟨.ok _, .of_exit (by rw [splitPass_delimiter hlt hdel, hscan]), ?_⟩
      exact .fits rfl (List.append_nil dest).symm (by rwa [List.append_nil])
  | change hlt hword hkind =>
      refine ⟨.ok _, .of_exit (splitPass_change hlt hword hkind), ?_⟩
      exact .fits rfl (List.append_nil dest).symm (by rwa [List.append_nil])
  | connector hlt hcon hnum _ ih =>
      obtain ⟨b, hb, hexit⟩ := ih hroom
      refine ⟨b, .of_next (splitPass_separator hlt hnum ?_ ?_) hb, hexit⟩
      · exact isSeparator_of_isConnectCh hcon
      · rw [hcon, Bool.or_true]
  | separator hlt hdel _ ih =>
      obtain ⟨b, hb, hexit⟩ := ih hroom
      refine ⟨b, .of_next (splitPass_separator hlt (not_numberAhead hdel) ?_ ?_) hb, hexit⟩
      · exact isSeparator_of_isDelimiter hdel
      · rw [Bool.true_or]
  | bridge hlt hdel hscan _ ih =>
      obtain ⟨b, hb, hexit⟩ := ih hroom
      exact ⟨b, .of_next (by rw [splitPass_delimiter hlt hdel, hscan]) hb, hexit⟩
  | @keep i pending kind w hlt hword hkind _ ih =>
      by_cases hfull : dlen ≤ dest.length
      · refine ⟨.error _, .of_exit (by rw [splitPass_keep hlt hword hkind, if_pos hfull]), ?_⟩
        exact .full (by rw [List.length_append, List.length_cons]; omega)
      · have hmore : (dest ++ [src i]).length ≤ dlen := by
          rw [List.length_append, List.length_singleton]
          omega
        obtain ⟨b, hb, hexit⟩ := ih hmore
        refine ⟨b, .of_next (by rw [splitPass_keep hlt hword hkind, if_neg hfull]) hb, ?_⟩
        rwa [List.append_cons]

/-- A text has one token. -/
theorem TokenText.unique {w w' : List UInt8} (h : TokenText src len i pending kind w)
    (h' : TokenText src len i pending kind w') : w = w' := by
  have hlen : ∀ {u : List UInt8}, u.length ≤ max w.length w'.length →
      TokenText src len i pending kind u →
      ∃ e, Exits (splitPass (max w.length w'.length) src len)
        (inside i pending kind [] 0 0) (.ok e) ∧ e.dest = u := by
    intro u hu htext
    have hnil : ([] : List UInt8).length ≤ max w.length w'.length := Nat.zero_le _
    obtain ⟨b, hb, hexit⟩ := htext.exits hnil
    cases hexit with
    | fits hflag hdest hroom => exact ⟨_, hb, hdest⟩
    | full hroom => exact absurd hu (Nat.not_le.mpr hroom)
  obtain ⟨e, he, rfl⟩ := hlen (Nat.le_max_left _ _) h
  obtain ⟨e', he', rfl⟩ := hlen (Nat.le_max_right _ _) h'
  rw [Except.ok.inj (he.unique he')]

end Loop

/-! ## Whole calls -/

/-- A token starts behind delimiters only, and not with a number behind a connector. -/
structure TokenStart (src : Nat → UInt8) (len f : Nat) : Prop where
  lt : f < len
  before : ∀ m, m < f → isDelimiter (src m) = true
  opens : isDelimiter (src f) = false
  plain : ¬ NumberAhead src f

/-- The token of a call. -/
def TokenOf (src : Nat → UInt8) (len : Nat) (w : List UInt8) : Prop :=
  ∃ f, TokenStart src len f ∧ TokenText src len f false 0 w

/-- The first character that a token from an index on keeps. -/
structure FirstKept (src : Nat → UInt8) (len i g : Nat) : Prop where
  le : i ≤ g
  lt : g < len
  word : isSeparator (src g) = false
  skipped : ∀ m, i ≤ m → m < g → isSeparator (src m) = true ∧ ¬ NumberAhead src m

section Call

variable {src : Nat → UInt8} {len f : Nat} {w : List UInt8}

/-- A token starts at one index. -/
theorem TokenStart.unique {f' : Nat} (h : TokenStart src len f) (h' : TokenStart src len f') :
    f = f' := by
  rcases Nat.lt_trichotomy f f' with hlt | heq | hlt
  · have hdel := h'.before f hlt
    rw [h.opens] at hdel
    contradiction
  · exact heq
  · have hdel := h.before f' hlt
    rw [h'.opens] at hdel
    contradiction

/-- A call has one token. -/
theorem TokenOf.unique {w' : List UInt8} (h : TokenOf src len w) (h' : TokenOf src len w') :
    w = w' := by
  obtain ⟨f, hstart, htext⟩ := h
  obtain ⟨f', hstart', htext'⟩ := h'
  rw [← hstart.unique hstart'] at htext'
  exact htext.unique htext'

/-- Where no token starts the range holds delimiters only, or a number behind delimiters and
a connector. -/
theorem not_tokenStart (h : ∀ f, ¬ TokenStart src len f) :
    (∀ m, m < len → isDelimiter (src m) = true) ∨ HyphenFirst src len := by
  by_cases hall : ∀ m, m < len → isDelimiter (src m) = true
  · exact .inl hall
  · right
    have hsome : ∃ m, m < len ∧ isDelimiter (src m) = false := by
      simpa only [not_forall, Bool.not_eq_true, exists_prop] using hall
    obtain ⟨hlt, hopens⟩ := Nat.find_spec hsome
    have hbefore : ∀ m, m < Nat.find hsome → isDelimiter (src m) = true := by
      intro m hm
      have hmin := Nat.find_min hsome hm
      rw [not_and, Bool.not_eq_false] at hmin
      exact hmin (hm.trans hlt)
    have hnum : NumberAhead src (Nat.find hsome) := by
      by_contra hplain
      exact h _ ⟨hlt, hbefore, hopens, hplain⟩
    exact ⟨_, hnum.2.1, hlt, hbefore, hnum.1, hnum.2.2⟩

/-- A state of the main loop before the token has started. -/
def fresh (i : Nat) (pre : UInt8) : SplitState := ⟨i, false, false, 0, [], pre, ' '.toUInt8⟩

/-- A character that opens a token is treated as one inside it. -/
theorem splitPass_opens {dlen i : Nat} {pre : UInt8} (hlt : i < len)
    (hnum : ¬ NumberAhead src i) (hopens : isDelimiter (src i) = false) :
    splitPass dlen src len (inside i false 0 [] pre ' '.toUInt8) =
      splitPass dlen src len (fresh i pre) := by
  have htest : splitTest src len (inside i false 0 [] pre ' '.toUInt8) =
      splitTest src len (fresh i pre) := by
    rw [splitTest_plain (show ¬ NumberAhead src (fresh i pre).i from hnum), splitTest_inside hnum]
    simp [splitBranch, inside, fresh, hopens]
  have hend : ¬ len ≤ i := Nat.not_le.mpr hlt
  rw [splitPass, splitPass, htest]
  exact (if_neg hend).trans (if_neg hend).symm

/-- A delimiter before the token is passed over. -/
theorem splitPass_leading {dlen i : Nat} {pre : UInt8} (hlt : i < len)
    (hdel : isDelimiter (src i) = true) :
    splitPass dlen src len (fresh i pre) =
      .next (fresh (i + 1) (if isBlank (src i) then pre else src i)) := by
  have hcon := not_isConnectCh_of_isDelimiter hdel
  have hnum := not_numberAhead hdel
  have htest : splitTest src len (fresh i pre) =
      .next (fresh i (if isBlank (src i) then pre else src i)) := by
    rw [splitTest_plain (show ¬ NumberAhead src (fresh i pre).i from hnum)]
    cases hblank : isBlank (src i) <;> simp [splitBranch, fresh, hdel, hcon, hblank]
  rw [splitPass_of_next (show (fresh i pre).i < len from hlt) htest]
  exact if_pos (isSeparator_of_isDelimiter hdel)

/-- The delimiters before a token are passed over, and the loop leaves with its text. -/
theorem TokenStart.exits {dlen i : Nat} {pre : UInt8} (hstart : TokenStart src len f)
    (htext : TokenText src len f false 0 w) (hi : i ≤ f) :
    ∃ b, Exits (splitPass dlen src len) (fresh i pre) b ∧ TokenExit dlen w b := by
  generalize hn : f - i = n
  induction n generalizing i pre with
  | zero =>
      obtain rfl : i = f := by omega
      have hnil : ([] : List UInt8).length ≤ dlen := Nat.zero_le _
      obtain ⟨b, hb, hexit⟩ := htext.exits hnil
      exact ⟨b, hb.congr (splitPass_opens hstart.lt hstart.plain hstart.opens), hexit⟩
  | succ n ih =>
      have hlt := hstart.lt
      obtain ⟨b, hb, hexit⟩ := ih (show i + 1 ≤ f by omega) (show f - (i + 1) = n by omega)
      refine ⟨b, .of_next (splitPass_leading ?_ (hstart.before i ?_)) hb, hexit⟩
      · omega
      · omega

/-- The main loop leaves with the text of the token, or short of room for it. -/
theorem TokenOf.splitLoop_exit (dlen : Nat) (h : TokenOf src len w) :
    TokenExit dlen w (splitLoop dlen src len) := by
  obtain ⟨f, hstart, htext⟩ := h
  obtain ⟨b, hb, hexit⟩ := hstart.exits htext (Nat.zero_le f)
  obtain ⟨b', hrun⟩ := Option.isSome_iff_exists.mp (splitLoop_ends dlen src len)
  rw [splitLoop, hrun, Option.getD_some, Exits.unique ⟨_, hrun⟩ hb]
  exact hexit

/-- A call without a token leaves the main loop before one has started. -/
theorem splitLoop_unstarted (dlen : Nat) (h : ∀ w, ¬ TokenOf src len w) :
    ∃ e, splitLoop dlen src len = .ok e ∧ e.flag = false := by
  have hnone : ∀ f, ¬ TokenStart src len f := by
    intro f hstart
    obtain ⟨w, hw⟩ := exists_tokenText src len f false 0
    exact h w ⟨f, hstart, hw⟩
  rcases not_tokenStart hnone with hdel | ⟨p, hpos, hlt, hdel, hconnect, hdigit⟩
  · exact splitLoop_fresh dlen hdel fun hlt => absurd hlt (Nat.lt_irrefl _)
  · exact splitLoop_fresh dlen hdel fun _ => ⟨hpos, hconnect, hdigit⟩

/-- A call with a token returns 0 exactly when it has no room for it, and else the token. -/
theorem TokenOf.call {dlen : Nat} (np : UInt8) (h : TokenOf src len w) :
    ((spilitContent dlen src len np).ret ≠ 0 ↔ w.length ≤ dlen) ∧
      ((spilitContent dlen src len np).ret ≠ 0 → (spilitContent dlen src len np).dest = w) := by
  have hexit := h.splitLoop_exit dlen
  obtain ⟨f, hstart, -⟩ := h
  have hfound : (∃ e, splitLoop dlen src len = .error e) ∨
      (spilitContent dlen src len np).ret ≠ 0 := by
    by_contra hnot
    rw [not_or, not_not] at hnot
    rcases spilitContent_zero hnot.2 with herr | hdel | ⟨p, hpos, -, hdel, hcon, hdigit⟩
    · exact hnot.1 herr
    · have hopens := hdel f hstart.lt
      rw [hstart.opens] at hopens
      contradiction
    · -- the connector is the first character that is no delimiter, so the token starts there
      have hp : p = f := by
        rcases Nat.lt_trichotomy p f with hlt | heq | hlt
        · have hno := not_isDelimiter_of_isConnectCh _ hcon
          rw [hstart.before p hlt] at hno
          contradiction
        · exact heq
        · have hopens := hdel f hlt
          rw [hstart.opens] at hopens
          contradiction
      exact hstart.plain ⟨hp ▸ hcon, hp ▸ hpos, hp ▸ hdigit⟩
  rw [spilitContent] at hfound ⊢
  generalize splitLoop dlen src len = b at hexit hfound ⊢
  cases hexit with
  | full hroom =>
      exact ⟨iff_of_false (fun h => h rfl) (Nat.not_le.mpr hroom), fun h => absurd rfl h⟩
  | fits hflag hdest hroom =>
      have hret := hfound.resolve_left (by simp)
      refine ⟨iff_of_true hret hroom, fun _ => ?_⟩
      simp only [splitFinish, hflag, Bool.not_true, Bool.false_eq_true, if_false]
      exact hdest

/-- At a number behind a connector nothing more is kept. -/
theorem FirstKept.not_numberAhead {i g : Nat} (h : FirstKept src len i g) :
    ¬ NumberAhead src i := by
  intro hnum
  rcases Nat.eq_or_lt_of_le h.le with rfl | hlt
  · have hword := h.word
    rw [isSeparator_of_isConnectCh hnum.1] at hword
    contradiction
  · exact (h.skipped i (Nat.le_refl i) hlt).2 hnum

/-- Any other separator is passed over. -/
theorem firstKept_succ {i g : Nat} (hsep : isSeparator (src i) = true)
    (hnum : ¬ NumberAhead src i) : FirstKept src len i g ↔ FirstKept src len (i + 1) g := by
  constructor
  · rintro ⟨hle, hlt, hword, hskipped⟩
    refine ⟨?_, hlt, hword, fun m hm hmg => hskipped m (by omega) hmg⟩
    rcases Nat.eq_or_lt_of_le hle with rfl | hlt'
    · rw [hsep] at hword
      contradiction
    · exact hlt'
  · rintro ⟨hle, hlt, hword, hskipped⟩
    refine ⟨by omega, hlt, hword, fun m hm hmg => ?_⟩
    rcases Nat.eq_or_lt_of_le hm with rfl | hlt'
    · exact ⟨hsep, hnum⟩
    · exact hskipped m hlt' hmg

/-- A character that is no separator is kept at once. -/
theorem firstKept_here {i g : Nat} (hlt : i < len) (hword : isSeparator (src i) = false) :
    FirstKept src len i g ↔ i = g := by
  constructor
  · rintro ⟨hle, -, -, hskipped⟩
    rcases Nat.eq_or_lt_of_le hle with heq | hlt'
    · exact heq
    · rw [(hskipped i (Nat.le_refl i) hlt').1] at hword
      contradiction
  · rintro rfl
    exact ⟨Nat.le_refl i, hlt, hword, fun m hm hmi => by omega⟩

/-- The text of a token begins with the first character that it keeps. -/
theorem TokenText.first {i kind : Nat} {pending : Bool} (h : TokenText src len i pending kind w)
    (hkind : kind = 0) (hopen : pending = true ∨ isDelimiter (src i) = false) (c : UInt8) :
    w.head? = some c ↔ ∃ g, FirstKept src len i g ∧ src g = c := by
  have hshut : ∀ {i : Nat}, isDelimiter (src i) = true →
      ¬ (false = true ∨ isDelimiter (src i) = false) := by
    intro i hdel h
    rw [hdel] at h
    simp at h
  induction h with
  | ends hend =>
      refine iff_of_false (by simp) ?_
      rintro ⟨g, hfirst, -⟩
      exact absurd (hfirst.le.trans_lt hfirst.lt) (Nat.not_lt.mpr hend)
  | number hlt hnum =>
      refine iff_of_false (by simp) ?_
      rintro ⟨g, hfirst, -⟩
      exact hfirst.not_numberAhead hnum
  | gap hlt hdel hscan => exact absurd hopen (hshut hdel)
  | change hlt hword hchange => exact absurd hkind hchange.1
  | connector hlt hcon hnum _ ih =>
      refine (ih hkind (.inl rfl)).trans ?_
      simp only [firstKept_succ (isSeparator_of_isConnectCh hcon) hnum]
  | separator hlt hdel _ ih =>
      refine (ih hkind (.inl rfl)).trans ?_
      simp only [firstKept_succ (isSeparator_of_isDelimiter hdel) (CiteParser.not_numberAhead hdel)]
  | bridge hlt hdel hscan _ ih => exact absurd hopen (hshut hdel)
  | keep hlt hword hchange _ ih =>
      simp only [List.head?_cons, Option.some.injEq, firstKept_here hlt hword, exists_eq_left']

end Call

end CiteParser
