import CiteParser.Core.Memory
import CiteParser.Core.Utf8
import CiteParser.Predict.Decode
import CiteParser.Predict.Streaming
import CiteParser.Service.Range

/-!
# Tokens of whole characters

The tokeniser tells no byte above 127 from another one. Where it ends a token there is a byte
below 128 before or behind the end, or the range ends; so the tokens of a text that is valid UTF-8
are, and the segments that are put together from them.
-/

namespace CiteParser

open Loop

theorem isAscii_of_isDelimiter : ∀ c : UInt8, isDelimiter c = true → isAscii c = true := by
  decide +kernel

theorem isAscii_of_isConnectCh : ∀ c : UInt8, isConnectCh c = true → isAscii c = true := by
  decide +kernel

theorem isAscii_of_isAsciiOrDigit : ∀ c : UInt8, isAsciiOrDigit c = true → isAscii c = true := by
  decide +kernel

theorem isAscii_of_isBlank : ∀ c : UInt8, isBlank c = true → isAscii c = true := by
  decide +kernel

theorem isAscii_of_checkCharType : ∀ c : UInt8, checkCharType c ≠ 0 → isAscii c = true := by
  decide +kernel

/-! ## Where a token ends -/

/-- The range ends at the index, or there is a byte below 128 at it or before it. -/
def CutAt (src : Nat → UInt8) (len r : Nat) : Prop :=
  r = len ∨ isAscii (src r) = true ∨ 0 < r ∧ isAscii (src (r - 1)) = true

section Cuts

variable {src : Nat → UInt8} {len : Nat}

/-- The tests of a pass end a token at a byte below 128. -/
theorem splitTest_exit {s e : SplitState} (h : splitTest src len s = .exit e) :
    e.i = s.i ∧ isAscii (src s.i) = true := by
  rw [splitTest] at h
  split at h
  next hhyphen =>
      simp only [Bool.and_eq_true, decide_eq_true_eq] at hhyphen
      cases h
      exact ⟨rfl, isAscii_of_isConnectCh _ hhyphen.1.1⟩
  next =>
      rw [splitBranch] at h
      split at h
      · split at h
        · contradiction
        · split at h <;> contradiction
      · split at h
        next hdelimiter =>
            split at h
            · contradiction
            · cases h
              exact ⟨rfl, isAscii_of_isDelimiter _ (Bool.and_eq_true_iff.mp hdelimiter).1⟩
        next =>
            split at h
            next htype =>
                simp only [Bool.and_eq_true, bne_iff_ne] at htype
                cases h
                exact ⟨rfl, isAscii_of_checkCharType _ htype.1.2⟩
            next => contradiction

/-- The main loop is left at a byte below 128 or at the end of the range. -/
theorem splitLoop_cut {dlen : Nat} {e : SplitState} (h : splitLoop dlen src len = .ok e) :
    CutAt src len e.i := by
  obtain ⟨b, hrun, hcut⟩ := run_rule (splitPass dlen src len) (len + 1) .init
    (SplitInv src len) (fun s => len - s.i) (fun b => ∀ e, b = .ok e → CutAt src len e.i)
    (fun _ _ hs h => hs.pass h)
    (fun s b hs hexit e hb => by
      subst hb
      rcases splitPass_ok hexit with ⟨hge, rfl⟩ | ⟨-, htest⟩
      · exact .inl (Nat.le_antisymm hs.le hge)
      · obtain ⟨hi, hascii⟩ := splitTest_exit htest
        exact .inr (.inl (hi ▸ hascii)))
    (splitInv_init src len) (by simp only [SplitState.init]; omega)
  rw [splitLoop, hrun] at h
  exact hcut e h

/-- The scan for a delimiter stays where it is or stops behind a byte below 128. -/
theorem nextDelimiter_cut (n i : Nat) (nextdeli : UInt8) (h : CutAt src len i) :
    CutAt src len (nextDelimiter src n i nextdeli).1 := by
  induction n generalizing i with
  | zero => exact h
  | succ n ih =>
      rw [nextDelimiter]
      split
      · exact h
      · split
        · exact h
        next hother =>
            refine ih (i + 1) (.inr (.inr ⟨Nat.succ_pos i, ?_⟩))
            simp only [Bool.and_eq_true, Bool.not_eq_true', not_and_or, Bool.not_eq_false] at hother
            exact hother.elim (isAscii_of_isBlank _) (isAscii_of_isConnectCh _)

/-- And so does the final loop. -/
theorem skipDelimiters_cut (n i : Nat) (np : UInt8) (h : CutAt src len i) :
    CutAt src len (skipDelimiters src n i np).1 := by
  induction n generalizing i np with
  | zero => exact h
  | succ n ih =>
      rw [skipDelimiters]
      split
      · exact h
      next hdelimiter =>
          refine ih (i + 1) _ (.inr (.inr ⟨Nat.succ_pos i, isAscii_of_isDelimiter _ ?_⟩))
          simpa using hdelimiter

/-- A token ends next to a byte below 128 or with the range. -/
theorem spilitContent_cut {dlen : Nat} {np : UInt8} (h : (spilitContent dlen src len np).ret ≠ 0) :
    CutAt src len (spilitContent dlen src len np).ret := by
  rw [spilitContent] at h ⊢
  cases hloop : splitLoop dlen src len with
  | error s =>
      rw [hloop] at h
      exact absurd rfl h
  | ok s =>
      rw [hloop] at h
      have hcut := splitLoop_cut hloop
      cases hflag : s.flag with
      | false => exact absurd (by simp [splitFinish, hflag]) h
      | true =>
          simp only [splitFinish, hflag, Bool.not_true, Bool.false_eq_true, ite_false]
          apply skipDelimiters_cut
          split
          · exact nextDelimiter_cut _ _ _ hcut
          · exact hcut

end Cuts

/-! ## Tokens of a valid text -/

section Text

variable {text : List UInt8} {a b i : Nat}

/-- What lies between two places at which characters start is valid. -/
theorem isUtf8_segment (htext : IsUtf8 text) (hab : a ≤ b) (hb : b ≤ text.length)
    (ha : StartsChar (text.drop a)) (hend : StartsChar (text.drop b)) :
    IsUtf8 (segment (memory text) a b) := by
  rw [segment_memory hab hb]
  have hsplit : text.take a ++ text.drop a = text := List.take_append_drop a text
  have hrest : IsUtf8 (text.drop a) := (IsUtf8.split (hsplit.symm ▸ htext) ha).2
  have hcut : (text.drop a).take (b - a) ++ text.drop b = text.drop a := by
    have hdrop : text.drop b = (text.drop a).drop (b - a) := by
      rw [List.drop_drop]
      congr 1
      omega
    rw [hdrop, List.take_append_drop]
  exact (IsUtf8.split (hcut.symm ▸ hrest) hend).1

/-- A character starts next to a byte below 128. -/
theorem startsChar_of_cut (htext : IsUtf8 text) (h : CutAt (memory text) text.length i)
    (hi : i ≤ text.length) : StartsChar (text.drop i) := by
  have hbyte : ∀ {k : Nat}, isAscii (memory text k) = true → k < text.length →
      text.drop k = memory text k :: text.drop (k + 1) := by
    intro k _ hk
    rw [List.drop_eq_getElem_cons hk, memory_eq_getElem hk]
  rcases h with rfl | hascii | ⟨hpos, hascii⟩
  · rw [List.drop_length]
    simp [StartsChar]
  · rcases Nat.eq_or_lt_of_le hi with rfl | hlt
    · rw [List.drop_length]
      simp [StartsChar]
    · rw [hbyte hascii hlt]
      intro c hc
      obtain rfl : memory text i = c := by simpa using hc
      exact isUTF8FirstByte_of_isAscii _ hascii
  · obtain ⟨k, rfl⟩ : ∃ k, i = k + 1 := ⟨i - 1, by omega⟩
    rw [Nat.add_sub_cancel] at hascii
    have hsplit : text.take k ++ memory text k :: text.drop (k + 1) = text := by
      rw [← hbyte hascii (by omega), List.take_append_drop]
    exact (IsUtf8.split_ascii (hsplit.symm ▸ htext) hascii).2.startsChar

end Text

/-- The range of a reference is a text, from its start to its end. -/
structure Reference.Covers (ref : Reference) (text : List UInt8) : Prop where
  content : ∀ i, i ≤ text.length → ref.content i = memory text i
  stop : ref.refAreaEnd = text.length

/-- A query without a zero byte is stored as it is. -/
theorem covers_request (heap : Nat → UInt8) (dict : Dict) (nextpre : Nat → UInt8)
    {query : List UInt8} (hzero : ∀ c ∈ query, c ≠ 0) :
    (requestReference heap dict nextpre query query.length).Covers query where
  content := by
    intro i hi
    simp only [requestReference, setFileContent, cstr_eq_self hzero, if_pos hi]
  stop := rfl

section Tokens

variable {ref : Reference} {text : List UInt8} {cps : List (Nat × Nat)} {repo : TokenRepo}
  {y2 : Nat → List UInt8}

/-- The spans start and end with characters of the text. -/
def WholeChars (text : List UInt8) (cps : List (Nat × Nat)) : Prop :=
  ∀ cp ∈ cps, cp.1 ≤ cp.2 ∧ cp.2 ≤ text.length ∧ StartsChar (text.drop cp.1) ∧
    StartsChar (text.drop cp.2)

/-- A token ends next to a byte of the text that is below 128, or with the text. -/
theorem Reference.Covers.cut (h : ref.Covers text) {cur : Nat} (hret : (ref.token cur).ret ≠ 0)
    (hle : cur + (ref.token cur).ret ≤ text.length) :
    CutAt (memory text) text.length (cur + (ref.token cur).ret) := by
  have hcut : CutAt (fun i => ref.content (cur + i)) (ref.refAreaEnd - cur) (ref.token cur).ret :=
    spilitContent_cut hret
  generalize (ref.token cur).ret = r at hret hle hcut ⊢
  rw [h.stop] at hcut
  rcases hcut with rfl | hascii | ⟨hr, hascii⟩
  · exact .inl (by omega)
  · exact .inr (.inl (h.content _ hle ▸ hascii))
  · refine .inr (.inr ⟨by omega, ?_⟩)
    rw [Nat.add_sub_assoc hr, ← h.content _ (by omega)]
    exact hascii

/-- The tokens of a valid text are whole characters. -/
theorem wholeChars_items (h : ref.Covers text) (htext : IsUtf8 text) (s : Nat × UInt8)
    (hs : s.1 ≤ text.length) (hstart : StartsChar (text.drop s.1)) :
    WholeChars text (spans s.1 (ref.snapshots.items s)) := by
  induction s using ref.snapshots.induct with
  | hnone s hnext =>
      rw [Source.items_none _ hnext]
      exact fun cp hcp => absurd hcp List.not_mem_nil
  | hsome s t s' hnext ih =>
      obtain ⟨hmove, hpos, hle, -, -⟩ := Reference.next_some hnext
      obtain ⟨hne, -, hstate⟩ := Reference.next_eq_some hnext
      rw [h.stop] at hle
      have hret : s'.1 = s.1 + (ref.token s.1).ret := congrArg Prod.fst hstate
      have hend : StartsChar (text.drop s'.1) := by
        rw [hret] at hle ⊢
        exact startsChar_of_cut htext (h.cut hne hle) hle
      rw [Source.items_some _ hnext, spans, ← hmove]
      intro cp hcp
      rcases List.mem_cons.mp hcp with rfl | hcp
      · exact ⟨by dsimp only; omega, hle, hstart, hend⟩
      · exact ih hle hend cp hcp

/-- Labelled segments of a valid text are valid. -/
theorem isUtf8_labelled (h : ref.Covers text) (htext : IsUtf8 text) (hcps : WholeChars text cps)
    (i : Nat) : ∀ part ∈ labelled repo ref.content y2 i cps, IsUtf8 part.2 := by
  induction cps generalizing i with
  | nil => exact fun part hpart => absurd hpart List.not_mem_nil
  | cons cp rest ih =>
      obtain ⟨hle, hend, ha, hb⟩ := hcps cp List.mem_cons_self
      have hsame : segment ref.content cp.1 cp.2 = segment (memory text) cp.1 cp.2 := by
        refine List.map_congr_left fun k hk => h.content k ?_
        rw [List.mem_range'_1] at hk
        omega
      intro part hpart
      rcases List.mem_cons.mp hpart with rfl | hpart
      · rw [hsame]
        exact isUtf8_segment htext hle hend ha hb
      · exact ih (fun cp' hcp' => hcps cp' (List.mem_cons_of_mem cp hcp')) (i + 1) part hpart

/-- What one pass gathers from valid pieces is valid. -/
theorem isUtf8_runsFrom {k : Nat} {acc : List UInt8} {items : List (Nat × List UInt8)}
    (hacc : IsUtf8 acc) (h : ∀ part ∈ items, IsUtf8 part.2) :
    ∀ r ∈ runsFrom k acc items, IsUtf8 r.2 := by
  induction items generalizing k acc with
  | nil =>
      intro r hr
      rw [runsFrom, List.mem_singleton] at hr
      rw [hr]
      exact hacc
  | cons part rest ih =>
      rw [List.forall_mem_cons] at h
      rw [runsFrom]
      split
      · exact ih (hacc.append h.1) h.2
      · rw [List.forall_mem_cons]
        exact ⟨hacc, ih h.1 h.2⟩

/-- The segments that are handed on for a valid text are valid. -/
theorem isUtf8_addedInfo {junk : Nat → CrfNodeSnapshot} {e : PredictState} (h : ref.Covers text)
    (htext : IsUtf8 text) (he : predictLoop ref junk 0 = some e) :
    ∀ call ∈ addedInfo (decode repo ref.content y2 e.offsetCpQueue e.rows.length),
      IsUtf8 call.2 := by
  obtain ⟨e', he', hrows, hspans⟩ := predictLoop_eq ref junk 0
  obtain rfl := Option.some.inj (he.symm.trans he')
  have hsize : e.rows.length = e.offsetCpQueue.length := by
    rw [hrows, hspans, length_spans, rowsOf, List.length_map, length_contextsOf]
  have hcps : WholeChars text e.offsetCpQueue := by
    rw [hspans]
    exact wholeChars_items h htext (0, ' '.toUInt8) (Nat.zero_le _) htext.startsChar
  rw [hsize]
  cases hq : e.offsetCpQueue with
  | nil =>
      intro call hcall
      have hnone : call ∈ [(0, ([] : List UInt8))] := hcall
      rw [List.mem_singleton.mp hnone]
      exact .nil
  | cons cp rest =>
      rw [hq] at hcps
      have hparts := @isUtf8_labelled ref text (cp :: rest) repo y2 h htext hcps 0
      rw [List.length_cons, addedInfo_decode, List.forall_mem_append]
      constructor
      · rw [labelled] at hparts ⊢
        rw [List.forall_mem_cons] at hparts
        rw [maximalRuns_cons]
        exact isUtf8_runsFrom hparts.1 hparts.2
      · intro call hcall
        split at hcall
        · exact absurd hcall List.not_mem_nil
        · rw [List.mem_singleton.mp hcall]
          exact .nil

end Tokens

end CiteParser
