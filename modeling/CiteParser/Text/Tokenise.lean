import CiteParser.Core.CString
import CiteParser.Core.Source
import CiteParser.Text.SplitFacts

/-!
# Tokenising a range

Iterating `spilitContent`, each call starting where the last one returned. The letters
and digits of a range reach the tokens unless the range opens with delimiters, a
connector and a digit: then the first call returns 0 and everything is dropped.
-/

namespace CiteParser

/-- The size of the token buffer, `crftctl.h`. -/
def SINGLEWORDLEN : Nat := 256

/-- The call of `spilitContent` at text offset `cur` of a range that ends at `stop`.
`junk cur` is what the caller's uninitialised `nextpre` holds before that call. -/
def tokenAt (dlen : Nat) (content : Nat → UInt8) (stop : Nat) (junk : Nat → UInt8)
    (cur : Nat) : SplitResult :=
  spilitContent dlen (fun i => content (cur + i)) (stop - cur) (junk cur)

/-- The tokens of a range, until a call returns 0. -/
def tokenSource (dlen : Nat) (content : Nat → UInt8) (stop : Nat) (junk : Nat → UInt8) :
    Source Nat SplitResult where
  next cur :=
    if (tokenAt dlen content stop junk cur).ret = 0 then none
    else some (tokenAt dlen content stop junk cur,
      cur + (tokenAt dlen content stop junk cur).ret)
  bound cur := stop - cur
  bound_lt := by
    intro cur r cur' h
    simp only [Option.ite_none_left_eq_some, Option.some.injEq, Prod.mk.injEq] at h
    obtain ⟨hne, rfl, rfl⟩ := h
    have htoken := spilitContent_token hne
    have hpos := htoken.pos
    have hle := htoken.le
    simp only [tokenAt] at hpos hle ⊢
    omega

section Step

variable {dlen : Nat} {content : Nat → UInt8} {stop : Nat} {junk : Nat → UInt8}

theorem tokenSource_none {cur : Nat} :
    (tokenSource dlen content stop junk).next cur = none ↔
      (tokenAt dlen content stop junk cur).ret = 0 := by
  simp only [tokenSource, ite_eq_left_iff, reduceCtorEq, imp_false, not_not]

/-- A token taken at an offset covers the text from there to the next offset, and holds
exactly its letters and digits. -/
theorem tokenSource_some {cur cur' : Nat} {r : SplitResult}
    (h : (tokenSource dlen content stop junk).next cur = some (r, cur')) :
    r = tokenAt dlen content stop junk cur ∧ cur' = cur + r.ret ∧ cur < cur' ∧ cur' ≤ stop ∧
      r.dest.filter isAsciiOrDigit = (segment content cur cur').filter isAsciiOrDigit ∧
      (∀ c ∈ r.dest, ∃ m, cur ≤ m ∧ m < cur' ∧ content m = c) ∧
      (cur' < stop → isDelimiter (content cur') = false) := by
  simp only [tokenSource, Option.ite_none_left_eq_some, Option.some.injEq, Prod.mk.injEq] at h
  obtain ⟨hne, rfl, rfl⟩ := h
  have htoken := spilitContent_token hne
  have hpos := htoken.pos
  have hle := htoken.le
  have hkept := htoken.kept
  rw [segment_shift content cur, Nat.add_zero] at hkept
  refine ⟨rfl, rfl, by simp only [tokenAt]; omega, by simp only [tokenAt]; omega, hkept,
    fun c hc => ?_, fun hlt => htoken.ahead ?_⟩
  · obtain ⟨-, m, hm, he⟩ := htoken.stored c hc
    exact ⟨cur + m, by omega, by simp only [tokenAt]; omega, he⟩
  · simp only [tokenAt] at hlt
    omega

end Step

/-- The range opens with delimiters, a connector and, still inside it, a digit. -/
def HyphenStart (content : Nat → UInt8) (start stop : Nat) : Prop :=
  ∃ p, start < p ∧ p + 1 < stop ∧ (∀ m, start ≤ m → m < p → isDelimiter (content m) = true) ∧
    isConnectCh (content p) = true ∧ digitLike (content (p + 1)) = true

/-- A token the tagger sees: the string `strlen` and `sprintf` find in the buffer. -/
def SplitResult.str (r : SplitResult) : List UInt8 := cstr r.dest

/-- The main loop is left after at most one pass for each character of the range. -/
theorem splitLoop_ends (dlen : Nat) (src : Nat → UInt8) (len : Nat) :
    (Loop.run (splitPass dlen src len) (len + 1) .init).isSome = true := by
  obtain ⟨b, hrun, -⟩ := Loop.run_rule (splitPass dlen src len) (len + 1) .init
    (SplitInv src len) (fun s => len - s.i) (fun _ => True)
    (fun _ _ hs h => hs.pass h) (fun _ _ _ _ => trivial) (splitInv_init src len)
    (by simp only [SplitState.init]; omega)
  rw [hrun, Option.isSome_some]

/-- What a call has stored holds no zero byte when the range holds none. -/
theorem SplitToken.str_eq {src : Nat → UInt8} {len : Nat} {r : SplitResult}
    (h : SplitToken src len r) (htext : ∀ m, m < len → src m ≠ 0) : r.str = r.dest := by
  apply cstr_eq_self
  intro c hc
  obtain ⟨-, m, hm, rfl⟩ := h.stored c hc
  have hle := h.le
  exact htext m (by omega)

/-- One step conserves letters and digits and makes progress: the loop ends, and a call that
finds a token ends inside the range, in front of no delimiter, with the letters and digits it
has passed in `dest`, which is the string of the token where the range holds no zero byte. -/
theorem spilitContent_conserves (dlen : Nat) (src : Nat → UInt8) (len : Nat) (np : UInt8) :
    (Loop.run (splitPass dlen src len) (len + 1) .init).isSome = true ∧
    ((spilitContent dlen src len np).ret ≠ 0 →
      1 ≤ (spilitContent dlen src len np).ret ∧ (spilitContent dlen src len np).ret ≤ len ∧
      (spilitContent dlen src len np).dest.filter isAsciiOrDigit =
        (segment src 0 (spilitContent dlen src len np).ret).filter isAsciiOrDigit ∧
      ((spilitContent dlen src len np).ret < len →
        isDelimiter (src (spilitContent dlen src len np).ret) = false) ∧
      ((∀ m, m < len → src m ≠ 0) →
        (spilitContent dlen src len np).str = (spilitContent dlen src len np).dest)) := by
  refine ⟨splitLoop_ends dlen src len, fun hret => ?_⟩
  have htoken := spilitContent_token hret
  exact ⟨htoken.pos, htoken.le, htoken.kept, htoken.ahead, htoken.str_eq⟩

/-- Tokenising drops no letter and no digit of the range: where a call returns 0 none
is left, and the tokens, read as `view` reads them, hold those of the range in order. -/
def LettersKept (view : SplitResult → List UInt8) (dlen : Nat) (content : Nat → UInt8)
    (junk : Nat → UInt8) (start stop : Nat) : Prop :=
  (∀ cur ∈ (tokenSource dlen content stop junk).path start,
    (tokenAt dlen content stop junk cur).ret = 0 →
      (segment content cur stop).filter isAsciiOrDigit = []) ∧
  ((tokenSource dlen content stop junk).items start).flatMap
      (fun r => (view r).filter isAsciiOrDigit) =
    (segment content start stop).filter isAsciiOrDigit

section Complete

variable {content : Nat → UInt8} {stop : Nat} {junk : Nat → UInt8}

/-- A call with room for the rest of the range that starts on no delimiter, or on no
hyphen start, returns 0 only when no letter or digit is left. -/
theorem tokenAt_zero {dlen cur : Nat} (hroom : stop ≤ dlen)
    (hstart : ¬ HyphenStart content cur stop)
    (h : (tokenAt dlen content stop junk cur).ret = 0) :
    (segment content cur stop).filter isAsciiOrDigit = [] := by
  refine filter_segment_eq_nil fun i hi hlt => ?_
  have hback : ∀ {n : Nat}, (∀ m, m < n → isDelimiter (content (cur + m)) = true) →
      ∀ m, cur ≤ m → m < cur + n → isDelimiter (content m) = true := by
    intro n hdel m hm hmn
    have hd := hdel (m - cur) (by omega)
    rwa [show cur + (m - cur) = m by omega] at hd
  rcases spilitContent_zero h with ⟨s, hs⟩ | hdel | ⟨p, hpos, hp, hdel, hconnect, hdigit⟩
  · exact absurd hs (splitLoop_room (by omega) s)
  · exact not_isAsciiOrDigit_of_isDelimiter _ (hback hdel i hi (by omega))
  · -- the digit behind the connector lies outside the range
    have hlast : ¬ cur + p + 1 < stop := fun hin =>
      hstart ⟨cur + p, by omega, hin, hback hdel, hconnect, hdigit⟩
    rcases Nat.lt_or_eq_of_le (show i ≤ cur + p by omega) with hlt' | rfl
    · exact not_isAsciiOrDigit_of_isDelimiter _ (hback hdel i hi hlt')
    · exact not_isAsciiOrDigit_of_isConnectCh _ hconnect

/-- After a token the text does not open with a delimiter, so no hyphen start follows. -/
theorem not_hyphenStart_of_next {dlen cur cur' : Nat} {r : SplitResult}
    (h : (tokenSource dlen content stop junk).next cur = some (r, cur')) :
    ¬ HyphenStart content cur' stop := by
  rintro ⟨p, hp, hlt, hdel, -, -⟩
  obtain ⟨-, -, -, -, -, -, hahead⟩ := tokenSource_some h
  have hd := hdel cur' le_rfl hp
  rw [hahead (by omega)] at hd
  contradiction

/-- With room for every token, a range without a hyphen start loses no letter or digit. -/
theorem lettersKept_room {dlen start : Nat} (hroom : stop ≤ dlen)
    (hstart : ¬ HyphenStart content start stop) :
    LettersKept SplitResult.dest dlen content junk start stop := by
  rw [LettersKept]
  induction start using (tokenSource dlen content stop junk).induct with
  | hnone cur h =>
      have hret := tokenAt_zero hroom hstart (tokenSource_none.mp h)
      rw [Source.path_none _ h, Source.items_none _ h]
      refine ⟨fun c hc _ => ?_, ?_⟩
      · rwa [List.mem_singleton.mp hc]
      · rw [List.flatMap_nil, hret]
  | hsome cur r cur' h ih =>
      obtain ⟨hrest, hitems⟩ := ih (not_hyphenStart_of_next h)
      obtain ⟨hr, -, hlt, hle, hkept, -, -⟩ := tokenSource_some h
      rw [Source.path_some _ h, Source.items_some _ h]
      refine ⟨fun c hc hret => ?_, ?_⟩
      · rcases List.mem_cons.mp hc with rfl | hc
        · rw [tokenSource_none.mpr hret] at h
          contradiction
        · exact hrest c hc hret
      · rw [List.flatMap_cons, hitems, hkept, ← List.filter_append,
          segment_append content hlt.le hle]

/-- A hyphen start makes the first call return 0 with a digit left. -/
theorem hyphenStart_drops (dlen : Nat) (junk : Nat → UInt8) {start : Nat}
    (h : HyphenStart content start stop) :
    (tokenAt dlen content stop junk start).ret = 0 ∧
      (segment content start stop).filter isAsciiOrDigit ≠ [] := by
  obtain ⟨p, hp, hlt, hdel, hconnect, hdigit⟩ := h
  constructor
  · refine spilitContent_of_hyphenFirst _ ⟨p - start, by omega, by omega, fun m hm => ?_, ?_, ?_⟩
    · exact hdel _ (by omega) (by omega)
    · simpa only [show start + (p - start) = p by omega] using hconnect
    · simpa only [show start + (p - start + 1) = p + 1 by omega] using hdigit
  · intro hnil
    have hmem : content (p + 1) ∈ (segment content start stop).filter isAsciiOrDigit :=
      List.mem_filter.mpr ⟨mem_segment.mpr ⟨p + 1, by omega, by omega, rfl⟩,
        isAsciiOrDigit_of_digitLike _ hdigit⟩
    rw [hnil] at hmem
    exact List.not_mem_nil hmem

/-- If every token of the range fits the token buffer, its size makes no difference. -/
theorem tokenSource_of_fits {dlen start : Nat} (hroom : stop ≤ dlen)
    (hwidth : ∀ r ∈ (tokenSource dlen content stop junk).items start,
      r.dest.length ≤ SINGLEWORDLEN - 1) {cur : Nat}
    (hcur : cur ∈ (tokenSource dlen content stop junk).path start) :
    (tokenSource dlen content stop junk).next cur =
      (tokenSource SINGLEWORDLEN content stop junk).next cur := by
  have hzero : ∀ {s : Nat}, (tokenSource dlen content stop junk).next s = none →
      (tokenSource SINGLEWORDLEN content stop junk).next s = none := by
    intro s h
    rw [tokenSource_none] at h ⊢
    rcases spilitContent_zero h with ⟨e, he⟩ | hdel | hhyphen
    · exact absurd he (splitLoop_room (by omega) e)
    · exact spilitContent_of_delimiters _ hdel
    · exact spilitContent_of_hyphenFirst _ hhyphen
  induction start using (tokenSource dlen content stop junk).induct with
  | hnone s h =>
      rw [Source.path_none _ h, List.mem_singleton] at hcur
      rw [hcur, h, hzero h]
  | hsome s r s' h ih =>
      rw [Source.path_some _ h, List.mem_cons] at hcur
      rw [Source.items_some _ h] at hwidth
      rcases hcur with rfl | hcur
      · have hfit := hwidth r List.mem_cons_self
        rw [(tokenSource_some h).1] at hfit
        have hsame : tokenAt SINGLEWORDLEN content stop junk cur =
            tokenAt dlen content stop junk cur :=
          spilitContent_of_fits (show stop - cur ≤ dlen by omega) (hfit.trans (Nat.sub_le _ _))
        simp only [tokenSource, hsame]
      · exact ih (fun r hr => hwidth r (List.mem_cons_of_mem _ hr)) hcur

/-- In a text without zero bytes the tagger sees every token whole. -/
theorem str_eq_dest {dlen start : Nat} (htext : ∀ i, start ≤ i → i < stop → content i ≠ 0)
    {r : SplitResult} (hr : r ∈ (tokenSource dlen content stop junk).items start) :
    r.str = r.dest := by
  induction start using (tokenSource dlen content stop junk).induct with
  | hnone s h =>
      rw [Source.items_none _ h] at hr
      exact absurd hr List.not_mem_nil
  | hsome s r' s' h ih =>
      obtain ⟨-, -, hlt, hle, -, hstored, -⟩ := tokenSource_some h
      rw [Source.items_some _ h, List.mem_cons] at hr
      rcases hr with rfl | hr
      · refine cstr_eq_self fun c hc => ?_
        obtain ⟨m, hm, hms, rfl⟩ := hstored c hc
        exact htext m hm (hms.trans_le hle)
      · exact ih (fun i hi his => htext i (hlt.le.trans hi) his) hr

/-- Tokens read as the tagger reads them are kept as long as the text holds no zero byte. -/
theorem lettersKept_str_iff {dlen start : Nat}
    (htext : ∀ i, start ≤ i → i < stop → content i ≠ 0) :
    LettersKept SplitResult.str dlen content junk start stop ↔
      LettersKept SplitResult.dest dlen content junk start stop := by
  have hview : ((tokenSource dlen content stop junk).items start).flatMap
      (fun r => r.str.filter isAsciiOrDigit) =
      ((tokenSource dlen content stop junk).items start).flatMap
        (fun r => r.dest.filter isAsciiOrDigit) :=
    List.flatMap_congr fun r hr => by rw [str_eq_dest htext hr]
  rw [LettersKept, LettersKept, hview]

/-- A range that opens with a hyphen start loses letters and digits. -/
theorem HyphenStart.not_lettersKept {view : SplitResult → List UInt8} {dlen start : Nat}
    (h : HyphenStart content start stop) :
    ¬ LettersKept view dlen content junk start stop := by
  rintro ⟨hleft, -⟩
  obtain ⟨hret, hsome⟩ := hyphenStart_drops dlen junk h
  refine hsome (hleft start ?_ hret)
  rw [Source.path_none _ (tokenSource_none.mpr hret)]
  exact List.mem_singleton.mpr rfl

/-- If the tokens fit the token buffer, tokenising with ample room keeps the same letters. -/
theorem lettersKept_of_fits {view : SplitResult → List UInt8} {start : Nat}
    (hwidth : ∀ r ∈ (tokenSource stop content stop junk).items start,
      r.dest.length ≤ SINGLEWORDLEN - 1)
    (h : LettersKept view stop content junk start stop) :
    LettersKept view SINGLEWORDLEN content junk start stop := by
  obtain ⟨hitems, hpath⟩ := Source.items_congr _ (tokenSource SINGLEWORDLEN content stop junk)
    start fun v hv => tokenSource_of_fits le_rfl hwidth hv
  obtain ⟨hleft, hkept⟩ := h
  refine ⟨fun cur hcur hret => ?_, hitems ▸ hkept⟩
  rw [← hpath] at hcur
  refine hleft cur hcur (tokenSource_none.mp ?_)
  rw [tokenSource_of_fits le_rfl hwidth hcur]
  exact tokenSource_none.mpr hret

end Complete

/-- Over a stretch of text whose tokens all fit their buffer, tokenising drops no letter
and no digit exactly when the range does not open with a hyphen start; without a zero
byte in the range the tagger sees all of each token. -/
theorem lettersKept_iff_not_hyphenStart (content : Nat → UInt8) (junk : Nat → UInt8)
    (start stop : Nat)
    (hwidth : ∀ r ∈ (tokenSource stop content stop junk).items start,
      r.dest.length ≤ SINGLEWORDLEN - 1) :
    (LettersKept SplitResult.dest SINGLEWORDLEN content junk start stop ↔
      ¬ HyphenStart content start stop) ∧
    ((∀ i, start ≤ i → i < stop → content i ≠ 0) →
      (LettersKept SplitResult.str SINGLEWORDLEN content junk start stop ↔
        ¬ HyphenStart content start stop)) := by
  have hdest : LettersKept SplitResult.dest SINGLEWORDLEN content junk start stop ↔
      ¬ HyphenStart content start stop :=
    ⟨fun hkept hstart => hstart.not_lettersKept hkept,
      fun hstart => lettersKept_of_fits hwidth (lettersKept_room le_rfl hstart)⟩
  refine ⟨hdest, fun htext => ?_⟩
  rw [lettersKept_str_iff htext, hdest]

/-- The reference text of an ordinary citation, and one whose first token is dropped. -/
def plainText : List UInt8 := bytes "Smith, J. 1999"

def bracketText : List UInt8 := bytes "[-1] A. Bagga"

theorem lettersKept_plainText :
    LettersKept SplitResult.str SINGLEWORDLEN (memory plainText) (fun _ => 0) 0 14 :=
  ((lettersKept_iff_not_hyphenStart (memory plainText) (fun _ => 0) 0 14 (by decide +kernel)).2
    (by decide +kernel)).mpr (by
      rintro ⟨p, hp, -, hdel, -⟩
      exact absurd (hdel 0 le_rfl hp) (by decide))

/-- The first call on this text returns 0 at once, with a whole name still to come. -/
theorem not_lettersKept_bracketText :
    (∀ r ∈ (tokenSource 13 (memory bracketText) 13 (fun _ => 0)).items 0,
      r.dest.length ≤ SINGLEWORDLEN - 1) ∧
    (∀ i, 0 ≤ i → i < 13 → memory bracketText i ≠ 0) ∧
    ¬ LettersKept SplitResult.str SINGLEWORDLEN (memory bracketText) (fun _ => 0) 0 13 := by
  refine ⟨by decide +kernel, by decide +kernel, HyphenStart.not_lettersKept
    ⟨1, by decide, by decide, fun m _ hm => ?_, by decide, by decide⟩⟩
  obtain rfl : m = 0 := by omega
  decide

end CiteParser
