import CiteParser.Core.Machine
import CiteParser.Predict.Queue
import Mathlib.Algebra.GroupWithZero.Nat
import Mathlib.Data.List.ReduceOption

/-!
# Where delimiters are counted

The scan over a token's text visits one place more than the token covers. That place is the
start of the next token or lies behind the range, so it holds none of the delimiters the scan
looks for: each of them is counted with the token whose text it is in.
-/

namespace CiteParser

/-- The delimiters that set a flag; the closing square bracket, which a letter may stand for, is
left out. -/
inductive Mark where
  | pareS
  | pareE
  | sqbS
  | braS
  | braE

namespace Mark

def char : Mark → UInt8
  | pareS => '('.toUInt8
  | pareE => ')'.toUInt8
  | sqbS => '['.toUInt8
  | braS => '\x7b'.toUInt8
  | braE => '\x7d'.toUInt8

/-- The flag during the scan. -/
def scanned (s : ScanState) : Mark → Nat
  | pareS => s.pareSflag
  | pareE => s.pareEflag
  | sqbS => s.sqbSflag
  | braS => s.braSflag
  | braE => s.braEflag

/-- The flag of a snapshot. -/
def flag (t : CrfNodeSnapshot) : Mark → Nat
  | pareS => t.pareSflag
  | pareE => t.pareEflag
  | sqbS => t.sqbSflag
  | braS => t.braSflag
  | braE => t.braEflag

theorem isDelimiter_char (b : Mark) : isDelimiter b.char = true := by
  cases b <;> rfl

end Mark

/-- Two states of the scan with the same counted delimiters. -/
def ScanState.SameMarks (s t : ScanState) : Prop :=
  t.quotflag = s.quotflag ∧ ∀ b : Mark, b.scanned t = b.scanned s

theorem ScanState.SameMarks.ite {c : Prop} [Decidable c] {s t u : ScanState}
    (ht : s.SameMarks t) (hu : s.SameMarks u) : s.SameMarks (if c then t else u) := by
  split
  · exact ht
  · exact hu

/-- The abbreviation test counts nothing. -/
theorem scanAbbr_sameMarks (first : Bool) (before c : UInt8) (s : ScanState) :
    s.SameMarks (scanAbbr first before c s) := by
  have hsame : ∀ (abbrc : Bool) (abbrl : Nat) (abbrs : Bool),
      s.SameMarks { s with abbrc, abbrl, abbrs } := by
    intro abbrc abbrl abbrs
    refine ⟨rfl, fun b => ?_⟩
    cases b <;> rfl
  unfold scanAbbr
  repeat' apply ScanState.SameMarks.ite
  all_goals apply hsame

/-- Nor does the collection of digits. -/
theorem scanDigits_sameMarks (dict : Dict) (c : UInt8) (s : ScanState) :
    s.SameMarks (scanDigits dict c s) := by
  have hsame : ∀ (partStr : List UInt8) (isPublisher : Nat),
      s.SameMarks { s with partStr, isPublisher } := by
    intro partStr isPublisher
    refine ⟨rfl, fun b => ?_⟩
    cases b <;> rfl
  unfold scanDigits
  repeat' apply ScanState.SameMarks.ite
  all_goals apply hsame

/-- The `switch` counts the delimiters named and no other character. -/
theorem scanSwitch_sameMarks {c ahead : UInt8} {s : ScanState} (hquot : c ≠ '\x22'.toUInt8)
    (hmark : ∀ b : Mark, c ≠ b.char) : s.SameMarks (scanSwitch c ahead s) := by
  have hsame : ∀ sqbEflag stopflag : Nat, s.SameMarks { s with sqbEflag, stopflag } := by
    intro sqbEflag stopflag
    refine ⟨rfl, fun b => ?_⟩
    cases b <;> rfl
  have h1 : ¬ c = '('.toUInt8 := hmark .pareS
  have h2 : ¬ c = ')'.toUInt8 := hmark .pareE
  have h3 : ¬ c = '['.toUInt8 := hmark .sqbS
  have h4 : ¬ c = '\x7b'.toUInt8 := hmark .braS
  have h5 : ¬ c = '\x7d'.toUInt8 := hmark .braE
  rw [scanSwitch, if_neg hquot, if_neg h1, if_neg h2, if_neg h3, if_neg h4, if_neg h5]
  repeat' apply ScanState.SameMarks.ite
  all_goals apply hsame

/-- The `switch` adds a quotation mark to their number. -/
theorem quotflag_scanSwitch (c ahead : UInt8) (s : ScanState) :
    (scanSwitch c ahead s).quotflag = s.quotflag + if c = '\x22'.toUInt8 then 1 else 0 := by
  by_cases hquot : c = '\x22'.toUInt8
  · rw [scanSwitch, if_pos hquot, if_pos hquot]
  · rw [if_neg hquot, Nat.add_zero]
    by_cases hmark : ∃ b : Mark, c = b.char
    · obtain ⟨b, rfl⟩ := hmark
      cases b <;> rfl
    · exact (scanSwitch_sameMarks hquot (not_exists.mp hmark)).1

/-- The `switch` sets a flag on its delimiter and leaves it alone on any other character. -/
theorem scanned_scanSwitch (c ahead : UInt8) (s : ScanState) (b : Mark) :
    b.scanned (scanSwitch c ahead s) = if c = b.char then 1 else b.scanned s := by
  by_cases hmark : ∃ k : Mark, c = k.char
  · obtain ⟨k, rfl⟩ := hmark
    cases k <;> cases b <;> rfl
  · rw [if_neg (not_exists.mp hmark b)]
    by_cases hquot : c = '\x22'.toUInt8
    · rw [hquot]
      cases b <;> rfl
    · exact (scanSwitch_sameMarks hquot (not_exists.mp hmark)).2 b

section Scan

variable (dict : Dict) (content : Nat → UInt8) (cur : Nat)

/-- What a pass of the scan does to the counted delimiters. -/
theorem scanStep_marks (s : ScanState) (i : Nat) :
    (scanStep dict content cur s i).quotflag =
        s.quotflag + (if content i = '\x22'.toUInt8 then 1 else 0) ∧
      ∀ b : Mark, b.scanned (scanStep dict content cur s i) =
        if content i = b.char then 1 else b.scanned s := by
  have hdigits := scanDigits_sameMarks dict (content i) s
  have habbr := fun t => scanAbbr_sameMarks (i == cur) (content (i - 1)) (content i) t
  rw [scanStep]
  constructor
  · rw [(habbr _).1, quotflag_scanSwitch]
    exact congrArg (· + _) hdigits.1
  · intro b
    rw [(habbr _).2 b, scanned_scanSwitch]
    congr 1
    exact Eq.trans (by cases b <;> rfl) (hdigits.2 b)

/-- What a stretch of the scan does to them. -/
theorem foldl_scanStep_marks (l : List Nat) (s : ScanState) :
    (l.foldl (scanStep dict content cur) s).quotflag =
        s.quotflag + (l.map content).count '\x22'.toUInt8 ∧
      ∀ b : Mark, b.scanned (l.foldl (scanStep dict content cur) s) =
        if b.char ∈ l.map content then 1 else b.scanned s := by
  induction l generalizing s with
  | nil => exact ⟨rfl, fun b => rfl⟩
  | cons i l ih =>
      obtain ⟨hquot, hmark⟩ := ih (scanStep dict content cur s i)
      obtain ⟨hquot', hmark'⟩ := scanStep_marks dict content cur s i
      constructor
      · rw [List.foldl_cons, hquot, hquot', List.map_cons, List.count_cons]
        simp only [beq_iff_eq]
        omega
      · intro b
        rw [List.foldl_cons, hmark b, hmark' b]
        simp only [List.map_cons, List.mem_cons, eq_comm (a := b.char)]
        by_cases hmem : b.char ∈ l.map content
        · rw [if_pos hmem, if_pos (.inr hmem)]
        · simp only [hmem, or_false, if_false]

/-- The place behind a token that a delimiter does not stand at adds nothing. -/
theorem scanText_marks {refAreaEnd offset : Nat} (hin : cur + offset ≤ refAreaEnd)
    (hahead : cur + offset < refAreaEnd → isDelimiter (content (cur + offset)) = false) :
    (scanText dict content refAreaEnd cur offset).quotflag =
        (segment content cur (cur + offset)).count '\x22'.toUInt8 ∧
      ∀ b : Mark, b.scanned (scanText dict content refAreaEnd cur offset) =
        if b.char ∈ segment content cur (cur + offset) then 1 else 0 := by
  obtain ⟨hquot, hmark⟩ := foldl_scanStep_marks dict content cur
    (scanRange cur offset refAreaEnd) .init
  have hzero : ∀ b : Mark, b.scanned ScanState.init = 0 := by
    intro b
    cases b <;> rfl
  rcases Nat.lt_or_eq_of_le hin with hlt | heq
  · have hrange : (scanRange cur offset refAreaEnd).map content =
        segment content cur (cur + offset) ++ [content (cur + offset)] := by
      rw [← segment_succ content (Nat.le_add_right _ _), segment, scanRange,
        show min (offset + 1) (refAreaEnd - cur) = cur + offset + 1 - cur by omega]
    have hplain : ∀ c, isDelimiter c = true → c ≠ content (cur + offset) := by
      rintro c hc rfl
      rw [hahead hlt] at hc
      contradiction
    rw [hrange] at hquot hmark
    constructor
    · rw [scanText, hquot, List.count_append, List.count_singleton, beq_eq_false_iff_ne.mpr
        (hplain _ rfl).symm]
      exact Nat.zero_add _
    · intro b
      rw [scanText, hmark b, hzero b]
      simp only [List.mem_append, List.mem_singleton, hplain _ b.isDelimiter_char, or_false]
  · have hrange : (scanRange cur offset refAreaEnd).map content =
        segment content cur (cur + offset) := by
      rw [segment, scanRange,
        show min (offset + 1) (refAreaEnd - cur) = cur + offset - cur by omega]
    rw [hrange] at hquot hmark
    constructor
    · rw [scanText, hquot]
      exact Nat.zero_add _
    · intro b
      rw [scanText, hmark b, hzero b]

end Scan

/-- A snapshot counts the quotation marks of its own text and flags the delimiters in it. -/
theorem Reference.next_marks {ref : Reference} {s s' : Nat × UInt8} {t : CrfNodeSnapshot}
    (h : ref.next s = some (t, s')) :
    t.quotflag = (segment ref.content s.1 s'.1).count '\x22'.toUInt8 ∧
      ∀ b : Mark, b.flag t = if b.char ∈ segment ref.content s.1 s'.1 then 1 else 0 := by
  obtain ⟨hoff, hpos, hle, -, -⟩ := Reference.next_some h
  obtain ⟨hne, ht, hs'⟩ := Reference.next_eq_some h
  have htoken := spilitContent_token hne
  have hret : (ref.token s.1).ret = t.offset := by rw [ht]; rfl
  have hahead : s.1 + t.offset < ref.refAreaEnd →
      isDelimiter (ref.content (s.1 + t.offset)) = false := by
    intro hlt
    rw [← hret] at hlt ⊢
    apply htoken.ahead
    simp only [Reference.token, tokenAt] at hlt ⊢
    omega
  obtain ⟨hquot, hmark⟩ := scanText_marks ref.dict ref.content s.1 (hoff ▸ hle) hahead
  rw [hoff]
  constructor
  · rw [← hquot, ← hret, ht]
    rfl
  · intro b
    rw [← hmark b, ← hret, ht]
    cases b <;> rfl

/-- A call on the queue that the tokens go through. -/
inductive FeedCall where
  | enQueue
  | deQueue

/-- `predftEnQueue`, which answers with the token it has stored and the offset at which that
token starts, and `deQueue`. -/
def feedCall (ref : Reference) : Machine Feed FeedCall (Option (Nat × CrfNodeSnapshot))
  | f, .enQueue =>
      ((enQueueNext ref f).1,
        if (enQueueNext ref f).2 then
          (pastNElem (enQueueNext ref f).1.queue 1).map fun t => (f.currentOffset, t)
        else none)
  | f, .deQueue =>
      match ftDeQueue f.queue with
      | none => (f, none)
      | some (_, queue) => ({ f with queue }, none)

/-- A call stores no token and stays where it is, or stores the next token of the text. -/
theorem feedCall_cases (ref : Reference) (f : Feed) (c : FeedCall) :
    ((feedCall ref f c).2 = none ∧ (feedCall ref f c).1.currentOffset = f.currentOffset) ∨
    ∃ t s, ref.next f.at = some (t, s) ∧ (feedCall ref f c).2 = some (f.currentOffset, t) ∧
      (feedCall ref f c).1.currentOffset = s.1 := by
  cases c with
  | enQueue =>
      rw [feedCall]
      rcases enQueueNext_cases ref f with ⟨_, he⟩ | ⟨_, _, he⟩ | ⟨t, s, hroom, hn, he⟩
      · exact .inl ⟨by rw [he]; rfl, by rw [he]⟩
      · exact .inl ⟨by rw [he]; rfl, by rw [he]⟩
      · refine .inr ⟨t, s, hn, ?_, by rw [he]⟩
        have hlast : pastNElem (enQueue f.queue t) 1 = some t := by
          rw [pastNElem, Ring.past_succ, (elems_enQueue hroom t).1]
          simp
        simp only [he, if_true, hlast, Option.map_some]
  | deQueue =>
      rw [feedCall]
      split
      · exact .inl ⟨rfl, rfl⟩
      · exact .inl ⟨rfl, rfl⟩

/-- The text that a token with its offset covers. -/
def span (ref : Reference) (p : Nat × CrfNodeSnapshot) : List UInt8 :=
  segment ref.content p.1 (p.1 + p.2.offset)

/-- Over a run of calls the tokens stored cover a text without a gap, and the marks of each are
those of its own text. -/
theorem run_feedCall (ref : Reference) (f : Feed) (calls : List FeedCall) :
    ((((feedCall ref).run f calls).2.reduceOption.map (span ref)).flatten =
        segment ref.content f.currentOffset ((feedCall ref).run f calls).1.currentOffset ∧
      f.currentOffset ≤ ((feedCall ref).run f calls).1.currentOffset) ∧
    ∀ p ∈ ((feedCall ref).run f calls).2.reduceOption,
      p.2.quotflag = (span ref p).count '\x22'.toUInt8 ∧
        ∀ b : Mark, b.flag p.2 = if b.char ∈ span ref p then 1 else 0 := by
  induction calls generalizing f with
  | nil =>
      refine ⟨⟨(segment_self _ _).symm, le_rfl⟩, fun p hp => ?_⟩
      exact absurd hp List.not_mem_nil
  | cons c calls ih =>
      obtain ⟨⟨htile, hle⟩, htokens⟩ := ih (feedCall ref f c).1
      rw [Machine.run_cons]
      rcases feedCall_cases ref f c with ⟨hnone, hcur⟩ | ⟨t, s, hnext, hsome, hcur⟩
      · rw [hcur] at htile hle
        simp only [hnone, List.reduceOption_cons_of_none]
        exact ⟨⟨htile, hle⟩, htokens⟩
      · obtain ⟨hoff, -, -, -, -⟩ := Reference.next_some hnext
        have hspan : span ref (f.currentOffset, t) =
            segment ref.content f.currentOffset s.1 := by
          rw [span, hoff]
          rfl
        have hlow : f.currentOffset ≤ s.1 := by
          rw [hoff]
          exact Nat.le_add_right _ _
        rw [hcur] at htile hle
        simp only [hsome, List.reduceOption_cons_of_some, List.map_cons, List.flatten_cons,
          hspan, htile, List.forall_mem_cons]
        refine ⟨⟨segment_append _ hlow hle, hlow.trans hle⟩, ?_, htokens⟩
        exact Reference.next_marks hnext

/-- Over any sequence of calls the stored tokens cover the text from the first offset to the
last without a gap; their quotation marks are those of that text, and each delimiter flag says
whether the token's own text holds the delimiter. -/
theorem delimiters_attributed_once (ref : Reference) (f : Feed) (calls : List FeedCall) :
    let tokens := ((feedCall ref).run f calls).2.reduceOption
    let covered := segment ref.content f.currentOffset
      ((feedCall ref).run f calls).1.currentOffset
    (tokens.map (span ref)).flatten = covered ∧
      (tokens.map fun p => p.2.quotflag).sum = covered.count '\x22'.toUInt8 ∧
      ∀ p ∈ tokens, ∀ b : Mark, b.flag p.2 = if b.char ∈ span ref p then 1 else 0 := by
  obtain ⟨⟨htile, -⟩, htokens⟩ := run_feedCall ref f calls
  refine ⟨htile, ?_, fun p hp => (htokens p hp).2⟩
  rw [← htile, List.count_flatten, List.map_map]
  exact congrArg List.sum (List.map_congr_left fun p hp => (htokens p hp).1)

end CiteParser
