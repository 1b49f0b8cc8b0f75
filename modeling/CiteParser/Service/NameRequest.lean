import CiteParser.Core.Shell
import CiteParser.Service.Framing

/-!
# Requests of the name service

`ng_service` in `ng.cc` reads a connection piece by piece and takes the names of a request from
it byte by byte, a name being what stands between line breaks, with a backslash in front of its
quotes. Two line breaks in succession end the request, but not before the piece that holds them
has been gone through, and a carriage return and the line feed behind it are two line breaks.
-/

namespace CiteParser

open Shell

def carriageReturn : UInt8 := 13

/-! ## The loop over the pieces -/

/-- What `name.append` is given for a byte of a name. -/
def escapeByte (c : UInt8) : List UInt8 :=
  if c = singleQuote then [backslash, singleQuote]
  else if c = doubleQuote then [backslash, doubleQuote]
  else [c]

/-- A name as `name_vect` has it. -/
def escapeName (name : List UInt8) : List UInt8 := name.flatMap escapeByte

/-- `\r` or `\n`. -/
def isBreak (c : UInt8) : Bool := c == carriageReturn || c == newline

/-- The variables of the loop. -/
structure RequestState where
  name_vect : List (List UInt8)
  name : List UInt8
  cnt_size : Nat
  end_flag : Bool

/-- The variables before the loop. -/
def RequestState.init : RequestState :=
  { name_vect := [], name := [], cnt_size := 0, end_flag := false }

/-- The names, with the one at hand if it is not empty. -/
def RequestState.pushed (st : RequestState) : List (List UInt8) :=
  if 0 < st.name.length then st.name_vect ++ [st.name] else st.name_vect

/-- The body of the loop over a piece. -/
def RequestState.byte (st : RequestState) (c : UInt8) : RequestState :=
  if c = 0 then st
  else if isBreak c then
    { name_vect := st.pushed
      name := []
      cnt_size := st.cnt_size + 1
      end_flag := st.end_flag || decide (2 ≤ st.cnt_size + 1) }
  else { st with name := st.name ++ escapeByte c, cnt_size := 0 }

/-- The loop over the pieces, left behind a piece after which the end flag is set. -/
def RequestState.read (st : RequestState) : List Piece → RequestState
  | [] => st
  | piece :: rest =>
      let st := piece.bytes.foldl RequestState.byte st
      if st.end_flag then st else st.read rest

/-- `name_vect` as it is passed to `ng_popen`. -/
def nameVect (pieces : List Piece) : List (List UInt8) := (RequestState.init.read pieces).pushed

/-! ## What the loop comes to -/

/-- A byte that becomes part of a name. -/
def isNameByte (c : UInt8) : Bool := c != 0 && !isBreak c

/-- What stands between line breaks, without zeros and if there is something. -/
def namesOf (s : List UInt8) : List (List UInt8) :=
  ((s.filter (· != 0)).splitOnP isBreak).filter (· ≠ [])

/-- Two line breaks stand in the bytes with at most zeros between them, or one at the start if
one stands before. -/
def breaksAgain (before : Bool) : List UInt8 → Bool
  | [] => false
  | c :: s =>
      if c = 0 then breaksAgain before s
      else if isBreak c then before || breaksAgain true s
      else breaksAgain false s

/-- The bytes that are gone through: those of the pieces up to the first behind which there have
been two line breaks in succession. -/
def gone (before : List UInt8) : List Piece → List UInt8
  | [] => before
  | piece :: rest =>
      if breaksAgain false (before ++ piece.bytes) then before ++ piece.bytes
      else gone (before ++ piece.bytes) rest

/-! ## The lines of a request -/

/-- The bytes before the first empty line. -/
def beforeEmptyLine (atStart : Bool) : List UInt8 → List UInt8
  | [] => []
  | c :: s =>
      if atStart && (c == newline || c == carriageReturn && s.head? == some newline) then []
      else c :: beforeEmptyLine (c == newline) s

/-- The line without the carriage return of its end. -/
def withoutReturn (line : List UInt8) : List UInt8 :=
  if line.getLast? = some carriageReturn then line.dropLast else line

/-- The lines of a text, which end in a line feed with or without a carriage return in front of
it; what stands behind the last end is a line too. -/
def linesOf (s : List UInt8) : List (List UInt8) :=
  (s.splitOn newline).dropLast.map withoutReturn ++ (s.splitOn newline).getLast?.toList

/-- The lines that make up the request of a stream. -/
def requestLines (s : List UInt8) : List (List UInt8) :=
  (linesOf (beforeEmptyLine true s)).filter (· ≠ [])

section Escape

variable {a b : List UInt8} {c : UInt8}

@[simp] theorem escapeName_nil : escapeName [] = [] := rfl

@[simp] theorem escapeName_cons (c : UInt8) (a : List UInt8) :
    escapeName (c :: a) = escapeByte c ++ escapeName a := by
  rw [escapeName, List.flatMap_cons, ← escapeName]

theorem escapeName_concat (a : List UInt8) (c : UInt8) :
    escapeName (a ++ [c]) = escapeName a ++ escapeByte c := by
  rw [escapeName, List.flatMap_append, List.flatMap_singleton, ← escapeName]

/-- No byte is lost. -/
theorem escapeName_eq_nil_iff : escapeName a = [] ↔ a = [] := by
  cases a with
  | nil => simp
  | cons c a =>
      have hne : escapeByte c ≠ [] := by
        unfold escapeByte
        split
        · simp
        · split <;> simp
      simp [hne]

/-- A quote has a backslash in front of it, another byte stands for itself. -/
theorem escapeByte_eq (c : UInt8) :
    escapeByte c = [backslash, c] ∧ (c = singleQuote ∨ c = doubleQuote) ∨
      escapeByte c = [c] ∧ c ≠ singleQuote ∧ c ≠ doubleQuote := by
  unfold escapeByte
  split
  next h => exact .inl ⟨by rw [h], .inl h⟩
  next hsingle =>
      split
      next h => exact .inl ⟨by rw [h], .inr h⟩
      next hdouble => exact .inr ⟨rfl, hsingle, hdouble⟩

/-- No quote comes first. -/
theorem escapeName_ne_cons (hc : c = singleQuote ∨ c = doubleQuote) (a s : List UInt8) :
    escapeName a ≠ c :: s := by
  intro h
  cases a with
  | nil => cases h
  | cons d a =>
      rw [escapeName_cons] at h
      rcases escapeByte_eq d with ⟨hd, -⟩ | ⟨hd, hsingle, hdouble⟩
      · rw [hd] at h
        obtain ⟨h, -⟩ := List.cons_eq_cons.mp h
        rcases hc with rfl | rfl <;> contradiction
      · rw [hd] at h
        obtain ⟨rfl, -⟩ := List.cons_eq_cons.mp h
        exact hc.elim hsingle hdouble

/-- Different names stay different. -/
theorem escapeName_injective : Function.Injective escapeName := by
  intro a b h
  induction a generalizing b with
  | nil => exact (escapeName_eq_nil_iff.mp h.symm).symm
  | cons c a ih =>
      cases b with
      | nil => exact escapeName_eq_nil_iff.mp h
      | cons d b =>
          rw [escapeName_cons, escapeName_cons] at h
          rcases escapeByte_eq c with ⟨hc, hquote⟩ | ⟨hc, hother⟩ <;>
            rcases escapeByte_eq d with ⟨hd, hquote'⟩ | ⟨hd, hother'⟩ <;>
            rw [hc, hd] at h
          · obtain ⟨-, h⟩ := List.cons_eq_cons.mp h
            obtain ⟨rfl, hrest⟩ := List.cons_eq_cons.mp h
            rw [ih hrest]
          · obtain ⟨-, h⟩ := List.cons_eq_cons.mp h
            exact absurd h.symm (escapeName_ne_cons hquote b _)
          · obtain ⟨-, h⟩ := List.cons_eq_cons.mp h
            exact absurd h (escapeName_ne_cons hquote' a _)
          · obtain ⟨rfl, hrest⟩ := List.cons_eq_cons.mp h
            rw [ih hrest]

end Escape

section Names

variable {a s : List UInt8} {c : UInt8}

theorem namesOf_zero (a s : List UInt8) : namesOf (a ++ 0 :: s) = namesOf (a ++ s) := by
  simp [namesOf]

/-- A line break ends a name. -/
theorem namesOf_break (hc : isBreak c = true) (a s : List UInt8) :
    namesOf (a ++ c :: s) = namesOf a ++ namesOf s := by
  have hlive : (c != 0) = true := by
    rw [bne_iff_ne]
    rintro rfl
    contradiction
  rw [namesOf, List.filter_append, List.filter_cons_of_pos (p := (· != 0)) hlive,
    List.splitOnP_append_cons _ _ hc, List.filter_append]
  rfl

/-- Bytes of names without a line break are one name. -/
theorem namesOf_clean (h : ∀ c ∈ a, isNameByte c = true) :
    namesOf a = if a = [] then [] else [a] := by
  have hlive : a.filter (· != 0) = a := by
    rw [List.filter_eq_self]
    intro c hc
    exact (Bool.and_eq_true_iff.mp (h c hc)).1
  have hone : a.splitOnP isBreak = [a] := by
    apply List.splitOnP_eq_singleton
    intro c hc
    simpa using (Bool.and_eq_true_iff.mp (h c hc)).2
  rw [namesOf, hlive, hone]
  by_cases ha : a = [] <;> simp [ha]

/-- Together the pieces of a list are what it has but the separators. -/
theorem flatten_splitOnP {α : Type*} (p : α → Bool) (l : List α) :
    (l.splitOnP p).flatten = l.filter (!p ·) := by
  induction l with
  | nil => rfl
  | cons x l ih =>
      rw [List.splitOnP_cons_eq_if_modifyHead]
      cases hx : p x with
      | true => simp [hx, ih]
      | false =>
          obtain ⟨y, ys, hsplit⟩ := List.exists_cons_of_ne_nil (List.splitOnP_ne_nil p l)
          rw [hsplit] at ih ⊢
          simpa [hx] using ih

theorem flatten_filter_ne_nil {α : Type*} [DecidableEq α] (l : List (List α)) :
    (l.filter (· ≠ [])).flatten = l.flatten := by
  induction l with
  | nil => rfl
  | cons x l ih => cases x <;> simpa using ih

/-- The names are made of the bytes of names. -/
theorem flatten_namesOf (s : List UInt8) : (namesOf s).flatten = s.filter isNameByte := by
  rw [namesOf, flatten_filter_ne_nil, flatten_splitOnP, List.filter_filter]
  apply List.filter_congr
  intro c _
  exact Bool.and_comm _ _

/-- What follows adds to the names exactly if it has a byte of a name. -/
theorem namesOf_append_iff (a s : List UInt8) :
    namesOf (a ++ s) = namesOf a ↔ ∀ c ∈ s, isNameByte c = false := by
  constructor
  · intro h
    have hflat := congrArg List.flatten h
    rw [flatten_namesOf, flatten_namesOf, List.filter_append, List.append_right_eq_self,
      List.filter_eq_nil_iff] at hflat
    simpa using hflat
  · intro h
    induction s generalizing a with
    | nil => rw [List.append_nil]
    | cons c s ih =>
        have hrest : ∀ d ∈ s, isNameByte d = false := fun d hd =>
          h d (List.mem_cons_of_mem c hd)
        have hc := h c List.mem_cons_self
        rw [isNameByte, Bool.and_eq_false_iff] at hc
        rcases hc with hc | hc
        · obtain rfl : c = 0 := by simpa using hc
          rw [namesOf_zero, ih a hrest]
        · have hnone : namesOf s = [] := by
            simpa [namesOf] using ih [] hrest
          rw [namesOf_break (by simpa using hc), hnone, List.append_nil]

end Names

section Loop

variable {st : RequestState}

/-- Behind the bytes `cur` of a name the loop over further bytes takes the names of both
together. -/
theorem pushed_foldl_byte {cur : List UInt8} (hcur : ∀ c ∈ cur, isNameByte c = true)
    (hname : st.name = escapeName cur) (s : List UInt8) :
    (s.foldl RequestState.byte st).pushed =
      st.name_vect ++ (namesOf (cur ++ s)).map escapeName := by
  have hpushed : ∀ st : RequestState, ∀ cur, (∀ c ∈ cur, isNameByte c = true) →
      st.name = escapeName cur → st.pushed = st.name_vect ++ (namesOf cur).map escapeName := by
    intro st cur hcur hname
    rw [namesOf_clean hcur]
    by_cases hnil : cur = []
    · simp [RequestState.pushed, hname, hnil]
    · simp [RequestState.pushed, hname, hnil, escapeName_eq_nil_iff, List.length_pos_iff]
  induction s generalizing st cur with
  | nil =>
      rw [List.append_nil]
      exact hpushed st cur hcur hname
  | cons c s ih =>
      rw [List.foldl_cons, RequestState.byte]
      split
      next hzero => rw [hzero, namesOf_zero, ih hcur hname]
      next hzero =>
          split
          next hbreak =>
              rw [ih (List.forall_mem_nil _) rfl, namesOf_break hbreak, List.map_append,
                ← List.append_assoc]
              exact congrArg (· ++ _) (hpushed st cur hcur hname)
          next hbreak =>
              have hc : isNameByte c = true := by simp [isNameByte, hzero, hbreak]
              have hcur' : ∀ d ∈ cur ++ [c], isNameByte d = true := by
                intro d hd
                rcases List.mem_append.mp hd with hd | hd
                · exact hcur d hd
                · rw [List.mem_singleton.mp hd]
                  exact hc
              have hname' : st.name ++ escapeByte c = escapeName (cur ++ [c]) := by
                rw [escapeName_concat, hname]
              rw [ih hcur' hname', List.append_assoc, List.singleton_append]

/-- The end flag is set by two line breaks in succession, the second of which may be the first of
the bytes. -/
theorem end_flag_foldl_byte (st : RequestState) (s : List UInt8) :
    (s.foldl RequestState.byte st).end_flag =
      (st.end_flag || breaksAgain (decide (0 < st.cnt_size)) s) := by
  induction s generalizing st with
  | nil => simp [breaksAgain]
  | cons c s ih =>
      rw [List.foldl_cons, ih, RequestState.byte, breaksAgain]
      split
      · rfl
      · split
        · simp [Nat.lt_iff_add_one_le, Bool.or_assoc]
        · simp

/-- The loop over the pieces goes through the bytes of `gone`. -/
theorem read_eq (before : List UInt8) (pieces : List Piece) :
    (before.foldl RequestState.byte .init).read pieces =
      (gone before pieces).foldl RequestState.byte .init := by
  induction pieces generalizing before with
  | nil => rfl
  | cons piece rest ih =>
      have hflag : ((before ++ piece.bytes).foldl RequestState.byte .init).end_flag =
          breaksAgain false (before ++ piece.bytes) := by
        rw [end_flag_foldl_byte]
        rfl
      rw [RequestState.read, gone, ← List.foldl_append, hflag]
      split
      · rfl
      · exact ih (before ++ piece.bytes)

/-- The names that are passed on are those in the bytes that are gone through. -/
theorem nameVect_eq (pieces : List Piece) :
    nameVect pieces = (namesOf (gone [] pieces)).map escapeName := by
  have hread := read_eq [] pieces
  rw [List.foldl_nil] at hread
  rw [nameVect, hread, pushed_foldl_byte (List.forall_mem_nil _) rfl]
  rfl

/-- What is gone through is a beginning of what is sent. -/
theorem gone_isPrefix (before : List UInt8) (pieces : List Piece) :
    gone before pieces <+: before ++ stream pieces := by
  induction pieces generalizing before with
  | nil => exact List.prefix_append before _
  | cons piece rest ih =>
      rw [append_stream_cons, gone]
      split
      · exact List.prefix_append _ _
      · exact ih (before ++ piece.bytes)

end Loop

section Lines

variable {a s : List UInt8} {c : UInt8}

/-- What comes before the first empty line is a beginning. -/
theorem beforeEmptyLine_isPrefix (atStart : Bool) (s : List UInt8) :
    beforeEmptyLine atStart s <+: s := by
  induction s generalizing atStart with
  | nil => exact List.nil_prefix
  | cons c s ih =>
      rw [beforeEmptyLine]
      split
      · exact List.nil_prefix
      · exact (List.cons_prefix_cons).mpr ⟨rfl, ih _⟩

theorem linesOf_cons (ha : newline ∉ a) (s : List UInt8) :
    linesOf (a ++ newline :: s) = withoutReturn a :: linesOf s := by
  obtain ⟨line, rest, hsplit⟩ := List.exists_cons_of_ne_nil (List.splitOn_ne_nil newline s)
  rw [linesOf, linesOf, List.splitOn_append_cons_self_of_not_mem ha, hsplit,
    List.dropLast_cons_cons, List.getLast?_cons_cons]
  rfl

theorem linesOf_last (ha : newline ∉ a) : linesOf a = [a] := by
  rw [linesOf, List.splitOn_eq_singleton ha]
  rfl

/-- A carriage return at the end of a line is nothing but a line break. -/
theorem namesOf_withoutReturn (a : List UInt8) : namesOf (withoutReturn a) = namesOf a := by
  rw [withoutReturn]
  split
  next hlast =>
      obtain ⟨a', rfl⟩ := List.getLast?_eq_some_iff.mp hlast
      rw [List.dropLast_concat, namesOf_break (by decide), namesOf_clean (List.forall_mem_nil _),
        if_pos rfl, List.append_nil]
  · rfl

/-- The names in lines of bytes of names are the lines that are not empty. -/
theorem namesOf_eq_lines
    (h : ∀ line ∈ (linesOf s).filter (· ≠ []), ∀ c ∈ line, isNameByte c = true) :
    namesOf s = (linesOf s).filter (· ≠ []) := by
  have hline : ∀ line : List UInt8, (line ≠ [] → ∀ c ∈ line, isNameByte c = true) →
      namesOf line = [line].filter (· ≠ []) := by
    intro line hclean
    by_cases hnil : line = []
    · rw [hnil]
      rfl
    · rw [namesOf_clean (hclean hnil)]
      simp [hnil]
  induction hn : s.length using Nat.strongRecOn generalizing s with
  | ind n ih =>
      by_cases hmem : newline ∈ s
      · obtain ⟨a, rest, rfl, ha⟩ := List.eq_append_cons_of_mem hmem
        rw [linesOf_cons ha] at h ⊢
        have hlen : rest.length < n := by
          rw [← hn, List.length_append, List.length_cons]
          omega
        have hfirst : namesOf a = [withoutReturn a].filter (· ≠ []) := by
          rw [← namesOf_withoutReturn]
          refine hline _ fun hnil => h _ ?_
          rw [List.mem_filter]
          exact ⟨List.mem_cons_self, by simpa using hnil⟩
        have hrest : namesOf rest = (linesOf rest).filter (· ≠ []) := by
          refine ih _ hlen (fun line hl => h line ?_) rfl
          rw [List.mem_filter] at hl ⊢
          exact ⟨List.mem_cons_of_mem _ hl.1, hl.2⟩
        rw [namesOf_break (by decide), hfirst, hrest, ← List.filter_append,
          List.singleton_append]
      · rw [linesOf_last hmem] at h ⊢
        refine hline s fun hnil => h s ?_
        simpa using hnil

/-- The names are made of nothing else. -/
theorem isNameByte_of_mem_namesOf {name : List UInt8} (h : name ∈ namesOf s) (hc : c ∈ name) :
    isNameByte c = true := by
  have hflat : c ∈ (namesOf s).flatten := List.mem_flatten_of_mem h hc
  rw [flatten_namesOf] at hflat
  exact (List.mem_filter.mp hflat).2

end Lines

/-! ## The names of a request -/

/-- The names that are passed on are the lines of the request. -/
def FramesNames (pieces : List Piece) : Prop :=
  nameVect pieces = (requestLines (stream pieces)).map escapeName

/-- The bytes of the request that are not gone through, or those that are gone through behind
it. -/
def between (pieces : List Piece) : List UInt8 :=
  (beforeEmptyLine true (stream pieces)).drop (gone [] pieces).length ++
    (gone [] pieces).drop (beforeEmptyLine true (stream pieces)).length

end CiteParser
