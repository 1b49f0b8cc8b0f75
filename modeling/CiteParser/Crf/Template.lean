import CiteParser.Core.Decimal
import CiteParser.Crf.Rows
import CiteParser.Features.Words
import CiteParser.Text.Chars

/-!
# Feature templates

`applyRule` and `getIndex` of `feature.cpp`, and what they are for. A template is a text with
references to columns of the tokens around the one looked at; applying it puts the columns in.
What stands for tokens before the first and behind the last one is their distance from the text.
-/

namespace CiteParser.Crf

/-- Why a template gives nothing: it is refused, or the source does what C++ leaves undefined, as
to read behind the end of the template or to overflow an `int`. -/
inductive Failure where
  | refused
  | undefined
  deriving DecidableEq, Repr

def kMaxContextSize : Nat := 8

/-- `BOS[k]`. -/
def BOS : List (List UInt8) :=
  ["_B-1", "_B-2", "_B-3", "_B-4", "_B-5", "_B-6", "_B-7", "_B-8"].map bytes

/-- `EOS[k]`. -/
def EOS : List (List UInt8) :=
  ["_B+1", "_B+2", "_B+3", "_B+4", "_B+5", "_B+6", "_B+7", "_B+8"].map bytes

/-- A loop over the digits of a number up to the character behind it, which is left in place; the
end of the template ends the number as well. -/
def readNumber (stop : UInt8) : Nat → List UInt8 → Except Failure (Nat × List UInt8)
  | sum, [] => .ok (sum, [])
  | sum, c :: p =>
      if isDigitCode c then
        let sum := 10 * sum + (c.toNat - 48)
        if 2 ^ 31 ≤ sum then .error .undefined else readNumber stop sum p
      else if c = stop then .ok (sum, c :: p)
      else .error .refused

/-- The string of a reference, from the token at `pos`. -/
def columnAt (rows : Rows) (pos : Nat) (row : Int) (col : Nat) : Except Failure (List UInt8) :=
  if row < -kMaxContextSize ∨ kMaxContextSize < row ∨ int32 rows.xsize ≤ col then .error .refused
  else
    let idx := pos + row
    let r :=
      if idx < 0 then BOS[(-idx - 1).toNat]?
      else if rows.x.length ≤ idx then EOS[(idx - rows.x.length).toNat]?
      else (rows.x.getD idx.toNat [])[col]?
    -- outside of the tables and of the columns there is nothing to read
    match r with
    | some r => .ok r
    | none => .error .undefined

/-- `getIndex`: the string of the reference that a template goes on with, and where it ends. -/
def getIndex (rows : Rows) (pos : Nat) : List UInt8 → Except Failure (List UInt8 × List UInt8)
  | [] => .error .refused
  | c :: p =>
      if c ≠ '['.toUInt8 then .error .refused
      else do
        let neg := p.head? == some '-'.toUInt8
        let (row, p) ← readNumber ','.toUInt8 0 (if neg then p.tail else p)
        let (col, p) ← readNumber ']'.toUInt8 0 p.tail
        let r ← columnAt rows pos (if neg then -row else row) col
        return (r, p)

/-! ## Results -/

section Results

variable {ε α β : Type} {x : Except ε α} {b : β}

theorem bind_eq_ok {f : α → Except ε β} : x >>= f = .ok b ↔ ∃ a, x = .ok a ∧ f a = .ok b := by
  cases x with
  | error e => simp [bind, Except.bind]
  | ok a => simp [bind, Except.bind]

theorem map_eq_ok {f : α → β} : x.map f = .ok b ↔ ∃ a, x = .ok a ∧ f a = b := by
  cases x with
  | error e => simp [Except.map]
  | ok a => simp [Except.map]

end Results

/-! ## Applying -/

/-- A number ends within the template. -/
theorem length_readNumber_le {stop : UInt8} {sum v : Nat} {p p' : List UInt8}
    (h : readNumber stop sum p = .ok (v, p')) : p'.length ≤ p.length := by
  induction p generalizing sum with
  | nil =>
      rw [readNumber, Except.ok.injEq, Prod.mk.injEq] at h
      exact h.2 ▸ le_rfl
  | cons c p ih =>
      rw [readNumber] at h
      dsimp only at h
      split at h
      · split at h
        · contradiction
        · exact (ih h).trans (Nat.le_succ _)
      · split at h
        · rw [Except.ok.injEq, Prod.mk.injEq] at h
          exact h.2 ▸ le_rfl
        · contradiction

/-- What `getIndex` reads: a bracket, a sign, two numbers, and the string they refer to. -/
theorem getIndex_ok {rows : Rows} {pos : Nat} {p p' r : List UInt8}
    (h : getIndex rows pos p = .ok (r, p')) :
    ∃ (neg : Bool) (row col : Nat) (p₁ p₂ : List UInt8),
      p = '['.toUInt8 :: (if neg then ['-'.toUInt8] else []) ++ p₁ ∧
      readNumber ','.toUInt8 0 p₁ = .ok (row, p₂) ∧
      readNumber ']'.toUInt8 0 p₂.tail = .ok (col, p') ∧
      columnAt rows pos (if neg then -(row : Int) else row) col = .ok r := by
  cases p with
  | nil => contradiction
  | cons c p =>
      rw [getIndex] at h
      split at h
      next => contradiction
      next hc =>
        obtain ⟨⟨row, p₂⟩, hrow, h⟩ := bind_eq_ok.mp h
        obtain ⟨⟨col, p₃⟩, hcol, h⟩ := bind_eq_ok.mp h
        obtain ⟨r', hr, h⟩ := bind_eq_ok.mp h
        obtain ⟨rfl, rfl⟩ := Prod.mk.inj (Except.ok.inj h)
        rw [not_not] at hc
        refine ⟨_, row, col, _, p₂, ?_, hrow, hcol, hr⟩
        rw [hc]
        cases p with
        | nil => rfl
        | cons d p =>
            by_cases hd : d = '-'.toUInt8
            · rw [hd]
              rfl
            · simp [hd]

/-- A reference ends within the template. -/
theorem length_getIndex_le {rows : Rows} {pos : Nat} {p p' r : List UInt8}
    (h : getIndex rows pos p = .ok (r, p')) : p'.length ≤ p.length := by
  obtain ⟨neg, row, col, p₁, p₂, rfl, hrow, hcol, -⟩ := getIndex_ok h
  have hr := length_readNumber_le hrow
  have hc := length_readNumber_le hcol
  rw [List.length_tail] at hc
  simp only [List.length_append, List.length_cons]
  omega

/-- `applyRule`: the feature that a template is for the token at `pos`. A reference that the
terminator ends is stepped over with it, and the loop goes on behind the template. -/
def applyRule (rows : Rows) (pos : Nat) (p : List UInt8) : Except Failure (List UInt8) :=
  match p with
  | [] => .ok []
  | c :: p =>
      if c ≠ '%'.toUInt8 then (applyRule rows pos p).map (c :: ·)
      else if p.head? ≠ some 'x'.toUInt8 then .error .refused
      else
        match h : getIndex rows pos p.tail with
        | .error e => .error e
        | .ok (_, []) => .error .undefined
        | .ok (r, _ :: rest) =>
            have hlength : rest.length < p.length + 1 := by
              have hle := length_getIndex_le h
              rw [List.length_cons, List.length_tail] at hle
              omega
            (applyRule rows pos rest).map (r ++ ·)
termination_by p.length

/-! ## Numbers -/

/-- The character of a digit. -/
def digit (d : Fin 10) : UInt8 := UInt8.ofNat (48 + d.val)

/-- The number that digits spell. -/
def value (ds : List (Fin 10)) : Nat := decimal (ds.map Fin.val)

/-- The loop meets a digit, or ends in one way or the other. -/
theorem isDigitCode_digit :
    ∀ d : Fin 10, isDigitCode (digit d) = true ∧ (digit d).toNat - 48 = d.val := by
  decide

/-- Every digit is the character of one. -/
theorem eq_digit_of_isDigitCode :
    ∀ c : UInt8, isDigitCode c = true → ∃ d : Fin 10, c = digit d := by
  decide +kernel

/-- The number read so far, with one digit more. -/
theorem value_concat (pre : List (Fin 10)) (d : Fin 10) :
    value (pre ++ [d]) = 10 * value pre + d := by
  rw [value, List.map_append, List.map_singleton, decimal_concat, value, Nat.mul_comm]

theorem value_le_append (pre ds : List (Fin 10)) : value pre ≤ value (pre ++ ds) := by
  rw [value, value, List.map_append]
  exact decimal_le_append _ _

/-- A digit is added if an `int` holds the number then. -/
theorem readNumber_digit (stop : UInt8) (pre : List (Fin 10)) (d : Fin 10) (p : List UInt8) :
    readNumber stop (value pre) (digit d :: p) =
      if 2 ^ 31 ≤ value (pre ++ [d]) then .error .undefined
      else readNumber stop (value (pre ++ [d])) p := by
  obtain ⟨hdigit, hval⟩ := isDigitCode_digit d
  rw [readNumber, if_pos hdigit, hval, value_concat]

/-- Digits that spell a number that an `int` holds are read. -/
theorem readNumber_digits (stop : UInt8) (pre ds : List (Fin 10)) (p : List UInt8)
    (h : value (pre ++ ds) < 2 ^ 31) :
    readNumber stop (value pre) (ds.map digit ++ p) = readNumber stop (value (pre ++ ds)) p := by
  induction ds generalizing pre with
  | nil => rw [List.append_nil]; rfl
  | cons d ds ih =>
      have hsplit : pre ++ d :: ds = pre ++ [d] ++ ds := List.append_cons ..
      have hle := value_le_append (pre ++ [d]) ds
      rw [hsplit] at h ⊢
      rw [List.map_cons, List.cons_append, readNumber_digit, if_neg (by omega)]
      exact ih (pre ++ [d]) h

/-- What is read as a number are digits, and the end of the template or the character looked for
is behind them. -/
theorem readNumber_ok {stop : UInt8} (pre : List (Fin 10)) {p p' : List UInt8} {v : Nat}
    (h : readNumber stop (value pre) p = .ok (v, p')) :
    ∃ ds, p = ds.map digit ++ p' ∧ v = value (pre ++ ds) ∧ ∀ c ∈ p'.head?, c = stop := by
  induction p generalizing pre with
  | nil =>
      rw [readNumber, Except.ok.injEq, Prod.mk.injEq] at h
      obtain ⟨rfl, rfl⟩ := h
      exact ⟨[], rfl, by rw [List.append_nil], fun c hc => by contradiction⟩
  | cons c p ih =>
      by_cases hdigit : isDigitCode c = true
      · obtain ⟨d, rfl⟩ := eq_digit_of_isDigitCode c hdigit
        rw [readNumber_digit] at h
        split at h
        · contradiction
        · obtain ⟨ds, rfl, rfl, hstop⟩ := ih _ h
          exact ⟨d :: ds, rfl, by rw [List.append_assoc]; rfl, hstop⟩
      · rw [readNumber, if_neg hdigit] at h
        split at h
        next hc =>
          rw [Except.ok.injEq, Prod.mk.injEq] at h
          obtain ⟨rfl, rfl⟩ := h
          refine ⟨[], rfl, by rw [List.append_nil], fun b hb => ?_⟩
          rw [List.head?_cons, Option.mem_some_iff] at hb
          rw [← hb, hc]
        next => contradiction

/-! ## What templates are for -/

/-- A part of a template: a character that stands for itself, or a reference to a column of the
token so many places ahead, or behind. -/
inductive Piece where
  | lit (c : UInt8) (h : c ≠ '%'.toUInt8)
  | ref (neg : Bool) (row col : List (Fin 10))

namespace Piece

/-- How a part is written. -/
def print : Piece → List UInt8
  | lit c _ => [c]
  | ref neg row col =>
      '%'.toUInt8 :: 'x'.toUInt8 :: '['.toUInt8 :: (if neg then ['-'.toUInt8] else []) ++
        row.map digit ++ ','.toUInt8 :: col.map digit ++ [']'.toUInt8]

/-- The tokens ahead and the columns are within reach. -/
def Fits (xsize : Nat) : Piece → Prop
  | lit _ _ => True
  | ref _ row col => value row ≤ kMaxContextSize ∧ (value col : Int) < int32 xsize

/-- The column of the token at a place, which is counted on before the first and behind the last
one. -/
def textAt (x : List (List (List UInt8))) (place : Int) (col : Nat) : List UInt8 :=
  if place < 0 then bytes "_B" ++ dec place
  else if x.length ≤ place then bytes "_B+" ++ dec (place - x.length + 1)
  else (x.getD place.toNat []).getD col []

/-- What a part stands for at a token. -/
def expand (x : List (List (List UInt8))) (pos : Nat) : Piece → List UInt8
  | lit c _ => [c]
  | ref neg row col => textAt x (pos + if neg then -(value row : Int) else value row) (value col)

end Piece

/-- The tables are what is written for tokens that are not there. -/
theorem BOS_getElem? : ∀ k : Nat, k < 8 → BOS[k]? = some (bytes "_B" ++ dec (-(k : Int) - 1)) := by
  decide +kernel

theorem EOS_getElem? : ∀ k : Nat, k < 8 → EOS[k]? = some (bytes "_B+" ++ dec ((k : Int) + 1)) := by
  decide +kernel

section Columns

variable {rows : Rows} {pos : Nat}

/-- An `int` made of a size is no larger. -/
theorem int32_natCast_le (n : Nat) : int32 n ≤ n := by
  rw [int32, Int.bmod_def]
  split <;> omega

/-- References within reach have a string, whatever the text is. -/
theorem columnAt_eq (hwide : rows.Wide) (hpos : pos < rows.x.length) (row : Int) {col : Nat}
    (hlow : -kMaxContextSize ≤ row) (hhigh : row ≤ kMaxContextSize)
    (hcol : (col : Int) < int32 rows.xsize) :
    columnAt rows pos row col = .ok (Piece.textAt rows.x (pos + row) col) := by
  have hk : (kMaxContextSize : Int) = 8 := rfl
  rw [columnAt, if_neg (by omega), Piece.textAt]
  dsimp only
  by_cases hbefore : pos + row < 0
  · have hplace : -(((-(pos + row) - 1).toNat : Nat) : Int) - 1 = pos + row := by omega
    rw [if_pos hbefore, if_pos hbefore, BOS_getElem? _ (by omega), hplace]
  · rw [if_neg hbefore, if_neg hbefore]
    by_cases hbehind : rows.x.length ≤ pos + row
    · have hplace : (((pos + row - rows.x.length).toNat : Nat) : Int) =
          pos + row - rows.x.length := by omega
      rw [if_pos hbehind, if_pos hbehind, EOS_getElem? _ (by omega), hplace]
    · have hlt : (pos + row).toNat < rows.x.length := by omega
      have hmem := hwide _ (List.getElem_mem hlt)
      have hle := int32_natCast_le rows.xsize
      rw [if_neg hbehind, if_neg hbehind, List.getD_eq_getElem _ _ hlt,
        List.getD_eq_getElem _ _ (by omega), List.getElem?_eq_getElem (by omega)]

/-- References out of reach are refused. -/
theorem columnAt_ok {row : Int} {col : Nat} {r : List UInt8}
    (h : columnAt rows pos row col = .ok r) :
    -kMaxContextSize ≤ row ∧ row ≤ kMaxContextSize ∧ (col : Int) < int32 rows.xsize := by
  rw [columnAt] at h
  split at h
  · contradiction
  · omega

/-- A number ends where the character behind it stands. -/
theorem readNumber_stop (stop : UInt8) (hstop : isDigitCode stop = false) (ds : List (Fin 10))
    (h : value ds < 2 ^ 31) (p : List UInt8) :
    readNumber stop 0 (ds.map digit ++ stop :: p) = .ok (value ds, stop :: p) := by
  have hread := readNumber_digits stop [] ds (stop :: p) h
  rw [List.nil_append] at hread
  rw [show 0 = value [] from rfl, hread, readNumber, hstop]
  simp

/-- `getIndex` reads a reference that is within reach. -/
theorem getIndex_ref (hwide : rows.Wide) (hpos : pos < rows.x.length) {neg : Bool}
    {row col : List (Fin 10)} (hfits : (Piece.ref neg row col).Fits rows.xsize)
    (rest : List UInt8) :
    getIndex rows pos ('['.toUInt8 :: (if neg then ['-'.toUInt8] else []) ++
        (row.map digit ++ ','.toUInt8 :: (col.map digit ++ ']'.toUInt8 :: rest))) =
      .ok ((Piece.ref neg row col).expand rows.x pos, ']'.toUInt8 :: rest) := by
  obtain ⟨hrow, hcol⟩ := hfits
  have hk : kMaxContextSize = 8 := rfl
  have hcol31 : value col < 2 ^ 31 := by
    have hlt : int32 rows.xsize < 2 ^ 31 := by
      rw [int32, Int.bmod_def]
      split <;> omega
    omega
  have hrowread := readNumber_stop ','.toUInt8 (by decide) row (by omega)
    (col.map digit ++ ']'.toUInt8 :: rest)
  have hcolread := readNumber_stop ']'.toUInt8 (by decide) col hcol31 rest
  have hsign : ((row.map digit ++ ','.toUInt8 :: (col.map digit ++ ']'.toUInt8 :: rest)).head? ==
      some '-'.toUInt8) = false := by
    cases row with
    | nil => rfl
    | cons d row =>
        have hd : ∀ d : Fin 10, (some (digit d) == some '-'.toUInt8) = false := by decide
        exact hd d
  have hcolumn := columnAt_eq hwide hpos (if neg then -(value row : Int) else value row)
    (by split <;> omega) (by split <;> omega) hcol
  rw [Piece.expand]
  cases neg with
  | false =>
      rw [if_neg Bool.false_ne_true] at hcolumn ⊢
      rw [List.cons_append, List.nil_append, getIndex, if_neg (fun h => h rfl)]
      simp only [hsign, if_neg Bool.false_ne_true, hrowread, hcolread, hcolumn, bind, Except.bind,
        List.tail_cons, pure, Except.pure]
  | true =>
      rw [if_pos rfl] at hcolumn ⊢
      rw [List.cons_append, List.singleton_append, getIndex, if_neg (fun h => h rfl)]
      simp only [List.head?_cons, BEq.rfl, if_pos, hrowread, hcolread, hcolumn, bind, Except.bind,
        List.tail_cons, pure, Except.pure]

/-- The string of a reference is put in its place. -/
theorem applyRule_ref {p rest r : List UInt8} {c : UInt8}
    (h : getIndex rows pos p = .ok (r, c :: rest)) :
    applyRule rows pos ('%'.toUInt8 :: 'x'.toUInt8 :: p) =
      (applyRule rows pos rest).map (r ++ ·) := by
  rw [applyRule, if_neg (fun hc => hc rfl), if_neg (fun hx => hx rfl)]
  split
  next heq =>
    rw [List.tail_cons, h] at heq
    contradiction
  next heq =>
    rw [List.tail_cons, h, Except.ok.injEq, Prod.mk.injEq] at heq
    exact absurd heq.2 (List.cons_ne_nil _ _)
  next heq =>
    rw [List.tail_cons, h, Except.ok.injEq, Prod.mk.injEq, List.cons.injEq] at heq
    obtain ⟨rfl, -, rfl⟩ := heq
    rfl

/-- A template of references within reach is applied, to every token of every text: its references
are replaced by what they stand for. -/
theorem applyRule_print (hwide : rows.Wide) (hpos : pos < rows.x.length) {pieces : List Piece}
    (hfits : ∀ q ∈ pieces, q.Fits rows.xsize) :
    applyRule rows pos (pieces.flatMap Piece.print) =
      .ok (pieces.flatMap (Piece.expand rows.x pos)) := by
  induction pieces with
  | nil => rw [List.flatMap_nil, applyRule]; rfl
  | cons q pieces ih =>
      have hrest := ih fun q hq => hfits q (List.mem_cons_of_mem _ hq)
      rw [List.flatMap_cons, List.flatMap_cons]
      cases q with
      | lit c hc =>
          rw [Piece.print, List.singleton_append, applyRule, if_pos hc, hrest]
          rfl
      | ref neg row col =>
          have hindex := getIndex_ref hwide hpos (hfits _ List.mem_cons_self)
            (pieces.flatMap Piece.print)
          have hprint : (Piece.ref neg row col).print ++ pieces.flatMap Piece.print =
              '%'.toUInt8 :: 'x'.toUInt8 :: '['.toUInt8 :: (if neg then ['-'.toUInt8] else []) ++
                (row.map digit ++ ','.toUInt8 ::
                  (col.map digit ++ ']'.toUInt8 :: pieces.flatMap Piece.print)) := by
            simp [Piece.print]
          rw [hprint, List.cons_append, List.cons_append, applyRule_ref hindex, hrest]
          rfl

/-- What `getIndex` reads, if something is behind it, is a reference within reach. -/
theorem getIndex_reads_ref {p rest r : List UInt8} {c : UInt8}
    (h : getIndex rows pos p = .ok (r, c :: rest)) :
    ∃ q : Piece, '%'.toUInt8 :: 'x'.toUInt8 :: p = q.print ++ rest ∧ q.Fits rows.xsize := by
  obtain ⟨neg, row, col, p₁, p₂, rfl, hrow, hcol, hcolumn⟩ := getIndex_ok h
  obtain ⟨rowDigits, rfl, rfl, hcomma⟩ := readNumber_ok [] hrow
  obtain ⟨colDigits, hp₂, rfl, hclose⟩ := readNumber_ok [] hcol
  rw [List.nil_append] at hcolumn
  obtain ⟨hlow, hhigh, hfits⟩ := columnAt_ok hcolumn
  have hc := hclose c rfl
  cases p₂ with
  | nil =>
      rw [List.tail_nil] at hp₂
      exact absurd hp₂.symm (List.append_ne_nil_of_right_ne_nil _ (List.cons_ne_nil _ _))
  | cons d p₂ =>
      have hd := hcomma d rfl
      rw [List.tail_cons] at hp₂
      refine ⟨.ref neg rowDigits colDigits, ?_, ?_, hfits⟩
      · simp [Piece.print, hp₂, hc, hd]
      · split at hlow
        · omega
        next hneg =>
          rw [if_neg hneg] at hhigh
          omega

/-- A reference that is applied has been read, and so has the rest. -/
theorem applyRule_ref_ok {p s : List UInt8}
    (h : applyRule rows pos ('%'.toUInt8 :: 'x'.toUInt8 :: p) = .ok s) :
    ∃ r c rest s', getIndex rows pos p = .ok (r, c :: rest) ∧ applyRule rows pos rest = .ok s' := by
  rw [applyRule, if_neg (fun hc => hc rfl), if_neg (fun hx => hx rfl)] at h
  split at h
  next => contradiction
  next => contradiction
  next r c rest hindex =>
    obtain ⟨s', hs', -⟩ := map_eq_ok.mp h
    exact ⟨r, c, rest, s', hindex, hs'⟩

/-- A template that is applied to a token is made of references within reach. -/
theorem exists_pieces_of_applyRule {p s : List UInt8} (h : applyRule rows pos p = .ok s) :
    ∃ pieces : List Piece, p = pieces.flatMap Piece.print ∧ ∀ q ∈ pieces, q.Fits rows.xsize := by
  induction hn : p.length using Nat.strong_induction_on generalizing p s with
  | _ n ih =>
      subst hn
      cases p with
      | nil => exact ⟨[], rfl, fun q hq => absurd hq List.not_mem_nil⟩
      | cons c p =>
          by_cases hc : c ≠ '%'.toUInt8
          · rw [applyRule, if_pos hc] at h
            obtain ⟨s', hs', -⟩ := map_eq_ok.mp h
            obtain ⟨pieces, rfl, hfits⟩ := ih _ (Nat.lt_succ_self _) hs' rfl
            exact ⟨.lit c hc :: pieces, rfl, List.forall_mem_cons.mpr ⟨trivial, hfits⟩⟩
          · by_cases hx : p.head? = some 'x'.toUInt8
            · obtain ⟨p', rfl⟩ := List.head?_eq_some_iff.mp hx
              rw [not_not.mp hc] at h
              obtain ⟨r, d, rest, s', hindex, hs'⟩ := applyRule_ref_ok h
              have hle := length_getIndex_le hindex
              rw [List.length_cons] at hle
              obtain ⟨pieces, rfl, hfits⟩ := ih rest.length
                (by simp only [List.length_cons]; omega) hs' rfl
              obtain ⟨q, hq, hqfits⟩ := getIndex_reads_ref hindex
              refine ⟨q :: pieces, ?_, List.forall_mem_cons.mpr ⟨hqfits, hfits⟩⟩
              rw [not_not.mp hc, hq]
              rfl
            · rw [applyRule, if_neg hc, if_pos hx] at h
              contradiction

/-- The templates that are applied are those of references within reach, and what is made of them
is what they stand for. It depends on neither the token nor the text whether one is applied. -/
theorem applyRule_eq_ok_iff (hwide : rows.Wide) (hpos : pos < rows.x.length) (p s : List UInt8) :
    applyRule rows pos p = .ok s ↔
      ∃ pieces : List Piece, p = pieces.flatMap Piece.print ∧
        (∀ q ∈ pieces, q.Fits rows.xsize) ∧ s = pieces.flatMap (Piece.expand rows.x pos) := by
  constructor
  · intro h
    obtain ⟨pieces, rfl, hfits⟩ := exists_pieces_of_applyRule h
    rw [applyRule_print hwide hpos hfits, Except.ok.injEq] at h
    exact ⟨pieces, rfl, hfits, h.symm⟩
  · rintro ⟨pieces, rfl, hfits, rfl⟩
    exact applyRule_print hwide hpos hfits

end Columns

/-- A template with the token before and the token itself. -/
theorem applyRule_bagga :
    applyRule ⟨1, [[bytes "Bagga"]]⟩ 0 (bytes "U01:%x[-1,0]/%x[0,0]") =
      .ok (bytes "U01:_B-1/Bagga") := by
  have hwide : (Rows.mk 1 [[bytes "Bagga"]]).Wide := by
    rw [Rows.Wide, List.forall_mem_singleton]
    exact le_rfl
  refine (applyRule_eq_ok_iff hwide (by decide) _ _).mpr
    ⟨[.lit 'U'.toUInt8 (by decide), .lit '0'.toUInt8 (by decide), .lit '1'.toUInt8 (by decide),
      .lit ':'.toUInt8 (by decide), .ref true [1] [0], .lit '/'.toUInt8 (by decide),
      .ref false [0] [0]], by decide +kernel, ?_, by decide +kernel⟩
  simp only [List.forall_mem_cons, Piece.Fits, true_and]
  exact ⟨by decide +kernel, by decide +kernel, fun q hq => absurd hq List.not_mem_nil⟩

end CiteParser.Crf
