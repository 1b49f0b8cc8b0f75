import CiteParser.Core.CString
import Mathlib.Data.Nat.Digits.Defs

/-!
# The token table

`tokens.c`: the names that `tokenInit` reads from `token.ini`, each under its id, and the
stack of ids that is packed into the base-20 digits of one `unsigned int`.
-/

namespace CiteParser

def TOKEN_MAX_LEN : Nat := 20

/-- `struct tokens`: the name in each slot, empty until one is registered there. -/
structure TokenRepo where
  tokens : Nat → List UInt8
  ac : Nat → Bool

/-- The zero-initialised table. -/
def TokenRepo.empty : TokenRepo := ⟨fun _ => [], fun _ => false⟩

/-- `doTokenInit` on an entry of the section `tokens`: ids from 20 on are refused. -/
def doTokenInit (repo : TokenRepo) (name : List UInt8) (id : Nat) : TokenRepo :=
  if TOKEN_MAX_LEN - 1 < id then repo
  else
    ⟨fun i => if i = id then name else repo.tokens i, fun i => if i = id then true else repo.ac i⟩

/-- `tokenInit` on the entries of the section, in the order of the file. -/
def tokenInit (entries : List (List UInt8 × Nat)) : TokenRepo :=
  entries.foldl (fun repo e => doTokenInit repo e.1 e.2) .empty

/-- The section `tokens` of `token.ini`. -/
def tokenIni : List (List UInt8 × Nat) :=
  [("RefA", 1), ("SinRef", 2), ("author", 3), ("booktitle", 4), ("date", 5), ("editor", 6),
    ("institution", 7), ("journal", 8), ("location", 9), ("note", 10), ("pages", 11),
    ("publisher", 12), ("tech", 13), ("title", 14), ("volume", 15), ("url", 16),
    ("isbn", 17)].map fun e => (bytes e.1, e.2)

/-- `id2Token` of an id that the table has a cell for, `none` for NULL. -/
def id2Token (repo : TokenRepo) (id : Fin TOKEN_MAX_LEN) : Option (List UInt8) :=
  if repo.ac id then some (repo.tokens id) else none

/-- The first slot that holds a name, 0 if none does. -/
def token2Id (repo : TokenRepo) (token : List UInt8) : Nat :=
  ((List.range TOKEN_MAX_LEN).find? fun i => repo.tokens i == token).getD 0

/-- `tokenPush(&tp, id)`: the value returned and the stack after the call. The arithmetic
is that of a 32-bit `unsigned int`. -/
def tokenPush (tp : UInt32) (id : Nat) : Int × UInt32 :=
  if id = 0 ∨ TOKEN_MAX_LEN < id then (-2, tp)
  else if (0xffffffff : UInt32) / 20 < tp then (-1, tp)
  else (1, tp * 20 + UInt32.ofNat id)

/-- `tokenPop(&tp)`: the id popped and the stack after the call. -/
def tokenPop (tp : UInt32) : Nat × UInt32 := ((tp % 20).toNat, tp / 20)

/-- The ids that repeated popping gives before the first 0, at most `n` of them. -/
def popAll : Nat → UInt32 → List Nat
  | 0, _ => []
  | n + 1, tp => if (tokenPop tp).1 = 0 then [] else (tokenPop tp).1 :: popAll n (tokenPop tp).2

/-- Ids that `doTokenInit` accepts; 0 stands for no element. -/
def IsId (id : Nat) : Prop := 0 < id ∧ id < TOKEN_MAX_LEN

/-- The word that a stack is packed into: its base-20 digits, the top lowest. -/
def pack (stack : List Nat) : UInt32 := UInt32.ofNat (Nat.ofDigits TOKEN_MAX_LEN stack)

/-- A stack of ids is below the power of the base that its height gives. -/
theorem ofDigits_lt {stack : List Nat} (hids : ∀ id ∈ stack, IsId id) {n : Nat}
    (hlen : stack.length ≤ n) : Nat.ofDigits TOKEN_MAX_LEN stack < TOKEN_MAX_LEN ^ n := by
  apply lt_of_lt_of_le
  · exact Nat.ofDigits_lt_base_pow_length (by decide) fun id hid => (hids id hid).2
  · exact Nat.pow_le_pow_right (by decide) hlen

/-- The stack that passes the room test and has no room for every id, its top first. -/
def brimStack : List Nat := [4, 18, 10, 3, 2, 7, 3]

theorem word_cons (id : Nat) (stack : List Nat) :
    Nat.ofDigits TOKEN_MAX_LEN (id :: stack) = id + 20 * Nat.ofDigits TOKEN_MAX_LEN stack :=
  Nat.ofDigits_cons

/-- No other stack of ids has the word of the brim stack. -/
theorem eq_brimStack {stack : List Nat} (hids : ∀ id ∈ stack, IsId id)
    (h : Nat.ofDigits TOKEN_MAX_LEN stack = 214748364) : stack = brimStack := by
  have hdigits : Nat.digits TOKEN_MAX_LEN (Nat.ofDigits TOKEN_MAX_LEN stack) = stack := by
    apply Nat.digits_ofDigits _ (by decide)
    · exact fun id hid => (hids id hid).2
    · exact fun hne => (hids _ (List.getLast_mem hne)).1.ne'
  rw [← hdigits, h, TOKEN_MAX_LEN, brimStack]
  norm_num

/-- The ids of a stack fit the word that they are packed into. -/
structure Fits (stack : List Nat) : Prop where
  isId : ∀ id ∈ stack, IsId id
  lt : Nat.ofDigits TOKEN_MAX_LEN stack < 2 ^ 32

/-- Up to seven ids fit the word. -/
theorem fits_of_length_le {stack : List Nat} (hids : ∀ id ∈ stack, IsId id)
    (hlen : stack.length ≤ 7) : Fits stack :=
  ⟨hids, (ofDigits_lt hids hlen).trans (by decide)⟩

namespace Fits

variable {stack : List Nat} {id : Nat}

/-- The empty stack is the word 0. -/
theorem nil : Fits [] := ⟨fun _ h => absurd h List.not_mem_nil, by decide⟩

/-- A stack that fits is read from its word. -/
theorem toNat_pack (h : Fits stack) :
    (pack stack).toNat = Nat.ofDigits TOKEN_MAX_LEN stack :=
  UInt32.toNat_ofNat_of_lt h.lt

/-- What is below the top fits as well. -/
theorem tail (h : Fits (id :: stack)) : Fits stack where
  isId := (List.forall_mem_cons.mp h.isId).2
  lt := by
    have hlt := h.lt
    rw [Nat.ofDigits_cons, TOKEN_MAX_LEN] at hlt
    rw [TOKEN_MAX_LEN]
    omega

/-- So does what is left below any number of ids. -/
theorem drop (h : Fits stack) (n : Nat) : Fits (stack.drop n) := by
  induction n generalizing stack with
  | zero => exact h
  | succ n ih =>
      cases stack with
      | nil => exact nil
      | cons id stack => exact ih h.tail

/-- A pop takes the top off again. -/
theorem tokenPop (h : Fits (id :: stack)) : tokenPop (pack (id :: stack)) = (id, pack stack) := by
  have hlt := (h.isId id List.mem_cons_self).2
  have hval := h.toNat_pack
  rw [Nat.ofDigits_cons] at hval
  rw [CiteParser.tokenPop, Prod.mk.injEq, ← UInt32.toNat_inj, UInt32.toNat_mod,
    UInt32.toNat_div, hval, h.tail.toNat_pack]
  exact ⟨(Nat.add_mul_mod_self_left id TOKEN_MAX_LEN _).trans (Nat.mod_eq_of_lt hlt),
    (Nat.add_mul_div_left id _ (by decide)).trans (by rw [Nat.div_eq_of_lt hlt, Nat.zero_add])⟩

/-- An id that a pop gives was on top. -/
theorem eq_cons_of_tokenPop (h : Fits stack) (hid : 0 < id)
    (hpop : id = (CiteParser.tokenPop (pack stack)).1) :
    ∃ below, stack = id :: below ∧ (CiteParser.tokenPop (pack stack)).2 = pack below := by
  cases stack with
  | nil =>
      have hzero : (CiteParser.tokenPop (pack [])).1 = 0 := rfl
      omega
  | cons top below =>
      rw [h.tokenPop] at hpop ⊢
      exact ⟨below, by rw [hpop], rfl⟩

/-- Popping gives the stack back, top first, if it may go on long enough. -/
theorem popAll_of_lt (h : Fits stack) {n : Nat}
    (hn : Nat.ofDigits TOKEN_MAX_LEN stack < TOKEN_MAX_LEN ^ n) :
    popAll n (pack stack) = stack := by
  induction n generalizing stack with
  | zero =>
      cases stack with
      | nil => rfl
      | cons id stack =>
          have hpos := (h.isId id List.mem_cons_self).1
          rw [Nat.ofDigits_cons, Nat.pow_zero] at hn
          omega
  | succ n ih =>
      cases stack with
      | nil => rfl
      | cons id stack =>
          have hpos := (h.isId id List.mem_cons_self).1
          have hlow : Nat.ofDigits TOKEN_MAX_LEN stack < TOKEN_MAX_LEN ^ n := by
            rw [Nat.ofDigits_cons, Nat.pow_succ, Nat.mul_comm _ TOKEN_MAX_LEN] at hn
            exact Nat.lt_of_mul_lt_mul_left (Nat.lt_of_le_of_lt (Nat.le_add_left _ id) hn)
          rw [popAll, h.tokenPop, if_neg (Nat.ne_of_gt hpos), ih h.tail hlow]

/-- Eight pops are always enough. -/
theorem popAll (h : Fits stack) : popAll 8 (pack stack) = stack :=
  h.popAll_of_lt (h.lt.trans (by decide))

/-- What a push does: refuse, put the id on top, or wrap around on the brim stack. -/
theorem tokenPush_cases (h : Fits stack) (hid : IsId id) :
    (214748364 < Nat.ofDigits TOKEN_MAX_LEN stack ∧
      CiteParser.tokenPush (pack stack) id = (-1, pack stack)) ∨
    (Nat.ofDigits TOKEN_MAX_LEN stack ≤ 214748364 ∧ Fits (id :: stack) ∧
      ¬ (stack = brimStack ∧ 16 ≤ id) ∧
      CiteParser.tokenPush (pack stack) id = (1, pack (id :: stack))) ∨
    (stack = brimStack ∧ 16 ≤ id ∧ ∃ left, Fits left ∧ left.length ≤ 1 ∧
      id ∉ left ∧ CiteParser.tokenPush (pack stack) id = (1, pack left)) := by
  obtain ⟨hpos, hlt⟩ := hid
  rw [TOKEN_MAX_LEN] at hlt
  have hval := h.toNat_pack
  have hword : pack stack * 20 + UInt32.ofNat id = pack (id :: stack) := by
    rw [pack, pack, Nat.ofDigits_cons, UInt32.ofNat_add, UInt32.ofNat_mul,
      UInt32.add_comm, UInt32.mul_comm]
    rfl
  have hcall : CiteParser.tokenPush (pack stack) id =
      if 214748364 < Nat.ofDigits TOKEN_MAX_LEN stack then (-1, pack stack)
      else (1, pack (id :: stack)) := by
    rw [CiteParser.tokenPush, if_neg (by rw [TOKEN_MAX_LEN]; omega), hword]
    simp only [UInt32.lt_iff_toNat_lt, hval,
      show ((0xffffffff : UInt32) / 20).toNat = 214748364 from rfl]
  have hdigits := word_cons id stack
  by_cases hfull : 214748364 < Nat.ofDigits TOKEN_MAX_LEN stack
  · exact .inl ⟨hfull, by rw [hcall, if_pos hfull]⟩
  · rw [hcall, if_neg hfull]
    right
    by_cases hroom : Nat.ofDigits TOKEN_MAX_LEN (id :: stack) < 2 ^ 32
    · refine .inl ⟨by omega, ⟨?_, hroom⟩, ?_, rfl⟩
      · exact List.forall_mem_cons.mpr ⟨⟨hpos, hlt⟩, h.isId⟩
      · rintro ⟨rfl, hge⟩
        have hbrim : Nat.ofDigits TOKEN_MAX_LEN brimStack = 214748364 := by decide
        omega
    · -- the word is the little that the id has too much
      have hwrap : pack (id :: stack) = UInt32.ofNat (id - 16) := by
        rw [pack, ← UInt32.toNat_inj, UInt32.toNat_ofNat', UInt32.toNat_ofNat']
        omega
      refine .inr ⟨eq_brimStack h.isId (by omega), by omega, ?_⟩
      rw [hwrap]
      rcases Nat.eq_zero_or_pos (id - 16) with hzero | hsmall
      · exact ⟨[], nil, Nat.zero_le _, List.not_mem_nil, by rw [hzero]; rfl⟩
      · have hone : Nat.ofDigits TOKEN_MAX_LEN [id - 16] = id - 16 := Nat.ofDigits_singleton
        refine ⟨[id - 16], ⟨?_, by rw [hone]; omega⟩, le_rfl, ?_, by rw [pack, hone]⟩
        · exact List.forall_mem_singleton.mpr ⟨hsmall, by rw [TOKEN_MAX_LEN]; omega⟩
        · rw [List.mem_singleton]
          omega

/-- A push puts the id on top, is refused, or wraps to a word that does not hold the id. -/
theorem tokenPush (h : Fits stack) (hid : IsId id) :
    ∃ stack', Fits stack' ∧ (tokenPush (pack stack) id).2 = pack stack' ∧
      (stack' = id :: stack ∨ stack' = stack ∨ id ∉ stack') := by
  rcases h.tokenPush_cases hid with
    ⟨_, hp⟩ | ⟨_, hfits, _, hp⟩ | ⟨_, _, left, hfits, _, hnot, hp⟩
  · exact ⟨stack, h, by rw [hp], .inr (.inl rfl)⟩
  · exact ⟨id :: stack, hfits, by rw [hp], .inl rfl⟩
  · exact ⟨left, hfits, by rw [hp], .inr (.inr hnot)⟩

end Fits

/-- A push on at most six ids is accepted and puts the id on top. -/
theorem tokenPush_pack {stack : List Nat} {id : Nat} (hids : ∀ k ∈ id :: stack, IsId k)
    (hlen : stack.length < 7) : tokenPush (pack stack) id = (1, pack (id :: stack)) := by
  obtain ⟨hid, hstack⟩ := List.forall_mem_cons.mp hids
  rcases (fits_of_length_le hstack hlen.le).tokenPush_cases hid with
    ⟨hfull, _⟩ | ⟨_, _, _, hp⟩ | ⟨rfl, _⟩
  · have hlow : Nat.ofDigits TOKEN_MAX_LEN stack < TOKEN_MAX_LEN ^ 6 :=
      ofDigits_lt hstack (Nat.le_of_lt_succ hlen)
    rw [TOKEN_MAX_LEN] at hlow hfull
    omega
  · exact hp
  · exact absurd hlen (by decide)

end CiteParser
