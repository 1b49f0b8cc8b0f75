import CiteParser.Store.Tokens

/-!
# Sequences of pushes

The packed stack under any sequence of `tokenPush`. The room test of `tokenPush` looks at the
stack without the id it is going to add, so there is one stack that it lets overflow: the word
214748364, on which every id from 16 on wraps around.
-/

namespace CiteParser

/-- A sequence of pushes: the ids that were accepted, in their order, and the stack. -/
def pushAll (tp : UInt32) : List Nat → List Nat × UInt32
  | [] => ([], tp)
  | id :: ids =>
      let rest := pushAll (tokenPush tp id).2 ids
      (if (tokenPush tp id).1 = 1 then id :: rest.1 else rest.1, rest.2)

/-- `n` calls of `tokenPop`: what they return, and the stack they leave. -/
def popTimes : Nat → UInt32 → List Nat × UInt32
  | 0, tp => ([], tp)
  | n + 1, tp =>
      let rest := popTimes n (tokenPop tp).2
      ((tokenPop tp).1 :: rest.1, rest.2)

/-- More on top never makes the word smaller. -/
theorem word_le_append (above stack : List Nat) :
    Nat.ofDigits TOKEN_MAX_LEN stack ≤ Nat.ofDigits TOKEN_MAX_LEN (above ++ stack) := by
  induction above with
  | nil => exact le_rfl
  | cons id above ih =>
      rw [List.cons_append, word_cons]
      omega

namespace Fits

variable {stack : List Nat} {id : Nat}

/-- Whatever happens, the stack is no higher than what was accepted accounts for. -/
theorem pushAll (h : Fits stack) {ids : List Nat} (hids : ∀ id ∈ ids, IsId id) :
    ∃ left, Fits left ∧ (pushAll (pack stack) ids).2 = pack left ∧
      left.length ≤ (CiteParser.pushAll (pack stack) ids).1.length + stack.length := by
  induction ids generalizing stack with
  | nil => exact ⟨stack, h, rfl, Nat.le_add_left _ _⟩
  | cons id ids ih =>
      obtain ⟨hid, htail⟩ := List.forall_mem_cons.mp hids
      rcases h.tokenPush_cases hid with
        ⟨_, hp⟩ | ⟨_, hfits, _, hp⟩ | ⟨_, _, low, hfits, hlen, _, hp⟩
      · obtain ⟨left, hleft, heq, hle⟩ := ih h htail
        exact ⟨left, hleft, by simpa [CiteParser.pushAll, hp] using heq,
          by simpa [CiteParser.pushAll, hp] using hle⟩
      · obtain ⟨left, hleft, heq, hle⟩ := ih hfits htail
        refine ⟨left, hleft, by simpa [CiteParser.pushAll, hp] using heq, ?_⟩
        simp [CiteParser.pushAll, hp] at hle ⊢
        omega
      · obtain ⟨left, hleft, heq, hle⟩ := ih hfits htail
        refine ⟨left, hleft, by simpa [CiteParser.pushAll, hp] using heq, ?_⟩
        simp [CiteParser.pushAll, hp] at hle ⊢
        omega

end Fits

/-- Some push finds the brim stack and adds an id from 16 on to it. -/
def Overflows (stack ids : List Nat) : Prop :=
  ∃ pushed id rest, ids = pushed ++ id :: rest ∧ 16 ≤ id ∧ pushed.reverse ++ stack = brimStack

/-- From the empty stack there is one way to the brim. -/
theorem overflows_nil_iff {ids : List Nat} :
    Overflows [] ids ↔ ∃ id rest, 16 ≤ id ∧ ids = [3, 7, 2, 3, 10, 18, 4] ++ id :: rest := by
  constructor
  · rintro ⟨pushed, id, rest, rfl, hid, hbrim⟩
    rw [List.append_nil, List.reverse_eq_iff] at hbrim
    exact ⟨id, rest, hid, by rw [hbrim]; rfl⟩
  · rintro ⟨id, rest, hid, rfl⟩
    exact ⟨[3, 7, 2, 3, 10, 18, 4], id, rest, rfl, hid, rfl⟩

/-- A push that goes on top leaves the question to the pushes after it. -/
theorem overflows_cons_iff {stack ids : List Nat} {id : Nat}
    (h : ¬ (stack = brimStack ∧ 16 ≤ id)) :
    Overflows stack (id :: ids) ↔ Overflows (id :: stack) ids := by
  constructor
  · rintro ⟨pushed, id', rest, heq, hge, hbrim⟩
    cases pushed with
    | nil =>
        obtain ⟨rfl, rfl⟩ := List.cons.inj heq
        exact absurd ⟨hbrim, hge⟩ h
    | cons top pushed =>
        obtain ⟨rfl, rfl⟩ := List.cons.inj heq
        exact ⟨pushed, id', rest, rfl, hge, by simpa using hbrim⟩
  · rintro ⟨pushed, id', rest, rfl, hge, hbrim⟩
    exact ⟨id :: pushed, id', rest, rfl, hge, by simpa using hbrim⟩

/-- A stack above the brim never gets back to it. -/
theorem not_overflows {stack : List Nat} (h : 214748364 < Nat.ofDigits TOKEN_MAX_LEN stack)
    (ids : List Nat) : ¬ Overflows stack ids := by
  rintro ⟨pushed, id, rest, _, _, hbrim⟩
  have hle := word_le_append pushed.reverse stack
  have hval : Nat.ofDigits TOKEN_MAX_LEN brimStack = 214748364 := by decide
  rw [hbrim] at hle
  omega

/-- The pushes that do not overflow stand on the stack, and nothing else does; one that does
loses the ids below it for good. -/
theorem pushAll_cases {stack : List Nat} (h : Fits stack) {ids : List Nat}
    (hids : ∀ id ∈ ids, IsId id) :
    (¬ Overflows stack ids ∧ Fits ((pushAll (pack stack) ids).1.reverse ++ stack) ∧
      (pushAll (pack stack) ids).2 = pack ((pushAll (pack stack) ids).1.reverse ++ stack)) ∨
    (Overflows stack ids ∧ ∃ left, Fits left ∧ (pushAll (pack stack) ids).2 = pack left ∧
      left.length < (pushAll (pack stack) ids).1.length + stack.length) := by
  induction ids generalizing stack with
  | nil =>
      refine .inl ⟨?_, h, rfl⟩
      rintro ⟨pushed, id, rest, heq, _, _⟩
      exact absurd heq (by simp)
  | cons id ids ih =>
      obtain ⟨hid, htail⟩ := List.forall_mem_cons.mp hids
      rcases h.tokenPush_cases hid with
        ⟨hfull, hp⟩ | ⟨_, hfits, hno, hp⟩ | ⟨hbrim, hge, low, hfits, hlen, _, hp⟩
      · -- refused, and so is everything after it
        rcases ih h htail with ⟨_, hall, heq⟩ | ⟨hover, _⟩
        · refine .inl ⟨not_overflows hfull _, ?_, ?_⟩
          · simpa [pushAll, hp] using hall
          · simpa [pushAll, hp] using heq
        · exact absurd hover (not_overflows hfull ids)
      · rw [overflows_cons_iff hno]
        rcases ih hfits htail with ⟨hover, hall, heq⟩ | ⟨hover, left, hleft, heq, hlt⟩
        · refine .inl ⟨hover, ?_, ?_⟩
          · simpa [pushAll, hp] using hall
          · simpa [pushAll, hp] using heq
        · refine .inr ⟨hover, left, hleft, by simpa [pushAll, hp] using heq, ?_⟩
          simp [pushAll, hp] at hlt ⊢
          omega
      · obtain ⟨left, hleft, heq, hle⟩ := hfits.pushAll htail
        refine .inr ⟨⟨[], id, ids, rfl, hge, hbrim⟩, left, hleft,
          by simpa [pushAll, hp] using heq, ?_⟩
        have hseven : stack.length = 7 := by rw [hbrim]; rfl
        simp [pushAll, hp]
        omega

/-- Popping as often as there are ids gives them back and empties the stack. -/
theorem popTimes_pack {stack : List Nat} (h : Fits stack) :
    popTimes stack.length (pack stack) = (stack, 0) := by
  induction stack with
  | nil => rfl
  | cons id stack ih => simp only [List.length_cons, popTimes, h.tokenPop, ih h.tail]

/-- Popping more often gives a 0. -/
theorem zero_mem_popTimes {stack : List Nat} (h : Fits stack) {n : Nat} (hn : stack.length < n) :
    0 ∈ (popTimes n (pack stack)).1 := by
  induction stack generalizing n with
  | nil =>
      obtain ⟨n, rfl⟩ : ∃ m, n = m + 1 := ⟨n - 1, by omega⟩
      exact List.mem_cons_self
  | cons id stack ih =>
      obtain ⟨n, rfl⟩ : ∃ m, n = m + 1 := ⟨n - 1, by omega⟩
      rw [List.length_cons, Nat.add_lt_add_iff_right] at hn
      simp only [popTimes, h.tokenPop]
      exact List.mem_cons_of_mem _ (ih h.tail hn)

/-- Only ids that were offered are accepted. -/
theorem mem_of_mem_pushAll {tp : UInt32} {ids : List Nat} {id : Nat}
    (h : id ∈ (pushAll tp ids).1) : id ∈ ids := by
  induction ids generalizing tp with
  | nil => exact h
  | cons top ids ih =>
      simp only [pushAll] at h
      split at h
      · rcases List.mem_cons.mp h with rfl | h
        · exact List.mem_cons_self
        · exact List.mem_cons_of_mem _ (ih h)
      · exact List.mem_cons_of_mem _ (ih h)

/-- The accepted ids come back, the last one first, and leave the word 0, unless an id from 16
on follows the seven ids of the brim stack. -/
theorem token_stack_iff {ids : List Nat} (hids : ∀ id ∈ ids, IsId id) :
    popTimes (pushAll 0 ids).1.length (pushAll 0 ids).2 = ((pushAll 0 ids).1.reverse, 0) ↔
      ¬ ∃ id rest, 16 ≤ id ∧ ids = [3, 7, 2, 3, 10, 18, 4] ++ id :: rest := by
  have hcases := pushAll_cases Fits.nil hids
  rw [show pack [] = 0 from rfl, overflows_nil_iff] at hcases
  rcases hcases with ⟨hno, hall, heq⟩ | ⟨hover, left, hleft, heq, hlt⟩
  · have hpop := popTimes_pack hall
    rw [← heq, List.append_nil, List.length_reverse] at hpop
    exact iff_of_true hpop hno
  · apply iff_of_false _ (not_not.mpr hover)
    intro hpop
    have hzero := zero_mem_popTimes hleft hlt
    rw [← heq, List.length_nil, Nat.add_zero, hpop] at hzero
    exact absurd (hids 0 (mem_of_mem_pushAll (List.mem_reverse.mp hzero))).1 (by decide)

/-- Six ids of the table come back. -/
theorem token_stack_six :
    popTimes (pushAll 0 [1, 3, 17, 2, 16, 19]).1.length (pushAll 0 [1, 3, 17, 2, 16, 19]).2 =
      ((pushAll 0 [1, 3, 17, 2, 16, 19]).1.reverse, 0) :=
  (token_stack_iff (by simp [IsId, TOKEN_MAX_LEN])).mpr (by simp)

/-- Eight ids, all of them accepted, of which nothing is left. -/
theorem token_stack_overflow :
    (∀ id ∈ [3, 7, 2, 3, 10, 18, 4, 16], IsId id) ∧
      pushAll 0 [3, 7, 2, 3, 10, 18, 4, 16] = ([3, 7, 2, 3, 10, 18, 4, 16], 0) ∧
      popTimes 8 (pushAll 0 [3, 7, 2, 3, 10, 18, 4, 16]).2 = ([0, 0, 0, 0, 0, 0, 0, 0], 0) := by
  refine ⟨?_, ?_, ?_⟩
  · simp [IsId, TOKEN_MAX_LEN]
  · decide
  · decide

end CiteParser
