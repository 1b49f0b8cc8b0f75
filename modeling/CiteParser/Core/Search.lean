import Mathlib.Data.List.Infix

/-!
# The first occurrence of a word

`findFirst` is the search a string library offers; `FirstAt` says what it finds. Whether a
word occurs first at an offset is decided by the text up to its end, so a search repeated
while the text is still growing finds what a search of the whole text finds.
-/

namespace CiteParser

variable {α : Type*}

/-- The word stands at offset `p` of the text and at no offset before. -/
def FirstAt (word text : List α) (p : Nat) : Prop :=
  word <+: text.drop p ∧ ∀ q, q < p → ¬ word <+: text.drop q

/-- The word occurs nowhere in the text. -/
def Nowhere (word text : List α) : Prop := ∀ q, ¬ word <+: text.drop q

/-- There is only one first occurrence. -/
theorem FirstAt.unique {word text : List α} {p q : Nat} (hp : FirstAt word text p)
    (hq : FirstAt word text q) : p = q := by
  rcases Nat.lt_trichotomy p q with hlt | heq | hgt
  · exact absurd hp.1 (hq.2 p hlt)
  · exact heq
  · exact absurd hq.1 (hp.2 q hgt)

/-- An occurrence ends inside the text. -/
theorem FirstAt.le_length {word text : List α} {p : Nat} (h : FirstAt word text p)
    (hword : word ≠ []) : p + word.length ≤ text.length := by
  have hlen := h.1.length_le
  have hpos := List.length_pos_of_ne_nil hword
  rw [List.length_drop] at hlen
  omega

/-- What follows the end of a word does not matter for the word. -/
theorem prefix_drop_append_iff {word text : List α} {p : Nat} (more : List α)
    (h : p + word.length ≤ text.length) :
    word <+: (text ++ more).drop p ↔ word <+: text.drop p := by
  rw [List.drop_append_of_le_length (by omega), List.isPrefix_append_of_length]
  rw [List.length_drop]
  omega

/-- What follows the end of a first occurrence does not matter for it. -/
theorem firstAt_append_iff {word text : List α} {p : Nat} (more : List α)
    (h : p + word.length ≤ text.length) :
    FirstAt word (text ++ more) p ↔ FirstAt word text p := by
  unfold FirstAt
  rw [prefix_drop_append_iff more h]
  refine and_congr_right fun _ => forall_congr' fun q => ?_
  constructor
  · intro hq hlt
    rw [← prefix_drop_append_iff more (by omega)]
    exact hq hlt
  · intro hq hlt
    rw [prefix_drop_append_iff more (by omega)]
    exact hq hlt

/-- A word occurs in front of another of its kind if it ends one of them and begins the other. -/
theorem prefix_append_word_iff {word text : List α} (hshort : text.length < word.length) :
    word <+: text ++ word ↔ text = word.take text.length ∧ word.drop text.length <+: word := by
  constructor
  · rintro ⟨more, hmore⟩
    rw [List.append_eq_append_iff] at hmore
    rcases hmore with ⟨rest, htext, -⟩ | ⟨rest, hword, hrest⟩
    · have hlen := congrArg List.length htext
      rw [List.length_append] at hlen
      omega
    · have hdrop : word.drop text.length = rest := by
        conv_lhs => rw [hword]
        exact List.drop_left
      have htake : word.take text.length = text := by
        conv_lhs => rw [hword]
        exact List.take_left
      exact ⟨htake.symm, hdrop ▸ ⟨more, hrest.symm⟩⟩
  · rintro ⟨htext, hborder⟩
    obtain ⟨more, hmore⟩ := hborder
    refine ⟨more, ?_⟩
    calc word ++ more
        = word.take text.length ++ word.drop text.length ++ more := by
          rw [List.take_append_drop]
      _ = text ++ word := by rw [List.append_assoc, hmore, ← htext]

/-- Behind a text a word comes first where it has been put, unless it occurs in the text before or
the end of the text and the beginning of the word make up another one. -/
theorem firstAt_append_word_iff {word text : List α} (hword : word ≠ []) :
    FirstAt word (text ++ word) text.length ↔ Nowhere word text ∧
      ∀ k, 0 < k → k < word.length → word.take k <:+ text → ¬ word.drop k <+: word := by
  have hpos := List.length_pos_of_ne_nil hword
  constructor
  · rintro ⟨-, hbefore⟩
    refine ⟨fun q hq => ?_, fun k hpos hk hsuffix hborder => ?_⟩
    · have hlen := hq.length_le
      rw [List.length_drop] at hlen
      exact hbefore q (by omega) ((prefix_drop_append_iff word (by omega)).mpr hq)
    · obtain ⟨front, rfl⟩ := hsuffix
      have hlen : (word.take k).length = k := List.length_take_of_le hk.le
      refine hbefore front.length (by rw [List.length_append]; omega) ?_
      rw [List.append_assoc, List.drop_left, prefix_append_word_iff (by omega), hlen]
      exact ⟨rfl, hborder⟩
  · rintro ⟨hnowhere, hborders⟩
    refine ⟨by rw [List.drop_left], fun q hq hat => ?_⟩
    rw [List.drop_append_of_le_length hq.le] at hat
    have hlen : (text.drop q).length = text.length - q := List.length_drop
    rcases Nat.lt_or_ge (text.drop q).length word.length with hshort | hlong
    · obtain ⟨htake, hborder⟩ := (prefix_append_word_iff hshort).mp hat
      refine hborders (text.drop q).length (by omega) hshort ?_ hborder
      rw [← htake]
      exact List.drop_suffix q text
    · refine hnowhere q ?_
      exact List.prefix_of_prefix_length_le hat (List.prefix_append _ _) hlong

section Find

variable [DecidableEq α]

/-- The offset of the first occurrence. -/
def findFirst (word : List α) : List α → Option Nat
  | [] => if word = [] then some 0 else none
  | c :: rest => if word <+: c :: rest then some 0 else (findFirst word rest).map (· + 1)

/-- Nothing is found exactly when the word does not occur. -/
theorem findFirst_eq_none_iff {word text : List α} :
    findFirst word text = none ↔ Nowhere word text := by
  unfold Nowhere
  induction text with
  | nil =>
      unfold findFirst
      simp only [List.drop_nil, List.prefix_nil, forall_const, ite_eq_right_iff, reduceCtorEq,
        imp_false]
  | cons c rest ih =>
      unfold findFirst
      by_cases h : word <+: c :: rest
      · simp only [h, ite_true, reduceCtorEq, false_iff, not_forall, not_not]
        exact ⟨0, h⟩
      · simp only [h, ite_false, Option.map_eq_none_iff, ih]
        constructor
        · intro hrest q
          cases q with
          | zero => exact h
          | succ q => exact hrest q
        · exact fun hall q => hall (q + 1)

/-- What is found is a first occurrence. -/
theorem findFirst_some {word text : List α} {p : Nat} (h : findFirst word text = some p) :
    FirstAt word text p := by
  induction text generalizing p with
  | nil =>
      unfold findFirst at h
      split at h
      · rename_i hword
        cases h
        exact ⟨hword ▸ List.nil_prefix, fun q hq => absurd hq (Nat.not_lt_zero q)⟩
      · contradiction
  | cons c rest ih =>
      unfold findFirst at h
      by_cases hhead : word <+: c :: rest
      · rw [if_pos hhead] at h
        cases h
        exact ⟨hhead, fun q hq => absurd hq (Nat.not_lt_zero q)⟩
      · rw [if_neg hhead] at h
        obtain ⟨p', hp', rfl⟩ := Option.map_eq_some_iff.mp h
        obtain ⟨hat, hbefore⟩ := ih hp'
        refine ⟨hat, fun q hq => ?_⟩
        cases q with
        | zero => exact hhead
        | succ q => exact hbefore q (Nat.lt_of_succ_lt_succ hq)

/-- The first occurrence is what is found. -/
theorem findFirst_eq_some_iff {word text : List α} {p : Nat} :
    findFirst word text = some p ↔ FirstAt word text p := by
  constructor
  · exact findFirst_some
  · intro h
    cases hfind : findFirst word text with
    | none => exact absurd h.1 (findFirst_eq_none_iff.mp hfind p)
    | some q => rw [(findFirst_some hfind).unique h]

end Find

section Ranges

/-- The first index at which a search finds something decides it. -/
theorem findSome?_range_eq_some {f : Nat → Option α} {n k : Nat} {a : α} (hk : k < n)
    (hf : f k = some a) (hbefore : ∀ j, j < k → f j = none) :
    (List.range n).findSome? f = some a := by
  rw [List.findSome?_eq_some_iff]
  refine ⟨List.range k, k, (List.range (n - k - 1)).map (k + 1 + ·), ?_, hf, fun j hj => ?_⟩
  · rw [← List.singleton_append, ← List.append_assoc, ← List.range_succ, ← List.range_add]
    congr 1
    omega
  · exact hbefore j (List.mem_range.mp hj)

/-- An index that alone passes a test is what the search for it finds. -/
theorem find?_range_eq_some {p : Nat → Bool} {n k : Nat} (hk : k < n) (hp : p k = true)
    (hunique : ∀ i, p i = true → i = k) : (List.range n).find? p = some k := by
  cases h : (List.range n).find? p with
  | none => exact absurd hp (List.find?_eq_none.mp h k (List.mem_range.mpr hk))
  | some i => rw [hunique i (List.find?_some h)]

end Ranges

end CiteParser
