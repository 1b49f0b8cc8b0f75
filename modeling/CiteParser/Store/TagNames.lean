import CiteParser.Core.Search
import CiteParser.Store.Parse

/-!
# Recognising the names of the token table

`Registers` is what `tokenInit` needs to give every name a slot of its own. `Recognised` says
of one entry what lets `findTag` tell its name in a tag: the name is not empty, does not begin
like an end tag, and no other name of the table ends at a `>` inside it.
-/

namespace CiteParser

/-- Names shorter than the slots, under distinct ids that `doTokenInit` accepts. -/
structure Registers (entries : List (List UInt8 × Nat)) : Prop where
  isId : ∀ e ∈ entries, IsId e.2
  length_lt : ∀ e ∈ entries, e.1.length < MAX_TOKEN_LENGTH
  nodup : (entries.map Prod.snd).Nodup

/-- An entry whose name in a tag cannot be taken for another one, or for an end tag. -/
structure Recognised (entries : List (List UInt8 × Nat)) (e : List UInt8 × Nat) : Prop where
  ne_nil : e.1 ≠ []
  head_ne : e.1.head? ≠ some '/'.toUInt8
  /-- No other name up to its `>` begins this one. -/
  prefix_free : ∀ f ∈ entries, f.1 ++ ['>'.toUInt8] <+: e.1 ++ ['>'.toUInt8] → f = e

instance (entries : List (List UInt8 × Nat)) : Decidable (Registers entries) :=
  decidable_of_iff
    ((∀ e ∈ entries, 0 < e.2 ∧ e.2 < TOKEN_MAX_LEN) ∧
      (∀ e ∈ entries, e.1.length < MAX_TOKEN_LENGTH) ∧ (entries.map Prod.snd).Nodup)
    ⟨fun h => ⟨h.1, h.2.1, h.2.2⟩, fun h => ⟨h.isId, h.length_lt, h.nodup⟩⟩

instance (entries : List (List UInt8 × Nat)) (e : List UInt8 × Nat) :
    Decidable (Recognised entries e) :=
  decidable_of_iff
    (e.1 ≠ [] ∧ e.1.head? ≠ some '/'.toUInt8 ∧
      ∀ f ∈ entries, f.1 ++ ['>'.toUInt8] <+: e.1 ++ ['>'.toUInt8] → f = e)
    ⟨fun h => ⟨h.1, h.2.1, h.2.2⟩, fun h => ⟨h.ne_nil, h.head_ne, h.prefix_free⟩⟩

/-! ## The slots -/

section Slots

variable {entries : List (List UInt8 × Nat)} {repo : TokenRepo}

/-- A slot that no entry names is left alone. -/
theorem foldl_doTokenInit_of_notMem {i : Nat} (h : ∀ e ∈ entries, e.2 ≠ i) :
    (entries.foldl (fun repo e => doTokenInit repo e.1 e.2) repo).tokens i = repo.tokens i ∧
      (entries.foldl (fun repo e => doTokenInit repo e.1 e.2) repo).ac i = repo.ac i := by
  induction entries generalizing repo with
  | nil => exact ⟨rfl, rfl⟩
  | cons e entries ih =>
      obtain ⟨he, hrest⟩ := List.forall_mem_cons.mp h
      obtain ⟨htokens, hac⟩ := @ih (doTokenInit repo e.1 e.2) hrest
      rw [List.foldl_cons, htokens, hac, doTokenInit]
      split
      · exact ⟨rfl, rfl⟩
      · exact ⟨if_neg he.symm, if_neg he.symm⟩

/-- A slot in use was named by an entry. -/
theorem exists_entry_of_ac {i : Nat} (h : (tokenInit entries).ac i = true) :
    ∃ e ∈ entries, e.2 = i := by
  by_contra hnone
  push Not at hnone
  rw [tokenInit, (foldl_doTokenInit_of_notMem hnone).2] at h
  contradiction

/-- A slot that holds a name was named by an entry. -/
theorem exists_entry_of_tokens {i : Nat} (h : (tokenInit entries).tokens i ≠ []) :
    ∃ e ∈ entries, e.2 = i := by
  by_contra hnone
  push Not at hnone
  rw [tokenInit, (foldl_doTokenInit_of_notMem hnone).1] at h
  contradiction

/-- The slot of an entry holds its name. -/
theorem Registers.slot (h : Registers entries) {e : List UInt8 × Nat} (he : e ∈ entries) :
    (tokenInit entries).tokens e.2 = e.1 ∧ (tokenInit entries).ac e.2 = true := by
  obtain ⟨before, after, rfl⟩ := List.append_of_mem he
  have hnodup := h.nodup
  rw [List.map_append, List.map_cons, List.nodup_append] at hnodup
  have hafter : ∀ f ∈ after, f.2 ≠ e.2 := fun f hf heq =>
    (List.nodup_cons.mp hnodup.2.1).1 (heq ▸ List.mem_map_of_mem hf)
  have hlt := (h.isId e he).2
  rw [tokenInit, List.foldl_append, List.foldl_cons,
    (foldl_doTokenInit_of_notMem hafter).1, (foldl_doTokenInit_of_notMem hafter).2, doTokenInit,
    if_neg (by omega)]
  exact ⟨if_pos rfl, if_pos rfl⟩

end Slots

/-! ## The search -/

section Names

variable {entries : List (List UInt8 × Nat)} {e : List UInt8 × Nat}

/-- A slot that holds the name of a recognised entry is the slot of the entry. -/
theorem Recognised.slot_unique (hr : Recognised entries e) (h : Registers entries) {i : Nat}
    (hi : (tokenInit entries).tokens i = e.1) : i = e.2 := by
  obtain ⟨f, hf, rfl⟩ := exists_entry_of_tokens (hi ▸ hr.ne_nil)
  have hname : f.1 = e.1 := (h.slot hf).1 ▸ hi
  rw [hr.prefix_free f hf (by rw [hname])]

/-- The name of a recognised entry gives its id. -/
theorem Recognised.token2Id_name (hr : Recognised entries e) (h : Registers entries)
    (he : e ∈ entries) : token2Id (tokenInit entries) e.1 = e.2 := by
  rw [token2Id, find?_range_eq_some (h.isId e he).2]
  · rfl
  · exact beq_iff_eq.mpr (h.slot he).1
  · exact fun i hi => hr.slot_unique h (beq_iff_eq.mp hi)

/-- What `getTokenId` looks for among the slots. -/
theorem getTokenId_test {repo : TokenRepo} {w : List UInt8} {i : Nat} :
    (repo.ac i && w.length == (repo.tokens i).length &&
      strncmpEq w.length (repo.tokens i) w) = true ↔ repo.ac i = true ∧ repo.tokens i = w := by
  rw [Bool.and_eq_true, Bool.and_eq_true, beq_iff_eq, and_assoc]
  refine and_congr_right fun _ => ?_
  constructor
  · rintro ⟨hlen, hcmp⟩
    exact (strncmpEq_iff hlen.symm).mp hcmp
  · intro heq
    have hlen : (repo.tokens i).length = w.length := congrArg List.length heq
    exact ⟨hlen.symm, (strncmpEq_iff hlen).mpr heq⟩

/-- The name of a recognised entry is what `getTokenId` finds. -/
theorem Recognised.getTokenId_name (hr : Recognised entries e) (h : Registers entries)
    (he : e ∈ entries) : getTokenId (tokenInit entries) e.1 e.1.length = e.2 := by
  rw [getTokenId, find?_range_eq_some (h.isId e he).2]
  · exact ((h.slot he).1.symm ▸ hr.token2Id_name h he :)
  · exact getTokenId_test.mpr (h.slot he).symm
  · exact fun i hi => hr.slot_unique h (getTokenId_test.mp hi).2

/-- Only names of entries are found. -/
theorem Registers.exists_of_getTokenId_ne_zero (h : Registers entries) {w : List UInt8}
    {len : Nat} (hlen : w.length = len) (hw : getTokenId (tokenInit entries) w len ≠ 0) :
    ∃ e ∈ entries, e.1 = w := by
  subst hlen
  rw [getTokenId] at hw
  split at hw
  · rename_i i hi
    have htest := List.find?_some hi
    obtain ⟨hac, htokens⟩ := getTokenId_test.mp htest
    obtain ⟨e, he, rfl⟩ := exists_entry_of_ac hac
    exact ⟨e, he, (h.slot he).1.symm.trans htokens⟩
  · contradiction

/-- The end of a tag is found behind its name. -/
theorem Recognised.findTag_name (hr : Recognised entries e) (h : Registers entries)
    (he : e ∈ entries) {content : Nat → UInt8} {i start : Nat}
    (hat : StandsAt content (i + start) (e.1 ++ ['>'.toUInt8]))
    (hsize : i + start + e.1.length < 2 ^ 32) :
    findTag (tokenInit entries) content i start = some (e.1.length, e.2) := by
  obtain ⟨hname, hend⟩ := standsAt_append.mp hat
  obtain ⟨hend, -⟩ := standsAt_cons.mp hend
  apply findSome?_range_eq_some (h.length_lt e he)
  · have hid := (h.isId e he).1
    rw [uint_of_lt (by omega), Nat.add_right_comm, hend, if_pos rfl,
      show segment content (i + start) (i + start + e.1.length) = e.1 from hname,
      hr.getTokenId_name h he]
    exact if_pos (Nat.ne_of_gt hid)
  · intro j hj
    rw [uint_of_lt (by omega), Nat.add_right_comm, ite_eq_right_iff]
    intro hgt
    have hzero : getTokenId (tokenInit entries)
        (segment content (i + start) (i + start + j)) j = 0 := by
      -- a shorter name that ends here would begin this one
      by_contra hne
      obtain ⟨f, hf, hsegment⟩ := h.exists_of_getTokenId_ne_zero
        (by rw [length_segment, Nat.add_sub_cancel_left]) hne
      have hshort : f.1 ++ ['>'.toUInt8] = segment content (i + start) (i + start + j + 1) := by
        rw [hsegment, segment_succ content (Nat.le_add_right _ j), hgt]
      have heq : f = e := by
        apply hr.prefix_free f hf
        rw [hshort, ← hat, List.length_append, List.length_singleton]
        exact ⟨_, segment_append content (by omega) (by omega)⟩
      have hlen := congrArg List.length hsegment
      rw [heq, length_segment] at hlen
      omega
    exact if_neg (not_not.mpr hzero)

end Names

end CiteParser
