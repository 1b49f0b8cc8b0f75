import CiteParser.Hash.Update

/-!
# Hashing a table anew

`kh_resize` moves the entries of a table to their new buckets in the arrays in which they are. An
entry that takes a bucket which still has an old one pushes that out, and it is moved next. Between
two moves every entry is in an old bucket, in a new one or in the hand.
-/

namespace CiteParser.Khash

open Cells Loop Probing

variable {K V : Type} {hash : K → Nat} {m n : Nat} {s s' : Rehash K V}
  {all hand : List (K × V)} {i : Nat}

namespace Rehash

/-- What a bucket has that was not yet moved. -/
def old (s : Rehash K V) (i : Nat) : Option (K × V) := (bucket s.flags s.keys s.vals i).content

/-- What a bucket holds in the new order. -/
def new (s : Rehash K V) : Nat → Cell (K × V) := bucket s.new_flags s.keys s.vals

theorem old_eq_some_iff {e : K × V} :
    s.old i = some e ↔ iseither s.flags i = false ∧ (s.keys i, s.vals i) = e := by
  rw [old, Cell.content_eq_some_iff, bucket_eq_live_iff, iseither_eq, Bool.or_eq_false_iff,
    and_assoc]

theorem old_eq_none_iff : s.old i = none ↔ iseither s.flags i = true := by
  rw [Option.eq_none_iff_forall_ne_some]
  constructor
  · intro hne
    by_contra hlive
    exact hne _ (old_eq_some_iff.mpr ⟨Bool.eq_false_iff.mpr hlive, rfl⟩)
  · rintro htrue e hsome
    rw [(old_eq_some_iff.mp hsome).1] at htrue
    contradiction

/-- The entries are in the old buckets of the array, in the new ones and in the hand. -/
structure Moving (hash : K → Nat) (m n : Nat) (all : List (K × V)) (s : Rehash K V)
    (hand : List (K × V)) : Prop where
  apart : ∀ i < m, iseither s.flags i = false → isempty s.new_flags i = true
  fresh : ∀ i, isdel s.new_flags i = false
  perm : (contents m s.old ++ (entries n s.new ++ hand)).Perm all
  placed : Placed (order hash n) n s.new

/-- The buckets that are done with are not taken up again. -/
def Follows (s s' : Rehash K V) : Prop :=
  ∀ i, iseither s.flags i = true → iseither s'.flags i = true

theorem Follows.refl (s : Rehash K V) : Follows s s := fun _ h => h

theorem Follows.trans {s'' : Rehash K V} (h : Follows s s') (h' : Follows s' s'') :
    Follows s s'' := fun i hi => h' i (h i hi)

/-! ## Taking an entry into the hand -/

/-- The arrays when the entry of a bucket has been taken. -/
def take (s : Rehash K V) (j : Nat) : Rehash K V := { s with flags := setIsdelTrue s.flags j }

theorem iseither_take {j : Nat} :
    iseither (s.take j).flags i = (iseither s.flags i || decide (j = i)) := by
  rw [take, iseither_eq, iseither_eq, isempty_setIsdelTrue, isdel_setIsdelTrue, Bool.or_assoc]

theorem follows_take (s : Rehash K V) (j : Nat) : Follows s (s.take j) := by
  intro i hi
  rw [iseither_take, hi, Bool.true_or]

theorem old_take_self (s : Rehash K V) (j : Nat) : (s.take j).old j = none := by
  rw [old_eq_none_iff, iseither_take, decide_eq_true rfl, Bool.or_true]

theorem old_take_other {j : Nat} (hj : i ≠ j) : (s.take j).old i = s.old i := by
  refine congrArg Cell.content (bucket_congr isempty_setIsdelTrue ?_ rfl rfl)
  rw [take, isdel_setIsdelTrue, decide_eq_false (Ne.symm hj), Bool.or_false]

/-- The loop over the buckets takes the entry of one that was not yet moved. -/
theorem Moving.take {j : Nat} (h : Moving hash m n all s []) (hj : j < m)
    (hlive : iseither s.flags j = false) :
    Moving hash m n all (s.take j) [(s.keys j, s.vals j)] where
  apart := by
    intro i hi hfalse
    rw [iseither_take, Bool.or_eq_false_iff] at hfalse
    exact h.apart i hi hfalse.1
  fresh := h.fresh
  perm := by
    have hold := contents_leave hj (old_eq_some_iff.mpr ⟨hlive, rfl⟩) (old_take_self s j)
      fun i _ hij => old_take_other hij
    refine List.Perm.trans ?_ h.perm
    rw [← List.append_assoc, List.append_nil]
    refine (List.perm_append_singleton _ _).trans ?_
    exact hold.append_right _
  placed := h.placed

/-! ## Putting it into its new bucket -/

/-- The arrays when the entry in the hand has got its bucket. -/
def place (s : Rehash K V) (i : Nat) (key : K) (val : V) : Rehash K V :=
  { s with
    new_flags := setIsemptyFalse s.new_flags i
    keys := Function.update s.keys i key
    vals := Function.update s.vals i val }

section Place

variable {key : K} {val : V} {t : Nat}

theorem new_place_self (hfresh : isdel s.new_flags i = false) :
    (s.place i key val).new i = .live (key, val) := by
  refine bucket_eq_live_iff.mpr ⟨?_, isdel_setIsemptyFalse.trans hfresh, ?_⟩
  · rw [place, isempty_setIsemptyFalse, decide_eq_true rfl, Bool.not_true, Bool.and_false]
  · have hkey : Function.update s.keys i key i = key := Function.update_self i key s.keys
    have hval : Function.update s.vals i val i = val := Function.update_self i val s.vals
    exact Prod.ext hkey hval

theorem new_place_other {j : Nat} (hj : j ≠ i) : (s.place i key val).new j = s.new j := by
  refine bucket_congr ?_ isdel_setIsemptyFalse (Function.update_of_ne hj _ _)
    (Function.update_of_ne hj _ _)
  rw [place, isempty_setIsemptyFalse, decide_eq_false (Ne.symm hj), Bool.not_false, Bool.and_true]

theorem old_place_other {j : Nat} (hj : j ≠ i) : (s.place i key val).old j = s.old j :=
  congrArg Cell.content (bucket_congr rfl rfl (Function.update_of_ne hj _ _)
    (Function.update_of_ne hj _ _))

theorem old_place_self (hold : s.old i = none) : (s.place i key val).old i = none := by
  rw [old_eq_none_iff] at hold ⊢
  exact hold

theorem entries_place (hi : i < n) (hempty : isempty s.new_flags i = true)
    (hfresh : isdel s.new_flags i = false) :
    (entries n (s.place i key val).new).Perm ((key, val) :: entries n s.new) := by
  have hnone : (s.new i).content = none := by
    rw [new, bucket_eq_empty_iff.mpr hempty]
    rfl
  exact contents_fill hi hnone (by rw [new_place_self hfresh]; rfl)
    fun _ _ hj => congrArg Cell.content (new_place_other hj)

theorem Moving.new_ne_deleted (h : Moving hash m n all s hand) (i : Nat) : s.new i ≠ .deleted := by
  intro hdel
  have htrue := (bucket_eq_deleted_iff.mp hdel).2
  rw [h.fresh i] at htrue
  contradiction

/-- What the entry in the hand does to the new order. -/
theorem Moving.placed_place (h : Moving hash m n all s hand) (ht : t < n)
    (hbefore : ∀ r < t, isempty s.new_flags (order hash n key r) = false) :
    Placed (order hash n) n (s.place (order hash n key t) key val).new := by
  refine h.placed.insert (e := (key, val)) ht (fun r hr hempty => ?_)
    (new_place_self (h.fresh _)) fun _ hj => new_place_other hj
  rw [new, bucket_eq_empty_iff, hbefore r hr] at hempty
  contradiction

theorem Moving.fresh_place (h : Moving hash m n all s hand) (j : Nat) :
    isdel (setIsemptyFalse s.new_flags i) j = false :=
  isdel_setIsemptyFalse.trans (h.fresh j)

/-- A bucket that is not the one taken stays empty for the entry that is still in it. -/
theorem isempty_place {flag : Flags} {j : Nat} (hj : j ≠ i) (hempty : isempty flag j = true) :
    isempty (setIsemptyFalse flag i) j = true := by
  rw [isempty_setIsemptyFalse, hempty, decide_eq_false (Ne.symm hj)]
  rfl

/-- The entry in the hand comes to a bucket that has no old one. -/
theorem Moving.place (h : Moving hash m n all s [(key, val)]) (ht : t < n)
    (hi : order hash n key t < n) (hempty : isempty s.new_flags (order hash n key t) = true)
    (hbefore : ∀ r < t, isempty s.new_flags (order hash n key r) = false)
    (hfree : order hash n key t < m → iseither s.flags (order hash n key t) = true) :
    Moving hash m n all (s.place (order hash n key t) key val) [] where
  apart := by
    intro j hj hlive
    have hne : j ≠ order hash n key t := by
      rintro rfl
      rw [Rehash.place, hfree hj] at hlive
      contradiction
    exact isempty_place hne (h.apart j hj hlive)
  fresh := h.fresh_place
  perm := by
    have hold : contents m (s.place (order hash n key t) key val).old = contents m s.old := by
      refine contents_congr fun j hj => ?_
      by_cases hne : j = order hash n key t
      · subst hne
        have hnone := old_eq_none_iff.mpr (hfree hj)
        rw [old_place_self hnone, hnone]
      · exact old_place_other hne
    rw [hold, List.append_nil]
    refine List.Perm.trans ?_ h.perm
    exact ((entries_place hi hempty (h.fresh _)).trans
      (List.perm_append_singleton _ _).symm).append_left _
  placed := h.placed_place ht hbefore

/-- The entry in the hand pushes out an old one. -/
theorem Moving.kick (h : Moving hash m n all s [(key, val)]) (ht : t < n)
    (hi : order hash n key t < n) (hempty : isempty s.new_flags (order hash n key t) = true)
    (hbefore : ∀ r < t, isempty s.new_flags (order hash n key r) = false)
    (hm : order hash n key t < m) (hlive : iseither s.flags (order hash n key t) = false) :
    Moving hash m n all ((s.place (order hash n key t) key val).take (order hash n key t))
      [(s.keys (order hash n key t), s.vals (order hash n key t))] where
  apart := by
    intro j hj hfalse
    rw [iseither_take, Bool.or_eq_false_iff, decide_eq_false_iff_not] at hfalse
    exact isempty_place (Ne.symm hfalse.2) (h.apart j hj hfalse.1)
  fresh := h.fresh_place
  perm := by
    have hold := contents_leave hm (old_eq_some_iff.mpr ⟨hlive, rfl⟩)
      (old_take_self (s.place (order hash n key t) key val) (order hash n key t))
      fun j _ hj => (old_take_other hj).trans (old_place_other hj)
    have hnew := @entries_place _ _ n s _ key val hi hempty (h.fresh _)
    refine List.Perm.trans ?_ h.perm
    rw [← List.append_assoc]
    refine (List.perm_append_singleton _ _).trans ?_
    refine (hold.append hnew).trans ?_
    exact (List.perm_append_singleton _ _).symm.append_left _
  placed := h.placed_place ht hbefore

end Place

end Rehash

/-! ## The loops -/

section Loops

open Rehash

variable {key : K} {val : V}

/-- The loop that looks for an empty bucket comes to the first one for the key. -/
theorem freeBucket_spec (hn : n ∈ bucketCounts) (h : Moving hash m n all s hand)
    (hroom : (entries n s.new).length < n) (key : K) :
    ∃ t < n, freeBucket hash s.new_flags n key = some (order hash n key t) ∧
      isempty s.new_flags (order hash n key t) = true ∧
      ∀ r < t, isempty s.new_flags (order hash n key r) = false := by
  rw [← occupied_eq_length fun i _ => h.new_ne_deleted i] at hroom
  obtain ⟨i, hi, hempty⟩ := exists_empty hroom
  obtain ⟨t, ht, hfree, hbefore⟩ := (sweeps_order hash hn key).exists_first
    (p := fun i => isempty s.new_flags i = true) ⟨i, hi, bucket_eq_empty_iff.mp hempty⟩
  have hstart : hash key % n = order hash n key 0 := order_zero.symm
  refine ⟨t, ht, ?_, hfree, fun r hr => Bool.eq_false_iff.mpr (hbefore r hr)⟩
  rw [freeBucket]
  simp only [hstart]
  refine run_along (fun r hr => ?_) ?_ (Nat.lt_succ_of_lt ht)
  · rw [freePass, if_neg (hbefore r hr), advance_order hn]
  · rw [freePass, if_pos hfree]

/-- There is room for the entry in the hand. -/
theorem Rehash.Moving.room {e : K × V} (h : Moving hash m n all s [e]) (hall : all.length < n) :
    (entries n s.new).length < n := by
  have hlen := h.perm.length_eq
  rw [List.length_append, List.length_append, List.length_singleton] at hlen
  omega

/-- A pass moves the entry in the hand, and takes the one that it has pushed out. -/
theorem kickPass_spec (hn : n ∈ bucketCounts) (hall : all.length < n)
    (h : Moving hash m n all s [(key, val)]) :
    (∃ s' key' val', kickPass hash m n (s, key, val) = .next (s', key', val') ∧
        Moving hash m n all s' [(key', val')] ∧ Follows s s' ∧
        (contents m s'.old).length < (contents m s.old).length) ∨
      ∃ s', kickPass hash m n (s, key, val) = .exit (some s') ∧ Moving hash m n all s' [] ∧
        Follows s s' := by
  obtain ⟨t, ht, hfree, hempty, hbefore⟩ := freeBucket_spec hn h (h.room hall) key
  have hlt := (sweeps_order hash hn key).lt t
  by_cases hkick : (decide (order hash n key t < m) &&
      !iseither s.flags (order hash n key t)) = true
  · left
    refine ⟨(s.place (order hash n key t) key val).take (order hash n key t),
      s.keys (order hash n key t), s.vals (order hash n key t), ?_, ?_, ?_, ?_⟩
    · simp only [kickPass, hfree]
      rw [if_pos hkick]
      rfl
    · rw [Bool.and_eq_true, decide_eq_true_iff, Bool.not_eq_true'] at hkick
      exact h.kick ht hlt hempty hbefore hkick.1 hkick.2
    · exact Follows.trans (fun _ hi => hi) (follows_take _ _)
    · rw [Bool.and_eq_true, decide_eq_true_iff, Bool.not_eq_true'] at hkick
      have hold := contents_leave hkick.1 (old_eq_some_iff.mpr ⟨hkick.2, rfl⟩)
        (old_take_self (s.place (order hash n key t) key val) (order hash n key t))
        fun j _ hj => (old_take_other hj).trans (old_place_other hj)
      rw [← hold.length_eq]
      exact Nat.lt_succ_self _
  · right
    refine ⟨s.place (order hash n key t) key val, ?_, ?_, fun _ hi => hi⟩
    · simp only [kickPass, hfree]
      rw [if_neg hkick]
      rfl
    · refine h.place ht hlt hempty hbefore fun hm => ?_
      rw [decide_eq_true hm, Bool.true_and, Bool.not_eq_true', Bool.not_eq_false] at hkick
      exact hkick

/-- The entries that are pushed out one after the other all come to their buckets. -/
theorem kick_spec (hn : n ∈ bucketCounts) (hall : all.length < n)
    (h : Moving hash m n all s [(key, val)]) :
    ∃ s', Loop.run (kickPass hash m n) (m + 1) (s, key, val) = some (some s') ∧
      Moving hash m n all s' [] ∧ Follows s s' := by
  have hnext (c c' : Rehash K V × K × V) (hc : Moving hash m n all c.1 [c.2] ∧ Follows s c.1)
      (hpass : kickPass hash m n c = .next c') :
      (Moving hash m n all c'.1 [c'.2] ∧ Follows s c'.1) ∧
        (contents m c'.1.old).length < (contents m c.1.old).length := by
    rcases kickPass_spec hn hall hc.1 with ⟨t, key', val', hnext, hmoving, hfollows, hless⟩ |
      ⟨t, hexit, -⟩
    · obtain rfl := Outcome.next.inj (hpass.symm.trans hnext)
      exact ⟨⟨hmoving, hc.2.trans hfollows⟩, hless⟩
    · have hne := hpass.symm.trans hexit
      contradiction
  have hexit (c : Rehash K V × K × V) (b : Option (Rehash K V))
      (hc : Moving hash m n all c.1 [c.2] ∧ Follows s c.1)
      (hpass : kickPass hash m n c = .exit b) :
      ∃ s', b = some s' ∧ Moving hash m n all s' [] ∧ Follows s s' := by
    rcases kickPass_spec hn hall hc.1 with ⟨t, key', val', hnext, -⟩ | ⟨t, hexit, hmoving, hfollows⟩
    · have hne := hpass.symm.trans hnext
      contradiction
    · obtain rfl := Outcome.exit.inj (hpass.symm.trans hexit)
      exact ⟨t, rfl, hmoving, hc.2.trans hfollows⟩
  obtain ⟨b, hrun, s', rfl, hs'⟩ := run_rule (kickPass hash m n) (m + 1) (s, key, val) _ _ _
    hnext hexit ⟨h, .refl s⟩ (Nat.lt_succ_of_le (length_contents_le m _))
  exact ⟨s', hrun, hs'⟩

/-- The loop over the buckets leaves no entry in an old bucket. -/
theorem rehash_spec (hn : n ∈ bucketCounts) (hall : all.length < n)
    (h : Moving hash m n all s []) :
    ∃ s', (List.range m).foldlM (rehashBucket hash m n) s = some s' ∧
      Moving hash m n all s' [] ∧ ∀ j < m, iseither s'.flags j = true := by
  have hstep : ∀ k < m, ∀ t, (Moving hash m n all t [] ∧ ∀ j < k, iseither t.flags j = true) →
      ∃ t', rehashBucket hash m n t k = some t' ∧ Moving hash m n all t' [] ∧
        ∀ j < k + 1, iseither t'.flags j = true := by
    rintro k hk t ⟨hmoving, hdone⟩
    by_cases hlive : iseither t.flags k = true
    · refine ⟨t, if_pos hlive, hmoving, fun j hj => ?_⟩
      rcases Nat.lt_succ_iff_lt_or_eq.mp hj with hj | rfl
      · exact hdone j hj
      · exact hlive
    · obtain ⟨t', hkick, hmoving', hfollows⟩ :=
        kick_spec hn hall (hmoving.take hk (Bool.eq_false_iff.mpr hlive))
      refine ⟨t', ?_, hmoving', fun j hj => hfollows j ?_⟩
      · rw [rehashBucket, if_neg hlive]
        exact congrArg Option.join hkick
      · rw [iseither_take]
        rcases Nat.lt_succ_iff_lt_or_eq.mp hj with hj | rfl
        · rw [hdone j hj, Bool.true_or]
        · rw [decide_eq_true rfl, Bool.or_true]
  exact foldlM_range ⟨h, fun j hj => absurd hj (Nat.not_lt_zero j)⟩ hstep

/-- `kh_resize` keeps the entries, and leaves the new table no bucket that is marked as deleted. -/
theorem khResize_spec {h : KhTable K V} {asked : Nat} (h' : h.WellFormed hash)
    (hasked : primeList[primeBelow asked 31 + 1]? = some n) (hn : n ∈ bucketCounts)
    (hroom : h.size < hashUpper n) :
    ∃ g, khResize hash h asked = some g ∧ g.WellFormed hash ∧ g.n_buckets = n ∧
      g.n_occupied < g.upper_bound ∧ g.entries.Perm h.entries := by
  have hall : h.entries.length < n := by
    rw [← h'.size]
    exact hroom.trans (bounds_of_mem_bucketCounts hn).2.2.2.1
  have hstart : Moving hash h.n_buckets n h.entries ⟨h.flags, emptyFlags, h.keys, h.vals⟩ [] := by
    refine ⟨fun _ _ _ => isempty_emptyFlags, fun _ => isdel_emptyFlags, ?_,
      placed_emptyFlags n h.keys h.vals⟩
    rw [Rehash.new, entries_emptyFlags, List.nil_append, List.append_nil]
    exact .refl _
  obtain ⟨s, hrun, hmoving, hdone⟩ := rehash_spec hn hall hstart
  have hperm : (entries n s.new).Perm h.entries := by
    have hnil : contents h.n_buckets s.old = [] := by
      rw [contents, List.filterMap_eq_nil_iff]
      exact fun j hj => old_eq_none_iff.mpr (hdone j (List.mem_range.mp hj))
    have hmoved := hmoving.perm
    rwa [hnil, List.nil_append, List.append_nil] at hmoved
  have hsize : h.size = (entries n s.new).length := h'.size.trans hperm.length_eq.symm
  have hoccupied := occupied_eq_length fun i (_ : i < n) => hmoving.new_ne_deleted i
  refine ⟨⟨n, h.size, h.size, hashUpper n, s.new_flags, s.keys, s.vals⟩, ?_, ?_, rfl, hroom, hperm⟩
  · rw [khResize, hasked]
    simp only [Option.bind_eq_bind, Option.bind_some, if_neg (Nat.not_le.mpr hroom), hrun]
    rfl
  · exact ⟨.inr hn, rfl, hsize, hsize.trans hoccupied.symm, hroom.le,
      (hperm.map Prod.fst).nodup_iff.mpr h'.nodup, hmoving.placed⟩

end Loops

end CiteParser.Khash
