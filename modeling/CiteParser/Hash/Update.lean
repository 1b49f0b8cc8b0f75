import CiteParser.Hash.Lookup

/-!
# Changing a table

What `kh_put`, `kh_del`, `kh_clear` and the assignments to `kh_value` do to the entries of a table
that has room.
-/

namespace CiteParser.Khash

open Cells Loop Probing

variable {K V : Type} {hash : K → Nat} {h : KhTable K V} {key : K} {t x : Nat}

/-! ## The bucket of a new entry -/

section Site

variable [DecidableEq K]

/-- The last deleted bucket that a search has met. -/
def siteAfter (flags : Flags) (n : Nat) (seq : Nat → Nat) : Nat → Nat
  | 0 => n
  | s + 1 => if isdel flags (seq s) then seq s else siteAfter flags n seq s

theorem siteAfter_spec (flags : Flags) (n : Nat) (seq : Nat → Nat) (t : Nat) :
    siteAfter flags n seq t = n ∨
      ∃ s < t, siteAfter flags n seq t = seq s ∧ isdel flags (seq s) = true := by
  induction t with
  | zero => exact .inl rfl
  | succ t ih =>
      rw [siteAfter]
      split
      next hdel => exact .inr ⟨t, Nat.lt_succ_self t, rfl, hdel⟩
      next =>
        refine ih.imp_right ?_
        rintro ⟨s, hs, heq⟩
        exact ⟨s, Nat.lt_succ_of_lt hs, heq⟩

/-- The bucket that `kh_put` chooses is where the search ends, or a deleted one on the way to an
empty one. -/
theorem putSite_spec (hn : h.n_buckets ∈ bucketCounts)
    (h' : EndsAt (order hash h.n_buckets) h.n_buckets h.bucket key t) :
    ∃ s ≤ t, putSite hash h key = some (order hash h.n_buckets key s) ∧
      (s = t ∨ h.bucket (order hash h.n_buckets key s) = .deleted ∧
        h.bucket (order hash h.n_buckets key t) = .empty) := by
  have hstart : hash key % h.n_buckets = order hash h.n_buckets key 0 := order_zero.symm
  rw [putSite]
  simp only [hstart]
  by_cases hempty : isempty h.flags (order hash h.n_buckets key 0) = true
  · refine ⟨0, Nat.zero_le t, if_pos hempty, .inl ?_⟩
    by_contra hne
    exact h'.goesOn 0 (Nat.pos_of_ne_zero (Ne.symm hne)) (.inl (bucket_eq_empty_iff.mpr hempty))
  · have hrun : Loop.run (putPass h key (1 + hash key % (h.n_buckets - 1))
        (order hash h.n_buckets key 0)) (h.n_buckets + 1)
        (order hash h.n_buckets key 0, h.n_buckets) =
          some (h.n_buckets, order hash h.n_buckets key t,
            siteAfter h.flags h.n_buckets (order hash h.n_buckets key) t) := by
      refine run_along (f := fun s => (order hash h.n_buckets key s,
        siteAfter h.flags h.n_buckets (order hash h.n_buckets key) s)) (fun s hs => ?_) ?_
        (Nat.lt_succ_of_lt h'.lt)
      · simp only [putPass, passedOver_of_lt h' hs, if_true]
        rw [advance_order hn, if_neg (order_succ_ne hn h'.lt hs), siteAfter]
      · simp only [putPass, not_passedOver h', Bool.false_eq_true, if_false]
    rw [if_neg hempty, hrun, Option.map_some, if_pos rfl]
    by_cases hsite : (isempty h.flags (order hash h.n_buckets key t) &&
        siteAfter h.flags h.n_buckets (order hash h.n_buckets key) t != h.n_buckets) = true
    · rw [if_pos hsite]
      rw [Bool.and_eq_true, bne_iff_ne] at hsite
      obtain ⟨s, hs, heq, hdel⟩ := (siteAfter_spec _ _ _ _).resolve_left hsite.2
      have hpassed := passedOver_of_lt h' hs
      rw [passedOver, Bool.and_eq_true, Bool.not_eq_true'] at hpassed
      exact ⟨s, hs.le, congrArg some heq, .inr ⟨bucket_eq_deleted_iff.mpr ⟨hpassed.1, hdel⟩,
        bucket_eq_empty_iff.mpr hsite.1⟩⟩
    · rw [if_neg hsite]
      exact ⟨t, le_rfl, rfl, .inl rfl⟩

end Site

/-! ## Filling a bucket -/

section Fill

open KhTable

/-- The table in which a bucket has got a key. -/
def fill (h : KhTable K V) (key : K) (x n_occupied : Nat) : KhTable K V :=
  { h with
    keys := Function.update h.keys x key
    flags := setIsbothFalse h.flags x
    size := h.size + 1
    n_occupied := n_occupied }

theorem bucket_fill_self (n_occupied : Nat) :
    (fill h key x n_occupied).bucket x = .live (key, h.vals x) := by
  refine bucket_eq_live_iff.mpr ⟨?_, ?_, ?_⟩
  · simp [fill]
  · simp [fill]
  · simp [fill]

theorem bucket_fill_other (n_occupied : Nat) {j : Nat} (hj : j ≠ x) :
    (fill h key x n_occupied).bucket j = h.bucket j := by
  refine bucket_congr ?_ ?_ (Function.update_of_ne hj _ _) rfl
  · simp [fill, Ne.symm hj]
  · simp [fill, Ne.symm hj]

theorem putAt_of_empty [DecidableEq K] (hx : h.bucket x = .empty) :
    putAt h key x = (fill h key x (h.n_occupied + 1), 1) := by
  rw [putAt, if_pos (bucket_eq_empty_iff.mp hx)]
  rfl

theorem putAt_of_deleted [DecidableEq K] (hx : h.bucket x = .deleted) :
    putAt h key x = (fill h key x h.n_occupied, 2) := by
  obtain ⟨hempty, hdel⟩ := bucket_eq_deleted_iff.mp hx
  rw [putAt, if_neg (Bool.eq_false_iff.mp hempty), if_pos hdel]
  rfl

theorem putAt_of_live [DecidableEq K] {e : K × V} (hx : h.bucket x = .live e) :
    putAt h key x = (h, 0) := by
  obtain ⟨hempty, hdel, -⟩ := bucket_eq_live_iff.mp hx
  rw [putAt, if_neg (Bool.eq_false_iff.mp hempty), if_neg (Bool.eq_false_iff.mp hdel)]

theorem entries_fill (n_occupied : Nat) (hx : x < h.n_buckets)
    (hold : (h.bucket x).content = none) :
    (fill h key x n_occupied).entries.Perm ((key, h.vals x) :: h.entries) :=
  contents_fill hx hold (by rw [bucket_fill_self]; rfl)
    fun _ _ hj => congrArg Cell.content (bucket_fill_other n_occupied hj)

theorem occupied_fill_of_empty (n_occupied : Nat) (hx : x < h.n_buckets)
    (hold : h.bucket x = .empty) :
    occupied h.n_buckets (fill h key x n_occupied).bucket = occupied h.n_buckets h.bucket + 1 := by
  have hperm := contents_fill (f := fun i => (h.bucket i).used)
    (g := fun i => ((fill h key x n_occupied).bucket i).used) (a := ()) hx
    (by rw [hold]; rfl) (by rw [bucket_fill_self]; rfl)
    fun _ _ hj => congrArg Cell.used (bucket_fill_other n_occupied hj)
  exact hperm.length_eq

theorem occupied_fill_of_deleted (n_occupied : Nat) (hold : h.bucket x = .deleted) :
    occupied h.n_buckets (fill h key x n_occupied).bucket = occupied h.n_buckets h.bucket := by
  refine congrArg List.length (contents_congr fun j _ => ?_)
  by_cases hj : j = x
  · rw [hj, bucket_fill_self, hold]
    rfl
  · rw [bucket_fill_other n_occupied hj]

/-- A key that the table does not have comes to a bucket that its search leads to. -/
theorem KhTable.WellFormed.fill (h' : h.WellFormed hash) {n_occupied : Nat} (ht : t < h.n_buckets)
    (hbefore : ∀ s < t, h.bucket (order hash h.n_buckets key s) ≠ .empty)
    (hx : order hash h.n_buckets key t < h.n_buckets)
    (hold : (h.bucket (order hash h.n_buckets key t)).content = none)
    (hkey : ∀ v, (key, v) ∉ h.entries)
    (hoccupied : n_occupied = occupied h.n_buckets
      (fill h key (order hash h.n_buckets key t) n_occupied).bucket)
    (hle : n_occupied ≤ h.upper_bound) :
    (Khash.fill h key (order hash h.n_buckets key t) n_occupied).WellFormed hash where
  n_buckets := h'.n_buckets
  upper_bound := h'.upper_bound
  size := by
    rw [(entries_fill n_occupied hx hold).length_eq, List.length_cons, ← h'.size]
    rfl
  n_occupied := hoccupied
  n_occupied_le := hle
  nodup := by
    rw [((entries_fill n_occupied hx hold).map Prod.fst).nodup_iff, List.map_cons, List.nodup_cons]
    refine ⟨fun hmem => ?_, h'.nodup⟩
    obtain ⟨e, he, heq⟩ := List.mem_map.mp hmem
    rw [← show e.1 = key from heq] at hkey
    exact hkey e.2 he
  placed := h'.placed.insert (e := (key, h.vals (order hash h.n_buckets key t))) ht hbefore
    (bucket_fill_self n_occupied) fun _ hj => bucket_fill_other n_occupied hj

/-- What `kh_put` leaves of the entries, with the bucket and what it stores in `ret`. -/
inductive PutsTo (h : KhTable K V) (key : K) (h' : KhTable K V) (x : Nat) : Nat → Prop where
  | found {v : V} (live : h'.bucket x = .live (key, v)) (perm : h'.entries.Perm h.entries) :
      PutsTo h key h' x 0
  | added {ret : Nat} {v : V} (ret_ne : ret ≠ 0) (missing : ∀ v, (key, v) ∉ h.entries)
      (live : h'.bucket x = .live (key, v)) (perm : h'.entries.Perm ((key, v) :: h.entries)) :
      PutsTo h key h' x ret

/-- `kh_put` finds the bucket of a key or makes one for it, if there is room. -/
theorem put_spec [DecidableEq K] (h' : h.WellFormed hash) (hn : h.n_buckets ∈ bucketCounts)
    (hroom : h.n_occupied < h.upper_bound) (key : K) :
    ∃ x, putSite hash h key = some x ∧ x < h.n_buckets ∧
      (putAt h key x).1.WellFormed hash ∧ (putAt h key x).1.n_buckets = h.n_buckets ∧
      PutsTo h key (putAt h key x).1 x (putAt h key x).2 := by
  obtain ⟨t, ht⟩ := h'.exists_endsAt hn key
  have hsweeps := sweeps_order hash hn
  obtain ⟨s, hst, hsite, hs⟩ := putSite_spec hn ht
  have hlt := (hsweeps key).lt s
  refine ⟨_, hsite, hlt, ?_⟩
  have hbefore : ∀ r < s, h.bucket (order hash h.n_buckets key r) ≠ .empty := fun r hr hempty =>
    ht.goesOn r (hr.trans_le hst) (.inl hempty)
  have hmissing (hempty : h.bucket (order hash h.n_buckets key t) = .empty) (v : V) :
      (key, v) ∉ h.entries := by
    intro hmem
    have hlive := ht.live_of_mem hsweeps h'.placed h'.nodup hmem
    rw [hempty] at hlive
    contradiction
  rcases hs with rfl | ⟨hdel, hempty⟩
  · rcases ht.stops with hempty | ⟨v, hv⟩
    · have hnone : (h.bucket (order hash h.n_buckets key s)).content = none := by rw [hempty]; rfl
      rw [putAt_of_empty hempty]
      exact ⟨h'.fill ht.lt hbefore hlt hnone (hmissing hempty)
        (by rw [occupied_fill_of_empty _ hlt hempty, h'.n_occupied]) hroom, rfl,
        .added (Nat.succ_ne_zero 0) (hmissing hempty) (bucket_fill_self _)
          (entries_fill _ hlt hnone)⟩
    · rw [putAt_of_live hv]
      exact ⟨h', rfl, .found hv (.refl _)⟩
  · have hnone : (h.bucket (order hash h.n_buckets key s)).content = none := by rw [hdel]; rfl
    rw [putAt_of_deleted hdel]
    exact ⟨h'.fill (hst.trans_lt ht.lt) hbefore hlt hnone (hmissing hempty)
      (by rw [occupied_fill_of_deleted _ hdel, h'.n_occupied]) h'.n_occupied_le, rfl,
      .added (Nat.succ_ne_zero 1) (hmissing hempty) (bucket_fill_self _)
        (entries_fill _ hlt hnone)⟩

end Fill

/-! ## Entries that go and values that change -/

section Change

open KhTable

theorem bucket_khDel_other {j : Nat} (hj : j ≠ x) : (khDel h x).bucket j = h.bucket j := by
  rw [khDel]
  split
  · exact bucket_congr isempty_setIsdelTrue (by simp [Ne.symm hj]) rfl rfl
  · rfl

/-- `kh_del` takes the entry of the bucket away. -/
theorem khDel_spec (h' : h.WellFormed hash) {e : K × V} (hlt : x < h.n_buckets)
    (hx : h.bucket x = .live e) :
    (khDel h x).WellFormed hash ∧ (khDel h x).n_buckets = h.n_buckets ∧
      (khDel h x).bucket x = .deleted ∧ (e :: (khDel h x).entries).Perm h.entries := by
  obtain ⟨hempty, hdel, -⟩ := bucket_eq_live_iff.mp hx
  have heq : khDel h x = { h with flags := setIsdelTrue h.flags x, size := h.size - 1 } := by
    rw [khDel, iseither_eq, hempty, hdel, if_pos]
    rw [Bool.and_eq_true, bne_iff_ne]
    exact ⟨hlt.ne, rfl⟩
  have hself : (khDel h x).bucket x = .deleted := by
    rw [heq]
    exact bucket_eq_deleted_iff.mpr ⟨isempty_setIsdelTrue.trans hempty, by simp⟩
  have hbuckets : (khDel h x).n_buckets = h.n_buckets := by rw [heq]
  have hperm : (e :: (khDel h x).entries).Perm h.entries := by
    rw [KhTable.entries, hbuckets]
    exact contents_leave hlt (by rw [hx]; rfl) (by rw [hself]; rfl)
      fun _ _ hj => congrArg Cell.content (bucket_khDel_other hj)
  have hused : occupied h.n_buckets (khDel h x).bucket = occupied h.n_buckets h.bucket := by
    refine congrArg List.length (contents_congr fun j _ => ?_)
    by_cases hj : j = x
    · rw [hj, hself, hx]
      rfl
    · rw [bucket_khDel_other hj]
  refine ⟨?_, hbuckets, hself, hperm⟩
  constructor
  · rw [hbuckets]
    exact h'.n_buckets
  · rw [hbuckets, heq]
    exact h'.upper_bound
  · have hlen := hperm.length_eq
    rw [List.length_cons, ← h'.size] at hlen
    have hsize : (khDel h x).size = h.size - 1 := by rw [heq]
    omega
  · rw [hbuckets, hused, heq]
    exact h'.n_occupied
  · rw [heq]
    exact h'.n_occupied_le
  · have hnodup := (hperm.map Prod.fst).nodup_iff.mpr h'.nodup
    exact (List.nodup_cons.mp hnodup).2
  · rw [hbuckets]
    exact h'.placed.delete hself fun _ hj => bucket_khDel_other hj

/-- `kh_del` at a bucket without an entry does nothing. -/
theorem khDel_of_not_live (hx : x = h.n_buckets ∨ ∀ e, h.bucket x ≠ .live e) : khDel h x = h := by
  rw [khDel, if_neg]
  rw [Bool.and_eq_true, bne_iff_ne, Bool.not_eq_true', iseither_eq, Bool.or_eq_false_iff]
  rintro ⟨hne, hempty, hdel⟩
  rcases hx with rfl | hx
  · exact hne rfl
  · exact hx _ (bucket_eq_live_iff.mpr ⟨hempty, hdel, rfl⟩)

theorem bucket_setValue_other {v : V} {j : Nat} (hj : j ≠ x) :
    (setValue h x v).bucket j = h.bucket j :=
  bucket_congr rfl rfl rfl (Function.update_of_ne hj _ _)

/-- An assignment to the value of a bucket without an entry is not seen. -/
theorem bucket_setValue_of_not_live {v : V} (hx : ∀ e, h.bucket x ≠ .live e) :
    (setValue h x v).bucket = h.bucket := by
  funext j
  by_cases hj : j = x
  · subst hj
    exact bucket_of_not_live hx
  · exact bucket_setValue_other hj

theorem KhTable.WellFormed.of_bucket_eq (h' : h.WellFormed hash) {v : V}
    (heq : (setValue h x v).bucket = h.bucket) : (setValue h x v).WellFormed hash where
  n_buckets := h'.n_buckets
  upper_bound := h'.upper_bound
  size := h'.size.trans (by rw [KhTable.entries, KhTable.entries, heq]; rfl)
  n_occupied := h'.n_occupied.trans (by rw [heq]; rfl)
  n_occupied_le := h'.n_occupied_le
  nodup := by
    rw [KhTable.entries, heq]
    exact h'.nodup
  placed := by
    rw [heq]
    exact h'.placed

/-- An assignment to the value of an entry. -/
theorem setValue_spec (h' : h.WellFormed hash) {v w : V} (hlt : x < h.n_buckets)
    (hx : h.bucket x = .live (key, v)) :
    (setValue h x w).WellFormed hash ∧ (setValue h x w).bucket x = .live (key, w) ∧
      ∃ rest, h.entries.Perm ((key, v) :: rest) ∧
        (setValue h x w).entries.Perm ((key, w) :: rest) := by
  obtain ⟨hempty, hdel, heq⟩ := bucket_eq_live_iff.mp hx
  have hself : (setValue h x w).bucket x = .live (key, w) := by
    refine bucket_eq_live_iff.mpr ⟨hempty, hdel, ?_⟩
    have hval : Function.update h.vals x w x = w := Function.update_self x w h.vals
    exact Prod.ext (Prod.mk.inj heq).1 hval
  obtain ⟨rest, hold, hnew⟩ := contents_replace (f := fun i => (h.bucket i).content)
    (g := fun i => ((setValue h x w).bucket i).content) (a := (key, v)) (b := (key, w)) hlt
    (by rw [hx]; rfl) (by rw [hself]; rfl)
    fun _ _ hj => congrArg Cell.content (bucket_setValue_other hj)
  refine ⟨?_, hself, rest, hold, hnew⟩
  constructor
  · exact h'.n_buckets
  · exact h'.upper_bound
  · have hsize := h'.size
    have hlen := hnew.length_eq
    have hlen' := hold.length_eq
    rw [List.length_cons] at hlen hlen'
    exact hsize.trans (hlen'.trans hlen.symm)
  · refine h'.n_occupied.trans (congrArg List.length (contents_congr fun j _ => ?_))
    by_cases hj : j = x
    · rw [hj, hself, hx]
      rfl
    · rw [bucket_setValue_other hj]
  · exact h'.n_occupied_le
  · have hkeys := (hold.map Prod.fst).nodup_iff.mp h'.nodup
    exact (hnew.map Prod.fst).nodup_iff.mpr hkeys
  · exact h'.placed.assign hx hself fun _ hj => bucket_setValue_other hj

/-- `kh_clear` leaves no entries. -/
theorem khClear_spec (h' : h.WellFormed hash) :
    (khClear h).WellFormed hash ∧ (khClear h).entries = [] := by
  rw [khClear]
  split
  next hzero =>
    refine ⟨h', h'.entries_eq_nil fun hmem => ?_⟩
    have := bounds_of_mem_bucketCounts hmem
    omega
  next hpos =>
    have hnil := entries_emptyFlags h.n_buckets h.keys h.vals
    exact ⟨⟨h'.n_buckets, h'.upper_bound, (congrArg List.length hnil).symm,
      (occupied_emptyFlags h.n_buckets h.keys h.vals).symm, Nat.zero_le _,
      (congrArg (fun l => (l.map Prod.fst).Nodup) hnil).mpr .nil,
      placed_emptyFlags h.n_buckets h.keys h.vals⟩, hnil⟩

end Change

end CiteParser.Khash
