import CiteParser.Hash.Buckets

/-!
# Looking a key up

The state of a table between the calls, and what `kh_get` finds in it.
-/

namespace CiteParser.Khash

open Cells Loop Probing

variable {K V : Type}

namespace KhTable

/-- What a bucket of the table holds. -/
def bucket (h : KhTable K V) : Nat → Cell (K × V) := Khash.bucket h.flags h.keys h.vals

/-- What the table has. -/
def entries (h : KhTable K V) : List (K × V) := Probing.entries h.n_buckets h.bucket

/-- The counters are right, no key is there twice, and every entry is where its search leads. -/
structure WellFormed (hash : K → Nat) (h : KhTable K V) : Prop where
  n_buckets : h.n_buckets = 0 ∨ h.n_buckets ∈ bucketCounts
  upper_bound : h.upper_bound = hashUpper h.n_buckets
  size : h.size = h.entries.length
  n_occupied : h.n_occupied = occupied h.n_buckets h.bucket
  n_occupied_le : h.n_occupied ≤ h.upper_bound
  nodup : (h.entries.map Prod.fst).Nodup
  placed : Placed (order hash h.n_buckets) h.n_buckets h.bucket

end KhTable

section Get

variable {hash : K → Nat} {h : KhTable K V} {key : K} {t : Nat}

open KhTable

/-- A new table is empty. -/
theorem wellFormed_khInit [Inhabited K] [Inhabited V] (hash : K → Nat) :
    (khInit : KhTable K V).WellFormed hash where
  n_buckets := .inl rfl
  upper_bound := (by decide : 0 = hashUpper 0)
  size := rfl
  n_occupied := rfl
  n_occupied_le := le_rfl
  nodup := .nil
  placed := fun _ hi => absurd hi (Nat.not_lt_zero _)

namespace KhTable.WellFormed

theorem size_le (h' : h.WellFormed hash) : h.size ≤ h.n_occupied := by
  rw [h'.size, h'.n_occupied]
  exact length_entries_le_occupied

theorem exists_empty (h' : h.WellFormed hash) (hn : h.n_buckets ∈ bucketCounts) :
    ∃ i < h.n_buckets, h.bucket i = .empty := by
  refine Probing.exists_empty ?_
  have hle := h'.n_occupied_le
  rw [h'.n_occupied, h'.upper_bound] at hle
  exact hle.trans_lt (bounds_of_mem_bucketCounts hn).2.2.2.1

theorem entries_eq_nil (h' : h.WellFormed hash) (hn : h.n_buckets ∉ bucketCounts) :
    h.entries = [] := by
  rw [entries, h'.n_buckets.resolve_right hn]
  rfl

theorem exists_endsAt (h' : h.WellFormed hash) (hn : h.n_buckets ∈ bucketCounts) (key : K) :
    ∃ t, EndsAt (order hash h.n_buckets) h.n_buckets h.bucket key t :=
  Probing.exists_endsAt (sweeps_order hash hn) (h'.exists_empty hn) key

end KhTable.WellFormed

variable [DecidableEq K]

/-- The loops go on behind the buckets at which the search does not stop. -/
theorem passedOver_iff {i : Nat} : passedOver h key i = true ↔ ¬ Stops h.bucket key i := by
  rw [passedOver, Stops, KhTable.bucket, bucket_eq_empty_iff]
  simp only [bucket_eq_live_iff, Prod.mk.injEq]
  cases isempty h.flags i <;> cases isdel h.flags i <;> simp

theorem passedOver_of_lt (h' : EndsAt (order hash h.n_buckets) h.n_buckets h.bucket key t)
    {s : Nat} (hs : s < t) : passedOver h key (order hash h.n_buckets key s) = true :=
  passedOver_iff.mpr (h'.goesOn s hs)

theorem not_passedOver (h' : EndsAt (order hash h.n_buckets) h.n_buckets h.bucket key t) :
    passedOver h key (order hash h.n_buckets key t) = false := by
  rw [← Bool.not_eq_true, passedOver_iff, not_not]
  exact h'.stops

/-- `kh_get` comes to where the search ends. -/
theorem khGet_eq (hn : h.n_buckets ∈ bucketCounts)
    (h' : EndsAt (order hash h.n_buckets) h.n_buckets h.bucket key t) :
    khGet hash h key = some (if iseither h.flags (order hash h.n_buckets key t) then h.n_buckets
      else order hash h.n_buckets key t) := by
  have hzero : h.n_buckets ≠ 0 := by
    have := bounds_of_mem_bucketCounts hn
    omega
  rw [khGet, if_neg hzero]
  have hstart : hash key % h.n_buckets = order hash h.n_buckets key 0 := order_zero.symm
  simp only [hstart]
  refine run_along (fun s hs => ?_) ?_ (Nat.lt_succ_of_lt h'.lt)
  · simp only [getPass, passedOver_of_lt h' hs, if_true]
    rw [advance_order hn, if_neg (order_succ_ne hn h'.lt hs)]
  · rw [getPass, not_passedOver h', if_neg Bool.false_ne_true]

/-- `kh_get` finds the bucket of a key, and says that there is none if it is not in the table. -/
theorem khGet_spec (h' : h.WellFormed hash) (key : K) :
    ∃ x, khGet hash h key = some x ∧
      ((x = h.n_buckets ∧ ∀ v, (key, v) ∉ h.entries) ∨
        x < h.n_buckets ∧ ∃ v, h.bucket x = .live (key, v)) := by
  by_cases hn : h.n_buckets ∈ bucketCounts
  · obtain ⟨t, ht⟩ := h'.exists_endsAt hn key
    refine ⟨_, khGet_eq hn ht, ?_⟩
    have hsweeps := sweeps_order hash hn
    rcases ht.stops with hempty | ⟨v, hv⟩
    · refine .inl ⟨?_, fun v hmem => ?_⟩
      · rw [iseither_eq, bucket_eq_empty_iff.mp hempty, Bool.true_or, if_pos rfl]
      · have hlive := ht.live_of_mem hsweeps h'.placed h'.nodup hmem
        rw [hempty] at hlive
        contradiction
    · obtain ⟨hempty, hdel, -⟩ := bucket_eq_live_iff.mp hv
      rw [iseither_eq, hempty, hdel, Bool.false_or, if_neg Bool.false_ne_true]
      exact .inr ⟨(hsweeps key).lt t, v, hv⟩
  · refine ⟨0, ?_, .inl ⟨(h'.n_buckets.resolve_right hn).symm, fun v hmem => ?_⟩⟩
    · rw [khGet, if_pos (h'.n_buckets.resolve_right hn)]
    · rw [h'.entries_eq_nil hn] at hmem
      exact List.not_mem_nil hmem

end Get

end CiteParser.Khash
