import CiteParser.Core.BitPairs
import CiteParser.Core.Probing
import CiteParser.Core.TrialDivision
import CiteParser.Hash.Khash

/-!
# The buckets of a hash table

The flags as two bits for each bucket, and the buckets as the cells of a table that is probed. The
number of the buckets is a prime, so that the steps that a key makes lead through all of them.
-/

namespace CiteParser.Khash

open Probing

section Flags

variable {flag : Flags} {i j : Nat}

theorem place_eq (i : Nat) : (i &&& 0xf) <<< 1 = 2 * (i % 16) := by
  have hmod : i &&& 0xf = i % 16 := Nat.and_two_pow_sub_one_eq_mod i 4
  rw [hmod, Nat.shiftLeft_eq, Nat.pow_one, Nat.mul_comm]

theorem word_eq (i : Nat) : i >>> 4 = i / 16 := Nat.shiftRight_eq_div_pow i 4

theorem isempty_eq_bitOf (flag : Flags) (i : Nat) : isempty flag i = BitPairs.bitOf flag i 1 := by
  rw [isempty, place_eq, word_eq]
  exact BitPairs.and_ne_zero_iff _ _ 1 (by decide)

theorem isdel_eq_bitOf (flag : Flags) (i : Nat) : isdel flag i = BitPairs.bitOf flag i 0 := by
  rw [isdel, place_eq, word_eq]
  exact BitPairs.and_ne_zero_iff _ _ 0 (by decide)

theorem iseither_eq (flag : Flags) (i : Nat) :
    iseither flag i = (isempty flag i || isdel flag i) := by
  have hthree : (3 : BitVec 32) = 2 ||| 1 := rfl
  rw [iseither, isempty, isdel, hthree, BitVec.and_or_distrib_left]
  generalize flag (i >>> 4) >>> ((i &&& 0xf) <<< 1) &&& 2 = a
  generalize flag (i >>> 4) >>> ((i &&& 0xf) <<< 1) &&& 1 = b
  rw [Bool.eq_iff_iff, Bool.or_eq_true, bne_iff_ne, bne_iff_ne, bne_iff_ne, ← not_and_or,
    not_iff_not]
  exact BitVec.or_eq_zero_iff

@[simp] theorem isempty_setIsemptyFalse :
    isempty (setIsemptyFalse flag i) j = (isempty flag j && !decide (i = j)) := by
  rw [isempty_eq_bitOf, isempty_eq_bitOf, setIsemptyFalse, place_eq, word_eq]
  exact (BitPairs.bitOf_clear 2#32 (by decide) (by decide)).trans
    (by rw [show (2#32).getLsbD 1 = true from rfl, Bool.and_true])

@[simp] theorem isdel_setIsemptyFalse : isdel (setIsemptyFalse flag i) j = isdel flag j := by
  rw [isdel_eq_bitOf, isdel_eq_bitOf, setIsemptyFalse, place_eq, word_eq]
  exact (BitPairs.bitOf_clear 2#32 (by decide) (by decide)).trans
    (by rw [show (2#32).getLsbD 0 = false from rfl, Bool.and_false, Bool.not_false, Bool.and_true])

@[simp] theorem isempty_setIsbothFalse :
    isempty (setIsbothFalse flag i) j = (isempty flag j && !decide (i = j)) := by
  rw [isempty_eq_bitOf, isempty_eq_bitOf, setIsbothFalse, place_eq, word_eq]
  exact (BitPairs.bitOf_clear 3#32 (by decide) (by decide)).trans
    (by rw [show (3#32).getLsbD 1 = true from rfl, Bool.and_true])

@[simp] theorem isdel_setIsbothFalse :
    isdel (setIsbothFalse flag i) j = (isdel flag j && !decide (i = j)) := by
  rw [isdel_eq_bitOf, isdel_eq_bitOf, setIsbothFalse, place_eq, word_eq]
  exact (BitPairs.bitOf_clear 3#32 (by decide) (by decide)).trans
    (by rw [show (3#32).getLsbD 0 = true from rfl, Bool.and_true])

@[simp] theorem isempty_setIsdelTrue : isempty (setIsdelTrue flag i) j = isempty flag j := by
  rw [isempty_eq_bitOf, isempty_eq_bitOf, setIsdelTrue, place_eq, word_eq]
  exact (BitPairs.bitOf_set 1#32 (by decide) (by decide)).trans
    (by rw [show (1#32).getLsbD 1 = false from rfl, Bool.and_false, Bool.or_false])

@[simp] theorem isdel_setIsdelTrue :
    isdel (setIsdelTrue flag i) j = (isdel flag j || decide (i = j)) := by
  rw [isdel_eq_bitOf, isdel_eq_bitOf, setIsdelTrue, place_eq, word_eq]
  exact (BitPairs.bitOf_set 1#32 (by decide) (by decide)).trans
    (by rw [show (1#32).getLsbD 0 = true from rfl, Bool.and_true])

@[simp] theorem isempty_emptyFlags : isempty emptyFlags i = true := by
  rw [isempty_eq_bitOf, BitPairs.bitOf]
  have hlt : i % 16 < 16 := Nat.mod_lt i (by decide)
  generalize i % 16 = r at hlt
  change (0xaaaaaaaa#32).getLsbD (2 * r + 1) = true
  revert r
  decide

@[simp] theorem isdel_emptyFlags : isdel emptyFlags i = false := by
  rw [isdel_eq_bitOf, BitPairs.bitOf]
  have hlt : i % 16 < 16 := Nat.mod_lt i (by decide)
  generalize i % 16 = r at hlt
  change (0xaaaaaaaa#32).getLsbD (2 * r + 0) = false
  revert r
  decide

end Flags

/-! ## The numbers of buckets -/

/-- The numbers of buckets for which no sum of two of their indices overflows. -/
def bucketCounts : List Nat := (primeList.take 30).drop 1

theorem prime_of_mem_bucketCounts {n : Nat} (h : n ∈ bucketCounts) : n.Prime := by
  have htest : ∀ e ∈ (bucketCounts.drop 1).zipIdx,
      TrialDivision.isPrime e.1 (e.2 / 2 + 2) = true := by decide +kernel
  rcases List.mem_cons.mp (show n ∈ 3 :: bucketCounts.drop 1 from h) with rfl | hmem
  · exact Nat.prime_three
  · obtain ⟨i, hi, rfl⟩ := List.mem_iff_getElem.mp hmem
    exact TrialDivision.prime_of_isPrime (htest (_, i) (List.mk_mem_zipIdx_iff_getElem?.mpr
      (List.getElem?_eq_getElem hi)))

theorem bounds_of_mem_bucketCounts {n : Nat} (h : n ∈ bucketCounts) :
    3 ≤ n ∧ n ≤ 1610612741 ∧ 2 ≤ hashUpper n ∧ hashUpper n < n ∧ n / 2 < hashUpper n := by
  revert n
  decide

/-- A table that is hashed anew at its size, and one that grows. -/
theorem primeBelow_of_mem {n : Nat} (h : n ∈ bucketCounts) :
    primeList[primeBelow (n - 1) 31 + 1]? = some n ∧
      (n < 1610612741 → ∃ m ∈ bucketCounts, hashUpper n < hashUpper m ∧
        primeList[primeBelow (n + 1) 31 + 1]? = some m) := by
  revert n
  decide +kernel

/-! ## The order of the buckets for a key -/

section Order

variable {K V : Type} {hash : K → Nat} {n : Nat} {key : K}

/-- The buckets in the order in which a key is looked for. -/
def order (hash : K → Nat) (n : Nat) (key : K) (t : Nat) : Nat :=
  probe n (1 + hash key % (n - 1)) (hash key % n) t

theorem order_zero : order hash n key 0 = hash key % n := by
  rw [order, probe_zero, Nat.mod_mod]

theorem sweeps_order (hash : K → Nat) (h : n ∈ bucketCounts) (key : K) :
    Sweeps n (order hash n key) := by
  obtain ⟨hthree, -⟩ := bounds_of_mem_bucketCounts h
  have hinc : hash key % (n - 1) < n - 1 := Nat.mod_lt _ (by omega)
  refine sweeps_probe _ (by omega) (Nat.coprime_comm.mp ?_)
  rw [(prime_of_mem_bucketCounts h).coprime_iff_not_dvd]
  exact Nat.not_dvd_of_pos_of_lt (by omega) (by omega)

theorem advance_order (h : n ∈ bucketCounts) (t : Nat) :
    advance n (1 + hash key % (n - 1)) (order hash n key t) = order hash n key (t + 1) := by
  obtain ⟨hthree, hle, -⟩ := bounds_of_mem_bucketCounts h
  have hinc : hash key % (n - 1) < n - 1 := Nat.mod_lt _ (by omega)
  have hlt := (sweeps_order hash h key).lt t
  have hsum : uint (order hash n key t + (1 + hash key % (n - 1))) =
      order hash n key t + (1 + hash key % (n - 1)) := Nat.mod_eq_of_lt (by omega)
  rw [advance, hsum]
  exact step_probe (by omega) (by omega)

/-- A search that has not come to its end is not back where it began. -/
theorem order_succ_ne {t s : Nat} (h : n ∈ bucketCounts) (ht : t < n) (hs : s < t) :
    order hash n key (s + 1) ≠ order hash n key 0 := fun heq =>
  absurd ((sweeps_order hash h key).inj _ (by omega) _ (by omega) heq) (Nat.succ_ne_zero s)

end Order

/-! ## What the buckets hold -/

section Bucket

variable {K V : Type} {flags : Flags} {keys : Nat → K} {vals : Nat → V} {i : Nat}

/-- What a bucket holds. -/
def bucket (flags : Flags) (keys : Nat → K) (vals : Nat → V) (i : Nat) : Cell (K × V) :=
  if isempty flags i then .empty else if isdel flags i then .deleted else .live (keys i, vals i)

theorem bucket_eq_empty_iff : bucket flags keys vals i = .empty ↔ isempty flags i = true := by
  rw [bucket]
  cases isempty flags i <;> cases isdel flags i <;> simp

theorem bucket_eq_live_iff {e : K × V} : bucket flags keys vals i = .live e ↔
    isempty flags i = false ∧ isdel flags i = false ∧ (keys i, vals i) = e := by
  rw [bucket]
  cases isempty flags i <;> cases isdel flags i <;> simp

theorem bucket_eq_deleted_iff : bucket flags keys vals i = .deleted ↔
    isempty flags i = false ∧ isdel flags i = true := by
  rw [bucket]
  cases isempty flags i <;> cases isdel flags i <;> simp

/-- What a bucket holds depends on its own flags, key and value. -/
theorem bucket_congr {flags' : Flags} {keys' : Nat → K} {vals' : Nat → V}
    (hempty : isempty flags' i = isempty flags i) (hdel : isdel flags' i = isdel flags i)
    (hkey : keys' i = keys i) (hval : vals' i = vals i) :
    bucket flags' keys' vals' i = bucket flags keys vals i := by
  rw [bucket, bucket, hempty, hdel, hkey, hval]

/-- A bucket without an entry does not show its key and its value. -/
theorem bucket_of_not_live {keys' : Nat → K} {vals' : Nat → V}
    (h : ∀ e, bucket flags keys vals i ≠ .live e) :
    bucket flags keys' vals' i = bucket flags keys vals i := by
  rw [bucket] at h ⊢
  rw [bucket]
  split
  · rfl
  next hempty =>
    rw [if_neg hempty] at h
    split
    · rfl
    next hdel =>
      rw [if_neg hdel] at h
      exact absurd rfl (h _)

/-- Buckets whose flags have just been set hold nothing. -/
@[simp] theorem bucket_emptyFlags (keys : Nat → K) (vals : Nat → V) (i : Nat) :
    bucket emptyFlags keys vals i = .empty :=
  bucket_eq_empty_iff.mpr isempty_emptyFlags

theorem entries_emptyFlags (n : Nat) (keys : Nat → K) (vals : Nat → V) :
    entries n (bucket emptyFlags keys vals) = [] := by
  simp [entries, Cells.contents, Cell.content]

theorem occupied_emptyFlags (n : Nat) (keys : Nat → K) (vals : Nat → V) :
    occupied n (bucket emptyFlags keys vals) = 0 := by
  simp [occupied, Cells.contents, Cell.used]

theorem placed_emptyFlags {seq : K → Nat → Nat} (n : Nat) (keys : Nat → K) (vals : Nat → V) :
    Placed seq n (bucket emptyFlags keys vals) := by
  intro i _ e he
  rw [bucket_emptyFlags] at he
  contradiction

end Bucket

end CiteParser.Khash
