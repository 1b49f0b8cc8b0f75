import CiteParser.Core.Assoc
import CiteParser.Hash.Resize
import CiteParser.Text.Chars

/-!
# Hash tables are finite maps

What a client sees of a table: a value that is assigned through the bucket of a key, a bucket that
is deleted, a table that is cleared. Whatever the hash function is and however often the table was
hashed anew in between, a key is found with the value that it got last.
-/

namespace CiteParser.Khash

open Assoc Probing

variable {K V : Type} {hash : K → Nat} {h g : KhTable K V} {m : K → Option V} {key : K} {v : V}
  {x ret : Nat}

/-- The table is in order and has the entries of the map. -/
structure Represents (hash : K → Nat) (h : KhTable K V) (m : K → Option V) : Prop where
  wellFormed : h.WellFormed hash
  lists : Lists h.entries m

/-- The most entries that a table can have before it is given a number of buckets for which sums of
indices overflow. -/
def maxSize : Nat := 805306370

namespace Represents

theorem start [Inhabited K] [Inhabited V] (hash : K → Nat) :
    Represents hash (khInit : KhTable K V) fun _ => none :=
  ⟨wellFormed_khInit hash, .nil⟩

/-- `kh_size` is the number of the keys. -/
theorem size_eq (h' : Represents hash h m) : h.size = {key | m key ≠ none}.ncard := by
  rw [h'.lists.ncard h'.wellFormed.nodup, h'.wellFormed.size]

theorem live_iff (h' : Represents hash h m) (hx : x < h.n_buckets)
    (hlive : h.bucket x = .live (key, v)) : m key = some v :=
  (h'.lists key v).mpr (mem_entries.mpr ⟨x, hx, hlive⟩)

/-- An assignment to the value of a deleted bucket is not seen. -/
theorem setValue_of_deleted (h' : Represents hash h m) (hx : h.bucket x = .deleted) :
    Represents hash (Khash.setValue h x v) m := by
  have heq : (Khash.setValue h x v).bucket = h.bucket := bucket_setValue_of_not_live fun e he => by
    rw [hx] at he
    contradiction
  refine ⟨h'.wellFormed.of_bucket_eq heq, ?_⟩
  rw [KhTable.entries, heq]
  exact h'.lists

/-- `kh_clear` takes all keys away. -/
theorem khClear (h' : Represents hash h m) :
    Represents hash (Khash.khClear h) fun _ => none := by
  obtain ⟨hform, hnil⟩ := khClear_spec h'.wellFormed
  exact ⟨hform, hnil ▸ .nil⟩

/-! ## Room -/

/-- Tables that are full grow, or are cleared of their deleted buckets. -/
theorem makeRoom (h' : Represents hash h m) (hsize : h.size ≤ maxSize) :
    ∃ g, Khash.makeRoom hash h = some g ∧ Represents hash g m ∧ g.n_buckets ∈ bucketCounts ∧
      g.n_occupied < g.upper_bound := by
  have hresize {n asked : Nat} (hasked : primeList[primeBelow asked 31 + 1]? = some n)
      (hn : n ∈ bucketCounts) (hroom : h.size < hashUpper n) :
      ∃ g, khResize hash h asked = some g ∧ Represents hash g m ∧ g.n_buckets ∈ bucketCounts ∧
        g.n_occupied < g.upper_bound := by
    obtain ⟨g, hg, hform, rfl, hfree, hperm⟩ := khResize_spec h'.wellFormed hasked hn hroom
    exact ⟨g, hg, ⟨hform, h'.lists.perm hperm⟩, hn, hfree⟩
  have hupper := h'.wellFormed.upper_bound
  rw [Khash.makeRoom]
  split
  next hfull =>
    have hdouble : uint (h.size <<< 1) = 2 * h.size := by
      rw [Nat.shiftLeft_eq, uint, Nat.pow_one, Nat.mul_comm]
      exact Nat.mod_eq_of_lt (by rw [maxSize] at hsize; omega)
    rw [hdouble]
    split
    next hmany =>
      have hn := h'.wellFormed.n_buckets.resolve_left (by omega)
      have hbounds := bounds_of_mem_bucketCounts hn
      exact hresize (primeBelow_of_mem hn).1 hn (by omega)
    next hfew =>
      rcases h'.wellFormed.n_buckets with hzero | hn
      · have hempty : h.size = 0 := by
          rw [h'.wellFormed.size, KhTable.entries, hzero]
          rfl
        rw [hzero]
        exact hresize (n := 3) rfl (by decide) (by rw [hempty]; decide)
      · have hlt : h.n_buckets < 1610612741 := by
          rw [maxSize] at hsize
          omega
        obtain ⟨n, hmem, hmore, hasked⟩ := (primeBelow_of_mem hn).2 hlt
        have hsucc : uint (h.n_buckets + 1) = h.n_buckets + 1 := Nat.mod_eq_of_lt (by omega)
        rw [hsucc]
        have hle := h'.wellFormed.size_le.trans h'.wellFormed.n_occupied_le
        exact hresize hasked hmem (by omega)
  next hfree =>
    refine ⟨h, rfl, h', ?_, not_le.mp hfree⟩
    refine h'.wellFormed.n_buckets.resolve_left fun hzero => hfree ?_
    rw [hupper, hzero]
    exact Nat.zero_le _

variable [DecidableEq K]

/-- `kh_put` finds the bucket of a key, or makes one with whatever value is there. -/
theorem khPut (h' : Represents hash h m) (hsize : h.size ≤ maxSize) (key : K) :
    ∃ g x ret v, Khash.khPut hash h key = some (g, x, ret) ∧ x < g.n_buckets ∧
      g.bucket x = .live (key, v) ∧ (ret = 0 ↔ m key ≠ none) ∧
      Represents hash g (Function.update m key (some v)) ∧ g.size ≤ h.size + 1 := by
  obtain ⟨r, hroom, hr, hn, hfree⟩ := h'.makeRoom hsize
  obtain ⟨x, hsite, hx, hform, hbuckets, hputs⟩ := put_spec hr.wellFormed hn hfree key
  have hrun : Khash.khPut hash h key = some ((putAt r key x).1, x, (putAt r key x).2) := by
    rw [Khash.khPut, hroom]
    simp only [Option.bind_eq_bind, Option.bind_some, hsite]
    rfl
  generalize putAt r key x = out at hrun hform hbuckets hputs
  obtain ⟨g, ret⟩ := out
  have hxg : x < g.n_buckets := hbuckets ▸ hx
  cases hputs with
  | @found v hlive hperm =>
      have hm : m key = some v :=
        (hr.lists key v).mpr (hperm.mem_iff.mp (mem_entries.mpr ⟨x, hxg, hlive⟩))
      have hsame : Represents hash g m := ⟨hform, hr.lists.perm hperm⟩
      refine ⟨g, x, 0, v, hrun, hxg, hlive, ?_, ?_, ?_⟩
      · rw [hm]
        simp
      · rwa [← hm, Function.update_eq_self]
      · rw [hsame.size_eq, h'.size_eq]
        exact Nat.le_succ _
  | @added _ v hret hmissing hlive hperm =>
      refine ⟨g, x, ret, v, hrun, hxg, hlive, ?_,
        ⟨hform, (hr.lists.cons hmissing).perm hperm⟩, ?_⟩
      · rw [hr.lists.eq_none_iff.mpr hmissing]
        simp [hret]
      · rw [hform.size, hperm.length_eq, List.length_cons, ← hr.wellFormed.size, hr.size_eq,
          h'.size_eq]

/-- `kh_del` takes the key of the bucket away. -/
theorem khDel (h' : Represents hash h m) (hx : x < h.n_buckets)
    (hlive : h.bucket x = .live (key, v)) :
    Represents hash (Khash.khDel h x) (Function.update m key none) := by
  obtain ⟨hform, -, -, hperm⟩ := khDel_spec h'.wellFormed hx hlive
  have hnodup := (hperm.map Prod.fst).nodup_iff.mpr h'.wellFormed.nodup
  exact ⟨hform, (h'.lists.perm hperm).tail (not_mem_of_nodup hnodup)⟩

/-- An assignment gives the key of the bucket its value. -/
theorem setValue {w : V} (h' : Represents hash h m) (hx : x < h.n_buckets)
    (hlive : h.bucket x = .live (key, v)) :
    Represents hash (Khash.setValue h x w) (Function.update m key (some w)) := by
  obtain ⟨hform, -, rest, hold, hnew⟩ := setValue_spec (w := w) h'.wellFormed hx hlive
  have hnodup := (hold.map Prod.fst).nodup_iff.mp h'.wellFormed.nodup
  have hkey := fun u => not_mem_of_nodup hnodup u
  exact ⟨hform, ((h'.lists.perm hold.symm).replace hkey).perm hnew⟩

end Represents

/-! ## The operations of a client -/

variable [DecidableEq K]

/-- The value that a client finds under a key, if any. -/
def khFind (hash : K → Nat) (h : KhTable K V) (key : K) : Option (Option V) := do
  let x ← khGet hash h key
  return if x = h.n_buckets then none else some (h.vals x)

/-- A value is found under a key exactly if the map has it. -/
theorem Represents.khFind (h' : Represents hash h m) (key : K) :
    Khash.khFind hash h key = some (m key) := by
  obtain ⟨x, hget, hx⟩ := khGet_spec h'.wellFormed key
  rw [Khash.khFind, hget]
  rcases hx with ⟨rfl, hmissing⟩ | ⟨hlt, v, hlive⟩
  · rw [h'.lists.eq_none_iff.mpr hmissing]
    exact congrArg some (if_pos rfl)
  · rw [h'.live_iff hlt hlive]
    obtain ⟨-, -, heq⟩ := bucket_eq_live_iff.mp hlive
    rw [← (Prod.mk.inj heq).2]
    exact congrArg some (if_neg hlt.ne)

/-- What a client does to a table. -/
inductive KhOp (K V : Type) where
  | store (key : K) (val : V)
  | remove (key : K)
  | clear

namespace KhOp

/-- The calls and assignments for the operation. -/
def run (hash : K → Nat) (h : KhTable K V) : KhOp K V → Option (KhTable K V)
  | store key val => do
      let (h, x, _) ← khPut hash h key
      return setValue h x val
  | remove key => do
      let x ← khGet hash h key
      return khDel h x
  | clear => some (khClear h)

/-- What the operation is for. -/
def apply (m : K → Option V) : KhOp K V → K → Option V
  | store key val => Function.update m key (some val)
  | remove key => Function.update m key none
  | clear => fun _ => none

/-- An operation does to the table what it is for. -/
theorem run_spec (h' : Represents hash h m) (hsize : h.size ≤ maxSize) (op : KhOp K V) :
    ∃ g, op.run hash h = some g ∧ Represents hash g (op.apply m) ∧ g.size ≤ h.size + 1 := by
  cases op with
  | store key val =>
      obtain ⟨g, x, ret, v, hput, hx, hlive, -, hg, hle⟩ := h'.khPut hsize key
      refine ⟨setValue g x val, ?_, ?_, hle⟩
      · rw [run, hput]
        rfl
      · have hval := hg.setValue (w := val) hx hlive
        rwa [Function.update_idem] at hval
  | remove key =>
      obtain ⟨x, hget, hx⟩ := khGet_spec h'.wellFormed key
      refine ⟨khDel h x, ?_, ?_, ?_⟩
      · rw [run, hget]
        rfl
      · rcases hx with ⟨heq, hmissing⟩ | ⟨hlt, v, hlive⟩
        · rw [khDel_of_not_live (.inl heq), apply, ← h'.lists.eq_none_iff.mpr hmissing,
            Function.update_eq_self]
          exact h'
        · exact h'.khDel hlt hlive
      · rw [khDel]
        split
        · exact (Nat.sub_le _ _).trans (Nat.le_succ _)
        · exact Nat.le_succ _
  | clear =>
      refine ⟨khClear h, rfl, h'.khClear, ?_⟩
      rw [h'.khClear.wellFormed.size, (khClear_spec h'.wellFormed).2]
      exact Nat.zero_le _

end KhOp

/-- A client uses a new table. -/
def khRun [Inhabited K] [Inhabited V] (hash : K → Nat) (ops : List (KhOp K V)) :
    Option (KhTable K V) :=
  ops.foldlM (KhOp.run hash) khInit

/-- What it is used for. -/
def mapRun (ops : List (KhOp K V)) : K → Option V := ops.foldl KhOp.apply fun _ => none

/-- Operations on a table that represents a map. -/
theorem foldlM_spec {ops : List (KhOp K V)} (h' : Represents hash h m)
    (hsize : h.size + ops.length ≤ maxSize + 1) :
    ∃ g, ops.foldlM (KhOp.run hash) h = some g ∧
      Represents hash g (ops.foldl KhOp.apply m) := by
  induction ops generalizing h m with
  | nil => exact ⟨h, rfl, h'⟩
  | cons op ops ih =>
      rw [List.length_cons] at hsize
      obtain ⟨g, hrun, hg, hle⟩ := KhOp.run_spec h' (by omega) op
      rw [List.foldlM_cons, hrun]
      exact ih hg (by omega)

/-- Whatever the hash function is, a table is a finite map in every run that does not put more
entries into it than it can have: every call returns, and a key is found with the value it got last
unless it was removed. -/
theorem khRun_spec [Inhabited K] [Inhabited V] (hash : K → Nat) {ops : List (KhOp K V)}
    (hlen : ops.length ≤ maxSize + 1) :
    ∃ h, khRun hash ops = some h ∧ (∀ key, khFind hash h key = some (mapRun ops key)) ∧
      h.size = {key | mapRun ops key ≠ none}.ncard ∧ h.size ≤ h.n_occupied ∧
      h.n_occupied ≤ hashUpper h.n_buckets := by
  obtain ⟨h, hrun, hh⟩ := foldlM_spec (Represents.start hash)
    (show (khInit : KhTable K V).size + ops.length ≤ maxSize + 1 from
      (Nat.zero_add _).trans_le hlen)
  exact ⟨h, hrun, hh.khFind, hh.size_eq, hh.wellFormed.size_le,
    hh.wellFormed.n_occupied_le.trans_eq hh.wellFormed.upper_bound⟩

/-- Three values for two names, and one of the names removed. -/
theorem khRun_names : ∃ h,
    khRun x31HashString [.store (bytes "bagga") 1, .store (bytes "baldwin") 2,
      .store (bytes "bagga") 3, .remove (bytes "baldwin")] = some h ∧
    khFind x31HashString h (bytes "bagga") = some (some 3) ∧
    khFind x31HashString h (bytes "baldwin") = some none := by
  obtain ⟨h, hrun, hfind, -⟩ := @khRun_spec (List UInt8) Nat _ _ _ x31HashString
    [.store (bytes "bagga") 1, .store (bytes "baldwin") 2, .store (bytes "bagga") 3,
      .remove (bytes "baldwin")] (by decide)
  refine ⟨h, hrun, (hfind _).trans ?_, (hfind _).trans ?_⟩
  · decide +kernel
  · decide +kernel

end CiteParser.Khash
