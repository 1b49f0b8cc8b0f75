import CiteParser.Area.EndRecords
import CiteParser.Area.Stacks
import Mathlib.Algebra.Order.BigOperators.Group.List

/-!
# Merging the keyword stacks

`genStartSampleCtl` takes the offsets off its five stacks in clusters: the greatest top is the
offset of a record, and each stack whose top is close to it loses its top. All five tops are
looked at in every round, although only the round as a whole is known to find a stack that is
not empty.
-/

namespace CiteParser

open Loop

/-- A record of the feature container, as far as the merge and the pass on the adjacent offsets
write it. -/
structure FeatureData where
  t : Fin 5 → Nat
  positive : Bool
  offset : Int
  adjacencyOffset : Int × Int

/-- The offset at an index of a stack, if one has been put there. -/
def StackInfo.entry (info : StackInfo) (j : Int) : Option Int :=
  if 0 ≤ j then (info.data[j.toNat]?).map fun n : Nat => (n : Int) else none

/-- `info.data[j]`, where `outside` is found in front of the array and behind its entries. -/
def StackInfo.read (info : StackInfo) (outside : Int → Int) (j : Int) : Int :=
  (info.entry j).getD (outside j)

/-- A round of the merge: the heights it finds, what it takes off the stacks and the record it
appends. -/
structure Cluster where
  tops : Fin 5 → Int
  popped : Fin 5 → Option Int
  mfd : FeatureData

/-- The variables of the merge. -/
structure Merge where
  tops : Fin 5 → Int
  count : Fin 5 → Nat
  mfd : FeatureData
  clusters : List Cluster

/-- `allZero(info, FEATURE_SIZE)`. -/
def allZero (tops : Fin 5 → Int) : Bool := (List.finRange 5).all fun k => tops k ≤ 0

/-- `maxTop(info, FEATURE_SIZE)`, where `none` stands for -1. -/
def maxTop (tops heads : Fin 5 → Int) : Option (Fin 5) :=
  ((List.finRange 5).foldl (fun best k =>
    if tops k ≤ 0 then best
    else if best.1 < heads k then (heads k, some k) else best) ((-1 : Int), none)).2

/-- The stacks of a cluster lose their tops and the record is appended. -/
def Merge.take (s : Merge) (refOffset : Nat) (maxoffset : Int) (heads : Fin 5 → Int)
    (isNear : Fin 5 → Bool) : Merge :=
  let mfd :=
    { s.mfd with
      positive := absDiff refOffset maxoffset < 10
      offset := maxoffset
      t := fun k => if isNear k then s.count k else 0 }
  { tops := fun k => if isNear k then s.tops k - 1 else s.tops k
    count := fun k => if isNear k then s.count k + 1 else s.count k
    mfd
    clusters := s.clusters ++ [⟨s.tops, fun k => if isNear k then some (heads k) else none, mfd⟩] }

section Rounds

variable (info : Fin 5 → StackInfo) (refOffset : Nat)

/-- A round of the merge loop. -/
def mergeRound (outside : Fin 5 → Int → Int) (s : Merge) : Outcome Merge Merge :=
  if allZero s.tops then .exit s
  else
    let heads := fun k => (info k).read (outside k) (s.tops k - 1)
    match maxTop s.tops heads with
    | none => .exit s
    | some maxid =>
        let maxoffset := heads maxid
        .next (s.take refOffset maxoffset heads fun k => absDiff (heads k) maxoffset < 10)

/-- The variables in front of the merge loop. -/
def mergeStart (mfd : FeatureData) : Merge where
  tops k := (info k).data.length
  count _ := 1
  mfd := mfd
  clusters := []

/-- The passes that are enough for any merge. -/
def mergeFuel : Nat := ((List.finRange 5).map fun k => (info k).data.length).sum + 1

/-- The merge loop of `genStartSampleCtl`; `none` stands for a loop that goes on beyond the
bound. -/
def mergeRun (outside : Fin 5 → Int → Int) (mfd : FeatureData) : Option Merge :=
  run (mergeRound info refOffset outside) (mergeFuel info) (mergeStart info mfd)

/-- A round that leaves empty stacks alone. -/
def expectedRound (s : Merge) : Outcome Merge Merge :=
  if allZero s.tops then .exit s
  else
    let heads := fun k => (info k).read (fun _ => 0) (s.tops k - 1)
    match maxTop s.tops heads with
    | none => .exit s
    | some maxid =>
        let maxoffset := heads maxid
        .next (s.take refOffset maxoffset heads fun k =>
          0 < s.tops k && absDiff (heads k) maxoffset < 10)

/-- The merge that leaves empty stacks alone. -/
def expectedRun (mfd : FeatureData) : Option Merge :=
  run (expectedRound info refOffset) (mergeFuel info) (mergeStart info mfd)

end Rounds

/-- What is expected of the merge: only tops of stacks that have one are looked at, each offset
is taken once and into a cluster near to it, the offsets of the clusters fall and the container
is large enough. -/
structure Merges (info : Fin 5 → StackInfo) (clusters : List Cluster) : Prop where
  inspects : ∀ c ∈ clusters, ∀ k, 1 ≤ c.tops k
  once : ∀ k, clusters.filterMap (fun c => c.popped k) =
    ((info k).data.map fun n : Nat => (n : Int)).reverse
  near : ∀ c ∈ clusters, ∀ k x, c.popped k = some x → |x - c.mfd.offset| < 10
  decreasing : clusters.Pairwise fun c d => d.mfd.offset < c.mfd.offset
  room : clusters.length ≤ 1024

/-- The last cluster takes an offset off each of the five stacks. -/
def EndTogether (clusters : List Cluster) : Prop :=
  ∀ c, clusters.getLast? = some c → ∀ k, (c.popped k).isSome = true

section Tops

variable {tops heads : Fin 5 → Int}

theorem allZero_iff : allZero tops = true ↔ ∀ k, tops k ≤ 0 := by simp [allZero]

/-- The running maximum over some stacks. -/
theorem maxTop_fold (l : List (Fin 5)) (best : Int × Option (Fin 5)) :
    let r := l.foldl (fun best k =>
      if tops k ≤ 0 then best
      else if best.1 < heads k then (heads k, some k) else best) best
    best.1 ≤ r.1 ∧ (∀ k ∈ l, 0 < tops k → heads k ≤ r.1) ∧
      (r = best ∨ ∃ k, r = (heads k, some k) ∧ 0 < tops k) := by
  induction l generalizing best with
  | nil => simp
  | cons j l ih =>
      simp only [List.foldl_cons, List.forall_mem_cons]
      split
      next hj =>
          obtain ⟨hle, hall, hr⟩ := ih best
          exact ⟨hle, ⟨fun hpos => absurd hpos (not_lt.mpr hj), hall⟩, hr⟩
      next hj =>
          split
          next hlt =>
              obtain ⟨hle, hall, hr⟩ := ih (heads j, some j)
              refine ⟨hlt.le.trans hle, ⟨fun _ => hle, hall⟩, ?_⟩
              rcases hr with hr | hr
              · exact .inr ⟨j, hr, not_le.mp hj⟩
              · exact .inr hr
          next hge =>
              obtain ⟨hle, hall, hr⟩ := ih best
              exact ⟨hle, ⟨fun _ => (not_lt.mp hge).trans hle, hall⟩, hr⟩

/-- If some stack is not empty, one with the greatest top is found. -/
theorem maxTop_spec (hheads : ∀ k, 0 < tops k → 0 ≤ heads k) (hzero : allZero tops = false) :
    ∃ k, maxTop tops heads = some k ∧ 0 < tops k ∧ ∀ j, 0 < tops j → heads j ≤ heads k := by
  obtain ⟨-, hall, hr⟩ :=
    @maxTop_fold tops heads (List.finRange 5) (-1, none)
  obtain ⟨j, hj⟩ : ∃ j, 0 < tops j := by
    by_contra hnone
    rw [allZero_iff.mpr fun k => not_lt.mp fun hk => hnone ⟨k, hk⟩] at hzero
    exact Bool.noConfusion hzero
  rcases hr with hr | ⟨k, hr, hk⟩
  · have hle := hall j (List.mem_finRange j) hj
    rw [hr] at hle
    have := hheads j hj
    omega
  · rw [hr] at hall
    refine ⟨k, ?_, hk, fun i hi => hall i (List.mem_finRange i) hi⟩
    rw [maxTop, hr]

end Tops

section Heads

/-- Each stack has as many offsets as it is high, or more. -/
def InRange (info : Fin 5 → StackInfo) (tops : Fin 5 → Int) : Prop :=
  ∀ k, tops k ≤ (info k).data.length

variable {info : Fin 5 → StackInfo} {tops : Fin 5 → Int}

theorem StackInfo.entry_of_lt (info : StackInfo) {n : Nat} (h : n < info.data.length) :
    info.entry n = some (info.data[n] : Int) := by
  simp [StackInfo.entry, h]

/-- What is read as the top of a stack that has one is that offset. -/
theorem read_top (hrange : InRange info tops) (outside : Int → Int) {k : Fin 5}
    (hk : 0 < tops k) : ∃ h : (tops k - 1).toNat < (info k).data.length,
      (info k).read outside (tops k - 1) = ((info k).data[(tops k - 1).toNat] : Int) := by
  have hlt : (tops k - 1).toNat < (info k).data.length := by
    have := hrange k
    omega
  refine ⟨hlt, ?_⟩
  have hentry := (info k).entry_of_lt hlt
  rw [Int.toNat_of_nonneg (by omega)] at hentry
  rw [StackInfo.read, hentry, Option.getD_some]

theorem read_top_nonneg (hrange : InRange info tops) (outside : Int → Int) {k : Fin 5}
    (hk : 0 < tops k) : 0 ≤ (info k).read outside (tops k - 1) := by
  obtain ⟨_, hread⟩ := read_top hrange outside hk
  omega

theorem read_top_eq (hrange : InRange info tops) (outside outside' : Int → Int) {k : Fin 5}
    (hk : 0 < tops k) : (info k).read outside (tops k - 1) =
      (info k).read outside' (tops k - 1) := by
  obtain ⟨_, hread⟩ := read_top hrange outside hk
  obtain ⟨_, hread'⟩ := read_top hrange outside' hk
  rw [hread, hread']

theorem absDiff_eq (x y : Int) : absDiff x y = |x - y| := by
  rw [absDiff]
  split
  · rw [abs_of_pos (by omega)]
  · rw [abs_of_nonpos (by omega)]
    omega

/-- What a stack holds below a height. -/
def StackInfo.below (info : StackInfo) (top : Int) : List Int :=
  (info.data.take top.toNat).map fun n : Nat => (n : Int)

/-- The top of a stack stands on what is below it. -/
theorem below_top (hrange : InRange info tops) (outside : Int → Int) {k : Fin 5}
    (hk : 0 < tops k) : (info k).below (tops k) =
      (info k).below (tops k - 1) ++ [(info k).read outside (tops k - 1)] := by
  obtain ⟨hlt, hread⟩ := read_top hrange outside hk
  have hsucc : (tops k).toNat = (tops k - 1).toNat + 1 := by omega
  rw [StackInfo.below, StackInfo.below, hread, hsucc, List.take_add_one, List.map_append,
    List.getElem?_eq_getElem hlt]
  rfl

/-- The offsets of a stack lie below its top. -/
theorem lt_top (hrange : InRange info tops) (outside : Int → Int) {k : Fin 5} (hk : 0 < tops k)
    {x : Int} (hx : x ∈ (info k).below (tops k - 1)) :
    x < (info k).read outside (tops k - 1) := by
  have hpair : ((info k).below (tops k)).Pairwise (· < ·) := by
    refine List.Pairwise.map _ (fun a b hab => ?_) ((info k).increasing.take (i := _))
    exact Int.ofNat_lt.mpr hab
  rw [below_top hrange outside hk, List.pairwise_append] at hpair
  exact hpair.2.2 x hx _ (List.mem_singleton_self _)

theorem below_of_nonpos (info : StackInfo) {top : Int} (h : top ≤ 0) : info.below top = [] := by
  rw [StackInfo.below, Int.toNat_eq_zero.mpr h]
  rfl

/-- The heights that are left together. -/
def totalHeight (tops : Fin 5 → Int) : Nat := ((List.finRange 5).map fun k => (tops k).toNat).sum

end Heads

section Steps

variable {info : Fin 5 → StackInfo} {refOffset : Nat} {s : Merge} {maxoffset : Int}
  {heads : Fin 5 → Int} {isNear : Fin 5 → Bool}

theorem take_tops_le (k : Fin 5) :
    (s.take refOffset maxoffset heads isNear).tops k ≤ s.tops k := by
  simp only [Merge.take]
  split <;> omega

/-- A round that takes the top of some stack lowers the heights. -/
theorem totalHeight_take {k : Fin 5} (hk : 0 < s.tops k) (hnear : isNear k = true) :
    totalHeight (s.take refOffset maxoffset heads isNear).tops < totalHeight s.tops := by
  refine List.sum_lt_sum _ _ (fun j _ => ?_) ⟨k, List.mem_finRange k, ?_⟩
  · exact Int.toNat_le_toNat (take_tops_le j)
  · simp only [Merge.take, hnear, if_true]
    omega

/-- A round either finds all stacks empty or takes the greatest top and those near to it. -/
theorem mergeRound_cases (outside : Fin 5 → Int → Int) (hrange : InRange info s.tops) :
    (allZero s.tops = true ∧ mergeRound info refOffset outside s = .exit s) ∨
      ∃ maxid, 0 < s.tops maxid ∧
        let heads := fun k => (info k).read (outside k) (s.tops k - 1)
        mergeRound info refOffset outside s = .next
          (s.take refOffset (heads maxid) heads fun k => absDiff (heads k) (heads maxid) < 10) := by
  cases hzero : allZero s.tops with
  | true => exact .inl ⟨rfl, by rw [mergeRound, if_pos hzero]⟩
  | false =>
      obtain ⟨maxid, hmax, hpos, -⟩ := maxTop_spec
        (fun k hk => read_top_nonneg hrange (outside k) hk) hzero
      refine .inr ⟨maxid, hpos, ?_⟩
      simp [mergeRound, hzero, hmax]

theorem expectedRound_cases (hrange : InRange info s.tops) :
    (allZero s.tops = true ∧ expectedRound info refOffset s = .exit s) ∨
      ∃ maxid, 0 < s.tops maxid ∧
        let heads := fun k => (info k).read (fun _ => 0) (s.tops k - 1)
        (∀ k, 0 < s.tops k → heads k ≤ heads maxid) ∧
          expectedRound info refOffset s = .next
            (s.take refOffset (heads maxid) heads fun k =>
              0 < s.tops k && absDiff (heads k) (heads maxid) < 10) := by
  cases hzero : allZero s.tops with
  | true => exact .inl ⟨rfl, by rw [expectedRound, if_pos hzero]⟩
  | false =>
      obtain ⟨maxid, hmax, hpos, hgreatest⟩ := maxTop_spec
        (fun k hk => read_top_nonneg hrange (fun _ => 0) hk) hzero
      refine .inr ⟨maxid, hpos, hgreatest, ?_⟩
      simp [expectedRound, hzero, hmax]

/-- Where no stack is empty both rounds are the same. -/
theorem round_eq (outside : Fin 5 → Int → Int) (hrange : InRange info s.tops)
    (h : allZero s.tops = true ∨ ∀ k, 1 ≤ s.tops k) :
    mergeRound info refOffset outside s = expectedRound info refOffset s := by
  rcases h with hzero | hall
  · rw [mergeRound, expectedRound, if_pos hzero, if_pos hzero]
  · have hheads : ∀ k, (info k).read (outside k) (s.tops k - 1) =
        (info k).read (fun _ => 0) (s.tops k - 1) := fun k => read_top_eq hrange _ _ (hall k)
    have hpos : ∀ k, 0 < s.tops k := hall
    simp only [mergeRound, expectedRound, hheads, hpos, decide_true, Bool.true_and]

/-- A merge that meets no empty stack next to one that is not does the same in both ways. -/
theorem run_agree {body body' : Merge → Outcome Merge Merge}
    (hbody : ∀ s, InRange info s.tops → (allZero s.tops = true ∨ ∀ k, 1 ≤ s.tops k) →
      body s = body' s)
    (hround : ∀ s, InRange info s.tops → (allZero s.tops = true ∧ body s = .exit s) ∨
      ∃ maxoffset heads isNear, body s = .next (s.take refOffset maxoffset heads isNear))
    {fuel : Nat} {out : Merge} (hrange : InRange info s.tops) (hrun : run body fuel s = some out)
    (hall : ∀ c ∈ out.clusters, ∀ k, 1 ≤ c.tops k) :
    run body' fuel s = some out ∧ s.clusters <+: out.clusters := by
  induction fuel generalizing s with
  | zero => exact absurd hrun (by simp [run])
  | succ fuel ih =>
      rcases hround s hrange with ⟨hzero, hexit⟩ | ⟨maxoffset, heads, isNear, hnext⟩
      · rw [run_exit hexit, Option.some.injEq] at hrun
        rw [run_exit ((hbody s hrange (.inl hzero)).symm.trans hexit), hrun]
        exact ⟨rfl, List.prefix_rfl⟩
      · rw [run_next hnext] at hrun
        obtain ⟨hrun', hprefix⟩ := ih (fun k => (take_tops_le k).trans (hrange k)) hrun
        have hmem := hprefix.subset (List.mem_append_right _ (List.mem_singleton_self _))
        have hsame := hbody s hrange (.inr (hall _ hmem))
        rw [run_next (hsame.symm.trans hnext)]
        exact ⟨hrun', (List.prefix_append _ _).trans hprefix⟩

end Steps

/-- What holds at the head of the expected merge. -/
structure Drained (info : Fin 5 → StackInfo) (s : Merge) : Prop where
  nonneg : ∀ k, 0 ≤ s.tops k
  range : InRange info s.tops
  once : ∀ k, s.clusters.filterMap (fun c => c.popped k) ++ ((info k).below (s.tops k)).reverse =
    ((info k).data.map fun n : Nat => (n : Int)).reverse
  near : ∀ c ∈ s.clusters, ∀ k x, c.popped k = some x → |x - c.mfd.offset| < 10
  above : ∀ c ∈ s.clusters, ∀ k, ∀ x ∈ (info k).below (s.tops k), x < c.mfd.offset
  decreasing : s.clusters.Pairwise fun c d => d.mfd.offset < c.mfd.offset
  heights : ∀ c ∈ s.clusters, ∀ k, s.tops k ≤ c.tops k
  last : ∀ d, s.clusters.getLast? = some d → (∀ c ∈ s.clusters, ∀ k, d.tops k ≤ c.tops k) ∧
    ∀ k, s.tops k = if (d.popped k).isSome then d.tops k - 1 else d.tops k

section Expected

variable {info : Fin 5 → StackInfo} {refOffset : Nat} {s : Merge}

theorem drained_start (info : Fin 5 → StackInfo) (mfd : FeatureData) :
    Drained info (mergeStart info mfd) where
  nonneg k := by simp [mergeStart]
  range k := le_rfl
  once k := by simp [mergeStart, StackInfo.below]
  near := by simp [mergeStart]
  above := by simp [mergeStart]
  decreasing := .nil
  heights := by simp [mergeStart]
  last := by simp [mergeStart]

/-- What the stack has left after a round is part of what it had. -/
theorem below_take_subset (hrange : InRange info s.tops) {maxoffset : Int}
    {heads : Fin 5 → Int} {isNear : Fin 5 → Bool} (hpos : ∀ k, isNear k = true → 0 < s.tops k)
    {k : Fin 5} {x : Int}
    (hx : x ∈ (info k).below ((s.take refOffset maxoffset heads isNear).tops k)) :
    x ∈ (info k).below (s.tops k) := by
  simp only [Merge.take] at hx
  split at hx
  next hnear =>
      rw [below_top hrange (fun _ => 0) (hpos k hnear)]
      exact List.mem_append_left _ hx
  next => exact hx

/-- What a round leaves in the stacks lies below the greatest top, which it takes. -/
theorem Drained.below_greatest (h : Drained info s) {maxid : Fin 5}
    (hgreatest : ∀ k, 0 < s.tops k → (info k).read (fun _ => 0) (s.tops k - 1) ≤
      (info maxid).read (fun _ => 0) (s.tops maxid - 1)) :
    let heads := fun k => (info k).read (fun _ => 0) (s.tops k - 1)
    ∀ {k : Fin 5} {x : Int}, x ∈ (info k).below ((s.take refOffset (heads maxid) heads fun k =>
      0 < s.tops k && absDiff (heads k) (heads maxid) < 10).tops k) → x < heads maxid := by
  intro heads k x hx
  simp only [Merge.take] at hx
  split at hx
  next hk =>
      have hpos : 0 < s.tops k := by simpa using (Bool.and_eq_true_iff.mp hk).1
      exact (lt_top h.range _ hpos hx).trans_le (hgreatest k hpos)
  next hk =>
      rcases (h.nonneg k).eq_or_lt with hzero | hpos
      · rw [below_of_nonpos _ hzero.ge] at hx
        exact absurd hx List.not_mem_nil
      · -- a top that is left is ten below the greatest at least
        have hle : heads k ≤ heads maxid := hgreatest k hpos
        have hfar : ¬ absDiff (heads k) (heads maxid) < 10 := by simpa [hpos] using hk
        rw [absDiff_eq, abs_of_nonpos (by omega)] at hfar
        rw [below_top h.range (fun _ => 0) hpos] at hx
        rcases List.mem_append.mp hx with hx | hx
        · have hlt : x < heads k := lt_top h.range _ hpos hx
          omega
        · have heq : x = heads k := List.mem_singleton.mp hx
          omega

/-- A round keeps what holds at the head of the expected merge. -/
theorem Drained.take (h : Drained info s) {maxid : Fin 5} (hmaxid : 0 < s.tops maxid)
    (hgreatest : ∀ k, 0 < s.tops k → (info k).read (fun _ => 0) (s.tops k - 1) ≤
      (info maxid).read (fun _ => 0) (s.tops maxid - 1)) :
    let heads := fun k => (info k).read (fun _ => 0) (s.tops k - 1)
    Drained info (s.take refOffset (heads maxid) heads fun k =>
      0 < s.tops k && absDiff (heads k) (heads maxid) < 10) := by
  intro heads
  have hpos : ∀ k, (0 < s.tops k && absDiff (heads k) (heads maxid) < 10) = true →
      0 < s.tops k := fun k hk => by simpa using (Bool.and_eq_true_iff.mp hk).1
  constructor
  case nonneg =>
      intro k
      simp only [Merge.take]
      split
      next hk =>
          have := hpos k hk
          omega
      next => exact h.nonneg k
  case range => exact fun k => (take_tops_le k).trans (h.range k)
  case once =>
      intro k
      rw [← h.once k]
      simp only [Merge.take, List.filterMap_append]
      split
      next hk =>
          rw [below_top h.range (fun _ => 0) (hpos k hk)]
          simp only [List.filterMap_cons, List.filterMap_nil, if_pos hk, List.reverse_append,
            List.append_assoc]
          rfl
      next hk =>
          simp only [List.filterMap_cons, List.filterMap_nil, if_neg hk, List.append_nil]
  case near =>
      intro c hc k x hx
      rcases List.mem_append.mp hc with hc | hc
      · exact h.near c hc k x hx
      · cases List.mem_singleton.mp hc
        dsimp only at hx
        split at hx
        next hk =>
            cases hx
            rw [← absDiff_eq]
            simpa using (Bool.and_eq_true_iff.mp hk).2
        next => exact absurd hx (by simp)
  case above =>
      intro c hc k x hx
      rcases List.mem_append.mp hc with hc | hc
      · exact h.above c hc k x (below_take_subset h.range hpos hx)
      · cases List.mem_singleton.mp hc
        exact h.below_greatest hgreatest hx
  case decreasing =>
      simp only [Merge.take]
      rw [List.pairwise_append]
      refine ⟨h.decreasing, List.pairwise_singleton _ _, fun c hc d hd => ?_⟩
      cases List.mem_singleton.mp hd
      apply h.above c hc maxid
      rw [below_top h.range (fun _ => 0) hmaxid]
      exact List.mem_append_right _ (List.mem_singleton_self _)
  case heights =>
      intro c hc k
      rcases List.mem_append.mp hc with hc | hc
      · exact (take_tops_le k).trans (h.heights c hc k)
      · cases List.mem_singleton.mp hc
        exact take_tops_le k
  case last =>
      intro d hd
      rw [Merge.take, List.getLast?_concat, Option.some.injEq] at hd
      subst hd
      refine ⟨fun c hc k => ?_, fun k => ?_⟩
      · rcases List.mem_append.mp hc with hc | hc
        · exact h.heights c hc k
        · rw [List.mem_singleton.mp hc]
      · simp only [Merge.take]
        split <;> simp

/-- The expected merge ends with all stacks empty. -/
theorem expectedRun_spec (info : Fin 5 → StackInfo) (refOffset : Nat) (mfd : FeatureData) :
    ∃ out, expectedRun info refOffset mfd = some out ∧ Drained info out ∧
      ∀ k, out.tops k = 0 := by
  apply run_rule _ _ _ (Drained info) (fun s => totalHeight s.tops)
    (fun out => Drained info out ∧ ∀ k, out.tops k = 0)
  · intro s s' h hnext
    rcases @expectedRound_cases info refOffset s h.range with
      ⟨-, hexit⟩ | ⟨maxid, hmaxid, hgreatest, hround⟩
    · exact absurd (hexit.symm.trans hnext) (by simp)
    · cases hround.symm.trans hnext
      refine ⟨h.take hmaxid hgreatest, totalHeight_take hmaxid ?_⟩
      simp [hmaxid, absDiff_eq]
  · intro s out h hexit
    rcases @expectedRound_cases info refOffset s h.range with
      ⟨hzero, hround⟩ | ⟨maxid, hmaxid, hgreatest, hround⟩
    · cases hround.symm.trans hexit
      exact ⟨h, fun k => le_antisymm (allZero_iff.mp hzero k) (h.nonneg k)⟩
    · exact absurd (hround.symm.trans hexit) (by simp)
  · exact drained_start info mfd
  · simp [mergeFuel, totalHeight, mergeStart]

/-- The merge ends, whatever is read next to the stacks. -/
theorem mergeRun_isSome (info : Fin 5 → StackInfo) (refOffset : Nat)
    (outside : Fin 5 → Int → Int) (mfd : FeatureData) :
    ∃ out, mergeRun info refOffset outside mfd = some out := by
  obtain ⟨out, hout, -⟩ := run_rule (mergeRound info refOffset outside) (mergeFuel info)
    (mergeStart info mfd) (fun s => InRange info s.tops) (fun s => totalHeight s.tops)
    (fun _ => True)
    (by
      intro s s' hrange hnext
      rcases @mergeRound_cases info refOffset s outside hrange with
        ⟨-, hexit⟩ | ⟨maxid, hmaxid, hround⟩
      · exact absurd (hexit.symm.trans hnext) (by simp)
      · cases hround.symm.trans hnext
        refine ⟨fun k => (take_tops_le k).trans (hrange k), totalHeight_take hmaxid ?_⟩
        simp [absDiff_eq])
    (fun _ _ _ _ => trivial) (fun k => le_rfl)
    (by simp [mergeFuel, totalHeight, mergeStart])
  exact ⟨out, hout⟩

/-- The stacks that the expected merge finds in each round are all higher than zero exactly if
its last round takes something off each. -/
theorem Drained.endTogether_iff {out : Merge} (h : Drained info out) (hzero : ∀ k, out.tops k = 0) :
    (∀ c ∈ out.clusters, ∀ k, 1 ≤ c.tops k) ↔ EndTogether out.clusters := by
  constructor
  · intro hall d hd k
    have htop := (h.last d hd).2 k
    have hd1 := hall d (List.mem_of_getLast? hd) k
    rw [hzero k] at htop
    by_contra hnone
    rw [if_neg hnone] at htop
    omega
  · intro htogether c hc k
    obtain ⟨d, hd⟩ : ∃ d, out.clusters.getLast? = some d :=
      ⟨_, List.getLast?_eq_some_getLast (List.ne_nil_of_mem hc)⟩
    have hle := (h.last d hd).1 c hc k
    have htop := (h.last d hd).2 k
    rw [if_pos (htogether d hd k), hzero k] at htop
    omega

end Expected

/-- The merge does what is expected of it exactly if the last cluster of a merge that leaves
empty stacks alone takes something off each stack, and there are no more clusters than the
container has room for. -/
theorem merges_iff (info : Fin 5 → StackInfo) (refOffset : Nat) (outside : Fin 5 → Int → Int)
    (mfd : FeatureData) :
    ∃ out expected, mergeRun info refOffset outside mfd = some out ∧
      expectedRun info refOffset mfd = some expected ∧
      (Merges info out.clusters ↔
        EndTogether expected.clusters ∧ expected.clusters.length ≤ 1024) := by
  obtain ⟨out, hout⟩ := mergeRun_isSome info refOffset outside mfd
  obtain ⟨expected, hexpected, hdrained, hzero⟩ := expectedRun_spec info refOffset mfd
  have hstart : InRange info (mergeStart info mfd).tops := fun k => le_rfl
  refine ⟨out, expected, hout, hexpected, ?_, ?_⟩
  · intro h
    obtain ⟨hsame, -⟩ := run_agree (fun s hrange hs => round_eq outside hrange hs)
      (fun s hrange => (mergeRound_cases outside hrange).imp_right
        fun ⟨_, _, hnext⟩ => ⟨_, _, _, hnext⟩) hstart hout h.inspects
    cases hsame.symm.trans hexpected
    exact ⟨(hdrained.endTogether_iff hzero).mp h.inspects, h.room⟩
  · rintro ⟨htogether, hroom⟩
    have hall := (hdrained.endTogether_iff hzero).mpr htogether
    obtain ⟨hsame, -⟩ := run_agree (fun s hrange hs => (round_eq outside hrange hs).symm)
      (fun s hrange => (expectedRound_cases hrange).imp_right
        fun ⟨_, _, _, hnext⟩ => ⟨_, _, _, hnext⟩) hstart hexpected hall
    cases hsame.symm.trans hout
    refine ⟨hall, fun k => ?_, hdrained.near, hdrained.decreasing, hroom⟩
    have honce := hdrained.once k
    rwa [hzero k, below_of_nonpos _ le_rfl, List.reverse_nil, List.append_nil] at honce

/-- No word is the keyword itself, so the first stack is empty. What is read in front of it is
taken for a top, and its height falls below zero. -/
theorem not_merges :
    ∃ out, mergeRun
        (fun k => stackData (isAccpted [⟨1, bytes "reference", 9⟩]) (bytes "Referense") 9 k) 0
        (fun _ _ => 0) ⟨fun _ => 0, false, 0, 0⟩ = some out ∧
      out.tops 0 = -1 ∧ (out.clusters.map fun c => c.tops 0) = [0] ∧
      ¬ Merges
        (fun k => stackData (isAccpted [⟨1, bytes "reference", 9⟩]) (bytes "Referense") 9 k)
        out.clusters := by
  have hrun : (mergeRun
      (fun k => stackData (isAccpted [⟨1, bytes "reference", 9⟩]) (bytes "Referense") 9 k) 0
      (fun _ _ => 0) ⟨fun _ => 0, false, 0, 0⟩).map
      (fun out => (out.tops 0, out.clusters.map fun c => c.tops 0)) = some (-1, [0]) := by
    decide +kernel
  obtain ⟨out, hout, htops⟩ := Option.map_eq_some_iff.mp hrun
  obtain ⟨htop, hclusters⟩ := Prod.mk.inj htops
  refine ⟨out, hout, htop, hclusters, fun h => ?_⟩
  have hmem : (0 : Int) ∈ out.clusters.map fun c => c.tops 0 := by
    rw [hclusters]
    exact List.mem_singleton_self 0
  obtain ⟨c, hc, hc0⟩ := List.mem_map.mp hmem
  have := h.inspects c hc 0
  omega

end CiteParser
