import CiteParser.Core.Loop
import CiteParser.Crf.Lattice
import Mathlib.Algebra.Order.Monoid.Unbundled.Basic

/-!
# The Viterbi search

`viterbi` of `tagger.cpp`: the cost of a best path to each node, and the node before it, from the
first token to the last; then the best labels, from the last token to the first. Nothing is asked
of the arithmetic but that a greater cost is worth no less when something is added to it, which
also holds of sums that are rounded.
-/

namespace CiteParser.Crf

open Loop Trellis

variable {W D : Type*}

section Search

variable [Add D] [LinearOrder D] (fl : Floats W D)

/-- A visit of the first loop: the best of the paths to a node, if there is any. -/
def visitNode (T : Lattice D) (i j : Nat) : Node D :=
  let n := T i j
  let (bestc, best) := n.lpath.foldl
    (fun s p => keepGreater s ((T p.lnode.1 p.lnode.2).bestCost + p.cost + n.cost) p.lnode)
    (fl.lowest, none)
  { n with prev := best, bestCost := if best.isSome then bestc else n.cost }

/-- The nodes after the first loop. -/
def bestPaths (size ysize : Nat) (T : Lattice D) : Lattice D :=
  Grid.sweeps (visitNode fl) (List.range size) ysize T

/-- The second loop: the best node of the last token. -/
def bestEnd (size ysize : Nat) (T : Lattice D) : Option (Nat × Nat) :=
  ((List.range ysize).foldl
    (fun s j => keepGreater s (T (size - 1) j).bestCost (size - 1, j)) (fl.lowest, none)).2

/-- A pass of the last loop, over the node `n` and `result_`. -/
def writeResult (T : Lattice D) (s : Option (Nat × Nat) × (Nat → Nat)) :
    Outcome (Option (Nat × Nat) × (Nat → Nat)) (Nat → Nat) :=
  match s.1 with
  | none => .exit s.2
  | some n => .next ((T n.1 n.2).prev, Function.update s.2 (T n.1 n.2).x (T n.1 n.2).y)

/-- `viterbi`: what it makes of `result_`. -/
def viterbi (size ysize : Nat) (T : Lattice D) (result : Nat → Nat) : Option (Nat → Nat) :=
  let T := bestPaths fl size ysize T
  run (writeResult T) (size + 1) (bestEnd fl size ysize T, result)

variable {fl}

/-- A node is visited when the nodes that paths come from are finished. -/
theorem bestPaths_eq {size ysize i j : Nat} {T : Lattice D} (hi : i < size) (hj : j < ysize)
    (hbefore : ∀ p ∈ (T i j).lpath, p.lnode.1 < i) :
    let scan := (T i j).lpath.foldl
      (fun s p => keepGreater s ((bestPaths fl size ysize T p.lnode.1 p.lnode.2).bestCost +
        p.cost + (T i j).cost) p.lnode) (fl.lowest, none)
    bestPaths fl size ysize T i j =
      { T i j with
        prev := scan.2
        bestCost := if scan.2.isSome then scan.1 else (T i j).cost } := by
  intro scan
  obtain ⟨S, hlayers, hown, hcell⟩ := Grid.sweeps_cell (visitNode fl) T 0 size (Nat.zero_le i)
    (by omega) hj
  have hscan : (T i j).lpath.foldl
      (fun s p => keepGreater s ((S p.lnode.1 p.lnode.2).bestCost + p.cost + (T i j).cost) p.lnode)
      (fl.lowest, none) = scan := by
    refine List.foldl_ext _ _ _ fun s p hp => ?_
    rw [hlayers _ (hbefore p hp), bestPaths, List.range_eq_range']
  rw [bestPaths, List.range_eq_range', hcell, visitNode, hown]
  dsimp only
  rw [hscan]

omit [Add D] in
/-- The second loop finds a node that is worth no less than any other of the last token. -/
theorem exists_bestEnd {size ysize : Nat} {T : Lattice D}
    (habove : ∃ j ∈ List.range ysize, fl.lowest < (T (size - 1) j).bestCost) :
    ∃ k < ysize, bestEnd fl size ysize T = some (size - 1, k) ∧
      ∀ j < ysize, (T (size - 1) j).bestCost ≤ (T (size - 1) k).bestCost := by
  obtain ⟨k, hk, hscan, hmax⟩ := foldl_keepGreater (fun j => (T (size - 1) j).bestCost)
    (List.range ysize) fl.lowest habove
  have hmap := foldl_keepGreater_map (fun j => (T (size - 1) j).bestCost)
    (fun j => (size - 1, j)) (List.range ysize) (fl.lowest, none)
  rw [hscan] at hmap
  exact ⟨k, List.mem_range.mp hk, congrArg Prod.snd hmap,
    fun j hj => hmax j (List.mem_range.mpr hj)⟩

end Search

/-! ## The way back -/

section Back

/-- The label before a node on its best path. -/
def prevLabel (T : Lattice D) (i k : Nat) : Nat := ((T i k).prev.map Prod.snd).getD 0

/-- The loop back from a node writes the labels of its best path. -/
theorem run_writeResult {T : Lattice D} {size ysize : Nat}
    (hplace : ∀ i < size, ∀ k < ysize, (T i k).x = i ∧ (T i k).y = k)
    (hstart : ∀ k < ysize, (T 0 k).prev = none)
    (hprev : ∀ i, i + 1 < size → ∀ k < ysize,
      prevLabel T (i + 1) k < ysize ∧ (T (i + 1) k).prev = some (i, prevLabel T (i + 1) k))
    {i k : Nat} (hi : i < size) (hk : k < ysize) (result : Nat → Nat) (fuel : Nat) :
    run (writeResult T) (i + 2 + fuel) (some (i, k), result) =
      some fun l => if l ≤ i then Layers.back (prevLabel T) i k l else result l := by
  induction i generalizing k result with
  | zero =>
      have hpass : writeResult T (some (0, k), result) =
          .next (none, Function.update result 0 k) := by
        simp only [writeResult, hplace 0 hi k hk, hstart k hk]
      have hend : writeResult T (none, Function.update result 0 k) =
          .exit (Function.update result 0 k) := rfl
      rw [show 0 + 2 + fuel = fuel + 1 + 1 by omega, run_next hpass, run_exit hend,
        Option.some.injEq]
      funext l
      by_cases hl : l = 0
      · rw [hl, Function.update_self, if_pos le_rfl, Layers.back]
      · rw [Function.update_of_ne hl, if_neg (by omega)]
  | succ i ih =>
      obtain ⟨hlt, hbefore⟩ := hprev i hi k hk
      have hpass : writeResult T (some (i + 1, k), result) =
          .next (some (i, prevLabel T (i + 1) k), Function.update result (i + 1) k) := by
        simp only [writeResult, hplace (i + 1) hi k hk, hbefore]
      rw [show i + 1 + 2 + fuel = i + 2 + fuel + 1 by omega, run_next hpass,
        ih (by omega) hlt, Option.some.injEq]
      funext l
      rw [Layers.back]
      by_cases hl : l = i + 1
      · rw [hl, Function.update_self, Function.update_self, if_neg (by omega), if_pos le_rfl]
      · rw [Function.update_of_ne hl, Function.update_of_ne hl]
        by_cases hle : l ≤ i
        · rw [if_pos hle, if_pos (by omega)]
        · rw [if_neg hle, if_neg (by omega)]

end Back

namespace FeatureIndex

section Labellings

variable [Zero W] [Add W] [Mul D] [Add D] (fl : Floats W D) (fi : FeatureIndex W D)

/-- The score of labels, from the features of the tokens and of the pairs of neighbours. -/
def layers (unigrams bigrams : Nat → List Nat) : Layers D where
  start k := fi.costOf fl (unigrams 0) k
  extend i a j k := a + fi.costOf fl (bigrams (i + 1)) (j * fi.y.length + k) +
    fi.costOf fl (unigrams (i + 1)) k

end Labellings

section Optimal

variable [Zero W] [Add W] [Mul D] [Add D] [Zero D] [LinearOrder D] {fl : Floats W D}
  {fi : FeatureIndex W D} {featureCache : FeatureCache} {fid size : Nat} {free : Lattice D}

variable (fl fi featureCache fid size free) in
/-- The nodes after the first loop of `viterbi`. -/
def searched : Lattice D :=
  bestPaths fl size fi.y.length (fi.buildLattice fl featureCache fid size free)

/-- The numbers of the features of the tokens in the cache. -/
def unigramsAt (featureCache : FeatureCache) (fid i : Nat) : List Nat :=
  featureCache.getD (fid + i) []

/-- The numbers of the features of the pairs of neighbours in the cache. -/
def bigramsAt (featureCache : FeatureCache) (fid size i : Nat) : List Nat :=
  featureCache.getD (fid + size + (i - 1)) []

variable (fl fi featureCache fid size) in
/-- The score of labels, from the features in the cache. -/
def cachedLayers : Layers D :=
  fi.layers fl (unigramsAt featureCache fid) (bigramsAt featureCache fid size)

/-- The search leaves the nodes their places. -/
theorem searched_place (hy : fi.y.length ≤ 2 ^ 16) {i k : Nat} (hi : i < size)
    (hk : k < fi.y.length) :
    (searched fl fi featureCache fid size free i k).x = i ∧
      (searched fl fi featureCache fid size free i k).y = k := by
  rw [searched, bestPaths_eq hi hk (lnode_buildLattice hy hi hk), buildLattice_eq hy hi hk]
  exact ⟨rfl, rfl⟩

/-- A node of the first token keeps its own cost. -/
theorem searched_start (hy : fi.y.length ≤ 2 ^ 16) (hsize : 0 < size) {k : Nat}
    (hk : k < fi.y.length) :
    (searched fl fi featureCache fid size free 0 k).prev = none ∧
      (searched fl fi featureCache fid size free 0 k).bestCost =
        (cachedLayers fl fi featureCache fid size).start k := by
  have hnode := @buildLattice_eq W D _ _ _ fl fi _ featureCache fid size free hy 0 k hsize hk
  rw [searched, bestPaths_eq hsize hk (lnode_buildLattice hy hsize hk), hnode]
  exact ⟨rfl, rfl⟩

/-- A node of a later token takes the best of its paths, if one is worth more than the start of the
search. -/
theorem searched_succ (hy : fi.y.length ≤ 2 ^ 16) {i k : Nat} (hi : i + 1 < size)
    (hk : k < fi.y.length)
    (habove : ∃ j ∈ List.range fi.y.length, fl.lowest <
      (cachedLayers fl fi featureCache fid size).extend i
        (searched fl fi featureCache fid size free i j).bestCost j k) :
    ∃ j, (List.range fi.y.length).foldl
        (fun s j => keepGreater s ((cachedLayers fl fi featureCache fid size).extend i
          (searched fl fi featureCache fid size free i j).bestCost j k) j) (fl.lowest, none) =
        ((searched fl fi featureCache fid size free (i + 1) k).bestCost, some j) ∧
      (searched fl fi featureCache fid size free (i + 1) k).prev = some (i, j) := by
  have hnode := @buildLattice_eq W D _ _ _ fl fi _ featureCache fid size free hy (i + 1) k hi hk
  rw [if_neg (Nat.succ_ne_zero i)] at hnode
  have hcell := @bestPaths_eq W D _ _ fl size fi.y.length (i + 1) k
    (fi.buildLattice fl featureCache fid size free) hi hk (lnode_buildLattice hy hi hk)
  obtain ⟨j, -, hscan, -⟩ := foldl_keepGreater
    (fun j => (cachedLayers fl fi featureCache fid size).extend i
      (searched fl fi featureCache fid size free i j).bestCost j k) _ fl.lowest habove
  have hmap := foldl_keepGreater_map
    (fun j => (cachedLayers fl fi featureCache fid size).extend i
      (searched fl fi featureCache fid size free i j).bestCost j k)
    (fun j => (i, j)) (List.range fi.y.length) (fl.lowest, none)
  rw [hscan] at hmap
  have hpaths : (fi.buildLattice fl featureCache fid size free (i + 1) k).lpath.foldl
      (fun s p => keepGreater s ((bestPaths fl size fi.y.length
        (fi.buildLattice fl featureCache fid size free) p.lnode.1 p.lnode.2).bestCost + p.cost +
        (fi.buildLattice fl featureCache fid size free (i + 1) k).cost) p.lnode)
      (fl.lowest, none) =
      ((cachedLayers fl fi featureCache fid size).extend i
        (searched fl fi featureCache fid size free i j).bestCost j k, some (i, j)) := by
    rw [hnode, List.foldl_map]
    exact hmap
  refine ⟨j, ?_, ?_⟩
  · rw [hscan, searched, hcell, hpaths]
    rfl
  · rw [searched, hcell, hpaths]

/-- The search fills the table of the best paths. -/
theorem searched_best (hy : fi.y.length ≤ 2 ^ 16) (hlabels : 0 < fi.y.length) (hsize : 0 < size)
    (hfloor : ∀ y : Nat → Nat, (∀ l, y l < fi.y.length) → ∀ i < size,
      fl.lowest < (cachedLayers fl fi featureCache fid size).score y i) :
    (cachedLayers fl fi featureCache fid size).Best fi.y.length size
      (fun i k => (searched fl fi featureCache fid size free i k).bestCost)
      (prevLabel (searched fl fi featureCache fid size free)) := by
  refine .of_scans fl.lowest hlabels (fun k hk => (searched_start hy hsize hk).2)
    (fun i hi k hk habove => ?_) hfloor
  obtain ⟨j, hscan, hprev⟩ := searched_succ hy hi hk habove
  rw [hscan, prevLabel, hprev]
  rfl

/-- Each node but those of the first token has a node of the token before on its best path. -/
theorem searched_prev (hy : fi.y.length ≤ 2 ^ 16) (hlabels : 0 < fi.y.length) (hsize : 0 < size)
    (hfloor : ∀ y : Nat → Nat, (∀ l, y l < fi.y.length) → ∀ i < size,
      fl.lowest < (cachedLayers fl fi featureCache fid size).score y i)
    {i k : Nat} (hi : i + 1 < size) (hk : k < fi.y.length) :
    prevLabel (searched fl fi featureCache fid size free) (i + 1) k < fi.y.length ∧
      (searched fl fi featureCache fid size free (i + 1) k).prev =
        some (i, prevLabel (searched fl fi featureCache fid size free) (i + 1) k) := by
  have hbest := @searched_best W D _ _ _ _ _ _ fl fi featureCache fid size free hy hlabels hsize
    hfloor
  obtain ⟨y, hylt, hscore⟩ := hbest.exists_score_extend (Nat.lt_of_succ_lt hi) hlabels hk
  obtain ⟨j, -, hj⟩ := searched_succ hy hi hk
    ⟨0, List.mem_range.mpr hlabels, hscore ▸ hfloor y hylt (i + 1) hi⟩
  refine ⟨hbest.prev_lt i hi k hk, ?_⟩
  rw [prevLabel, hj]
  rfl

/-- The labels that `viterbi` writes into `result_` are worth no less than any others, and nothing
else is written. -/
theorem viterbi_greatest [AddRightMono D] (hy : fi.y.length ≤ 2 ^ 16) (hlabels : 0 < fi.y.length)
    (hsize : 0 < size)
    (hfloor : ∀ y : Nat → Nat, (∀ l, y l < fi.y.length) → ∀ i < size,
      fl.lowest < (cachedLayers fl fi featureCache fid size).score y i)
    (result : Nat → Nat) :
    ∃ labels, viterbi fl size fi.y.length (fi.buildLattice fl featureCache fid size free) result =
        some labels ∧
      (∀ i < size, labels i < fi.y.length) ∧ (∀ i, size ≤ i → labels i = result i) ∧
      ∀ y : Nat → Nat, (∀ i < size, y i < fi.y.length) →
        (cachedLayers fl fi featureCache fid size).score y (size - 1) ≤
          (cachedLayers fl fi featureCache fid size).score labels (size - 1) := by
  have hbest := @searched_best W D _ _ _ _ _ _ fl fi featureCache fid size free hy hlabels hsize
    hfloor
  have hlast : size - 1 < size := Nat.sub_one_lt_of_lt hsize
  obtain ⟨y, hylt, -, hscore⟩ := hbest.exists_score_eq hlast hlabels
  obtain ⟨k, hk, hend, hmax⟩ := @exists_bestEnd W D _ fl size fi.y.length
    (searched fl fi featureCache fid size free)
    ⟨0, List.mem_range.mpr hlabels, hscore ▸ hfloor y hylt (size - 1) hlast⟩
  have hrun := @run_writeResult D (searched fl fi featureCache fid size free) _ _
    (fun i hi k hk => searched_place hy hi hk)
    (fun k hk => (searched_start hy hsize hk).1)
    (fun i hi k hk => searched_prev hy hlabels hsize hfloor hi hk) _ _ hlast hk result 0
  rw [show size - 1 + 2 + 0 = size + 1 by omega, ← hend] at hrun
  have hkeeps : (cachedLayers fl fi featureCache fid size).Keeps := by
    intro i j k a b hab
    exact add_le_add_left (add_le_add_left hab _) _
  refine ⟨_, hrun, fun i hi => ?_, fun i hi => if_neg (by omega), fun y hylt => ?_⟩
  · rw [if_pos (by omega)]
    exact hbest.back_lt hlast hk i (by omega)
  · refine (hbest.score_le_back hkeeps hlast hk hmax
      fun j hj => hylt j (by omega)).trans_eq (Layers.score_congr fun j hj => ?_)
    exact (if_pos hj).symm

end Optimal

end FeatureIndex

end CiteParser.Crf
