import CiteParser.Core.Grid
import CiteParser.Core.Trellis
import CiteParser.Crf.Features

/-!
# The lattice

`rebuildFeatures` of `feature.cpp`, `calcCost` of `feature_index.cpp` and `buildLattice` of
`tagger.cpp`. There is a node for each label of each token, and a path to it from each label of the
token before; what they cost is what the model makes of the features in the cache.
-/

namespace CiteParser.Crf

/-- What the arithmetic of the machine is needed for: `float`s are read as `double`s, and the
searches start from -1e37. -/
structure Floats (W D : Type*) where
  toDouble : W → D
  lowest : D

/-- A path from the node at a place of `node_`, in the list of the node it leads to. -/
structure Path (D : Type*) where
  lnode : Nat × Nat
  fvector : List Nat
  cost : D
  deriving DecidableEq

/-- A node; a pointer to one is its place in `node_`. -/
structure Node (D : Type*) where
  x : Nat
  y : Nat
  cost : D
  bestCost : D
  prev : Option (Nat × Nat)
  fvector : List Nat
  lpath : List (Path D)

/-- `node_`. -/
abbrev Lattice (D : Type*) := Grid (Node D)

variable {W D : Type*}

/-- `Node::clear`, which leaves `bestCost` as it is. -/
def Node.clear [Zero D] (n : Node D) : Node D :=
  { n with x := 0, y := 0, cost := 0, prev := none, fvector := [], lpath := [] }

/-- `Path::add`, as far as it concerns the right node. -/
def Node.addPath (n : Node D) (p : Path D) : Node D := { n with lpath := n.lpath ++ [p] }

namespace FeatureIndex

section Nodes

variable [Zero D] (fi : FeatureIndex W D)

/-- The node of the label `i` of the token at `cur`, taken from the free list; `y` is an
`unsigned short`. -/
def newNode (featureCache : FeatureCache) (fid : Nat) (T : Lattice D) (cur i : Nat) : Node D :=
  { (T cur i).clear with
    x := cur, y := i % 2 ^ 16, fvector := featureCache.getD (fid + cur) [] }

/-- A pass over the paths from the label `j` of the token before `cur`. -/
def addPaths (fvector : List Nat) (cur : Nat) (T : Lattice D) (j : Nat) : Lattice D :=
  Grid.sweep (fun T cur i => (T cur i).addPath ⟨(cur - 1, j), fvector, 0⟩) cur fi.y.length T

/-- `rebuildFeatures`, for `size` tokens whose features stand in the cache from `fid` on. -/
def rebuildFeatures (featureCache : FeatureCache) (fid size : Nat) (free : Lattice D) : Lattice D :=
  let nodes := Grid.sweeps (newNode featureCache fid) (List.range size) fi.y.length free
  (List.range' 1 (size - 1)).foldl
    (fun T cur =>
      let f := featureCache.getD (fid + size + (cur - 1)) []
      (List.range fi.y.length).foldl (fi.addPaths f cur) T)
    nodes

variable {fi} {featureCache : FeatureCache} {fid size : Nat} {free : Lattice D}

/-- The nodes before the paths are added. -/
theorem sweeps_newNode (hy : fi.y.length ≤ 2 ^ 16) {i j : Nat} (hi : i < size)
    (hj : j < fi.y.length) :
    Grid.sweeps (newNode featureCache fid) (List.range size) fi.y.length free i j =
      { (free i j).clear with x := i, y := j, fvector := featureCache.getD (fid + i) [] } := by
  rw [List.range_eq_range']
  obtain ⟨S, -, hown, hcell⟩ := Grid.sweeps_cell (newNode featureCache fid) free 0 size
    (Nat.zero_le i) (by omega) hj
  rw [hcell, newNode, hown, Nat.mod_eq_of_lt (by omega)]

/-- The paths from the labels of the token before, as far as they have been added. -/
theorem foldl_addPaths (f : List Nat) (cur m : Nat) (T : Lattice D) :
    (List.range m).foldl (fi.addPaths f cur) T cur = (fun i =>
      if i < fi.y.length then
        { T cur i with
          lpath := (T cur i).lpath ++ (List.range m).map fun k => ⟨(cur - 1, k), f, 0⟩ }
      else T cur i) := by
  funext i
  induction m with
  | zero =>
      rw [List.range_zero, List.foldl_nil, List.map_nil, List.append_nil]
      split <;> rfl
  | succ m ih =>
      have hpass : ∀ T : Lattice D, fi.addPaths f cur T m cur i =
          if i < fi.y.length then (T cur i).addPath ⟨(cur - 1, m), f, 0⟩ else T cur i := fun T =>
        Grid.sweep_own (fun cur _ (n : Node D) => n.addPath ⟨(cur - 1, m), f, 0⟩) T cur
          fi.y.length i
      rw [List.range_succ, List.foldl_append, List.foldl_cons, List.foldl_nil, hpass, ih]
      split
      · rw [Node.addPath, List.map_append, List.append_assoc]
        rfl
      · rfl

/-- The other tokens' nodes stay. -/
theorem foldl_addPaths_layer (f : List Nat) {cur k : Nat} (hk : k ≠ cur) (m : Nat) (T : Lattice D) :
    (List.range m).foldl (fi.addPaths f cur) T k = T k := by
  induction m with
  | zero => rfl
  | succ m ih =>
      rw [List.range_succ, List.foldl_append, List.foldl_cons, List.foldl_nil, addPaths,
        Grid.sweep_layer _ _ hk, ih]

/-- The nodes when the features have been handed out. -/
theorem rebuildFeatures_eq (hy : fi.y.length ≤ 2 ^ 16) {i j : Nat} (hi : i < size)
    (hj : j < fi.y.length) :
    fi.rebuildFeatures featureCache fid size free i j =
      { x := i
        y := j
        cost := 0
        bestCost := (free i j).bestCost
        prev := none
        fvector := featureCache.getD (fid + i) []
        lpath := if i = 0 then [] else (List.range fi.y.length).map fun k =>
          ⟨(i - 1, k), featureCache.getD (fid + size + (i - 1)) [], 0⟩ } := by
  let make : Nat → (Nat → Node D) → Nat → Node D := fun cur row i =>
    if i < fi.y.length then
      { row i with
        lpath := (row i).lpath ++ (List.range fi.y.length).map fun k =>
          ⟨(cur - 1, k), featureCache.getD (fid + size + (cur - 1)) [], 0⟩ }
    else row i
  rw [rebuildFeatures]
  dsimp only
  rw [@Grid.foldl_layers _ _ make (fun T cur k hk => foldl_addPaths_layer _ hk _ T)
    fun T cur => foldl_addPaths _ cur _ T]
  by_cases hzero : i = 0
  · rw [if_neg (by omega), if_pos hzero, sweeps_newNode hy hi hj]
    rfl
  · have hmake : ∀ row : Nat → Node D, make i row j =
        { row j with
          lpath := (row j).lpath ++ (List.range fi.y.length).map fun k =>
            ⟨(i - 1, k), featureCache.getD (fid + size + (i - 1)) [], 0⟩ } := fun row => if_pos hj
    rw [if_pos (by omega), if_neg hzero, hmake, sweeps_newNode hy hi hj]
    rfl

end Nodes

section Costs

variable [Zero W] [Add W] [Mul D] (fl : Floats W D) (fi : FeatureIndex W D)

/-- The loop of `calcCost`: weights are added up from the first feature on. -/
def costOf (fvector : List Nat) (offset : Nat) : D :=
  fi.costFactor * fl.toDouble (fvector.foldl (fun c f => c + fi.alphaFloat (f + offset)) 0)

/-- `calcCost` of a node. -/
def calcCost (n : Node D) : Node D := { n with cost := fi.costOf fl n.fvector n.y }

/-- `calcCost` of a path to `rnode`. -/
def calcCostPath (T : Lattice D) (rnode : Node D) (p : Path D) : Path D :=
  let lnode := T p.lnode.1 p.lnode.2
  { p with cost := fi.costOf fl p.fvector (lnode.y * fi.y.length + rnode.y) }

/-- A visit of `buildLattice`. -/
def calcCosts (T : Lattice D) (i j : Nat) : Node D :=
  let n := fi.calcCost fl (T i j)
  { n with lpath := n.lpath.map (fi.calcCostPath fl T n) }

/-- `buildLattice`, without penalties. -/
def buildLattice [Zero D] (featureCache : FeatureCache) (fid size : Nat) (free : Lattice D) :
    Lattice D :=
  Grid.sweeps (fi.calcCosts fl) (List.range size) fi.y.length
    (fi.rebuildFeatures featureCache fid size free)

variable {fl fi} [Zero D] {featureCache : FeatureCache} {fid size : Nat} {free : Lattice D}

/-- A visit finds a node as it has been rebuilt, and the nodes of the tokens before it as they
stay. -/
theorem buildLattice_visit {i j : Nat} (hi : i < size) (hj : j < fi.y.length) :
    ∃ S : Lattice D,
      (∀ k < i, S k = fi.buildLattice fl featureCache fid size free k) ∧
      S i j = fi.rebuildFeatures featureCache fid size free i j ∧
      fi.buildLattice fl featureCache fid size free i j = fi.calcCosts fl S i j := by
  rw [buildLattice, List.range_eq_range']
  exact Grid.sweeps_cell _ _ 0 size (Nat.zero_le i) (by omega) hj

/-- The nodes keep their labels. -/
theorem y_buildLattice (hy : fi.y.length ≤ 2 ^ 16) {i j : Nat} (hi : i < size)
    (hj : j < fi.y.length) : (fi.buildLattice fl featureCache fid size free i j).y = j := by
  obtain ⟨S, -, hown, hcell⟩ := @buildLattice_visit W D _ _ _ fl fi _ featureCache fid size free
    i j hi hj
  rw [hcell, calcCosts, calcCost, hown, rebuildFeatures_eq hy hi hj]

/-- The lattice: each node with its features and its paths, and what they cost. -/
theorem buildLattice_eq (hy : fi.y.length ≤ 2 ^ 16) {i j : Nat} (hi : i < size)
    (hj : j < fi.y.length) :
    fi.buildLattice fl featureCache fid size free i j =
      { x := i
        y := j
        cost := fi.costOf fl (featureCache.getD (fid + i) []) j
        bestCost := (free i j).bestCost
        prev := none
        fvector := featureCache.getD (fid + i) []
        lpath := if i = 0 then [] else (List.range fi.y.length).map fun k =>
          let f := featureCache.getD (fid + size + (i - 1)) []
          ⟨(i - 1, k), f, fi.costOf fl f (k * fi.y.length + j)⟩ } := by
  obtain ⟨S, hbefore, hown, hcell⟩ := @buildLattice_visit W D _ _ _ fl fi _ featureCache fid size
    free i j hi hj
  rw [hcell, calcCosts, calcCost, hown, rebuildFeatures_eq hy hi hj]
  by_cases hzero : i = 0
  · simp only [hzero, if_pos, List.map_nil]
  · have hlabels : ∀ k ∈ List.range fi.y.length, (S (i - 1) k).y = k := by
      intro k hk
      rw [hbefore _ (by omega), y_buildLattice hy (by omega) (List.mem_range.mp hk)]
    simp only [hzero, if_false, List.map_map, Node.mk.injEq, true_and]
    refine List.map_congr_left fun k hk => ?_
    simp only [Function.comp, calcCostPath, hlabels k hk]

/-- Paths come from the token before. -/
theorem lnode_buildLattice (hy : fi.y.length ≤ 2 ^ 16) {i j : Nat} (hi : i < size)
    (hj : j < fi.y.length) :
    ∀ p ∈ (fi.buildLattice fl featureCache fid size free i j).lpath, p.lnode.1 < i := by
  rw [buildLattice_eq hy hi hj]
  intro p hp
  by_cases hzero : i = 0
  · rw [if_pos hzero] at hp
    exact absurd hp List.not_mem_nil
  · rw [if_neg hzero] at hp
    obtain ⟨k, -, rfl⟩ := List.mem_map.mp hp
    exact Nat.sub_one_lt hzero

end Costs

end FeatureIndex

end CiteParser.Crf
