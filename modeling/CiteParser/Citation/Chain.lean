import CiteParser.Citation.Writes
import CiteParser.Core.Chain
import CiteParser.Core.Ledger
import Mathlib.Data.List.Range
import Mathlib.Logic.Function.Basic

/-!
# The linked list of citations

`CitationInfoPredict` keeps the head and the tail of the list in two variables and hands
the tail to `addCitationInfo`, which hands a copy of it to `addCitationNode`. Nodes are
named in the order of their allocation. What a call writes to the arrays of its node is a
parameter, so nothing here depends on the texts.
-/

namespace CiteParser

open Loop

/-- The nodes on the heap: their arrays, their `next` fields and how many there are. -/
structure CitationHeap where
  bytes : Nat → CitationNode
  next : Nat → Option Nat
  ledger : Ledger

namespace CitationHeap

/-- `initCitationNode(p)`, the field `next` included. -/
def initNode (h : CitationHeap) (p : Nat) : CitationHeap :=
  { h with
    bytes := Function.update h.bytes p (initCitationNode (h.bytes p))
    next := Function.update h.next p none }

/-- The arrays of one node are written. -/
def setBytes (h : CitationHeap) (p : Nat) (node : CitationNode) : CitationHeap :=
  { h with bytes := Function.update h.bytes p node }

/-- A pass of `while(p->next != NULL) p = p->next`. -/
def lastPass (next : Nat → Option Nat) (p : Nat) : Outcome Nat Nat :=
  match next p with
  | none => .exit p
  | some q => .next q

/-- `addCitationNode(&node)`: the heap and the pointer, which is both what is returned and
what `node` holds afterwards. `none` stands for a loop that goes round more often than there
are nodes. -/
def addCitationNode (h : CitationHeap) (node : Option Nat) : Option (CitationHeap × Nat) :=
  match node with
  | none =>
      let p := h.ledger.next
      some (initNode { h with ledger := h.ledger.calloc } p, p)
  | some p =>
      if cnIsEmpty (h.bytes p) then some (h, p)
      else
        (run (lastPass h.next) h.ledger.next p).map fun q =>
          let n := h.ledger.next
          (initNode { h with
            ledger := h.ledger.calloc, next := Function.update h.next q (some n) } n, n)

/-- `freeCitationNode`, which reads the next pointer of a node before it releases it. -/
def freeCitationNode (h : CitationHeap) (node : Option Nat) : Option Ledger :=
  run (walkPass h.next fun l p => l.free (some p)) (h.ledger.next + 1) (node, h.ledger)

end CitationHeap

/-- The heap and the two variables of `CitationInfoPredict`. -/
structure Citations where
  heap : CitationHeap
  nodeHead : Nat
  nowNode : Nat

namespace Citations

/-- `nowNode = addCitationNode(&nodeHead)` with `nodeHead = NULL`, on a heap that holds
whatever it holds. -/
def start (bytes : Nat → CitationNode) (next : Nat → Option Nat) : Option Citations :=
  (CitationHeap.addCitationNode ⟨bytes, next, ⟨0, []⟩⟩ none).map fun (h, p) => ⟨h, p, p⟩

section Calls

variable (write : InfoCall → CitationNode → CitationNode)

/-- `addCitationInfo(&nowNode, str, len, id)`. -/
def addCitationInfo (s : Citations) (c : InfoCall) : Option Citations :=
  let r := if asksNode c then s.heap.addCitationNode (some s.nowNode)
    else some (s.heap, s.nowNode)
  r.map fun (h, p) => { s with heap := h.setBytes p (write c (h.bytes p)), nowNode := p }

/-- The state after a sequence of calls. -/
def after (bytes : Nat → CitationNode) (next : Nat → Option Nat) (calls : List InfoCall) :
    Option Citations :=
  (start bytes next).bind fun s => calls.foldlM (addCitationInfo write) s

end Calls

/-- The list from the head on holds every node in the order of allocation, the last one is
the current one, and all others have been filled. -/
structure Linked (s : Citations) : Prop where
  path : Path s.heap.next (some s.nodeHead) (List.range s.heap.ledger.next)
  last : s.nowNode + 1 = s.heap.ledger.next
  filled : ∀ k, k < s.nowNode → cnIsEmpty (s.heap.bytes k) = false
  unreleased : s.heap.ledger.released = []

/-- The list of one empty node. -/
def first (bytes : Nat → CitationNode) (next : Nat → Option Nat) : Citations :=
  ⟨CitationHeap.initNode ⟨bytes, next, ⟨1, []⟩⟩ 0, 0, 0⟩

/-- The first node is the head and the current one. -/
theorem start_eq (bytes : Nat → CitationNode) (next : Nat → Option Nat) :
    start bytes next = some (first bytes next) := rfl

/-- A list of one node is linked. -/
theorem linked_first (bytes : Nat → CitationNode) (next : Nat → Option Nat) :
    (first bytes next).Linked := by
  refine ⟨?_, rfl, fun k hk => absurd hk (Nat.not_lt_zero k), rfl⟩
  have hend : Function.update next 0 none 0 = none := Function.update_self _ _ _
  exact .singleton hend

section Steps

variable {s : Citations}

/-- The heap with a new node behind the current one. -/
def extended (s : Citations) : CitationHeap :=
  let n := s.heap.ledger.next
  CitationHeap.initNode { s.heap with
    ledger := s.heap.ledger.calloc, next := Function.update s.heap.next s.nowNode (some n) } n

/-- The current node is the last one, so the loop of `addCitationNode` does not go round. -/
theorem Linked.addCitationNode_eq (h : s.Linked) :
    s.heap.addCitationNode (some s.nowNode) =
      some (if cnIsEmpty (s.heap.bytes s.nowNode) then (s.heap, s.nowNode)
        else (s.extended, s.heap.ledger.next)) := by
  have hpath := h.path
  rw [← h.last, List.range_succ] at hpath
  have hpass : CitationHeap.lastPass s.heap.next s.nowNode = .exit s.nowNode := by
    rw [CitationHeap.lastPass, hpath.next_last]
  have hloop : run (CitationHeap.lastPass s.heap.next) s.heap.ledger.next s.nowNode =
      some s.nowNode := by
    rw [← h.last]
    exact run_exit hpass _
  unfold CitationHeap.addCitationNode
  by_cases hempty : cnIsEmpty (s.heap.bytes s.nowNode) = true
  · simp only [hempty, if_true]
  · simp only [hempty, if_false, Bool.false_eq_true, hloop, Option.map_some]
    rfl

/-- The arrays of the other nodes are left. -/
theorem extended_bytes {k : Nat} (hk : k ≠ s.heap.ledger.next) :
    s.extended.bytes k = s.heap.bytes k :=
  Function.update_of_ne hk _ _

/-- Behind a filled node a new one keeps the list. -/
theorem Linked.extended (h : s.Linked) (hfilled : cnIsEmpty (s.heap.bytes s.nowNode) = false) :
    (⟨s.extended, s.nodeHead, s.heap.ledger.next⟩ : Citations).Linked := by
  have hpath := h.path
  have hnow := h.last
  have hrange : List.range s.heap.ledger.next = List.range s.nowNode ++ [s.nowNode] := by
    rw [← hnow, List.range_succ]
  rw [hrange] at hpath
  refine ⟨?_, rfl, ?_, h.unreleased⟩
  · show Path _ _ (List.range (s.heap.ledger.next + 1))
    rw [List.range_succ, hrange]
    refine hpath.concat ?_ ?_ ?_
    · intro x hx
      have hlt := List.mem_range.mp hx
      simp only [Citations.extended, CitationHeap.initNode]
      rw [Function.update_of_ne (by omega), Function.update_of_ne (by omega)]
    · simp only [Citations.extended, CitationHeap.initNode]
      rw [Function.update_of_ne (by omega), Function.update_self]
    · exact Function.update_self _ _ _
  · intro k hk
    have hk : k < s.heap.ledger.next := hk
    show cnIsEmpty (s.extended.bytes k) = false
    rw [extended_bytes (by omega)]
    rcases Nat.lt_or_ge k s.nowNode with hlt | hge
    · exact h.filled k hlt
    · rw [show k = s.nowNode by omega]
      exact hfilled

/-- Asking for a node gives the current one again if it is empty and a new last one
otherwise. -/
theorem Linked.addCitationNode (h : s.Linked) :
    ∃ g p, s.heap.addCitationNode (some s.nowNode) = some (g, p) ∧
      (⟨g, s.nodeHead, p⟩ : Citations).Linked ∧
      g.ledger.next = s.heap.ledger.next +
        (if cnIsEmpty (s.heap.bytes s.nowNode) then 0 else 1) := by
  rw [h.addCitationNode_eq]
  cases hempty : cnIsEmpty (s.heap.bytes s.nowNode) with
  | true => exact ⟨s.heap, s.nowNode, rfl, h, rfl⟩
  | false => exact ⟨s.extended, s.heap.ledger.next, rfl, h.extended hempty, rfl⟩

/-- Writing to the arrays of the last node keeps the list. -/
theorem Linked.write (h : s.Linked) (node : CitationNode) :
    ({ s with heap := s.heap.setBytes s.nowNode node } : Citations).Linked := by
  refine ⟨h.path, h.last, fun k hk => ?_, h.unreleased⟩
  have hk : k < s.nowNode := hk
  have hkeep : (s.heap.setBytes s.nowNode node).bytes k = s.heap.bytes k :=
    Function.update_of_ne (by omega) _ _
  exact (congrArg cnIsEmpty hkeep).trans (h.filled k hk)

/-- A call keeps the list and its head. -/
theorem Linked.addCitationInfo (h : s.Linked) (write : InfoCall → CitationNode → CitationNode)
    (c : InfoCall) :
    ∃ s', s.addCitationInfo write c = some s' ∧ s'.nodeHead = s.nodeHead ∧ s'.Linked ∧
      s'.heap.ledger.next = s.heap.ledger.next +
        (if asksNode c ∧ cnIsEmpty (s.heap.bytes s.nowNode) = false then 1 else 0) := by
  unfold Citations.addCitationInfo
  by_cases hasks : asksNode c = true
  · obtain ⟨g, p, hadd, hlinked, hcount⟩ := h.addCitationNode
    simp only [hasks, if_true, hadd, Option.map_some]
    refine ⟨_, rfl, rfl, hlinked.write _, hcount.trans ?_⟩
    cases cnIsEmpty (s.heap.bytes s.nowNode) <;> rfl
  · simp only [hasks, if_false, Bool.false_eq_true, Option.map_some, false_and]
    exact ⟨_, rfl, rfl, h.write _, rfl⟩

/-- The whole list is released, every node once. -/
theorem Linked.freeCitationNode (h : s.Linked) :
    ∃ l, s.heap.freeCitationNode (some s.nodeHead) = some l ∧
      l.released.Perm (List.range s.heap.ledger.next) := by
  have hrun := h.path.run_walk (fun (l : Ledger) p => l.free (some p))
    (by rw [List.length_range]; exact Nat.lt_succ_self _) s.heap.ledger
  refine ⟨_, hrun, ?_⟩
  have hfree (L : List Nat) (l : Ledger) :
      (L.foldl (fun l p => Ledger.free l (some p)) l).released = L.reverse ++ l.released := by
    induction L generalizing l with
    | nil => rfl
    | cons q L ih =>
        rw [List.foldl_cons, ih, List.reverse_cons, List.append_assoc]
        rfl
  rw [hfree, h.unreleased, List.append_nil]
  exact List.reverse_perm _

end Steps

/-- Every sequence of calls ends, and keeps the list and its head. -/
theorem linked_after (write : InfoCall → CitationNode → CitationNode)
    (bytes : Nat → CitationNode) (next : Nat → Option Nat) (calls : List InfoCall) :
    ∃ s, after write bytes next calls = some s ∧ s.nodeHead = 0 ∧ s.Linked := by
  have hlinked := linked_first bytes next
  have hhead : (first bytes next).nodeHead = 0 := rfl
  rw [after, start_eq, Option.bind_some]
  generalize first bytes next = s at hlinked hhead ⊢
  induction calls generalizing s with
  | nil => exact ⟨s, rfl, hhead, hlinked⟩
  | cons c calls ih =>
      obtain ⟨s', hs', hhead', hlinked', -⟩ := hlinked.addCitationInfo write c
      rw [List.foldlM_cons, hs']
      exact ih s' hlinked' (hhead'.trans hhead)

/-- After every sequence of calls the head is the node it was at first; the list from it holds
every node ever allocated in the order of allocation and ends at the current node; all nodes
before that are filled; an author opens a new node exactly when the current one is filled; and
releasing the list releases every node once. -/
theorem citations_linked (write : InfoCall → CitationNode → CitationNode)
    (bytes : Nat → CitationNode) (next : Nat → Option Nat) (calls : List InfoCall) :
    ∃ s, after write bytes next calls = some s ∧
      (∃ s₀, start bytes next = some s₀ ∧ s.nodeHead = s₀.nodeHead) ∧
      Path s.heap.next (some s.nodeHead) (List.range s.heap.ledger.next) ∧
      s.nowNode + 1 = s.heap.ledger.next ∧
      (∀ k, k < s.nowNode → cnIsEmpty (s.heap.bytes k) = false) ∧
      (∀ c : InfoCall, c.id = 3 → ∃ s', s.addCitationInfo write c = some s' ∧
        s'.heap.ledger.next = s.heap.ledger.next +
          if cnIsEmpty (s.heap.bytes s.nowNode) then 0 else 1) ∧
      ∃ l, s.heap.freeCitationNode (some s.nodeHead) = some l ∧
        l.released.Perm (List.range s.heap.ledger.next) := by
  obtain ⟨s, hafter, hhead, hlinked⟩ := linked_after write bytes next calls
  refine ⟨s, hafter, ⟨_, start_eq bytes next, hhead⟩, hlinked.path, hlinked.last,
    hlinked.filled, fun c hc => ?_, hlinked.freeCitationNode⟩
  obtain ⟨s', hs', -, -, hcount⟩ := hlinked.addCitationInfo write c
  have hasks : asksNode c = true := by
    rw [asksNode, hc]
    rfl
  refine ⟨s', hs', hcount.trans ?_⟩
  cases cnIsEmpty (s.heap.bytes s.nowNode) <;> simp only [hasks, and_self, Bool.true_eq_false,
    and_false, if_true, if_false, Bool.false_eq_true]

/-! ## The list without its pointers -/

/-- The nodes of the list. -/
def nodes (s : Citations) : NodeList :=
  ⟨(List.range s.nowNode).map s.heap.bytes, s.heap.bytes s.nowNode⟩

/-- The memory of the nodes that are not allocated yet is as it was at first. -/
def Fresh (bytes : Nat → CitationNode) (s : Citations) : Prop :=
  ∀ k, s.heap.ledger.next ≤ k → s.heap.bytes k = bytes k

section Nodes

variable {bytes : Nat → CitationNode} {s : Citations}

/-- A new node of the linked list is a new node of the list of nodes. -/
theorem Linked.nodes_extended (h : s.Linked) (hfresh : s.Fresh bytes)
    (hfilled : cnIsEmpty (s.heap.bytes s.nowNode) = false) :
    nodes ⟨s.extended, s.nodeHead, s.heap.ledger.next⟩ =
      CiteParser.addCitationNode bytes s.nodes := by
  have hnow := h.last
  unfold CiteParser.addCitationNode nodes
  rw [if_neg (by rw [hfilled]; exact Bool.false_ne_true), List.length_map, List.length_range]
  simp only [NodeList.mk.injEq]
  constructor
  · have hmap : (List.range s.heap.ledger.next).map s.extended.bytes =
        (List.range s.heap.ledger.next).map s.heap.bytes := by
      refine List.map_congr_left fun k hk => extended_bytes ?_
      exact Nat.ne_of_lt (List.mem_range.mp hk)
    rw [hmap, ← hnow, List.range_succ, List.map_append, List.map_singleton]
  · rw [hnow, ← hfresh _ (Nat.le_refl _)]
    exact Function.update_self _ _ _

/-- Writing to the last node of the linked list writes to the last node of the list. -/
theorem Linked.nodes_setBytes (node : CitationNode) :
    nodes { s with heap := s.heap.setBytes s.nowNode node } = { s.nodes with now := node } := by
  unfold nodes
  simp only [NodeList.mk.injEq]
  constructor
  · refine List.map_congr_left fun k hk => Function.update_of_ne ?_ _ _
    exact Nat.ne_of_lt (List.mem_range.mp hk)
  · exact Function.update_self _ _ _

/-- A call on the linked list does what it does on the list of nodes. -/
theorem Linked.nodes_addCitationInfo (h : s.Linked) (hfresh : s.Fresh bytes) {c : InfoCall}
    (hshort : c.str.length < srcSize) {s' : Citations}
    (hs' : s.addCitationInfo infoWrite c = some s') :
    CiteParser.addCitationInfo bytes s.nodes c = some s'.nodes ∧ s'.Fresh bytes := by
  have hnow := h.last
  rw [addCitationInfo_eq bytes s.nodes hshort]
  unfold Citations.addCitationInfo at hs'
  rw [h.addCitationNode_eq] at hs'
  by_cases hnew : asksNode c = true ∧ cnIsEmpty (s.heap.bytes s.nowNode) = false
  · obtain ⟨hasks, hfilled⟩ := hnew
    simp only [hasks, hfilled, if_true, if_false, Bool.false_eq_true, Option.map_some,
      Option.some.injEq] at hs' ⊢
    rw [← h.nodes_extended hfresh hfilled, ← hs']
    refine ⟨(@Linked.nodes_setBytes ⟨s.extended, s.nodeHead, s.heap.ledger.next⟩ _).symm, ?_⟩
    intro k hk
    have hk : s.heap.ledger.next + 1 ≤ k := hk
    refine (Function.update_of_ne (by omega) _ _).trans ?_
    rw [extended_bytes (by omega)]
    exact hfresh k (by omega)
  · have hsame : (if asksNode c = true then
        some (if cnIsEmpty (s.heap.bytes s.nowNode) = true then (s.heap, s.nowNode)
          else (s.extended, s.heap.ledger.next))
        else some (s.heap, s.nowNode)) = some (s.heap, s.nowNode) := by
      split_ifs with hasks hempty
      · rfl
      · exact absurd ⟨hasks, Bool.eq_false_iff.mpr hempty⟩ hnew
      · rfl
    have hsame' : (if asksNode c = true then CiteParser.addCitationNode bytes s.nodes
        else s.nodes) = s.nodes := by
      split_ifs with hasks
      · refine if_pos ?_
        by_contra hempty
        exact hnew ⟨hasks, Bool.eq_false_iff.mpr hempty⟩
      · rfl
    simp only [hsame, Option.map_some, Option.some.injEq] at hs'
    simp only [hsame', ← hs']
    refine ⟨congrArg some (Linked.nodes_setBytes _).symm, fun k hk => ?_⟩
    have hk : s.heap.ledger.next ≤ k := hk
    refine (Function.update_of_ne (by omega) _ _).trans ?_
    exact hfresh k hk

end Nodes

/-- The linked list holds the nodes of the list that is filled without pointers. -/
theorem nodes_after {bytes : Nat → CitationNode} (next : Nat → Option Nat)
    {calls : List InfoCall} {l : NodeList} (h : infoRun bytes calls = some l) :
    ∃ s, after infoWrite bytes next calls = some s ∧ s.nodes = l := by
  have hlinked := linked_first bytes next
  have hfresh : (first bytes next).Fresh bytes := by
    intro k hk
    have hk : 1 ≤ k := hk
    exact Function.update_of_ne (by omega) _ _
  have hnodes : (first bytes next).nodes = .start bytes := by
    have hinit : Function.update bytes 0 (initCitationNode (bytes 0)) 0 =
        initCitationNode (bytes 0) := Function.update_self _ _ _
    exact congrArg (NodeList.mk []) hinit
  rw [infoRun, ← hnodes] at h
  rw [after, start_eq, Option.bind_some]
  generalize first bytes next = s at hlinked hfresh h ⊢
  clear hnodes
  induction calls generalizing s with
  | nil => exact ⟨s, rfl, Option.some.inj h⟩
  | cons c calls ih =>
      have hshort : c.str.length < srcSize := by
        by_contra hlong
        rw [List.foldlM_cons, CiteParser.addCitationInfo, if_pos (Nat.le_of_not_lt hlong)] at h
        contradiction
      obtain ⟨s', hs', -, hlinked', -⟩ := hlinked.addCitationInfo infoWrite c
      obtain ⟨hstep, hfresh'⟩ := hlinked.nodes_addCitationInfo hfresh hshort hs'
      rw [List.foldlM_cons, hstep] at h
      rw [List.foldlM_cons, hs']
      exact ih s' hlinked' hfresh' h

end Citations

end CiteParser
