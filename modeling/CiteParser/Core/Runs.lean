import Mathlib.Data.List.SplitBy

/-!
# Runs of equal keys

A list of keyed pieces falls into maximal runs of equal keys. `runsFrom` finds them in one
pass with the pieces of the current run gathered so far; `maximalRuns` says what they are.
-/

namespace CiteParser

variable {κ β : Type*} [DecidableEq κ]

/-- The maximal runs of equal keys, each with its key and its pieces joined. -/
def maximalRuns (items : List (κ × List β)) : List (κ × List β) :=
  (items.splitBy fun a b => a.1 == b.1).filterMap fun g =>
    g.head?.map fun a => (a.1, g.flatMap (·.2))

/-- The runs from a key with pieces gathered already, in one pass. -/
def runsFrom : κ → List β → List (κ × List β) → List (κ × List β)
  | k, acc, [] => [(k, acc)]
  | k, acc, (k', b) :: rest =>
      if k' = k then runsFrom k (acc ++ b) rest else (k, acc) :: runsFrom k' b rest

/-- The groups behind `runsFrom`: the pieces of the current run, and those to come. -/
def groupsFrom : κ → List (κ × List β) → List (κ × List β) → List (List (κ × List β))
  | _, g, [] => [g]
  | k, g, a :: rest =>
      if a.1 = k then groupsFrom k (g ++ [a]) rest else g :: groupsFrom a.1 [a] rest

/-- The groups join to the whole list. -/
theorem flatten_groupsFrom (k : κ) (g rest : List (κ × List β)) :
    (groupsFrom k g rest).flatten = g ++ rest := by
  induction rest generalizing k g with
  | nil => rw [groupsFrom, List.flatten_singleton, List.append_nil]
  | cons a rest ih =>
      rw [groupsFrom]
      split
      · rw [ih, List.append_assoc, List.singleton_append]
      · rw [List.flatten_cons, ih, List.singleton_append]

/-- Every group is non-empty, all its keys are equal, and the first group starts with the
pieces gathered already. -/
theorem mem_groupsFrom {k : κ} {g : List (κ × List β)} (rest : List (κ × List β)) (hg : g ≠ [])
    (hk : ∀ a ∈ g, a.1 = k) :
    (∀ m ∈ groupsFrom k g rest, m ≠ [] ∧ ∃ k', ∀ a ∈ m, a.1 = k') ∧
      ∃ more, ((groupsFrom k g rest).head?) = some (g ++ more) := by
  induction rest generalizing k g with
  | nil =>
      refine ⟨fun m hm => ?_, [], by rw [groupsFrom, List.append_nil]; rfl⟩
      rw [List.mem_singleton.mp hm]
      exact ⟨hg, k, hk⟩
  | cons a rest ih =>
      rw [groupsFrom]
      split
      · rename_i ha
        have hk' : ∀ b ∈ g ++ [a], b.1 = k := by
          intro b hb
          rcases List.mem_append.mp hb with hb | hb
          · exact hk b hb
          · rw [List.mem_singleton.mp hb, ha]
        obtain ⟨hall, more, hhead⟩ := ih (List.append_ne_nil_of_left_ne_nil hg [a]) hk'
        exact ⟨hall, a :: more, by rw [hhead, List.append_assoc, List.singleton_append]⟩
      · have hone : ∀ b ∈ [a], b.1 = a.1 := fun b hb => by rw [List.mem_singleton.mp hb]
        obtain ⟨hall, -⟩ := ih (List.cons_ne_nil a []) hone
        refine ⟨fun m hm => ?_, [], by rw [List.append_nil]; rfl⟩
        rcases List.mem_cons.mp hm with rfl | hm
        · exact ⟨hg, k, hk⟩
        · exact hall m hm

/-- A list whose keys are all equal is a chain. -/
theorem isChain_of_const {k : κ} {m : List (κ × List β)} (h : ∀ a ∈ m, a.1 = k) :
    m.IsChain fun a b => (a.1 == b.1) = true := by
  induction m with
  | nil => exact List.isChain_nil
  | cons a m ih =>
      rw [List.isChain_cons]
      refine ⟨fun b hb => ?_, ih fun b hb => h b (List.mem_cons_of_mem _ hb)⟩
      rw [beq_iff_eq, h a List.mem_cons_self,
        h b (List.mem_cons_of_mem _ (List.mem_of_mem_head? hb))]

/-- Where one group ends and the next starts the keys differ. -/
theorem isChain_groupsFrom {k : κ} {g rest : List (κ × List β)} (hg : g ≠ [])
    (hk : ∀ a ∈ g, a.1 = k) :
    (groupsFrom k g rest).IsChain fun a b =>
      ∃ ha hb, ((a.getLast ha).1 == (b.head hb).1) = false := by
  induction rest generalizing k g with
  | nil => exact List.isChain_singleton g
  | cons a rest ih =>
      rw [groupsFrom]
      split
      · rename_i ha
        refine ih (List.append_ne_nil_of_left_ne_nil hg [a]) fun b hb => ?_
        rcases List.mem_append.mp hb with hb | hb
        · exact hk b hb
        · rw [List.mem_singleton.mp hb, ha]
      · rename_i ha
        have hone : ∀ b ∈ [a], b.1 = a.1 := fun b hb => by rw [List.mem_singleton.mp hb]
        rw [List.isChain_cons]
        refine ⟨fun b hb => ?_, ih (List.cons_ne_nil a []) hone⟩
        obtain ⟨-, more, hhead⟩ := mem_groupsFrom rest (List.cons_ne_nil a []) hone
        rw [hhead, Option.mem_def, Option.some.injEq] at hb
        subst hb
        refine ⟨hg, List.cons_ne_nil a _, ?_⟩
        rw [beq_eq_false_iff_ne, hk _ (List.getLast_mem hg)]
        exact fun he => ha he.symm

/-- The groups found in one pass are the maximal ones. -/
theorem groupsFrom_eq_splitBy {k : κ} {g rest : List (κ × List β)} (hg : g ≠ [])
    (hk : ∀ a ∈ g, a.1 = k) :
    groupsFrom k g rest = (g ++ rest).splitBy fun a b => a.1 == b.1 := by
  obtain ⟨hall, -⟩ := mem_groupsFrom rest hg hk
  rw [← flatten_groupsFrom k g rest, List.splitBy_flatten]
  · exact fun hnil => (hall [] hnil).1 rfl
  · intro m hm
    obtain ⟨-, k', hk'⟩ := hall m hm
    exact isChain_of_const hk'
  · exact isChain_groupsFrom hg hk

/-- Joining the groups gives the runs. -/
theorem runsFrom_eq {k : κ} {g : List (κ × List β)} (rest : List (κ × List β)) (hg : g ≠ [])
    (hk : ∀ a ∈ g, a.1 = k) :
    runsFrom k (g.flatMap (·.2)) rest = (groupsFrom k g rest).filterMap fun m =>
      m.head?.map fun a => (a.1, m.flatMap (·.2)) := by
  have hjoin : (g.head?.map fun a => (a.1, g.flatMap (·.2))) = some (k, g.flatMap (·.2)) := by
    obtain ⟨a, g, rfl⟩ := List.exists_cons_of_ne_nil hg
    rw [List.head?_cons, Option.map_some, hk a List.mem_cons_self]
  induction rest generalizing k g with
  | nil => rw [runsFrom, groupsFrom, List.filterMap_cons, hjoin]; rfl
  | cons a rest ih =>
      obtain ⟨k', b⟩ := a
      rw [runsFrom, groupsFrom]
      by_cases ha : k' = k
      · have hk' : ∀ c ∈ g ++ [(k', b)], c.1 = k := by
          intro c hc
          rcases List.mem_append.mp hc with hc | hc
          · exact hk c hc
          · rw [List.mem_singleton.mp hc, ha]
        rw [if_pos ha, if_pos ha, ← ih (List.append_ne_nil_of_left_ne_nil hg _) hk' ?_]
        · rw [List.flatMap_append, List.flatMap_singleton]
        · obtain ⟨c, g, rfl⟩ := List.exists_cons_of_ne_nil hg
          rw [List.cons_append, List.head?_cons, Option.map_some, hk c List.mem_cons_self]
      · have hone : ∀ c ∈ [(k', b)], c.1 = k' := fun c hc => by rw [List.mem_singleton.mp hc]
        rw [if_neg ha, if_neg ha, List.filterMap_cons, hjoin,
          ← ih (List.cons_ne_nil _ []) hone rfl, List.flatMap_singleton]

/-- The runs of a list, found in one pass, are the maximal ones. -/
theorem maximalRuns_cons (k : κ) (b : List β) (rest : List (κ × List β)) :
    maximalRuns ((k, b) :: rest) = runsFrom k b rest := by
  have hone : ∀ c ∈ [(k, b)], c.1 = k := fun c hc => by rw [List.mem_singleton.mp hc]
  have h := runsFrom_eq rest (List.cons_ne_nil (k, b) []) hone
  rw [groupsFrom_eq_splitBy (List.cons_ne_nil _ _) hone, List.flatMap_singleton] at h
  exact h.symm

@[simp] theorem maximalRuns_nil : maximalRuns ([] : List (κ × List β)) = [] := rfl

/-- The pieces gathered for the current run are the start of one of the runs. -/
theorem exists_runsFrom_ge (k : κ) (acc : List β) (rest : List (κ × List β)) :
    ∃ r ∈ runsFrom k acc rest, acc.length ≤ r.2.length := by
  induction rest generalizing acc with
  | nil => exact ⟨(k, acc), List.mem_singleton.mpr rfl, Nat.le_refl _⟩
  | cons a rest ih =>
      obtain ⟨k', b⟩ := a
      rw [runsFrom]
      split
      · obtain ⟨r, hr, hle⟩ := ih (acc ++ b)
        rw [List.length_append] at hle
        exact ⟨r, hr, by omega⟩
      · exact ⟨(k, acc), List.mem_cons_self, Nat.le_refl _⟩

/-- The starts of a non-empty list. -/
theorem forall_prefix_cons {α : Type*} {P : List α → Prop} {a : α} {l : List α} :
    (∀ m, m <+: a :: l → P m) ↔ P [] ∧ ∀ m, m <+: l → P (a :: m) := by
  constructor
  · intro h
    exact ⟨h [] List.nil_prefix, fun m hm => h _ (List.prefix_cons_iff.mpr (.inr ⟨m, rfl, hm⟩))⟩
  · rintro ⟨hnil, hcons⟩ m hm
    rcases List.prefix_cons_iff.mp hm with rfl | ⟨m', rfl, hm'⟩
    · exact hnil
    · exact hcons m' hm'

/-- The blocks of a non-empty list are its starts and the blocks behind its head. -/
theorem forall_infix_cons {α : Type*} {P : List α → Prop} {a : α} {l : List α} :
    (∀ m, m <:+: a :: l → P m) ↔ (∀ m, m <+: a :: l → P m) ∧ ∀ m, m <:+: l → P m := by
  simp only [List.infix_cons_iff, or_imp, forall_and]

/-- No run is as long as `bound` exactly when the pieces gathered with those of the pending
run to come are not, and no block of equal keys behind them is. -/
theorem forall_runsFrom_iff {bound : Nat} (k : κ) (acc : List β) (rest : List (κ × List β)) :
    (∀ r ∈ runsFrom k acc rest, r.2.length < bound) ↔
      (∀ m, m <+: rest → (∀ a ∈ m, a.1 = k) →
        acc.length + (m.flatMap (·.2)).length < bound) ∧
      ∀ m, m <:+: rest → ∀ k', (∀ a ∈ m, a.1 = k') → (m.flatMap (·.2)).length < bound := by
  induction rest generalizing k acc with
  | nil =>
      simp only [runsFrom, List.forall_mem_singleton, List.prefix_nil, List.infix_nil, forall_eq,
        List.not_mem_nil, false_implies, implies_true, forall_const, List.flatMap_nil,
        List.length_nil, Nat.add_zero]
      constructor
      · intro h
        exact ⟨h, fun _ => Nat.zero_lt_of_lt h⟩
      · intro h
        exact h.1
  | cons a rest ih =>
      obtain ⟨k', b⟩ := a
      rw [runsFrom, forall_infix_cons, forall_prefix_cons, forall_prefix_cons]
      simp only [List.forall_mem_cons, List.not_mem_nil, false_implies, implies_true,
        forall_const, List.flatMap_nil, List.flatMap_cons, List.length_append, List.length_nil,
        Nat.add_zero]
      by_cases hk : k' = k
      · subst hk
        rw [if_pos rfl, ih]
        simp only [List.length_append]
        constructor
        · rintro ⟨hpre, hin⟩
          have hnil := hpre [] List.nil_prefix fun a ha => absurd ha List.not_mem_nil
          rw [List.flatMap_nil, List.length_nil] at hnil
          refine ⟨⟨by omega, fun m hm hall => ?_⟩,
            ⟨fun _ => by omega, fun m hm k'' hall => ?_⟩, hin⟩
          · have h := hpre m hm hall.2
            omega
          · obtain ⟨rfl, hall⟩ := hall
            have h := hpre m hm hall
            omega
        · rintro ⟨⟨-, hpre⟩, -, hin⟩
          refine ⟨fun m hm hall => ?_, hin⟩
          have h := hpre m hm ⟨trivial, hall⟩
          omega
      · rw [if_neg hk, List.forall_mem_cons, ih]
        constructor
        · rintro ⟨hacc, hpre, hin⟩
          refine ⟨⟨hacc, fun m _ hall => absurd hall.1 hk⟩,
            ⟨fun _ => Nat.zero_lt_of_lt hacc, fun m hm k'' hall => ?_⟩, hin⟩
          obtain ⟨rfl, hall⟩ := hall
          exact hpre m hm hall
        · rintro ⟨⟨hacc, -⟩, ⟨-, hpre⟩, hin⟩
          exact ⟨hacc, fun m hm hall => hpre m hm k' ⟨rfl, hall⟩, hin⟩

/-- No maximal run is as long as `bound` exactly when no block of equal keys is. -/
theorem forall_maximalRuns_iff {bound : Nat} (hbound : 0 < bound) (items : List (κ × List β)) :
    (∀ r ∈ maximalRuns items, r.2.length < bound) ↔
      ∀ m, m <:+: items → ∀ k, (∀ a ∈ m, a.1 = k) → (m.flatMap (·.2)).length < bound := by
  cases items with
  | nil =>
      simp only [maximalRuns_nil, List.not_mem_nil, false_implies, implies_true, List.infix_nil,
        forall_eq, List.flatMap_nil, List.length_nil, hbound]
  | cons a rest =>
      obtain ⟨k', b⟩ := a
      rw [maximalRuns_cons, forall_runsFrom_iff, forall_infix_cons, forall_prefix_cons]
      simp only [List.forall_mem_cons, List.not_mem_nil, false_implies, implies_true,
        List.flatMap_nil, List.flatMap_cons, List.length_append, List.length_nil,
        hbound, true_and]
      refine and_congr_left fun _ => ?_
      constructor
      · rintro hpre m hm k ⟨rfl, hall⟩
        exact hpre m hm hall
      · intro hpre m hm hall
        exact hpre m hm k' ⟨rfl, hall⟩

end CiteParser
