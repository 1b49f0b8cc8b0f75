import Mathlib.Data.Set.Card
import Mathlib.Logic.Function.Basic

/-!
# Finite maps as lists of their entries

A list of entries without a key that comes twice stands for a finite map. An entry that is added
is an update of the map, and one that is taken away too.
-/

namespace CiteParser.Assoc

variable {K V : Type*} {l l' : List (K × V)} {m : K → Option V} {key : K} {v w : V}

/-- The entries of the map are those of the list. -/
def Lists (l : List (K × V)) (m : K → Option V) : Prop := ∀ key v, m key = some v ↔ (key, v) ∈ l

namespace Lists

theorem nil : Lists ([] : List (K × V)) fun _ => none := by
  intro key v
  simp

theorem perm (h : Lists l m) (hperm : l'.Perm l) : Lists l' m := fun key v =>
  (h key v).trans hperm.mem_iff.symm

theorem eq_none_iff (h : Lists l m) : m key = none ↔ ∀ v, (key, v) ∉ l := by
  rw [Option.eq_none_iff_forall_ne_some]
  exact forall_congr' fun v => not_congr (h key v)

/-- The map has as many keys as the list has entries. -/
theorem ncard (h : Lists l m) (hnodup : (l.map Prod.fst).Nodup) :
    {key | m key ≠ none}.ncard = l.length := by
  classical
  have hset : {key | m key ≠ none} = ((l.map Prod.fst).toFinset : Set K) := by
    ext key
    change m key ≠ none ↔ _
    rw [Option.ne_none_iff_exists', Finset.mem_coe, List.mem_toFinset, List.mem_map]
    constructor
    · rintro ⟨v, hv⟩
      exact ⟨(key, v), (h key v).mp hv, rfl⟩
    · rintro ⟨e, he, rfl⟩
      exact ⟨e.2, (h e.1 e.2).mpr he⟩
  rw [hset, Set.ncard_coe_finset, List.toFinset_card_of_nodup hnodup, List.length_map]

variable [DecidableEq K]

/-- An entry whose key is not there yet. -/
theorem cons (h : Lists l m) (hkey : ∀ v, (key, v) ∉ l) :
    Lists ((key, v) :: l) (Function.update m key (some v)) := by
  intro k u
  rw [List.mem_cons, Prod.mk.injEq]
  by_cases heq : k = key
  · subst heq
    rw [Function.update_self, Option.some.injEq, eq_comm, and_iff_right rfl]
    exact ⟨.inl, fun hor => hor.resolve_right (hkey u)⟩
  · rw [Function.update_of_ne heq, h k u]
    exact ⟨.inr, fun hor => hor.resolve_left fun hand => heq hand.1⟩

/-- The first of the entries is taken away. -/
theorem tail (h : Lists ((key, v) :: l) m) (hkey : ∀ v, (key, v) ∉ l) :
    Lists l (Function.update m key none) := by
  intro k u
  by_cases heq : k = key
  · subst heq
    rw [Function.update_self]
    exact ⟨fun hnone => absurd hnone (Option.some_ne_none u).symm, fun hmem => absurd hmem (hkey u)⟩
  · rw [Function.update_of_ne heq, h k u, List.mem_cons, Prod.mk.injEq]
    exact ⟨fun hor => hor.resolve_left fun hand => heq hand.1, .inr⟩

/-- The value of an entry is replaced. -/
theorem replace (h : Lists ((key, v) :: l) m) (hkey : ∀ v, (key, v) ∉ l) :
    Lists ((key, w) :: l) (Function.update m key (some w)) := by
  have hcons := (h.tail hkey).cons (v := w) hkey
  rwa [Function.update_idem] at hcons

end Lists

/-- Keys that do not come twice. -/
theorem not_mem_of_nodup (h : (((key, v) :: l).map Prod.fst).Nodup) (w : V) : (key, w) ∉ l :=
  fun hmem => (List.nodup_cons.mp h).1 (List.mem_map.mpr ⟨_, hmem, rfl⟩)

end CiteParser.Assoc
