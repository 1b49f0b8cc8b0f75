import CiteParser.Features.DictLoad
import CiteParser.Hash.Refine

/-!
# The dictionaries in their tables

`hmDictLoad` once more, with the hash tables themselves. A row goes through `kh_put`, perhaps
`kh_del`, and an assignment to the bucket, which may have been deleted just before. The lookups of
`kh_get` find what the rows of the database make of a name.
-/

namespace CiteParser.Khash

/-- `map[10]`. -/
abbrev DictTables := Nat → KhTable (List UInt8) Rat

section Load

variable (atof : List UInt8 → Rat)

def dbHandleHashDictLoad (dv : DictVal) (map : DictTables) (row : DictRow) : Option DictTables := do
  let name := strCaseTransfer row.name
  let (h, k, rt) ← khPut x31HashString (map dv.mid) name
  let h := if rt = 0 then khDel h k else h
  return Function.update map dv.mid (setValue h k (rowValue atof dv.type row))

def dbHashDictLoad (rows : List DictRow) (mid : Nat) (map : DictTables) : Option DictTables :=
  rows.foldlM (dbHandleHashDictLoad atof ⟨mid, if mid = 9 then 1 else 0⟩) map

def hmDictLoad (db : String → List DictRow) (map : DictTables) : Option DictTables := do
  let map ← (List.range 9).foldlM
    (fun map i => dbHashDictLoad atof (dictRows db i) i (Function.update map i khInit)) map
  dbHashDictLoad atof (dictRows db 9) 9 (Function.update map 9 khInit)

variable (stale : Rat)

/-- A row does to its table what it does to the finite map. -/
theorem dbHandleHashDictLoad_spec {map : DictTables} {m : KHash} {mid : Nat} (type : Nat)
    (row : DictRow) (h' : Represents x31HashString (map mid) m) (hsize : (map mid).size ≤ maxSize) :
    ∃ g, dbHandleHashDictLoad atof ⟨mid, type⟩ map row = some (Function.update map mid g) ∧
      Represents x31HashString g (loadRow atof stale type m row) ∧
      g.size ≤ (map mid).size + 1 := by
  obtain ⟨g, x, rt, v, hput, hx, hlive, hrt, hg, hle⟩ := h'.khPut hsize (strCaseTransfer row.name)
  refine ⟨setValue (if rt = 0 then khDel g x else g) x (rowValue atof type row), ?_, ?_, ?_⟩
  · rw [dbHandleHashDictLoad, hput]
    rfl
  · by_cases hzero : rt = 0
    · rw [if_pos hzero]
      have hdel := hg.khDel hx hlive
      rw [Function.update_idem] at hdel
      have hdeleted := (khDel_spec hg.wellFormed hx hlive).2.2.1
      have hmap : loadRow atof stale type m row =
          Function.update m (strCaseTransfer row.name) none := by
        funext key
        rw [loadRow_apply]
        split
        next heq =>
          subst heq
          obtain ⟨w, hw⟩ := Option.ne_none_iff_exists'.mp (hrt.mp hzero)
          rw [hw, Function.update_self]
        next hne => rw [Function.update_of_ne (Ne.symm hne)]
      rw [hmap]
      exact hdel.setValue_of_deleted hdeleted
    · rw [if_neg hzero]
      have hval := hg.setValue (w := rowValue atof type row) hx hlive
      rw [Function.update_idem] at hval
      have hmap : loadRow atof stale type m row =
          Function.update m (strCaseTransfer row.name) (some (rowValue atof type row)) := by
        funext key
        rw [loadRow_apply]
        split
        next heq =>
          subst heq
          rw [not_not.mp (mt hrt.mpr hzero), Function.update_self]
        next hne => rw [Function.update_of_ne (Ne.symm hne)]
      rwa [hmap]
  · refine le_trans ?_ hle
    change (if rt = 0 then khDel g x else g).size ≤ g.size
    split
    · rw [khDel]
      split
      · exact Nat.sub_le _ _
      · exact le_rfl
    · exact le_rfl

/-- The rows of a table do to it what they do to the finite map, and nothing to the others. -/
theorem dbHashDictLoad_spec (rows : List DictRow) {mid : Nat} {map : DictTables} {m : KHash}
    (h' : Represents x31HashString (map mid) m)
    (hsize : (map mid).size + rows.length ≤ maxSize + 1) :
    ∃ g, dbHashDictLoad atof rows mid map = some (Function.update map mid g) ∧
      Represents x31HashString g
        (rows.foldl (loadRow atof stale (if mid = 9 then 1 else 0)) m) := by
  rw [dbHashDictLoad]
  induction rows generalizing map m with
  | nil => exact ⟨map mid, by rw [Function.update_eq_self]; rfl, h'⟩
  | cons row rows ih =>
      rw [List.length_cons] at hsize
      obtain ⟨g, hrow, hg, hle⟩ := dbHandleHashDictLoad_spec atof stale
        (if mid = 9 then 1 else 0) row h' (by omega)
      have hself : Function.update map mid g mid = g := Function.update_self mid g map
      obtain ⟨g', hrows, hg'⟩ := @ih (Function.update map mid g) _ (hself ▸ hg) (by
        rw [hself]
        omega)
      refine ⟨g', ?_, hg'⟩
      rw [List.foldlM_cons, hrow]
      exact hrows.trans (by rw [Function.update_idem])

/-- A dictionary is loaded into a new table. -/
theorem dbHashDictLoad_khInit {db : String → List DictRow} {d : Nat}
    (map : DictTables) (hrows : (dictRows db d).length ≤ maxSize + 1) :
    ∃ g, dbHashDictLoad atof (dictRows db d) d (Function.update map d khInit) =
        some (Function.update map d g) ∧
      Represents x31HashString g
        ((dictRows db d).foldl (loadRow atof stale (if d = 9 then 1 else 0)) fun _ => none) := by
  have hself : Function.update map d khInit d = khInit := Function.update_self d khInit map
  obtain ⟨g, hload, hg⟩ := dbHashDictLoad_spec atof stale (dictRows db d)
    (hself ▸ Represents.start x31HashString) (by
      rw [hself]
      exact (Nat.zero_add _).trans_le hrows)
  rw [Function.update_idem] at hload
  exact ⟨g, hload, hg⟩

/-- A loaded table finds under a name what the last row of that name says if an odd number of rows
have it, letter case aside, and nothing if not. -/
theorem hmDictLoad_spec (db : String → List DictRow) (map : DictTables)
    (hrows : ∀ d < 10, (dictRows db d).length ≤ maxSize + 1) :
    ∃ tables, hmDictLoad atof db map = some tables ∧ ∀ d < 10, ∀ key,
      khFind x31HashString (tables d) key = some
        (if Odd (rowCount (dictRows db d) key) then
          (lastRow (dictRows db d) key).map (rowValue atof (if d = 9 then 1 else 0))
        else none) := by
  let loaded (d : Nat) : KHash :=
    (dictRows db d).foldl (loadRow atof 0 (if d = 9 then 1 else 0)) fun _ => none
  have hstep : ∀ k < 9, ∀ t : DictTables, (∀ d < k, Represents x31HashString (t d) (loaded d)) →
      ∃ t', dbHashDictLoad atof (dictRows db k) k (Function.update t k khInit) = some t' ∧
        ∀ d < k + 1, Represents x31HashString (t' d) (loaded d) := by
    intro k hk t ht
    obtain ⟨g, hload, hg⟩ := dbHashDictLoad_khInit atof 0 t (hrows k (by omega))
    refine ⟨_, hload, fun d hd => ?_⟩
    by_cases heq : d = k
    · subst heq
      rwa [Function.update_self]
    · rw [Function.update_of_ne heq]
      exact ht d (by omega)
  obtain ⟨nine, hnine, hfirst⟩ := Loop.foldlM_range (s := map)
    (I := fun k t => ∀ d < k, Represents x31HashString (t d) (loaded d))
    (fun d hd => absurd hd (Nat.not_lt_zero d)) hstep
  obtain ⟨g, hlast, hg⟩ := dbHashDictLoad_khInit atof 0 nine (hrows 9 (by decide))
  refine ⟨Function.update nine 9 g, ?_, fun d hd key => ?_⟩
  · rw [hmDictLoad, hnine]
    exact hlast
  · have htable : Represents x31HashString (Function.update nine 9 g d) (loaded d) := by
      by_cases heq : d = 9
      · subst heq
        rwa [Function.update_self]
      · rw [Function.update_of_ne heq]
        exact hfirst d (by omega)
    rw [htable.khFind]
    exact congrArg some (loadRows_apply atof 0 _ _ key)

/-- Two family names, one of which is in the table twice. -/
theorem hmDictLoad_families : ∃ tables, hmDictLoad (fun _ => 1)
      (fun _ => [⟨bytes "Smith", [], by decide⟩, ⟨bytes "Wang", [], by decide⟩,
        ⟨bytes "SMITH", [], by decide⟩]) (fun _ => khInit) = some tables ∧
    khFind x31HashString (tables 0) (bytes "wang") = some (some 1) ∧
    khFind x31HashString (tables 0) (bytes "smith") = some none := by
  obtain ⟨tables, hload, hfind⟩ := hmDictLoad_spec (fun _ => 1)
    (fun _ => [⟨bytes "Smith", [], by decide⟩, ⟨bytes "Wang", [], by decide⟩,
        ⟨bytes "SMITH", [], by decide⟩]) (fun _ => khInit) fun d _ => by
      rw [dictRows]
      decide
  refine ⟨tables, hload, (hfind 0 (by decide) _).trans ?_, (hfind 0 (by decide) _).trans ?_⟩
  · decide +kernel
  · decide +kernel

end Load

end CiteParser.Khash
