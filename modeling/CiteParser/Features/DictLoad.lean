import CiteParser.Features.Dict
import Mathlib.Algebra.Ring.Parity
import Mathlib.Data.List.Induction
import Mathlib.Logic.Function.Basic

/-!
# Loading the dictionaries

`hmDictLoad` and the callback that `sqlite3_exec` runs for every row. The database is a
parameter, and so are `atof` and the value a bucket holds before the first assignment.
The hash table is a finite map: an iterator is the name whose bucket it points at, and an
assignment through it changes the map only while the bucket is live.
-/

namespace CiteParser

/-- One hash table. -/
abbrev KHash := List UInt8 → Option Rat

namespace KHash

/-- `kh_put`, with what it stores in `rt`. -/
def put (h : KHash) (stale : Rat) (name : List UInt8) : KHash × Nat :=
  match h name with
  | some _ => (h, 0)
  | none => (Function.update h name (some stale), 1)

/-- `kh_del` at the bucket of a name. -/
def del (h : KHash) (name : List UInt8) : KHash := Function.update h name none

/-- An assignment to `kh_value` at the bucket of a name. -/
def setValue (h : KHash) (name : List UInt8) (v : Rat) : KHash :=
  if (h name).isSome then Function.update h name (some v) else h

end KHash

/-- The columns of a row that the callback reads; its name fits the buffer it is copied to. -/
structure DictRow where
  name : List UInt8
  val : List UInt8
  short : name.length < 100

/-- What `sqlite3_exec` passes on to the callback. -/
structure DictVal where
  mid : Nat
  type : Nat

section Load

variable (atof : List UInt8 → Rat) (stale : Rat)

/-- The value that a row gives its name. -/
def rowValue (type : Nat) (row : DictRow) : Rat := if type = 1 then atof row.val else 1

/-- What a row does to its hash table. -/
def loadRow (type : Nat) (h : KHash) (row : DictRow) : KHash :=
  let name := strCaseTransfer row.name
  let (h, rt) := h.put stale name
  let h := if rt = 0 then h.del name else h
  h.setValue name (rowValue atof type row)

def dbHandleHashDictLoad (dv : DictVal) (map : Dict) (row : DictRow) : Dict :=
  Function.update map dv.mid (loadRow atof stale dv.type (map dv.mid) row)

/-- The rows of a table go through the callback in their order. -/
def dbHashDictLoad (rows : List DictRow) (mid : Nat) (map : Dict) : Dict :=
  rows.foldl (dbHandleHashDictLoad atof stale ⟨mid, if mid = 9 then 1 else 0⟩) map

/-- `kh_init`. -/
def khInit (map : Dict) (mid : Nat) : Dict := Function.update map mid fun _ => none

/-- The tables of the database, in the order of their dictionaries. -/
def dictTables : List String :=
  ["ChineseFamilyNames", "CountryNames", "FemaleFirstNames", "FuncWord", "MaleFirstNames",
    "Months", "PlaceNames", "PublisherNames", "CityNames", "LastNames"]

/-- The rows from which a dictionary is loaded. -/
def dictRows (db : String → List DictRow) (d : Nat) : List DictRow := db (dictTables.getD d "")

def hmDictLoad (db : String → List DictRow) (map : Dict) : Dict :=
  let map := (List.range 9).foldl
    (fun map i => dbHashDictLoad atof stale (dictRows db i) i (khInit map i)) map
  dbHashDictLoad atof stale (dictRows db 9) 9 (khInit map 9)

/-- Loading one dictionary leaves the others. -/
theorem dbHashDictLoad_other (rows : List DictRow) {mid d : Nat} (map : Dict) (h : d ≠ mid) :
    dbHashDictLoad atof stale rows mid map d = map d := by
  rw [dbHashDictLoad]
  induction rows generalizing map with
  | nil => rfl
  | cons row rows ih =>
      rw [List.foldl_cons, ih, dbHandleHashDictLoad, Function.update_of_ne h]

/-- A dictionary is what its rows make of its hash table one after the other. -/
theorem dbHashDictLoad_self (rows : List DictRow) (mid : Nat) (map : Dict) :
    dbHashDictLoad atof stale rows mid map mid =
      rows.foldl (loadRow atof stale (if mid = 9 then 1 else 0)) (map mid) := by
  rw [dbHashDictLoad]
  induction rows generalizing map with
  | nil => rfl
  | cons row rows ih =>
      rw [List.foldl_cons, List.foldl_cons, ih, dbHandleHashDictLoad, Function.update_self]

/-- Every dictionary is loaded from its own table into an empty hash table. -/
theorem hmDictLoad_apply (db : String → List DictRow) (map : Dict) {d : Nat} (h : d < 10) :
    hmDictLoad atof stale db map d =
      (dictRows db d).foldl (loadRow atof stale (if d = 9 then 1 else 0)) fun _ => none := by
  have hloop (n : Nat) (hd : d < n) : (List.range n).foldl
      (fun map i => dbHashDictLoad atof stale (dictRows db i) i (khInit map i)) map d =
        (dictRows db d).foldl (loadRow atof stale (if d = 9 then 1 else 0)) fun _ => none := by
    induction n with
    | zero => omega
    | succ n ih =>
        rw [List.range_succ, List.foldl_append, List.foldl_cons, List.foldl_nil]
        by_cases hn : d = n
        · rw [← hn, dbHashDictLoad_self, khInit, Function.update_self]
        · rw [dbHashDictLoad_other _ _ _ _ hn, khInit, Function.update_of_ne hn]
          exact ih (by omega)
  exact hloop 10 h

/-- A row inserts a name that is missing and removes one that is there. -/
theorem loadRow_apply (type : Nat) (h : KHash) (row : DictRow) (key : List UInt8) :
    loadRow atof stale type h row key =
      if strCaseTransfer row.name = key then
        match h key with
        | some _ => none
        | none => some (rowValue atof type row)
      else h key := by
  by_cases hkey : strCaseTransfer row.name = key
  · subst hkey
    rw [if_pos rfl, loadRow, KHash.put]
    cases hname : h (strCaseTransfer row.name) with
    | none => simp [KHash.setValue]
    | some v => simp [KHash.setValue, KHash.del]
  · rw [if_neg hkey, loadRow, KHash.put]
    have hother (g : KHash) (v : Option Rat) :
        Function.update g (strCaseTransfer row.name) v key = g key :=
      Function.update_of_ne (Ne.symm hkey) v g
    cases hname : h (strCaseTransfer row.name) with
    | none => simp [KHash.setValue, hother]
    | some v => simp [KHash.setValue, KHash.del, hother]

/-- How many rows have a name, letter case aside. -/
def rowCount (rows : List DictRow) (key : List UInt8) : Nat :=
  rows.countP fun row => strCaseTransfer row.name == key

/-- The last row that has a name, letter case aside. -/
def lastRow (rows : List DictRow) (key : List UInt8) : Option DictRow :=
  rows.reverse.find? fun row => strCaseTransfer row.name == key

/-- A name that some row has stands in a last one. -/
theorem exists_lastRow {rows : List DictRow} {row : DictRow} {key : List UInt8}
    (h : row ∈ rows) (hname : strCaseTransfer row.name = key) :
    ∃ last, lastRow rows key = some last := by
  rw [← Option.isSome_iff_exists, lastRow, List.find?_isSome]
  exact ⟨row, List.mem_reverse.mpr h, beq_iff_eq.mpr hname⟩

/-- A name is in the table when an odd number of rows have it, with the value of the last. -/
theorem loadRows_apply (type : Nat) (rows : List DictRow) (key : List UInt8) :
    rows.foldl (loadRow atof stale type) (fun _ => none) key =
      if Odd (rowCount rows key) then (lastRow rows key).map (rowValue atof type) else none := by
  induction rows using List.reverseRecOn with
  | nil => simp [rowCount]
  | append_singleton rows row ih =>
      rw [List.foldl_append, List.foldl_cons, List.foldl_nil, loadRow_apply, ih]
      by_cases hkey : strCaseTransfer row.name = key
      · have hcount : rowCount (rows ++ [row]) key = rowCount rows key + 1 := by
          simp [rowCount, hkey]
        have hlast : lastRow (rows ++ [row]) key = some row := by
          simp [lastRow, hkey]
        rw [if_pos hkey, hcount, hlast]
        by_cases hodd : Odd (rowCount rows key)
        · have hpos : 0 < rowCount rows key := by
            obtain ⟨k, hk⟩ := hodd
            omega
          obtain ⟨r, hr, hname⟩ := List.countP_pos_iff.mp hpos
          obtain ⟨l, hl⟩ := exists_lastRow hr (beq_iff_eq.mp hname)
          rw [if_pos hodd, if_neg (mt Nat.odd_add_one.mp (not_not.mpr hodd)), hl]
          rfl
        · rw [if_neg hodd, if_pos (Nat.odd_add_one.mpr hodd)]
          rfl
      · have hcount : rowCount (rows ++ [row]) key = rowCount rows key := by
          simp [rowCount, hkey]
        have hlast : lastRow (rows ++ [row]) key = lastRow rows key := by
          simp [lastRow, hkey]
        rw [if_neg hkey, hcount, hlast]

/-- A loaded dictionary answers every row with the value of the last row of that name exactly
when no name, letter case aside, stands in an even number of rows. -/
theorem hmDictLoad_answers_iff (db : String → List DictRow) (map : Dict) (d : Fin 10) :
    (∀ row ∈ dictRows db d,
      (hmDictLoad atof stale db map d (strCaseTransfer row.name)).isSome = true ∧
      ∃ last, lastRow (dictRows db d) (strCaseTransfer row.name) = some last ∧
        hmDictGet (hmDictLoad atof stale db map) d (strCaseTransfer row.name) =
          if d.val = 9 then atof last.val else 1) ↔
    ∀ row ∈ dictRows db d, Odd (rowCount (dictRows db d) (strCaseTransfer row.name)) := by
  refine forall₂_congr fun row hrow => ?_
  have hload := hmDictLoad_apply atof stale db map d.isLt
  have hname := congrFun hload (strCaseTransfer row.name)
  rw [loadRows_apply] at hname
  constructor
  · rintro ⟨hsome, -⟩
    by_contra hodd
    rw [hname, if_neg hodd] at hsome
    contradiction
  · intro hodd
    obtain ⟨last, hlast⟩ := exists_lastRow hrow rfl
    rw [if_pos hodd, hlast, Option.map_some] at hname
    refine ⟨by rw [hname]; rfl, last, hlast, ?_⟩
    rw [hmDictGet, hname, rowValue]
    by_cases h9 : d.val = 9
    · rw [if_pos h9, if_pos rfl, if_pos h9]
    · rw [if_neg h9, if_neg (by decide), if_neg h9]

end Load

/-- The second of two rows that differ only in letter case removes the name. -/
theorem hmDictLoad_loses : ¬ ∀ (atof : List UInt8 → Rat) (stale : Rat)
    (db : String → List DictRow) (map : Dict) (d : Fin 10), ∀ row ∈ dictRows db d,
      (hmDictLoad atof stale db map d (strCaseTransfer row.name)).isSome = true ∧
      ∃ last, lastRow (dictRows db d) (strCaseTransfer row.name) = some last ∧
        hmDictGet (hmDictLoad atof stale db map) d (strCaseTransfer row.name) =
          if d.val = 9 then atof last.val else 1 := by
  intro h
  let upper : DictRow := ⟨bytes "Smith", [], by decide⟩
  let lower : DictRow := ⟨bytes "smith", [], by decide⟩
  have hsmith := h (fun _ => 0) 0 (fun _ => [upper, lower]) (fun _ _ => none) 0 upper
    List.mem_cons_self
  exact absurd hsmith.1 (by decide +kernel)

end CiteParser
