import CiteParser.Area.LastMatch
import CiteParser.Area.Window
import CiteParser.Core.Recent
import CiteParser.Core.Source
import CiteParser.Core.Thinning

/-!
# The closest matches

`getCloseKWD` calls a finder from the beginning of the text up to an offset, and from there up to
the end, and takes the matches that lie more than ten characters apart. Of those before the offset
it keeps the last ten in a ring, of those behind it the first ten. An `int` is an integer here.
-/

namespace CiteParser

open Loop

structure CloseKWD where
  pLen : Nat
  nLen : Nat
  pStart : Nat
  prev : Nat → Int
  next : Nat → Int

/-- `CKWDfun`: a function that finds nothing or something ahead of its offset, if it is to search
ahead. -/
structure CKWDfun where
  find : Int → Int → Int
  ahead : ∀ offset limit, 0 < limit → find offset limit = 0 ∨ offset < find offset limit

/-- The finders whose results lie behind the start of their window are of this kind. -/
def CKWDfun.ofAdvances {T : Pcontent} {find : Int → Int → Int} (h : Advances T find) : CKWDfun where
  find := find
  ahead := by
    intro offset limit hlimit
    refine or_iff_not_imp_left.mpr fun hfound => ?_
    have hstart := (h offset limit hfound).1
    rw [defineStartAndEnd] at hstart
    dsimp only at hstart
    split at hstart <;> split at hstart <;> omega

/-- A store into an array of ten, `none` for one outside of it. -/
def storeTen (a : Nat → Int) (i : Nat) (v : Int) : Option (Nat → Int) :=
  if i < 10 then some (Function.update a i v) else none

namespace CloseKWD

def putPrev (k : CloseKWD) (nowOffset : Int) : Option CloseKWD :=
  (storeTen k.prev (k.pLen % 10) nowOffset).map fun prev =>
    { k with prev := prev, pLen := k.pLen + 1 }

def putNext (k : CloseKWD) (nowOffset : Int) : Option CloseKWD :=
  (storeTen k.next k.nLen nowOffset).map fun next => { k with next := next, nLen := k.nLen + 1 }

/-- What the first loop makes of a match. -/
def takePrev (k : CloseKWD) (nowOffset : Int) : Option CloseKWD :=
  if k.pLen ≠ 0 then
    if 10 < nowOffset - k.prev ((k.pLen - 1) % 10) then k.putPrev nowOffset else some k
  else k.putPrev nowOffset

/-- What the second loop makes of a match. -/
def takeNext (k : CloseKWD) (nowOffset : Int) : Option CloseKWD :=
  if k.nLen ≠ 0 then
    if 10 < nowOffset - k.next (k.nLen - 1) then k.putNext nowOffset else some k
  else k.putNext nowOffset

/-- Between the loops the count is cut down to what the ring holds. -/
def fold (k : CloseKWD) : CloseKWD :=
  if 10 < k.pLen then { k with pStart := k.pLen % 10, pLen := 10 } else { k with pStart := 0 }

/-- The entries of `prev` from the oldest one on. -/
def prevs (k : CloseKWD) : List Int :=
  (List.range k.pLen).map fun j => k.prev ((k.pStart + j) % 10)

/-- The entries of `next`. -/
def nexts (k : CloseKWD) : List Int := (List.range k.nLen).map k.next

end CloseKWD

/-- A pass of the first loop. -/
def prevPass (f : CKWDfun) (offset : Int) (s : Int × CloseKWD) :
    Outcome (Int × CloseKWD) (Option CloseKWD) :=
  if s.1 < offset then
    let nowOffset := f.find s.1 (offset - s.1)
    if 0 < nowOffset then
      match s.2.takePrev nowOffset with
      | some k => .next (nowOffset + 1, k)
      | none => .exit none
    else .exit (some s.2)
  else .exit (some s.2)

/-- A pass of the second loop. -/
def nextPass (f : CKWDfun) (offend : Int) (s : Int × CloseKWD) :
    Outcome (Int × CloseKWD) (Option CloseKWD) :=
  if s.1 < offend then
    let nowOffset := f.find s.1 (offend - s.1)
    if 0 < nowOffset then
      match s.2.takeNext nowOffset with
      | some k => if 10 ≤ k.nLen then .exit (some k) else .next (nowOffset + 1, k)
      | none => .exit none
    else .exit (some s.2)
  else .exit (some s.2)

/-- `getCloseKWD(offset, closeKWD, ckfunc)`. No result stands for a loop that goes on beyond the
bound, and the result `none` for a store outside of the arrays. -/
def getCloseKWD (T : Pcontent) (offset : Int) (closeKWD : CloseKWD) (ckfunc : CKWDfun)
    (fuel : Nat) : Option (Option CloseKWD) :=
  (run (prevPass ckfunc offset) fuel (0, { closeKWD with pLen := 0, nLen := 0 })).bind fun
  | none => some none
  | some k => run (nextPass ckfunc T.pclen) fuel (offset, k.fold)

namespace CKWDfun

variable (f : CKWDfun)

/-- The matches that a loop meets up to an end; the next search starts one behind a match. -/
def searches (stop : Int) : Source Int Int where
  next i :=
    if i < stop ∧ 0 < f.find i (stop - i) then
      some (f.find i (stop - i), f.find i (stop - i) + 1)
    else none
  bound i := (stop - i).toNat
  bound_lt := by
    intro i a i' h
    split at h
    · rename_i hfound
      have hahead := f.ahead i (stop - i) (by omega)
      cases h
      omega
    · contradiction

/-- The matches that are taken: the first one, and each that lies more than ten behind the last
one taken. -/
def accepted (start stop : Int) : List Int :=
  ((f.searches stop).items start).destutter fun x y => x + 10 < y

end CKWDfun

/-- The ring holds the last ten of the matches taken before the offset, and the array the first
ten of those taken behind it. -/
structure FindsClosest (T : Pcontent) (offset : Int) (f : CKWDfun) (k : CloseKWD) : Prop where
  pLen : k.pLen = min (f.accepted 0 offset).length 10
  prev : k.prevs = (f.accepted 0 offset).drop ((f.accepted 0 offset).length - k.pLen)
  pStart_lt : k.pStart < 10
  pStart : (f.accepted 0 offset).length ≤ 10 → k.pStart = 0
  oldest : ∀ h : 10 < (f.accepted 0 offset).length,
    k.prev k.pStart = (f.accepted 0 offset)[(f.accepted 0 offset).length - 10]
  nLen : k.nLen ≤ 10
  apart : k.nexts.Pairwise fun x y => x < y ∧ 10 < y - x
  next : k.nexts = (f.accepted offset T.pclen).take 10

/-- The matches that have been taken from the start of a loop on, up to where it searches
next. -/
def CKWDfun.Taken (f : CKWDfun) (start stop i : Int) (d : List Int) : Prop :=
  ∃ met, (f.searches stop).items start = met ++ (f.searches stop).items i ∧
    d = met.destutter fun x y => x + 10 < y

section Matches

variable {f : CKWDfun} {start stop i : Int} {d : List Int}

/-- A match lies ahead, so that less is left to be searched. -/
theorem toNat_lt_of_found (hlt : i < stop) (hfound : 0 < f.find i (stop - i)) :
    (stop - (f.find i (stop - i) + 1)).toNat < (stop - i).toNat := by
  have hahead := f.ahead i (stop - i) (by omega)
  omega

namespace CKWDfun.Taken

theorem nothing (f : CKWDfun) (start stop : Int) : f.Taken start stop start [] := ⟨[], rfl, rfl⟩

/-- A search that finds something: the match is taken if it lies more than ten behind the last
one taken. -/
theorem found (h : f.Taken start stop i d) (hlt : i < stop) (hfound : 0 < f.find i (stop - i)) :
    f.Taken start stop (f.find i (stop - i) + 1)
      (d ++ if ∀ y ∈ d.getLast?, y + 10 < f.find i (stop - i) then [f.find i (stop - i)]
        else []) := by
  obtain ⟨met, hitems, rfl⟩ := h
  have hnext : (f.searches stop).items i =
      f.find i (stop - i) :: (f.searches stop).items (f.find i (stop - i) + 1) :=
    (f.searches stop).items_some (if_pos ⟨hlt, hfound⟩)
  refine ⟨met ++ [f.find i (stop - i)], ?_, ?_⟩
  · rw [hitems, hnext, List.append_cons]
  · rw [destutter_concat]

/-- No search is made, or it finds nothing. -/
theorem all (h : f.Taken start stop i d) (hnone : ¬ (i < stop ∧ 0 < f.find i (stop - i))) :
    d = f.accepted start stop := by
  obtain ⟨met, hitems, rfl⟩ := h
  rw [CKWDfun.accepted, hitems, (f.searches stop).items_none (if_neg hnone), List.append_nil]

/-- What is still to be met adds nothing in front of what has been taken. -/
theorem begins (h : f.Taken start stop i d) : d <+: f.accepted start stop := by
  obtain ⟨met, hitems, rfl⟩ := h
  rw [CKWDfun.accepted, hitems]
  exact destutter_prefix met _

end CKWDfun.Taken

end Matches

section Taking

variable {k : CloseKWD} {d : List Int} {v : Int}

/-- The ring and its count after some matches have been taken. -/
structure PrevHolds (k : CloseKWD) (d : List Int) : Prop where
  count : k.pLen = d.length
  ring : KeepsRecent 10 k.prev d

/-- The test that both loops make of a match, on the number and the last of those taken. -/
theorem take_eq {β : Type} {n : Nat} {last v : Int} {put keep : β} (hn : n = d.length)
    (hlast : d ≠ [] → d.getLast? = some last) :
    (if n ≠ 0 then if 10 < v - last then put else keep else put) =
      if ∀ y ∈ d.getLast?, y + 10 < v then put else keep := by
  by_cases hnil : d = []
  · rw [hn, hnil]
    simp
  · have hne : n ≠ 0 := by
      rw [hn]
      exact (List.length_pos_of_ne_nil hnil).ne'
    have hiff : (10 < v - last) ↔ ∀ y ∈ d.getLast?, y + 10 < v := by
      rw [hlast hnil]
      simp only [Option.mem_some_iff, forall_eq']
      omega
    rw [if_pos hne]
    simp only [hiff]

/-- A match is taken if it lies more than ten behind the last one taken. -/
theorem PrevHolds.takePrev (h : PrevHolds k d) (v : Int) :
    ∃ k', k.takePrev v = some k' ∧ k'.nLen = k.nLen ∧
      PrevHolds k' (d ++ if ∀ y ∈ d.getLast?, y + 10 < v then [v] else []) := by
  have hput : ∃ k', k.putPrev v = some k' ∧ k'.nLen = k.nLen ∧ PrevHolds k' (d ++ [v]) := by
    refine ⟨{ k with prev := Function.update k.prev (k.pLen % 10) v, pLen := k.pLen + 1 },
      ?_, rfl, ?_, ?_⟩
    · rw [CloseKWD.putPrev, storeTen, if_pos (Nat.mod_lt _ (by decide)), Option.map_some]
    · rw [h.count, List.length_append, List.length_singleton]
    · rw [h.count]
      exact h.ring.push v
  rw [CloseKWD.takePrev, h.count, take_eq rfl (h.ring.last (by decide))]
  split
  · exact hput
  · rw [List.append_nil]
    exact ⟨k, rfl, rfl, h⟩

@[simp] theorem length_nexts (k : CloseKWD) : k.nexts.length = k.nLen := by
  rw [CloseKWD.nexts, List.length_map, List.length_range]

/-- What the second loop leaves alone. -/
structure SamePrev (k k' : CloseKWD) : Prop where
  pLen : k'.pLen = k.pLen
  pStart : k'.pStart = k.pStart
  prev : k'.prev = k.prev

/-- The second loop takes a match by the same rule as long as the array has room. -/
theorem takeNext_spec (h : k.nexts = d) (hroom : k.nLen < 10) (v : Int) :
    ∃ k', k.takeNext v = some k' ∧ SamePrev k k' ∧
      k'.nexts = d ++ if ∀ y ∈ d.getLast?, y + 10 < v then [v] else [] := by
  have hput : ∃ k', k.putNext v = some k' ∧ SamePrev k k' ∧ k'.nexts = d ++ [v] := by
    refine ⟨{ k with next := Function.update k.next k.nLen v, nLen := k.nLen + 1 },
      ?_, ⟨rfl, rfl, rfl⟩, ?_⟩
    · rw [CloseKWD.putNext, storeTen, if_pos hroom, Option.map_some]
    · rw [CloseKWD.nexts, List.range_succ, List.map_append, List.map_singleton, ← h,
        CloseKWD.nexts]
      dsimp only
      rw [Function.update_self]
      congr 1
      apply List.map_congr_left
      intro j hj
      exact Function.update_of_ne (List.mem_range.mp hj).ne _ _
  have hlen := length_nexts k
  rw [h] at hlen
  have hlast : d ≠ [] → d.getLast? = some (k.next (k.nLen - 1)) := by
    intro hne
    have hpos := List.length_pos_of_ne_nil hne
    rw [← h, CloseKWD.nexts, List.getLast?_map, List.getLast?_range, if_neg (by omega),
      Option.map_some]
  rw [CloseKWD.takeNext, take_eq hlen.symm hlast]
  split
  · exact hput
  · rw [List.append_nil]
    exact ⟨k, rfl, ⟨rfl, rfl, rfl⟩, h⟩

end Taking

section Loops

variable {f : CKWDfun} {k : CloseKWD} {fuel : Nat} {offset offend : Int}

/-- The first loop is left with the matches taken before the offset in the ring. -/
theorem run_prevPass (f : CKWDfun) (k : CloseKWD) (hk : PrevHolds k []) (hn : k.nLen = 0)
    (hfuel : offset.toNat < fuel) :
    ∃ k', run (prevPass f offset) fuel (0, k) = some (some k') ∧ k'.nLen = 0 ∧
      PrevHolds k' (f.accepted 0 offset) := by
  have hrun := run_rule (prevPass f offset) fuel (0, k)
    (fun s => s.2.nLen = 0 ∧ ∃ d, f.Taken 0 offset s.1 d ∧ PrevHolds s.2 d)
    (fun s => (offset - s.1).toNat)
    (fun b => ∃ k', b = some k' ∧ k'.nLen = 0 ∧ PrevHolds k' (f.accepted 0 offset))
    ?_ ?_ ⟨hn, [], .nothing f 0 offset, hk⟩ (by simpa using hfuel)
  · obtain ⟨b, hrun, k', rfl, h⟩ := hrun
    exact ⟨k', hrun, h⟩
  · rintro ⟨i, k⟩ s' ⟨hn, d, htaken, hk⟩ hpass
    rw [prevPass] at hpass
    dsimp only at hpass htaken
    split_ifs at hpass with hlt hfound
    obtain ⟨k', htake, hn', hk'⟩ := hk.takePrev (f.find i (offset - i))
    rw [htake] at hpass
    cases hpass
    exact ⟨⟨hn'.trans hn, _, htaken.found hlt hfound, hk'⟩, toNat_lt_of_found hlt hfound⟩
  · rintro ⟨i, k⟩ b ⟨hn, d, htaken, hk⟩ hpass
    rw [prevPass] at hpass
    dsimp only at hpass htaken
    split_ifs at hpass with hlt hfound
    · obtain ⟨k', htake, -⟩ := hk.takePrev (f.find i (offset - i))
      rw [htake] at hpass
      contradiction
    · cases hpass
      rw [htaken.all fun h => hfound h.2] at hk
      exact ⟨k, rfl, hn, hk⟩
    · cases hpass
      rw [htaken.all fun h => hlt h.1] at hk
      exact ⟨k, rfl, hn, hk⟩

/-- What is known at the head of the second loop: the array is not full, and holds what has been
taken. -/
structure NextRun (f : CKWDfun) (k : CloseKWD) (offset offend : Int) (s : Int × CloseKWD) :
    Prop where
  room : s.2.nLen < 10
  same : SamePrev k s.2
  taken : f.Taken offset offend s.1 s.2.nexts

/-- A match that does not fill the array. -/
theorem NextRun.next {s s' : Int × CloseKWD} (h : NextRun f k offset offend s)
    (hpass : nextPass f offend s = .next s') :
    NextRun f k offset offend s' ∧ (offend - s'.1).toNat < (offend - s.1).toNat := by
  obtain ⟨i, k₁⟩ := s
  obtain ⟨hroom, ⟨hp, hs, hprev⟩, htaken⟩ := h
  rw [nextPass] at hpass
  dsimp only at hpass hroom hp hs hprev htaken
  split_ifs at hpass with hlt hfound
  obtain ⟨k₂, htake, ⟨hp', hs', hprev'⟩, hnexts⟩ := takeNext_spec rfl hroom (f.find i (offend - i))
  rw [htake] at hpass
  dsimp only at hpass
  split_ifs at hpass with hfull
  cases hpass
  refine ⟨⟨Nat.lt_of_not_le hfull, ⟨hp'.trans hp, hs'.trans hs, hprev'.trans hprev⟩, ?_⟩,
    toNat_lt_of_found hlt hfound⟩
  rw [hnexts]
  exact htaken.found hlt hfound

/-- The array is full, or nothing more is found. -/
theorem NextRun.exit {s : Int × CloseKWD} {b : Option CloseKWD}
    (h : NextRun f k offset offend s) (hpass : nextPass f offend s = .exit b) :
    ∃ k', b = some k' ∧ SamePrev k k' ∧ k'.nexts = (f.accepted offset offend).take 10 := by
  obtain ⟨i, k₁⟩ := s
  obtain ⟨hroom, hsame, htaken⟩ := h
  rw [nextPass] at hpass
  dsimp only at hpass hroom hsame htaken
  have hall (hnone : ¬ (i < offend ∧ 0 < f.find i (offend - i))) :
      k₁.nexts = (f.accepted offset offend).take 10 := by
    rw [← htaken.all hnone, List.take_of_length_le (by rw [length_nexts]; omega)]
  split_ifs at hpass with hlt hfound
  · obtain ⟨hp, hs, hprev⟩ := hsame
    obtain ⟨k₂, htake, ⟨hp', hs', hprev'⟩, hnexts⟩ :=
      takeNext_spec rfl hroom (f.find i (offend - i))
    rw [htake] at hpass
    dsimp only at hpass
    split_ifs at hpass with hfull
    cases hpass
    refine ⟨k₂, rfl, ⟨hp'.trans hp, hs'.trans hs, hprev'.trans hprev⟩, ?_⟩
    have hgrow : k₂.nLen ≤ k₁.nLen + 1 := by
      rw [← length_nexts k₂, hnexts, List.length_append, length_nexts]
      split <;> simp
    have hten : k₂.nLen = 10 := by omega
    -- the tenth match has been taken, and the rest of the text adds none before it
    have hfirst := (htaken.found hlt hfound).begins
    rwa [← hnexts, List.prefix_iff_eq_take, length_nexts, hten] at hfirst
  · cases hpass
    exact ⟨k₁, rfl, hsame, hall fun h => hfound h.2⟩
  · cases hpass
    exact ⟨k₁, rfl, hsame, hall fun h => hlt h.1⟩

/-- The second loop leaves the ring alone and fills the array with the first ten matches taken
from the offset on. -/
theorem run_nextPass (f : CKWDfun) (k : CloseKWD) (hn : k.nLen = 0)
    (hfuel : (offend - offset).toNat < fuel) :
    ∃ k', run (nextPass f offend) fuel (offset, k) = some (some k') ∧ SamePrev k k' ∧
      k'.nexts = (f.accepted offset offend).take 10 := by
  have hstart : NextRun f k offset offend (offset, k) := by
    refine ⟨by rw [hn]; decide, ⟨rfl, rfl, rfl⟩, ?_⟩
    rw [CloseKWD.nexts, hn]
    exact .nothing f offset offend
  obtain ⟨b, hrun, k', rfl, h⟩ := run_rule (nextPass f offend) fuel (offset, k)
    (NextRun f k offset offend) (fun s => (offend - s.1).toNat) _ (fun _ _ hs => hs.next)
    (fun _ _ hs => hs.exit) hstart hfuel
  exact ⟨k', hrun, h⟩

end Loops

example : ((getCloseKWD (.ofText (bytes "Proc. of 1999, 2004 or in 2011 or 2012")) 13
    ⟨0, 0, 0, fun _ => 0, fun _ => 0⟩
    (.ofAdvances (hasYearafterTheOffset_advances
      (.ofText (bytes "Proc. of 1999, 2004 or in 2011 or 2012")))) 4).map
    (Option.map fun k => (k.prevs, k.nexts))) = some (some ([13], [19, 30])) := by
  decide +kernel

end CiteParser
