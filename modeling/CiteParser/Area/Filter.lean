import CiteParser.Core.Band
import CiteParser.Core.CString
import CiteParser.Core.Minimum
import CiteParser.Text.EditDistance
import Mathlib.Data.ENat.Lattice

/-!
# Keyword filters

`isAccpted` of `hftctl.c` compares a text with a list of keywords to accept and to reject. For
each keyword it tries the prefixes whose length is close to the keyword's; a prefix of any other
length is too far away to matter, so the distances it finds are the least over all prefixes.
-/

namespace CiteParser

/-- `FilterData`: a keyword, to be accepted if `acc` is 1 and rejected if it is 0. -/
structure FilterData where
  acc : Int
  cmpStr : List UInt8
  cmpLen : Nat

/-- `insertFilterData`, which goes to the end of the list. -/
def insertFilterData (pFilterData : List FilterData) (accept : Int) (cmpStr : List UInt8)
    (cmpLen : Nat) : List FilterData :=
  pFilterData ++ [⟨accept, cmpStr, cmpLen⟩]

/-- The loop over `i` on a keyword longer than the threshold: `tmpMin` and `tmpMinOffset`, of
which the latter still holds what the keyword before has left. -/
def scanLengths (str : List UInt8) (threshold : Nat) (p : FilterData) (tmpMinOffset : Nat) :
    Nat × Nat :=
  let minLen := p.cmpLen - threshold
  let maxLen := p.cmpLen + threshold + 1
  (List.range' minLen (maxLen + 1 - minLen)).foldl
    (fun s i =>
      let ed := editDistanceS p.cmpStr p.cmpLen str i
      if ed ≤ threshold then if ed < s.1 then (ed, i) else s else s)
    (threshold + 1, tmpMinOffset)

/-- The variables of `isAccpted` that a keyword may change. -/
structure Minima where
  accMin : Nat
  accMinOffset : Nat
  rejMin : Nat
  rejMinOffset : Nat
  tmpMinOffset : Nat

/-- A pass of the loop over the keywords. -/
def filterPass (str : List UInt8) (threshold : Nat) (m : Minima) (p : FilterData) : Minima :=
  let (tmpMin, tmpMinOffset) := scanLengths str threshold p m.tmpMinOffset
  if p.acc = 1 ∧ tmpMin < m.accMin then
    { m with accMin := tmpMin, accMinOffset := tmpMinOffset, tmpMinOffset }
  else if p.acc = 0 ∧ tmpMin < m.rejMin then
    { m with rejMin := tmpMin, rejMinOffset := tmpMinOffset, tmpMinOffset }
  else { m with tmpMinOffset }

/-- The variables after the loop. -/
def filterMinima (pFilterData : List FilterData) (str : List UInt8) (threshold : Nat) : Minima :=
  pFilterData.foldl (filterPass str threshold) ⟨threshold + 1, 0, threshold + 1, 0, 0⟩

/-- `isAccpted`: the value returned and `*fitLen`. -/
def isAccpted (pFilterData : List FilterData) (str : List UInt8) (threshold : Nat) : Bool × Nat :=
  let m := filterMinima pFilterData str threshold
  (m.accMin ≤ m.rejMin && m.accMin ≤ threshold,
    if m.accMin ≤ m.rejMin then if m.accMin ≤ threshold then m.accMinOffset else 0
    else if m.rejMin ≤ threshold then m.rejMinOffset else 0)

/-- The distance of a keyword to a prefix of the text. -/
def prefixDistance (str : List UInt8) (p : FilterData) (n : Nat) : Nat :=
  editDistanceS p.cmpStr p.cmpLen str n

/-- The least distance of a keyword of the kind to a prefix of the text. -/
noncomputable def leastDistance (acc : Int) (l : List FilterData) (str : List UInt8) : ℕ∞ :=
  sInf {d | ∃ p ∈ l, p.acc = acc ∧ ∃ n ≤ str.length, d = (prefixDistance str p n : ℕ∞)}

/-- The first keyword of the kind at distance `d` has that distance to the prefix of length `n`
and to no shorter one. -/
def FirstAttains (acc : Int) (l : List FilterData) (str : List UInt8) (d n : Nat) : Prop :=
  ∃ before p after, l = before ++ p :: after ∧ p.acc = acc ∧
    (∀ q ∈ before, q.acc = acc → ∀ m ≤ str.length, d < prefixDistance str q m) ∧
    IsLeast {m | m ≤ str.length ∧ prefixDistance str p m = d} n

section Prefixes

variable {str : List UInt8} {threshold : Nat} {p : FilterData}

/-- A prefix is at least as far away as its length differs from the keyword's. -/
theorem length_le_prefixDistance (hp : p.cmpLen = p.cmpStr.length) {n : Nat}
    (hn : n ≤ str.length) :
    p.cmpLen ≤ n + prefixDistance str p n ∧ n ≤ p.cmpLen + prefixDistance str p n := by
  have hleast : IsLeast (alignmentCosts isSame (p.cmpStr.take p.cmpLen) (str.take n))
      (prefixDistance str p n) := isLeast_matrix isSame p.cmpStr str hp.le hn le_rfl le_rfl
  obtain ⟨w, hsource, htarget, hcost⟩ := hleast.1
  have hlen := length_le_add_cost isSame w
  rw [hsource, htarget, List.length_take_of_le hp.le, List.length_take_of_le hn, hcost] at hlen
  exact hlen

/-- The test against the threshold only repeats what the start of the minimum says. -/
theorem scanLengths_eq (tmpMinOffset : Nat) :
    scanLengths str threshold p tmpMinOffset =
      (List.range' (p.cmpLen - threshold)
        (p.cmpLen + threshold + 1 + 1 - (p.cmpLen - threshold))).foldl
        (fun s i => keepLess s (prefixDistance str p i) i) (threshold + 1, tmpMinOffset) := by
  have main : ∀ (l : List Nat) (s : Nat × Nat), s.1 ≤ threshold + 1 →
      l.foldl (fun s i => if editDistanceS p.cmpStr p.cmpLen str i ≤ threshold then
        if editDistanceS p.cmpStr p.cmpLen str i < s.1 then
          (editDistanceS p.cmpStr p.cmpLen str i, i) else s else s) s =
        l.foldl (fun s i => keepLess s (prefixDistance str p i) i) s := by
    intro l
    induction l with
    | nil => exact fun _ _ => rfl
    | cons i l ih =>
        intro s hs
        have hstep : (if editDistanceS p.cmpStr p.cmpLen str i ≤ threshold then
            if editDistanceS p.cmpStr p.cmpLen str i < s.1 then
              (editDistanceS p.cmpStr p.cmpLen str i, i) else s else s) =
            keepLess s (prefixDistance str p i) i := by
          rw [keepLess, prefixDistance]
          split
          · rfl
          · rw [if_neg (by omega)]
        rw [List.foldl_cons, List.foldl_cons, hstep]
        apply ih
        rw [keepLess]
        split
        · exact le_trans (Nat.le_of_lt ‹_›) hs
        · exact hs
  exact main _ (threshold + 1, tmpMinOffset) le_rfl

/-- The loop over the lengths: no prefix at all is near enough and the offset is left alone, or
the least distance of all prefixes and the shortest prefix that has it. -/
theorem scanLengths_cases (hp : p.cmpLen = p.cmpStr.length)
    (hstr : p.cmpLen + threshold + 1 ≤ str.length) (tmpMinOffset : Nat) :
    (scanLengths str threshold p tmpMinOffset = (threshold + 1, tmpMinOffset) ∧
      ∀ n ≤ str.length, threshold < prefixDistance str p n) ∨
    ∃ d n, scanLengths str threshold p tmpMinOffset = (d, n) ∧ d ≤ threshold ∧
      (∀ m ≤ str.length, d ≤ prefixDistance str p m) ∧
      IsLeast {m | m ≤ str.length ∧ prefixDistance str p m = d} n := by
  have hnear : ∀ n ≤ str.length, prefixDistance str p n ≤ threshold →
      n ∈ List.range' (p.cmpLen - threshold)
        (p.cmpLen + threshold + 1 + 1 - (p.cmpLen - threshold)) := by
    intro n hn hle
    have hlen := length_le_prefixDistance hp hn
    rw [List.mem_range'_1]
    omega
  rw [scanLengths_eq]
  rcases foldl_keepLess (prefixDistance str p) (fun i => i) (List.range' (p.cmpLen - threshold)
      (p.cmpLen + threshold + 1 + 1 - (p.cmpLen - threshold))) (threshold + 1, tmpMinOffset) with
    ⟨heq, hall⟩ | ⟨n, hn, hlt, heq⟩
  · refine .inl ⟨heq, fun n hn => ?_⟩
    by_contra hle
    exact absurd (hall n (hnear n hn (by omega))) (by simp only; omega)
  · have hmem := List.mem_range'_1.mp hn.mem
    refine .inr ⟨_, n, heq, Nat.le_of_lt_succ hlt, fun m hm => ?_, ⟨by omega, rfl⟩, ?_⟩
    · rcases Nat.lt_or_ge threshold (prefixDistance str p m) with hfar | hle
      · simp only at hlt
        omega
      · exact hn.le (hnear m hm hle)
    · rintro m ⟨hm, hd⟩
      have hm' := hnear m hm (by simp only at hlt; omega)
      -- the lengths are tried in ascending order
      obtain ⟨before, after, hsplit, hbefore, -⟩ := hn
      have hsorted := List.pairwise_lt_range' (s := p.cmpLen - threshold)
        (n := p.cmpLen + threshold + 1 + 1 - (p.cmpLen - threshold))
      rw [hsplit] at hm' hsorted
      rcases List.mem_append.mp hm' with hb | hb
      · exact absurd (hbefore m hb) (by omega)
      · rcases List.mem_cons.mp hb with rfl | ha
        · exact le_rfl
        · exact (List.rel_of_pairwise_cons (List.pairwise_append.mp hsorted).2.1 ha).le

end Prefixes

/-- What the loop over the keywords knows of one kind of them: none is within the threshold, or
the least distance and the prefix it was found at first. -/
def Found (acc : Int) (l : List FilterData) (str : List UInt8) (threshold d n : Nat) : Prop :=
  (d = threshold + 1 ∧
    ∀ p ∈ l, p.acc = acc → ∀ m ≤ str.length, threshold < prefixDistance str p m) ∨
  (d ≤ threshold ∧ (∀ p ∈ l, p.acc = acc → ∀ m ≤ str.length, d ≤ prefixDistance str p m) ∧
    FirstAttains acc l str d n)

section Keywords

variable {acc : Int} {l : List FilterData} {str : List UInt8} {threshold d n : Nat}
  {p : FilterData}

/-- A keyword behind the others does not change which one is first. -/
theorem FirstAttains.concat (h : FirstAttains acc l str d n) (p : FilterData) :
    FirstAttains acc (l ++ [p]) str d n := by
  obtain ⟨before, q, after, rfl, hq, hbefore, hn⟩ := h
  exact ⟨before, q, after ++ [p], by simp, hq, hbefore, hn⟩

/-- A keyword that is no nearer, or of the other kind, changes nothing. -/
theorem Found.keep (h : Found acc l str threshold d n)
    (hp : p.acc = acc → ∀ m ≤ str.length, d ≤ prefixDistance str p m) :
    Found acc (l ++ [p]) str threshold d n := by
  rcases h with ⟨rfl, hfar⟩ | ⟨hd, hle, hfirst⟩
  · refine .inl ⟨rfl, fun q hq hacc => ?_⟩
    rcases List.mem_append.mp hq with hq | hq
    · exact hfar q hq hacc
    · rw [List.mem_singleton.mp hq] at hacc ⊢
      exact hp hacc
  · refine .inr ⟨hd, fun q hq hacc => ?_, hfirst.concat p⟩
    rcases List.mem_append.mp hq with hq | hq
    · exact hle q hq hacc
    · rw [List.mem_singleton.mp hq] at hacc ⊢
      exact hp hacc

/-- A nearer keyword becomes the first at its distance. -/
theorem Found.improve {d' n' : Nat} (h : Found acc l str threshold d n) (hacc : p.acc = acc)
    (hd' : d' ≤ threshold) (hlt : d' < d)
    (hle : ∀ m ≤ str.length, d' ≤ prefixDistance str p m)
    (hn' : IsLeast {m | m ≤ str.length ∧ prefixDistance str p m = d'} n') :
    Found acc (l ++ [p]) str threshold d' n' := by
  have hbefore : ∀ q ∈ l, q.acc = acc → ∀ m ≤ str.length, d' < prefixDistance str q m := by
    intro q hq hqacc m hm
    rcases h with ⟨rfl, hfar⟩ | ⟨_, hall, _⟩
    · exact hd'.trans_lt (hfar q hq hqacc m hm)
    · exact hlt.trans_le (hall q hq hqacc m hm)
  refine .inr ⟨hd', fun q hq hqacc m hm => ?_, l, p, [], rfl, hacc, hbefore, hn'⟩
  rcases List.mem_append.mp hq with hq | hq
  · exact (hbefore q hq hqacc m hm).le
  · rw [List.mem_singleton.mp hq]
    exact hle m hm

/-- The two running minima hold what has been found among the keywords so far. -/
theorem filterMinima_found
    (hl : ∀ p ∈ l, p.cmpLen = p.cmpStr.length ∧ p.cmpLen + threshold + 1 ≤ str.length) :
    Found 1 l str threshold (filterMinima l str threshold).accMin
        (filterMinima l str threshold).accMinOffset ∧
      Found 0 l str threshold (filterMinima l str threshold).rejMin
        (filterMinima l str threshold).rejMinOffset := by
  induction l using List.reverseRecOn with
  | nil =>
      have hnone : ∀ acc, Found acc [] str threshold (threshold + 1) 0 := fun acc =>
        .inl ⟨rfl, fun p hp => absurd hp List.not_mem_nil⟩
      exact ⟨hnone 1, hnone 0⟩
  | append_singleton l p ih =>
      obtain ⟨hacc, hrej⟩ := ih fun q hq => hl q (List.mem_append_left _ hq)
      obtain ⟨hp, hstr⟩ := hl p (List.mem_append_right _ List.mem_cons_self)
      have hpass : filterMinima (l ++ [p]) str threshold =
          filterPass str threshold (filterMinima l str threshold) p := by
        rw [filterMinima, List.foldl_append]
        rfl
      rw [hpass]
      generalize filterMinima l str threshold = m at hacc hrej ⊢
      have hacc_le : m.accMin ≤ threshold + 1 := by
        rcases hacc with ⟨h, _⟩ | ⟨h, _⟩ <;> omega
      have hrej_le : m.rejMin ≤ threshold + 1 := by
        rcases hrej with ⟨h, _⟩ | ⟨h, _⟩ <;> omega
      rw [filterPass]
      rcases scanLengths_cases hp hstr m.tmpMinOffset with
        ⟨heq, hfar⟩ | ⟨d, n, heq, hd, hall, hn⟩
      · -- a keyword out of reach is below neither minimum
        rw [heq]
        simp only [if_neg (show ¬ (p.acc = 1 ∧ threshold + 1 < m.accMin) by omega),
          if_neg (show ¬ (p.acc = 0 ∧ threshold + 1 < m.rejMin) by omega)]
        exact ⟨hacc.keep fun _ k hk => hacc_le.trans (hfar k hk),
          hrej.keep fun _ k hk => hrej_le.trans (hfar k hk)⟩
      · rw [heq]
        dsimp only
        split_ifs with h1 h0
        · exact ⟨hacc.improve h1.1 hd h1.2 hall hn, hrej.keep fun h => by omega⟩
        · exact ⟨hacc.keep fun h => by omega, hrej.improve h0.1 hd h0.2 hall hn⟩
        · refine ⟨hacc.keep fun h k hk => ?_, hrej.keep fun h k hk => ?_⟩
          · exact le_trans (by omega) (hall k hk)
          · exact le_trans (by omega) (hall k hk)

/-- Within the threshold, what was found is the least distance. -/
theorem Found.least (h : Found acc l str threshold d n) :
    (d ≤ threshold → leastDistance acc l str = d) ∧
      (threshold < d → (d : ℕ∞) ≤ leastDistance acc l str) := by
  rcases h with ⟨rfl, hfar⟩ | ⟨hd, hle, before, p, after, hsplit, hacc, -, hn⟩
  · refine ⟨fun h => by omega, fun _ => ?_⟩
    apply le_sInf
    rintro _ ⟨q, hq, hqacc, m, hm, rfl⟩
    exact_mod_cast hfar q hq hqacc m hm
  · refine ⟨fun _ => ?_, fun h => by omega⟩
    apply le_antisymm
    · apply sInf_le
      exact ⟨p, by rw [hsplit]; simp, hacc, n, hn.1.1, by rw [hn.1.2]⟩
    · apply le_sInf
      rintro _ ⟨q, hq, hqacc, m, hm, rfl⟩
      exact_mod_cast hle q hq hqacc m hm

/-- The least distance is within the threshold exactly if something was found there. -/
theorem Found.least_le_threshold (h : Found acc l str threshold d n) :
    leastDistance acc l str ≤ threshold ↔ d ≤ threshold := by
  obtain ⟨hnear, hfar⟩ := h.least
  constructor
  · intro hle
    by_contra hlt
    exact absurd (Nat.cast_le.mp ((hfar (by omega)).trans hle)) hlt
  · intro hle
    rw [hnear hle]
    exact Nat.cast_le.mpr hle

/-- What was found within the threshold compares with the other kind as the least distances
do. -/
theorem Found.least_le_least {acc' : Int} {d' n' : Nat} (h : Found acc l str threshold d n)
    (h' : Found acc' l str threshold d' n') (hd : d ≤ threshold) :
    leastDistance acc l str ≤ leastDistance acc' l str ↔ d ≤ d' := by
  rw [h.least.1 hd]
  rcases Nat.lt_or_ge threshold d' with hfar | hnear
  · exact iff_of_true ((Nat.cast_le.mpr (by omega)).trans (h'.least.2 hfar)) (by omega)
  · rw [h'.least.1 hnear]
    exact Nat.cast_le

theorem Found.first (h : Found acc l str threshold d n) (hd : d ≤ threshold) :
    FirstAttains acc l str d n := by
  rcases h with ⟨h, _⟩ | ⟨_, _, hfirst⟩
  · omega
  · exact hfirst

end Keywords

/-- A keyword is accepted exactly when the least distance of an accepting one to any prefix is
within the threshold and no larger than that of a rejecting one; the length found is that of
the shortest prefix at that distance from the first keyword that has it. -/
theorem isAccpted_optimal {l : List FilterData} {str : List UInt8} {threshold : Nat}
    (hlen : ∀ p ∈ l, p.cmpLen = p.cmpStr.length ∧ threshold < p.cmpLen)
    (hstr : ∀ p ∈ l, p.cmpLen + threshold + 1 ≤ str.length) :
    let A := leastDistance 1 l str
    let R := leastDistance 0 l str
    ((isAccpted l str threshold).1 = true ↔ A ≤ threshold ∧ A ≤ R) ∧
      (A ≤ threshold ∧ A ≤ R → ∃ d : Nat, A = d ∧
        FirstAttains 1 l str d (isAccpted l str threshold).2) ∧
      (R ≤ threshold ∧ R < A → ∃ d : Nat, R = d ∧
        FirstAttains 0 l str d (isAccpted l str threshold).2) := by
  intro A R
  obtain ⟨hacc, hrej⟩ := filterMinima_found fun p hp => ⟨(hlen p hp).1, hstr p hp⟩
  rw [isAccpted]
  generalize filterMinima l str threshold = m at hacc hrej ⊢
  have hAle : A ≤ threshold ↔ m.accMin ≤ threshold := hacc.least_le_threshold
  have hRle : R ≤ threshold ↔ m.rejMin ≤ threshold := hrej.least_le_threshold
  have hAR : m.accMin ≤ threshold → (A ≤ R ↔ m.accMin ≤ m.rejMin) :=
    hacc.least_le_least hrej
  refine ⟨?_, ?_, ?_⟩
  · rw [Bool.and_eq_true, decide_eq_true_eq, decide_eq_true_eq, hAle, and_comm]
    exact and_congr_right fun h => (hAR h).symm
  · rintro ⟨hle, hbest⟩
    rw [hAle] at hle
    rw [hAR hle] at hbest
    rw [if_pos hbest, if_pos hle]
    exact ⟨m.accMin, hacc.least.1 hle, hacc.first hle⟩
  · rintro ⟨hle, hlt⟩
    rw [hRle] at hle
    have hbest : ¬ m.accMin ≤ m.rejMin := by
      intro h
      have hnear : m.accMin ≤ threshold := h.trans hle
      exact absurd ((hAR hnear).mpr h) (not_le.mpr hlt)
    rw [if_neg hbest, if_pos hle]
    exact ⟨m.rejMin, hrej.least.1 hle, hrej.first hle⟩

/-- The two keywords of a filter on a text that spells one of them with a letter missing. -/
theorem isAccpted_optimal_references :
    let l := insertFilterData (insertFilterData [] 1 (bytes "reference") 9) 0 (bytes "referee") 7
    let str := bytes "Referense to what follows"
    ((isAccpted l str 2).1 = true ↔
        leastDistance 1 l str ≤ 2 ∧ leastDistance 1 l str ≤ leastDistance 0 l str) ∧
      (isAccpted l str 2) = (true, 9) := by
  refine ⟨(@isAccpted_optimal _ _ 2 ?_ ?_).1, by decide +kernel⟩
  · simp [insertFilterData]
    decide
  · simp [insertFilterData]
    decide

end CiteParser
