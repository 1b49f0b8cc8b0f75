import CiteParser.Area.NameReads
import CiteParser.Area.ScannerValues

/-!
# How far a finder gets

A finder returns 0 or an offset behind the one that it is given, whichever of its `return`
statements is reached, so the loops that call it again from where it has ended are left. One
number of passes is enough for a call from any offset.
-/

namespace CiteParser

open Loop Traced

/-- More passes than a finder makes from an offset of the text. -/
def Pcontent.passes (T : Pcontent) : Nat := (3 * (T.pclen + 3)).toNat + 1

/-- The finders that get ahead whatever the text holds. -/
def finders : List Scanner :=
  [.years, .pages, .pages2, .names0, .locations, .seq, .seq2, .keyWords]

/-- A call of the finder ends, with 0 or with an offset behind the one it is given. -/
def Scanner.Progresses (T : Pcontent) (f : Scanner) (fuel : Nat) : Prop :=
  ∀ offset limit, 0 ≤ offset → 0 ≤ limit →
    ∃ v, (f.call T offset limit fuel).val = some v ∧ (v = 0 ∨ offset < v)

/-! ## Counting the matches -/

/-- `DIFFKWDTH` -/
def diffKWdth : Int := 10

/-- The variables of `offsetStat`. -/
structure StatRun where
  nowOffset : Int
  tmp : Int
  totalData : Nat
  beforeData : Nat

/-- A pass of the loop of `offsetStat`; without a value if the call does not end. -/
def statPass (offsetFunction : Int → Int → Option Int) (pclen offset : Int) (s : StatRun) :
    Outcome StatRun (Option (Nat × Nat)) :=
  match offsetFunction s.nowOffset pclen with
  | none => .exit none
  | some nowOffset =>
      if nowOffset ≠ 0 then
        .next
          { nowOffset := nowOffset
            tmp := nowOffset
            totalData := s.totalData + 1
            beforeData :=
              if nowOffset < offset then
                if diffKWdth ≤ nowOffset - s.tmp then s.beforeData + 1 else s.beforeData
              else s.beforeData }
      else .exit (some (s.totalData, s.beforeData))

/-- `offsetStat(offset, &totalData, &beforeData, offsetFunction)`, its own passes and those of a
call within one bound: the two counts. -/
def offsetStat (T : Pcontent) (offset : Int) (offsetFunction : Scanner) (fuel : Nat) :
    Option (Nat × Nat) :=
  (run (statPass (fun nowOffset limit => (offsetFunction.call T nowOffset limit fuel).val)
    T.pclen offset) fuel ⟨0, 0, 0, 0⟩).join

/-- What a finder returns lies ahead, so its callers come to an end. -/
structure GetsAhead (T : Pcontent) : Prop where
  finds : ∀ f ∈ finders, ∀ fuel, T.passes ≤ fuel → f.Progresses T fuel
  lasts : ∀ startOffset limit, 0 ≤ startOffset → 0 ≤ limit →
    (getLastYearOffset T startOffset limit).isSome = true ∧
      (getLastPageOffset T startOffset limit).isSome = true ∧
      (getLastPage2Offset T startOffset limit).isSome = true
  counts : ∀ f ∈ finders, ∀ offset, ∃ fuel, (offsetStat T offset f fuel).isSome = true

section Probes

variable {T : Pcontent} {offend i : Int} {fuel : Nat}

/-- A loop that its probes decide is left within its window. -/
theorem run_probe_ends {body : Int → Outcome Int Int} {probe : Int → Probe}
    (hbody : ∀ i, body i = if i < offend then (probe i).outcome i else .exit 0)
    (hfuel : (offend - i).toNat < fuel) : ∃ v, run body fuel i = some v := by
  have hnext : ∀ i i', True → body i = .next i' →
      True ∧ (offend - i').toNat < (offend - i).toNat := by
    intro i i' _ hpass
    rw [hbody] at hpass
    split at hpass
    · cases hp : probe i with
      | found ret =>
          rw [hp] at hpass
          contradiction
      | stop =>
          rw [hp] at hpass
          contradiction
      | pass =>
          rw [hp] at hpass
          cases hpass
          exact ⟨trivial, by omega⟩
    · contradiction
  obtain ⟨v, hrun, -⟩ := run_rule body fuel i (fun _ => True) (fun i => (offend - i).toNat)
    (fun _ => True) hnext (fun _ _ _ _ => trivial) trivial hfuel
  exact ⟨v, hrun⟩

/-- The offsets that the second finder of pages has not looked at yet. -/
def page2Left (offend : Int) : Page2Point → Nat
  | .head i => (offend - i).toNat
  | .seek i j _ => (offend - 1 - (i + j)).toNat

/-- The loop over `j` ends in front of the end of the window too. -/
theorem page2Pass_left {s s' : Page2Point} (h : (page2Pass T offend s).val = .next s') :
    page2Left offend s' < page2Left offend s := by
  cases s with
  | head i =>
      rw [page2Pass] at h
      split at h
      · rename_i hlt
        have hnext : page2Left offend (.head (i + 1)) < page2Left offend (.head i) := by
          dsimp only [page2Left]
          omega
        have hseek : ∀ j extra, 0 ≤ j →
            page2Left offend (.seek i j extra) < page2Left offend (.head i) := by
          intro j extra hj
          dsimp only [page2Left]
          omega
        rw [val_bind, val_read] at h
        split at h
        · rw [val_bind, val_read] at h
          split at h
          · cases h
            exact hseek 3 0 (by decide)
          · rw [val_bind] at h
            cases h
            split
            · exact hseek 4 1 (by decide)
            · exact hnext
        · cases h
          exact hnext
      · contradiction
  | seek i j extra =>
      rw [page2Pass, val_bind, val_read] at h
      split at h
      · contradiction
      · rw [val_pure] at h
        split at h
        · contradiction
        · cases h
          dsimp only [page2Left]
          omega

/-- The second finder of pages is left within its window. -/
theorem run_page2_ends (hfuel : (offend - i).toNat < fuel) :
    ∃ v, run (fun s => (page2Pass T offend s).val) fuel (.head i) = some v := by
  obtain ⟨v, hrun, -⟩ := run_rule (fun s => (page2Pass T offend s).val) fuel (.head i)
    (fun _ => True) (page2Left offend) (fun _ => True)
    (fun s s' _ hnext => ⟨trivial, page2Pass_left hnext⟩) (fun _ _ _ _ => trivial) trivial hfuel
  exact ⟨v, hrun⟩

end Probes

section Names

variable {N : NameShape} {T : Pcontent} {offend offset i : Int} {fuel : Nat}

/-- How far a finder of names has got from its offset on: a word may begin one character in
front of it, but it takes two characters at least. -/
def NamePoint.Past (offset : Int) : NamePoint → Prop
  | .head i tag => offset ≤ headOffset i tag + 1
  | .word _ tag => offset ≤ tag + 1
  | .blanks i _ => offset < i
  | .search i => offset < i

/-- A point of a finder, or what it returns. -/
abbrev GetsPast (offset : Int) (pass : Outcome NamePoint Int) : Prop :=
  pass.Satisfies (NamePoint.Past offset) fun v => v = 0 ∨ offset < v

theorem namePast_word {tag : Int} (hs : (nameVerdict N T offend).inv (.word i tag))
    (hpast : offset ≤ tag + 1) :
    GetsPast offset (findNamePass N T offend (.word i tag)).val := by
  obtain ⟨-, hle, hcapital, -⟩ := hs
  rw [findNamePass, val_bind, val_read]
  split
  · rw [val_pure]
    split
    · exact .inl rfl
    · exact hpast
  · rename_i hletter
    have hne : tag ≠ i := by
      rintro rfl
      exact hletter (letter_of_isUppercaseCode _ hcapital).1
    rw [val_pure]
    split
    · show offset < i + 1
      omega
    · have hbounds := (headOffset_bounds (i + 1) tag).2
      show offset ≤ headOffset (i + 1) tag + 1
      omega

theorem namePast_blanks {tag : Int} (hpast : offset < i) :
    GetsPast offset (findNamePass N T offend (.blanks i tag)).val := by
  have hhead : GetsPast offset (.next (.head (i + 1) tag)) := by
    have hbounds := (headOffset_bounds (i + 1) tag).2
    show offset ≤ headOffset (i + 1) tag + 1
    omega
  have hfails : GetsPast offset
      (.next (if N.seeks = true then .search i else .head (i + 1) tag)) := by
    split
    · exact hpast
    · exact hhead
  rw [findNamePass, val_bind, val_read]
  split
  · rw [val_pure]
    split
    · exact .inl rfl
    · show offset < i + 1
      omega
  · split
    · exact hhead
    · dsimp only
      split
      · rw [val_bind, val_read]
        split
        · exact .inr (by omega)
        · exact hfails
      · exact hfails

/-- No pass falls back behind the offset, and none returns it. -/
theorem findNamePass_past (s : NamePoint) (hs : (nameVerdict N T offend).inv s)
    (hpast : s.Past offset) : GetsPast offset (findNamePass N T offend s).val := by
  cases s with
  | head i tag =>
      have h0 : offset ≤ headOffset i tag + 1 := hpast
      rw [findNamePass]
      split
      · rw [← headOffset, val_bind, val_read]
        split
        · exact h0
        · show offset ≤ headOffset (headOffset i tag + 1) (headOffset i tag) + 1
          rw [headOffset_self]
          omega
      · exact .inl rfl
  | word i tag => exact namePast_word hs hpast
  | blanks i tag => exact namePast_blanks hpast
  | search i =>
      have h0 : offset < i := hpast
      rw [findNamePass, val_bind, val_read]
      split
      · show offset < i + 1
        omega
      · exact .inr h0

/-- A finder of names that does not leave the text gets ahead. -/
theorem run_findName (N : NameShape) (hterm : T.char T.pclen = 0) (hend : offend ≤ T.pclen)
    (h0 : 0 ≤ offset) (hdelimited : NameDelimited N T offend (headOffset offset 0))
    (hfuel : T.passes ≤ fuel) :
    ∃ v, (runTraced (findNamePass N T offend) fuel (.head offset 0)).val = some v ∧
      (v = 0 ∨ offset < v) := by
  have hhead := headOffset_start h0
  have hstart : (nameVerdict N T offend).inv (.head offset 0) := hhead
  have hpast : (NamePoint.head offset 0).Past offset := by
    have hbounds := (headOffset_bounds offset 0).2
    show offset ≤ headOffset offset 0 + 1
    omega
  refine Verdict.run_ensures (findNamePass_decides N hterm hend) findNamePass_past hstart
    hdelimited hpast ?_
  rw [Pcontent.passes] at hfuel
  dsimp only [nameVerdict]
  omega

end Names

section Numbers

variable {S : SeqShape} {T : Pcontent} {offend offset i : Int} {fuel : Nat}

/-- How far a finder of numbers has got. -/
def SeqPoint.Past (offset : Int) : SeqPoint → Prop
  | .head i => offset ≤ i
  | .digits i => offset < i

/-- A bracket is closed behind the offset from which that is sought. -/
theorem readBracket_le {n : Nat} {j k : Int} (h : (readBracket S T offend i n j).val = some k) :
    j ≤ k := by
  induction n generalizing j with
  | zero => contradiction
  | succ n ih =>
      rw [readBracket] at h
      split at h
      · rw [val_bind, val_read] at h
        split at h
        · rw [val_pure] at h
          split at h
          · contradiction
          · exact (Option.some.inj h).le
        · split at h
          · contradiction
          · have hle := ih h
            omega
      · contradiction

theorem seqPass_past (s : SeqPoint) (hpast : s.Past offset) :
    (seqPass S T offend s).val.Satisfies (SeqPoint.Past offset) fun v => v = 0 ∨ offset < v := by
  cases s with
  | head i =>
      have h0 : offset ≤ i := hpast
      have hnext : (Outcome.next (.head (i + 1)) : Outcome SeqPoint Int).Satisfies
          (SeqPoint.Past offset) fun v => v = 0 ∨ offset < v := by
        show offset ≤ i + 1
        omega
      rw [seqPass]
      split
      · rw [val_bind, val_read]
        split
        · rw [val_bind]
          cases hbracket : (readBracket S T offend i S.span (i + 1)).val with
          | some j =>
              have hle := readBracket_le hbracket
              exact .inr (by omega)
          | none => exact hnext
        · split
          · show offset < i + 1
            omega
          · exact hnext
      · exact .inl rfl
  | digits i =>
      have h0 : offset < i := hpast
      rw [seqPass, val_bind, val_read]
      split
      · show offset < i + 1
        omega
      · split
        · exact .inr (by omega)
        · show offset ≤ i + 1
          omega

theorem run_seq (S : SeqShape) (hterm : T.char T.pclen = 0) (hend : offend ≤ T.pclen)
    (h0 : 0 ≤ offset) (hfuel : T.passes ≤ fuel) :
    ∃ v, (runTraced (seqPass S T offend) fuel (.head offset)).val = some v ∧
      (v = 0 ∨ offset < v) := by
  have hstart : (seqVerdict T offend).inv (.head offset) := h0
  have hpast : (SeqPoint.head offset).Past offset := le_refl offset
  refine Verdict.run_ensures (seqPass_decides S hterm hend) (fun s _ => seqPass_past s) hstart
    trivial hpast ?_
  rw [Pcontent.passes] at hfuel
  dsimp only [seqVerdict]
  omega

end Numbers

section Calls

variable {T : Pcontent} {f : Scanner} {find : Int → Int → Int} {offset limit : Int} {fuel : Nat}

/-- A call that ends with what an advancing finder returns gets ahead. -/
theorem Advances.progresses (hfind : Advances T find) (h0 : 0 ≤ offset) (hlimit : 0 ≤ limit)
    {ret : Option Int} (hends : ∃ v, ret = some v)
    (hval : ∀ {v}, ret = some v → v = find offset limit) :
    ∃ v, ret = some v ∧ (v = 0 ∨ offset < v) := by
  obtain ⟨v, hv⟩ := hends
  refine ⟨v, hv, ?_⟩
  by_cases hzero : v = 0
  · exact .inl hzero
  · have hahead := (hfind offset limit (hval hv ▸ hzero)).1
    rw [defineStartAndEnd_forward h0 hlimit, ← hval hv] at hahead
    exact .inr hahead

theorem hasSpecialKeyWords_advances (T : Pcontent) : Advances T (hasSpecialKeyWords T) := by
  apply advances_of_probe (specialProbe T) (le_refl 0)
  · intro o l
    rw [sub_zero]
    rfl
  · exact fun _ _ _ h => (specialProbe_found h).2.1

/-- The passes suffice for any window. -/
theorem toNat_lt_passes (h0 : 0 ≤ offset) (hlimit : 0 ≤ limit) (hfuel : T.passes ≤ fuel) :
    ((defineStartAndEnd T offset limit).2 - (defineStartAndEnd T offset limit).1).toNat <
      fuel := by
  rw [Pcontent.passes] at hfuel
  rw [defineStartAndEnd_forward h0 hlimit]
  dsimp only
  omega

/-- Every finder of the list gets ahead. -/
theorem Scanner.progresses (hterm : T.char T.pclen = 0) (hf : f ∈ finders)
    (hfuel : T.passes ≤ fuel) : f.Progresses T fuel := by
  intro offset limit h0 hlimit
  have hend := (defineStartAndEnd_bounds T offset limit).2
  have hfirst : (defineStartAndEnd T offset limit).1 = offset := by
    rw [defineStartAndEnd_forward h0 hlimit]
  have hwindow := toNat_lt_passes h0 hlimit hfuel
  have hshort : ((defineStartAndEnd T offset limit).2 - 3 -
      (defineStartAndEnd T offset limit).1).toNat < fuel := by omega
  cases f with
  | pages =>
      refine (hasPPafterTheOffset_advances T).progresses h0 hlimit ?_ val_hasPPafterTheOffset
      rw [call, Scanner.hasPPafterTheOffset, scan, val_runTraced]
      exact run_probe_ends (val_pagePass T _) hwindow
  | pages2 =>
      refine (hasPPafterTheOffset2_advances T).progresses h0 hlimit ?_ val_hasPPafterTheOffset2
      rw [call, Scanner.hasPPafterTheOffset2, scan, val_runTraced]
      exact run_page2_ends hwindow
  | years =>
      refine (hasYearafterTheOffset_advances T).progresses h0 hlimit ?_ val_hasYearafterTheOffset
      rw [call, Scanner.hasYearafterTheOffset, scan, val_runTraced]
      exact run_probe_ends (val_yearPass T _) hshort
  | keyWords =>
      refine (hasSpecialKeyWords_advances T).progresses h0 hlimit ?_ val_hasSpecialKeyWords
      rw [call, Scanner.hasSpecialKeyWords, scan, val_runTraced]
      exact run_probe_ends (val_specialPass T _) hwindow
  | names0 =>
      rw [call, hasNameafterTheOffset0, scan, hfirst]
      exact run_findName nameShape0 hterm hend h0 (by simp [NameDelimited, nameShape0]) hfuel
  | locations =>
      rw [call, hasLocationafterTheOffset, scan, hfirst]
      exact run_findName locationShape hterm hend h0 (by simp [NameDelimited, locationShape])
        hfuel
  | seq =>
      rw [call, hasSeqOfTheOffset, scan, hfirst]
      exact run_seq seqShape hterm hend h0 hfuel
  | seq2 =>
      rw [call, hasSeqOfTheOffset2, scan, hfirst]
      exact run_seq seqShape2 hterm hend h0 hfuel
  | names1 => simp [finders] at hf
  | names2 => simp [finders] at hf
  | words => simp [finders] at hf

/-- In a window without an offset nothing is found. -/
theorem Scanner.call_nothing (f : Scanner)
    (hwindow : (defineStartAndEnd T offset limit).2 ≤ (defineStartAndEnd T offset limit).1)
    (fuel : Nat) : (f.call T offset limit (fuel + 1)).val = some 0 := by
  have hempty := not_lt.mpr hwindow
  have hscan : ∀ {σ : Type} (pass : Pcontent → Int → σ → Traced Int (Outcome σ Int))
      (start : Int → σ),
      (pass T (defineStartAndEnd T offset limit).2
        (start (defineStartAndEnd T offset limit).1)).val = .exit 0 →
      (scan T offset limit (fuel + 1) pass start).val = some 0 := by
    intro σ pass start hpass
    rw [scan, val_runTraced]
    exact run_exit hpass fuel
  cases f with
  | pages => exact hscan pagePass id (by rw [pagePass, id, if_neg hempty]; rfl)
  | pages2 => exact hscan page2Pass .head (by rw [page2Pass, if_neg hempty]; rfl)
  | years =>
      have hshort : ¬ (defineStartAndEnd T offset limit).1 <
          (defineStartAndEnd T offset limit).2 - 3 := by omega
      exact hscan yearPass id (by rw [yearPass, id, if_neg hshort]; rfl)
  | keyWords => exact hscan specialPass id (by rw [specialPass, id, if_neg hempty]; rfl)
  | names0 =>
      exact hscan (findNamePass nameShape0) (.head · 0) (by rw [findNamePass, if_neg hempty]; rfl)
  | names1 =>
      exact hscan (findNamePass nameShape1) (.head · 0) (by rw [findNamePass, if_neg hempty]; rfl)
  | names2 =>
      exact hscan (findNamePass nameShape2) (.head · 0) (by rw [findNamePass, if_neg hempty]; rfl)
  | locations =>
      exact hscan (findNamePass locationShape) (.head · 0)
        (by rw [findNamePass, if_neg hempty]; rfl)
  | seq => exact hscan (seqPass seqShape) .head (by rw [seqPass, if_neg hempty]; rfl)
  | seq2 => exact hscan (seqPass seqShape2) .head (by rw [seqPass, if_neg hempty]; rfl)
  | words => exact hscan wordPass (.head · 0) (by rw [wordPass, if_neg hempty]; rfl)

end Calls

section Counts

variable {T : Pcontent} {f : Scanner} {fuel : Nat}

/-- Behind the text there is none. -/
theorem window_behind {offset limit : Int} (h0 : 0 ≤ offset) (hlimit : 0 ≤ limit)
    (hout : T.pclen ≤ offset) :
    (defineStartAndEnd T offset limit).2 ≤ (defineStartAndEnd T offset limit).1 := by
  rw [defineStartAndEnd_forward h0 hlimit]
  dsimp only
  omega

/-- What is known of the variables at the head of the loop of `offsetStat`. -/
structure StatRun.Valid (T : Pcontent) (s : StatRun) : Prop where
  nonneg : 0 ≤ s.nowOffset
  before : s.beforeData ≤ s.totalData
  total : (s.totalData : Int) ≤ min s.nowOffset T.pclen

/-- A match takes the loop ahead in the text. -/
theorem statPass_next {s s' : StatRun} {offset : Int} (hf : f.Progresses T (fuel + 1))
    (hlen : 0 ≤ T.pclen) (hs : s.Valid T)
    (h : statPass (fun nowOffset limit => (f.call T nowOffset limit (fuel + 1)).val) T.pclen
      offset s = .next s') :
    s'.Valid T ∧ (T.pclen - s'.nowOffset).toNat < (T.pclen - s.nowOffset).toNat := by
  obtain ⟨h0, hbefore, htotal⟩ := hs
  obtain ⟨v, hcall, hv⟩ := hf s.nowOffset T.pclen h0 hlen
  rw [statPass, hcall] at h
  dsimp only at h
  split at h
  · rename_i hne
    have hin : s.nowOffset < T.pclen := by
      by_contra hout
      rw [f.call_nothing (window_behind h0 hlen (not_lt.mp hout))] at hcall
      exact hne (Option.some.inj hcall).symm
    have hahead := hv.resolve_left hne
    cases h
    refine ⟨⟨?_, ?_, ?_⟩, ?_⟩
    · dsimp only
      omega
    · dsimp only
      split_ifs <;> omega
    · push_cast
      omega
    · dsimp only
      omega
  · contradiction

/-- Every call ends, so the loop is left with the two counts. -/
theorem statPass_exit {s : StatRun} {offset : Int} {counts : Option (Nat × Nat)}
    (hf : f.Progresses T fuel) (hlen : 0 ≤ T.pclen) (hs : s.Valid T)
    (h : statPass (fun nowOffset limit => (f.call T nowOffset limit fuel).val) T.pclen
      offset s = .exit counts) : counts = some (s.totalData, s.beforeData) := by
  obtain ⟨v, hcall, -⟩ := hf s.nowOffset T.pclen hs.nonneg hlen
  rw [statPass, hcall] at h
  dsimp only at h
  split at h
  · contradiction
  · cases h
    rfl

/-- The counts of a finder that gets ahead: no more matches than the text has characters. -/
theorem offsetStat_spec (hf : f.Progresses T fuel) (hlen : 0 ≤ T.pclen)
    (hfuel : T.passes ≤ fuel) (offset : Int) :
    ∃ totalData beforeData, offsetStat T offset f fuel = some (totalData, beforeData) ∧
      beforeData ≤ totalData ∧ (totalData : Int) ≤ T.pclen := by
  have hpos : T.pclen.toNat < fuel := by
    rw [Pcontent.passes] at hfuel
    omega
  obtain ⟨n, rfl⟩ : ∃ n, fuel = n + 1 := ⟨fuel - 1, by omega⟩
  have hstart : StatRun.Valid T ⟨0, 0, 0, 0⟩ := ⟨le_rfl, le_rfl, by simpa using hlen⟩
  obtain ⟨counts, hrun, s, hs, rfl⟩ := run_rule
    (statPass (fun nowOffset limit => (f.call T nowOffset limit (n + 1)).val) T.pclen offset)
    (n + 1) ⟨0, 0, 0, 0⟩ (StatRun.Valid T) (fun s => (T.pclen - s.nowOffset).toNat)
    (fun counts => ∃ s : StatRun, s.Valid T ∧ counts = some (s.totalData, s.beforeData))
    (fun s s' hs hnext => statPass_next hf hlen hs hnext)
    (fun s counts hs hexit => ⟨s, hs, statPass_exit hf hlen hs hexit⟩) hstart
    (by simpa using hpos)
  have htotal := hs.total
  refine ⟨s.totalData, s.beforeData, ?_, hs.before, by omega⟩
  rw [offsetStat, hrun]
  rfl

/-- Without a text there is nothing to count. -/
theorem offsetStat_nothing (hlen : T.pclen < 0) (offset : Int) (fuel : Nat) :
    offsetStat T offset f (fuel + 1) = some (0, 0) := by
  have hempty : (defineStartAndEnd T 0 T.pclen).2 ≤ (defineStartAndEnd T 0 T.pclen).1 := by
    have hbounds := defineStartAndEnd_bounds T 0 T.pclen
    omega
  have hpass : statPass (fun nowOffset limit => (f.call T nowOffset limit (fuel + 1)).val)
      T.pclen offset ⟨0, 0, 0, 0⟩ = .exit (some (0, 0)) := by
    rw [statPass]
    dsimp only
    rw [f.call_nothing hempty]
    rfl
  rw [offsetStat, run_exit hpass]
  rfl

end Counts

end CiteParser
