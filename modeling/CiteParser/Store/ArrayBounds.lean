import CiteParser.Store.Area

/-!
# The arrays of a parsed file

`readFileToParse` allocates `offset` and `tags` with one cell for each byte of the file;
`getPclen` gives one more than the number of bytes copied. The loops over `getPclen` stay
inside the arrays as soon as one byte of the file is not copied.
-/

namespace CiteParser

open Loop

/-- The length with which `readFileToParse` allocates `offset` and `tags`. -/
def arrayLength (text : List UInt8) : Nat := uint text.length

/-- The indices at which `getReferenceHeadOffset` reads: up to the first id 1, or all. -/
def headReads (vc : VirtualContent) : List Nat :=
  (List.range (getPclen vc).toNat).take
    ((List.range (getPclen vc).toNat).findIdx (fun i => hasReference (tagsAt vc i)) + 1)

/-- The indices that `endScan` reads. -/
def endScanReads (tags : Nat → UInt32) : Nat → Nat → Bool → List Nat
  | 0, _, _ => []
  | n + 1, i, inside =>
      i :: if inside && tags i == 0 then []
        else endScanReads tags n (i + 1) (inside || hasReference (tags i))

/-- The indices at which `getReferenceEndOffset` reads. -/
def endReads (vc : VirtualContent) : List Nat :=
  endScanReads (tagsAt vc) (getPclen vc).toNat 0 false

/-- The indices at which `filteredTokenId` reads. -/
def filteredReads (vc : VirtualContent) (offset : Nat) : List Nat :=
  if getPclen vc ≤ (offset : Int) then [] else [offset]

/-- Arrays of `len` cells hold all that the length given out promises, and what the three
functions read. -/
structure Covered (vc : VirtualContent) (len : Nat) : Prop where
  index : ∀ i : Nat, (i : Int) < getPclen vc → i < len
  head : ∀ i ∈ headReads vc, i < len
  last : ∀ i ∈ endReads vc, i < len
  filtered : ∀ offset, ∀ i ∈ filteredReads vc offset, i < len

/-- Somewhere in the file stands the start or the end tag of a name in the table. -/
def HoldsTag (repo : TokenRepo) (content : Nat → UInt8) (flen : Nat) : Prop :=
  ∃ i < flen, ∀ c, (event repo content i).1 ≠ .char c

/-- The scan for the end reads no further than the passes it has left. -/
theorem mem_endScanReads {tags : Nat → UInt32} {n i j : Nat} {inside : Bool}
    (h : j ∈ endScanReads tags n i inside) : j < i + n := by
  induction n generalizing i inside with
  | zero => exact absurd h List.not_mem_nil
  | succ n ih =>
      rw [endScanReads, List.mem_cons] at h
      rcases h with rfl | h
      · omega
      · split at h
        · exact absurd h List.not_mem_nil
        · have hlt := ih h
          omega

/-- The three functions stay below the length given out. -/
theorem covered_iff (vc : VirtualContent) (len : Nat) :
    Covered vc len ↔ (getPclen vc).toNat ≤ len := by
  constructor
  · intro h
    by_contra hlt
    have hlast := h.index ((getPclen vc).toNat - 1) (by omega)
    omega
  · intro hle
    refine ⟨fun i hi => by omega, fun i hi => ?_, fun i hi => ?_, fun offset i hi => ?_⟩
    · have hmem := List.mem_range.mp (List.mem_of_mem_take hi)
      omega
    · have hlt := mem_endScanReads hi
      omega
    · rw [filteredReads] at hi
      split at hi
      · exact absurd hi List.not_mem_nil
      · rw [List.mem_singleton] at hi
        omega

section Kept

variable {repo : TokenRepo} {content : Nat → UInt8} {flen fuel : Nat} {s out : ParseState}

/-- A byte that is not taken for a tag is copied, and the loop is one place further. -/
theorem parsePass_of_char {c : UInt8} (hflen : flen < 2 ^ 32) (hlt : s.i < flen)
    (hchar : (event repo content s.i).1 = .char c) :
    ∃ s', parsePass repo content flen s = .next s' ∧ s'.i = s.i + 1 ∧
      s'.pcontent.length = s.pcontent.length + 1 := by
  have hnext : (event repo content s.i).2 = s.i + 1 := by
    have huint := uint_of_lt (show s.i + 1 < 2 ^ 32 by omega)
    unfold event at hchar ⊢
    split at hchar
    · rename_i hopen
      rw [if_pos hopen]
      split at hchar
      · rename_i hslash
        rw [if_pos hslash]
        split at hchar
        · exact absurd hchar (by simp)
        · exact huint
      · rename_i hslash
        rw [if_neg hslash]
        split at hchar
        · exact absurd hchar (by simp)
        · exact huint
    · rename_i hopen
      rw [if_neg hopen]
      exact huint
  refine ⟨⟨s.i + 1, s.nowTag, s.pcontent ++ [c], s.offset ++ [s.i], s.tags ++ [s.nowTag]⟩,
    ?_, rfl, List.length_append⟩
  rw [parsePass_eq hlt, show event repo content s.i = (.char c, s.i + 1) from
    Prod.ext hchar hnext]

/-- Without a tag every byte is copied. -/
theorem length_pcontent_of_no_tag (hflen : flen < 2 ^ 32) (hno : ¬ HoldsTag repo content flen)
    (hs : s.pcontent.length = s.i) (hle : s.i ≤ flen)
    (h : run (parsePass repo content flen) fuel s = some (1, out)) :
    out.pcontent.length = flen := by
  induction fuel generalizing s with
  | zero => contradiction
  | succ fuel ih =>
      by_cases hlt : s.i < flen
      · have hchar : ∃ c, (event repo content s.i).1 = .char c := by
          by_contra hall
          exact hno ⟨s.i, hlt, not_exists.mp hall⟩
        obtain ⟨c, hc⟩ := hchar
        obtain ⟨s', hpass, hi, hlen⟩ := parsePass_of_char hflen hlt hc
        rw [run_next hpass] at h
        exact ih (by omega) (by omega) h
      · rw [run_exit (parsePass_end hlt), Option.some.injEq, Prod.mk.injEq] at h
        rw [← h.2]
        omega

/-- A run that meets a tag copies less than one byte a pass. -/
theorem length_pcontent_of_tag {m : Nat} (hflen : flen < 2 ^ 32) (hm : m < flen)
    (htag : ∀ c, (event repo content m).1 ≠ .char c)
    (hbefore : ∀ i < m, ∃ c, (event repo content i).1 = .char c) (hs : s.i ≤ m)
    (h : run (parsePass repo content flen) fuel s = some (1, out)) :
    out.pcontent.length + 1 < s.pcontent.length + fuel := by
  induction fuel generalizing s with
  | zero => contradiction
  | succ fuel ih =>
      rcases Nat.lt_or_eq_of_le hs with hlt | rfl
      · obtain ⟨c, hc⟩ := hbefore s.i hlt
        obtain ⟨s', hpass, hi, hlen⟩ := parsePass_of_char hflen (by omega) hc
        rw [run_next hpass] at h
        have hrest := ih (by omega) h
        omega
      · have hpass := @parsePass_eq repo content flen s hm
        cases hevent : event repo content s.i with
        | mk e j =>
            rw [hevent] at hpass htag
            cases e with
            | char c => exact absurd rfl (htag c)
            | start id =>
                rw [run_next hpass] at h
                have hrest := length_pcontent_of_run h
                simp only at hrest
                omega
            | stop id =>
                simp only at hpass
                split at hpass
                · rw [run_exit hpass] at h
                  exact absurd h (by simp)
                · rw [run_next hpass] at h
                  have hrest := length_pcontent_of_run h
                  simp only at hrest
                  omega

end Kept

/-- An accepted file leaves fewer bytes than it has exactly when a tag stands in it. -/
theorem kept_of_accepted {repo : TokenRepo} {content : Nat → UInt8} {flen : Nat}
    {out : ParseState} (hflen : flen < 2 ^ 32)
    (h : run (parsePass repo content flen) (flen + 1) .start = some (1, out)) :
    (HoldsTag repo content flen → out.pcontent.length < flen) ∧
      (¬ HoldsTag repo content flen → out.pcontent.length = flen) := by
  constructor
  · intro htag
    classical
    have hfirst : ∀ i < Nat.find htag, ∃ c, (event repo content i).1 = .char c := by
      intro i hi
      have hmin := Nat.find_min htag hi
      by_contra hall
      exact hmin ⟨hi.trans (Nat.find_spec htag).1, not_exists.mp hall⟩
    have hlen := length_pcontent_of_tag hflen (Nat.find_spec htag).1 (Nat.find_spec htag).2 hfirst
      (Nat.zero_le _) h
    have hstart : ParseState.start.pcontent.length = 0 := rfl
    omega
  · intro hno
    exact length_pcontent_of_no_tag hflen hno rfl (Nat.zero_le _) h

/-- The arrays of an accepted file cover its length exactly when a tag stands in the file, or
when it is so long that its length is no `int`. -/
theorem parsedArrays_covered_iff {repo : TokenRepo} {vc vc' : VirtualContent}
    {text : List UInt8} {heap : Nat → UInt8} (hparse : vc.noparse = false)
    (haccept : parseFile repo vc (some text) heap = some (1, vc')) :
    Covered vc' (arrayLength text) ↔
      HoldsTag repo (fileBuffer text (uint text.length) heap) (uint text.length) ∨
        2 ^ 31 ≤ uint text.length + 1 := by
  obtain ⟨out, hrun, -, hpclen⟩ := parseFile_accepts hparse haccept
  have hflen : uint text.length < 2 ^ 32 := Nat.mod_lt _ (by decide)
  obtain ⟨htag, hno⟩ := kept_of_accepted hflen hrun
  have hkept : out.pcontent.length < 2 ^ 32 := by
    by_cases h : HoldsTag repo (fileBuffer text (uint text.length) heap) (uint text.length)
    · have hlt := htag h
      omega
    · rw [hno h]
      exact hflen
  rw [covered_iff, toNat_getPclen hpclen hkept, arrayLength]
  by_cases h : HoldsTag repo (fileBuffer text (uint text.length) heap) (uint text.length)
  · have hlt := htag h
    refine iff_of_true ?_ (.inl h)
    split <;> omega
  · have heq := hno h
    constructor
    · intro hle
      right
      split at hle <;> omega
    · rintro (h' | hlong)
      · exact absurd h' h
      · rw [if_neg (by omega)]
        exact Nat.zero_le _

/-- A file with one element is covered. -/
theorem parsedArrays_covered_title :
    ∃ vc', parseFile (tokenInit tokenIni) initContent (some (bytes "<title>x</title>"))
        (fun _ => 0) = some (1, vc') ∧ Covered vc' (arrayLength (bytes "<title>x</title>")) := by
  have hret : (parseFile (tokenInit tokenIni) initContent (some (bytes "<title>x</title>"))
      fun _ => 0).map Prod.fst = some 1 := by decide +kernel
  obtain ⟨⟨ret, vc'⟩, hparse, rfl⟩ := Option.map_eq_some_iff.mp hret
  refine ⟨vc', hparse, (parsedArrays_covered_iff rfl hparse).mpr (.inl ⟨0, by decide, ?_⟩)⟩
  have hevent : event (tokenInit tokenIni) (fileBuffer (bytes "<title>x</title>")
      (uint (bytes "<title>x</title>").length) fun _ => 0) 0 = (.start 14, 7) := by
    decide +kernel
  rw [hevent]
  exact fun c h => Event.noConfusion h

/-- A file of one letter has two cells according to its length, and one in its arrays. -/
theorem parsedArrays_not_covered :
    ∃ vc', parseFile (tokenInit tokenIni) initContent (some (bytes "x")) (fun _ => 0) =
        some (1, vc') ∧ getPclen vc' = 2 ∧ arrayLength (bytes "x") = 1 ∧
      1 ∈ headReads vc' ∧ ¬ Covered vc' (arrayLength (bytes "x")) := by
  have hret : (parseFile (tokenInit tokenIni) initContent (some (bytes "x")) fun _ => 0).map
      (fun r => (r.1, getPclen r.2, headReads r.2)) = some (1, 2, [0, 1]) := by decide +kernel
  obtain ⟨⟨ret, vc'⟩, hparse, hvc⟩ := Option.map_eq_some_iff.mp hret
  simp only [Prod.mk.injEq] at hvc
  obtain ⟨rfl, hlen, hreads⟩ := hvc
  refine ⟨vc', hparse, hlen, rfl, by rw [hreads]; decide, fun hcov => ?_⟩
  have hone := hcov.index 1 (by rw [hlen]; decide)
  exact absurd hone (by decide)

end CiteParser
