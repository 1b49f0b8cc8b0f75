import CiteParser.Features.DictLookup
import CiteParser.Features.Handed
import CiteParser.Predict.Columns

/-!
# Scratch arrays

Describing a token needs `spstr[10]` for the starts of its pieces and, in every lookup, the
copy `data[100]` of the name looked up; the main loop looks up the token together with its
successor as well. How many entries and which names these are is counted on the token.
-/

namespace CiteParser

/-- The length of `spstr`. -/
def spstrSize : Nat := 10

/-- The places inside a string where `spilitStr` starts a piece. -/
def pieceBreaks (str : List UInt8) : Nat :=
  (str.zip str.tail).countP fun p => charType p.2 != charType p.1 && charType p.1 != 1

/-- The strings that the updates of `*pCNS` hand to `hmDictGet`. -/
def combinedHanded (dict : Dict) (pCNS : CrfNodeSnapshot) (npCNS : Option CrfNodeSnapshot) :
    List (List UInt8) :=
  let both := combinedStr pCNS npCNS
  (if pCNS.isPlaceNameDict ≠ 0 then [] else handedIn [6, 8] dict both) ++
    (if pCNS.isCountryDict ≠ 0 then [] else handedIn [1] dict both) ++
    (if pCNS.isPubliserDict ≠ 0 then [] else handedIn [7] dict both)

/-- The updates depend on what they ask. -/
theorem updateDicts_congr {dict dict' : Dict} {pCNS : CrfNodeSnapshot}
    {npCNS : Option CrfNodeSnapshot} (h : AgreeOn dict dict' (combinedHanded dict pCNS npCNS)) :
    updateDicts dict npCNS pCNS = updateDicts dict' npCNS pCNS := by
  simp only [combinedHanded, agreeOn_append] at h
  obtain ⟨⟨hplace, hcountry⟩, hpublisher⟩ := h
  have hflag : ∀ (flag : Nat) (tables : List Nat),
      AgreeOn dict dict'
        (if flag ≠ 0 then [] else handedIn tables dict (combinedStr pCNS npCNS)) →
      (if flag ≠ 0 ∨ isInDict tables dict (combinedStr pCNS npCNS) ≠ 0 then 1 else 0) =
        if flag ≠ 0 ∨ isInDict tables dict' (combinedStr pCNS npCNS) ≠ 0 then 1 else 0 := by
    intro flag tables hasked
    by_cases hset : flag ≠ 0
    · rw [if_pos (.inl hset), if_pos (.inl hset)]
    · rw [if_neg hset] at hasked
      rw [isInDict_congr hasked]
  rw [updateDicts, updateDicts]
  dsimp only
  congr 1
  · exact hflag _ _ hcountry
  · exact hflag _ _ hplace
  · exact hflag _ _ hpublisher

section Pieces

/-- From a character on, `spilitStr` starts a piece at each break. -/
theorem length_foldl_pieces (str : List UInt8) (c : UInt8) (flg : List Nat) (i : Nat) :
    ((str.foldl (fun (acc : List Nat × Option Nat × Nat) (c : UInt8) =>
        (if some (charType c) ≠ acc.2.1 ∧ acc.2.1 ≠ some 1 then acc.1 ++ [acc.2.2] else acc.1,
          some (charType c), acc.2.2 + 1)) (flg, some (charType c), i)).1).length =
      flg.length + ((c :: str).zip str).countP
        fun p => charType p.2 != charType p.1 && charType p.1 != 1 := by
  induction str generalizing c flg i with
  | nil => rfl
  | cons d str ih =>
      rw [List.foldl_cons, ih, List.zip_cons_cons, List.countP_cons]
      have hiff : (some (charType d) ≠ some (charType c) ∧ some (charType c) ≠ some 1) ↔
          (charType d != charType c && charType c != 1) = true := by simp
      by_cases hbreak : (charType d != charType c && charType c != 1) = true
      · rw [if_pos (hiff.mpr hbreak), if_pos hbreak]
        simp only [List.length_append, List.length_singleton]
        omega
      · rw [if_neg (mt hiff.mp hbreak), if_neg hbreak, Nat.add_zero]

/-- A string falls into one piece more than it has breaks, and its end is stored as well. -/
theorem length_spilitStr {str : List UInt8} (h : str ≠ []) :
    (spilitStr str).length = pieceBreaks str + 2 := by
  cases str with
  | nil => contradiction
  | cons c str =>
      rw [spilitStr, List.length_append, List.length_singleton, List.foldl_cons]
      refine (congrArg (· + 1) (length_foldl_pieces str c [0] 1)).trans ?_
      rw [pieceBreaks, List.tail_cons, List.length_singleton]
      omega

end Pieces

/-- Everything that describing the token at a state stores in `spstr` and copies to `data` has
room there, the lookups with the next token included. -/
structure Reference.ScratchFits (ref : Reference) (s s' : Nat × UInt8) (t : CrfNodeSnapshot) :
    Prop where
  pieces : (spilitStr t.str).length ≤ spstrSize
  asked : ∀ q ∈ describeHanded ref.dict ref.content ref.refAreaEnd s.1 (ref.token s.1),
    q.length < dataSize
  combined : ∀ q ∈ combinedHanded ref.dict t ((ref.next s').map (·.1)), q.length < dataSize

instance (ref : Reference) (s s' : Nat × UInt8) (t : CrfNodeSnapshot) :
    Decidable (ref.ScratchFits s s' t) :=
  decidable_of_iff ((spilitStr t.str).length ≤ spstrSize ∧
      (∀ q ∈ describeHanded ref.dict ref.content ref.refAreaEnd s.1 (ref.token s.1),
        q.length < dataSize) ∧
      ∀ q ∈ combinedHanded ref.dict t ((ref.next s').map Prod.fst), q.length < dataSize)
    ⟨fun h => ⟨h.1, h.2.1, h.2.2⟩, fun h => ⟨h.pieces, h.asked, h.combined⟩⟩

/-- The token has few breaks and is short, and so are the digits asked about while its text is
scanned, and the token with its successor where one of its flags is still 0. -/
structure Reference.ScratchProper (ref : Reference) (s s' : Nat × UInt8) (t : CrfNodeSnapshot) :
    Prop where
  pieces : pieceBreaks t.str ≤ 8
  short : t.str.length < 100
  digits : ∀ m ∈ scanRange s.1 t.offset ref.refAreaEnd, DigitsAsked ref.dict ref.content s.1 m →
    (digitsBefore ref.content s.1 m).length < 100
  combined : t.isPlaceNameDict = 0 ∨ t.isCountryDict = 0 ∨ t.isPubliserDict = 0 →
    (combinedStr t ((ref.next s').map (·.1))).length < 100

/-- What the updates ask is short exactly when there is nothing to ask or the two tokens are
short together. -/
theorem forall_combinedHanded {dict : Dict} {t : CrfNodeSnapshot} {np : Option CrfNodeSnapshot}
    {n : Nat} :
    (∀ q ∈ combinedHanded dict t np, q.length < n) ↔
      (t.isPlaceNameDict = 0 ∨ t.isCountryDict = 0 ∨ t.isPubliserDict = 0 →
        (combinedStr t np).length < n) := by
  have hflag : ∀ (flag : Nat) {tables : List Nat}, tables ≠ [] →
      ((∀ q ∈ if flag ≠ 0 then [] else handedIn tables dict (combinedStr t np), q.length < n) ↔
        (flag = 0 → (combinedStr t np).length < n)) := by
    intro flag tables htables
    by_cases hset : flag = 0
    · rw [if_neg (not_not.mpr hset), forall_handedIn htables, imp_iff_right hset]
    · simp [hset]
  simp only [combinedHanded, List.forall_mem_append, hflag _ (List.cons_ne_nil _ _), or_imp,
    and_assoc]

/-- The entries fit exactly when there are at most eight breaks. -/
theorem length_spilitStr_le {str : List UInt8} :
    (spilitStr str).length ≤ spstrSize ↔ pieceBreaks str ≤ 8 := by
  by_cases hnil : str = []
  · rw [hnil]
    decide
  · rw [length_spilitStr hnil, spstrSize]
    omega

/-- One token has room exactly if it is short in every respect. -/
theorem Reference.scratchFits_iff {ref : Reference} {s s' : Nat × UInt8} {t : CrfNodeSnapshot}
    (h : ref.next s = some (t, s')) : ref.ScratchFits s s' t ↔ ref.ScratchProper s s' t := by
  have hoffset : t.offset = (ref.token s.1).ret := by
    obtain ⟨-, rfl, -⟩ := Reference.next_eq_some h
    rfl
  have hstr := (Reference.next_some h).2.2.2.1
  have hdigits : (∀ q ∈ scanHanded ref.dict ref.content s.1
        (scanRange s.1 (ref.token s.1).ret ref.refAreaEnd) .init, q.length < 100) ↔
      ∀ m ∈ scanRange s.1 t.offset ref.refAreaEnd, DigitsAsked ref.dict ref.content s.1 m →
        (digitsBefore ref.content s.1 m).length < 100 := by
    rw [hoffset, scanRange, (digitsInv_init _ _ _).forall_scanHanded (Nat.le_refl _)]
    simp only [List.mem_range'_1, and_imp]
  constructor
  · rintro ⟨hpieces, hasked, hcombined⟩
    obtain ⟨hscan, hshort⟩ := forall_describeHanded.mp hasked
    exact ⟨length_spilitStr_le.mp hpieces, hstr ▸ hshort, hdigits.mp hscan,
      forall_combinedHanded.mp hcombined⟩
  · rintro ⟨hpieces, hshort, hscan, hcombined⟩
    exact ⟨length_spilitStr_le.mpr hpieces,
      forall_describeHanded.mpr ⟨hdigits.mpr hscan, hstr ▸ hshort⟩,
      forall_combinedHanded.mpr hcombined⟩

/-- In a run over a range all scratch arrays are large enough exactly if all tokens are short
in every respect. -/
theorem Reference.scratchFits_run_iff (ref : Reference) (start : Nat × UInt8) :
    (∀ s ∈ ref.snapshots.path start, ∀ t s', ref.next s = some (t, s') →
        ref.ScratchFits s s' t) ↔
      ∀ s ∈ ref.snapshots.path start, ∀ t s', ref.next s = some (t, s') →
        ref.ScratchProper s s' t := by
  refine forall₂_congr fun s _ => forall₃_congr fun t s' hnext => ?_
  exact Reference.scratchFits_iff hnext

/-- The scratch arrays are large enough for all tokens of a text. -/
def ScratchFitsText (text : List UInt8) : Prop :=
  ∀ s ∈ (plainReference text).snapshots.path (0, 32), ∀ t s',
    (plainReference text).next s = some (t, s') → (plainReference text).ScratchFits s s' t

/-- The first token of a text that fits is short in every respect. -/
theorem ScratchFitsText.first {text : List UInt8} (h : ScratchFitsText text)
    {t : CrfNodeSnapshot} {s' : Nat × UInt8}
    (hnext : (plainReference text).next (0, 32) = some (t, s')) :
    (plainReference text).ScratchProper (0, 32) s' t :=
  (Reference.scratchFits_iff hnext).mp (h _ (Source.start_mem_path _ _) t s' hnext)

/-- A token of twenty letters with eleven pieces, a word of a hundred letters, and two words of
fifty letters each need more room than there is: for the pieces, for a name, and for two names
together. -/
theorem not_scratchFits :
    ¬ ScratchFitsText (List.replicate 10 (bytes "aB")).flatten ∧
      ¬ ScratchFitsText (List.replicate 100 'a'.toUInt8) ∧
      ¬ ScratchFitsText (List.replicate 50 'a'.toUInt8 ++ bytes " " ++
        List.replicate 50 'a'.toUInt8) := by
  refine ⟨fun hfits => ?_, fun hfits => ?_, fun hfits => ?_⟩
  · have hbreaks : ((plainReference (List.replicate 10 (bytes "aB")).flatten).next (0, 32)).map
        (fun r => pieceBreaks r.1.str) = some 10 := by decide +kernel
    obtain ⟨⟨t, s'⟩, hnext, (hten : pieceBreaks t.str = 10)⟩ :=
      Option.map_eq_some_iff.mp hbreaks
    have hfew := (hfits.first hnext).pieces
    omega
  · have hlength : ((plainReference (List.replicate 100 'a'.toUInt8)).next (0, 32)).map
        (fun r => r.1.str.length) = some 100 := by decide +kernel
    obtain ⟨⟨t, s'⟩, hnext, (hhundred : t.str.length = 100)⟩ :=
      Option.map_eq_some_iff.mp hlength
    have hshort := (hfits.first hnext).short
    omega
  · have hboth : ((plainReference (List.replicate 50 'a'.toUInt8 ++ bytes " " ++
        List.replicate 50 'a'.toUInt8)).next (0, 32)).map
        (fun r => (r.1.isCountryDict, (combinedStr r.1 (((plainReference
          (List.replicate 50 'a'.toUInt8 ++ bytes " " ++
            List.replicate 50 'a'.toUInt8)).next r.2).map (·.1))).length)) = some (0, 100) := by
      decide +kernel
    obtain ⟨⟨t, s'⟩, hnext, hhundred⟩ := Option.map_eq_some_iff.mp hboth
    simp only [Prod.mk.injEq] at hhundred
    obtain ⟨hcountry, hhundred⟩ := hhundred
    have hshort := (hfits.first hnext).combined (.inr (.inl hcountry))
    omega

end CiteParser
