import CiteParser.Features.Snapshot

/-!
# What the dictionaries are asked

The strings that describing a token hands to `hmDictGet`, told beside the description: the
token in lower case, the rests behind its piece starts while a flag is 0, and the digits
collected before each other character while none of them is a publisher. The description
depends on what the dictionaries say of these strings only, so none is left out.
-/

namespace CiteParser

/-- The strings that `isInDict` hands to `hmDictGet`, one for each table asked. -/
def handedIn : List Nat → Dict → List UInt8 → List (List UInt8)
  | [], _, _ => []
  | did :: tables, dict, str =>
      strCaseTransfer str ::
        if hmDictGet dict did (strCaseTransfer str) != 0 then [] else handedIn tables dict str

/-- The strings that a loop over the piece starts hands on while its flag is 0. -/
def retryHanded (test : Nat → Nat) (hand : Nat → List (List UInt8)) :
    List Nat → Nat → List (List UInt8)
  | [], _ => []
  | z :: zs, flag => if flag = 0 then hand z ++ retryHanded test hand zs (test z) else []

/-- What one field asks: `hand str` for the token, then for the rests behind piece starts. -/
def fieldHanded (test : List UInt8 → Nat) (hand : List UInt8 → List (List UInt8))
    (str : List UInt8) (flag : Nat) : List (List UInt8) :=
  hand str ++
    retryHanded (fun z => test (str.drop ((spilitStr str).getD z 0)))
      (fun z => hand (str.drop ((spilitStr str).getD z 0)))
      (List.range ((spilitStr str).length - 1)) flag

/-- What a pass of the scan asks about the digits collected so far. -/
def digitsHanded (dict : Dict) (c : UInt8) (s : ScanState) : List (List UInt8) :=
  if digitLike c then []
  else if 0 < s.partStr.length ∧ s.isPublisher = 0 then handedIn [7] dict s.partStr
  else []

/-- What the scan asks on its way over the offsets. -/
def scanHanded (dict : Dict) (content : Nat → UInt8) (cur : Nat) :
    List Nat → ScanState → List (List UInt8)
  | [], _ => []
  | i :: offsets, s =>
      digitsHanded dict (content i) s ++
        scanHanded dict content cur offsets (scanStep dict content cur s i)

/-- What describing the token `r` at `cur` asks, field by field. -/
def describeHanded (dict : Dict) (content : Nat → UInt8) (refAreaEnd cur : Nat)
    (r : SplitResult) : List (List UInt8) :=
  let str := r.str
  let scan := scanText dict content refAreaEnd cur r.ret
  scanHanded dict content cur (scanRange cur r.ret refAreaEnd) .init ++
  fieldHanded (isNameInDict dict) (handedIn [4, 2, 0] dict) str (isNameInDict dict str) ++
  fieldHanded (rateLastNameInDict dict) (fun name => [strCaseTransfer name]) str
    (rateLastNameInDict dict str) ++
  fieldHanded (isCountryInDict dict) (handedIn [1] dict) str (isCountryInDict dict str) ++
  handedIn [3] dict str ++
  fieldHanded (isPlaceNameInDict dict) (handedIn [6, 8] dict) str (isPlaceNameInDict dict str) ++
  fieldHanded (isPublisherInDict dict) (handedIn [7] dict) str
    (if isPublisherInDict dict str ≠ 0 ∨ scan.isPublisher ≠ 0 then 1 else 0)

/-! ## The length of the strings -/

section Length

variable {dict : Dict} {str : List UInt8} {n : Nat}

@[simp] theorem length_strCaseTransfer (str : List UInt8) :
    (strCaseTransfer str).length = str.length := by
  rw [strCaseTransfer, List.length_map]

/-- Whatever a string is looked up in, it is handed on in lower case. -/
theorem eq_of_mem_handedIn {tables : List Nat} {q : List UInt8} (h : q ∈ handedIn tables dict str) :
    q = strCaseTransfer str := by
  induction tables with
  | nil => exact absurd h List.not_mem_nil
  | cons did tables ih =>
      rcases List.mem_cons.mp h with rfl | h
      · rfl
      · split at h
        · exact absurd h List.not_mem_nil
        · exact ih h

/-- A lookup hands on strings as long as its own. -/
theorem forall_handedIn {tables : List Nat} (htables : tables ≠ []) :
    (∀ q ∈ handedIn tables dict str, q.length < n) ↔ str.length < n := by
  cases tables with
  | nil => contradiction
  | cons did tables =>
      constructor
      · intro hall
        rw [← length_strCaseTransfer]
        exact hall _ List.mem_cons_self
      · intro hlt q hq
        rwa [eq_of_mem_handedIn hq, length_strCaseTransfer]

/-- What a loop hands on comes from one of its piece starts. -/
theorem mem_retryHanded {test : Nat → Nat} {hand : Nat → List (List UInt8)} {zs : List Nat}
    {flag : Nat} {q : List UInt8} (h : q ∈ retryHanded test hand zs flag) : ∃ z, q ∈ hand z := by
  induction zs generalizing flag with
  | nil => exact absurd h List.not_mem_nil
  | cons z zs ih =>
      rw [retryHanded] at h
      split at h
      · rcases List.mem_append.mp h with h | h
        · exact ⟨z, h⟩
        · exact ih h
      · exact absurd h List.not_mem_nil

/-- The rests of a token are no longer than the token. -/
theorem forall_fieldHanded {test : List UInt8 → Nat} {hand : List UInt8 → List (List UInt8)}
    (hhand : ∀ name, (∀ q ∈ hand name, q.length < n) ↔ name.length < n) (flag : Nat) :
    (∀ q ∈ fieldHanded test hand str flag, q.length < n) ↔ str.length < n := by
  rw [fieldHanded, List.forall_mem_append, hhand]
  refine and_iff_left_of_imp fun hlt q hq => ?_
  obtain ⟨z, hz⟩ := mem_retryHanded hq
  refine (hhand _).mpr ?_ q hz
  rw [List.length_drop]
  omega

/-- What describing a token asks is short exactly when the token is, and the digits that its
scan asks about. -/
theorem forall_describeHanded {content : Nat → UInt8} {refAreaEnd cur : Nat} {r : SplitResult} :
    (∀ q ∈ describeHanded dict content refAreaEnd cur r, q.length < n) ↔
      (∀ q ∈ scanHanded dict content cur (scanRange cur r.ret refAreaEnd) .init, q.length < n) ∧
        r.str.length < n := by
  have hone : ∀ name : List UInt8,
      (∀ q ∈ [strCaseTransfer name], q.length < n) ↔ name.length < n := by
    intro name
    rw [List.forall_mem_singleton, length_strCaseTransfer]
  simp only [describeHanded, List.forall_mem_append, forall_fieldHanded hone,
    forall_fieldHanded fun _ => forall_handedIn (List.cons_ne_nil _ _),
    forall_handedIn (List.cons_ne_nil _ _), and_assoc, and_self]

end Length

/-! ## Dependence -/

/-- Two sets of dictionaries that say the same of the strings. -/
def AgreeOn (dict dict' : Dict) (names : List (List UInt8)) : Prop :=
  ∀ did, ∀ q ∈ names, hmDictGet dict did q = hmDictGet dict' did q

section Dependence

variable {dict dict' : Dict} {str : List UInt8}

theorem agreeOn_append {names names' : List (List UInt8)} :
    AgreeOn dict dict' (names ++ names') ↔
      AgreeOn dict dict' names ∧ AgreeOn dict dict' names' := by
  simp only [AgreeOn, List.forall_mem_append, forall_and]

/-- A lookup depends on what it asks. -/
theorem isInDict_congr {tables : List Nat} (h : AgreeOn dict dict' (handedIn tables dict str)) :
    isInDict tables dict str = isInDict tables dict' str := by
  induction tables with
  | nil => rfl
  | cons did tables ih =>
      have hhead := h did _ List.mem_cons_self
      rw [isInDict, isInDict, List.any_cons, List.any_cons, ← hhead]
      cases hhit : hmDictGet dict did (strCaseTransfer str) != 0 with
      | true => rfl
      | false =>
          rw [Bool.false_or, Bool.false_or]
          apply ih
          intro did' q hq
          apply h did' q (List.mem_cons_of_mem _ _)
          rwa [hhit]

theorem rateLastNameInDict_congr (h : AgreeOn dict dict' [strCaseTransfer str]) :
    rateLastNameInDict dict str = rateLastNameInDict dict' str := by
  have hrate := h 9 _ (List.mem_singleton.mpr rfl)
  rw [rateLastNameInDict, rateLastNameInDict, hrate]

/-- A loop over the piece starts depends on what it asks. -/
theorem retryStarts_congr {test test' : Nat → Nat} {hand : Nat → List (List UInt8)}
    (htest : ∀ z, AgreeOn dict dict' (hand z) → test z = test' z) {splen flag : Nat}
    (h : AgreeOn dict dict' (retryHanded test hand (List.range splen) flag)) :
    retryStarts splen test flag = retryStarts splen test' flag := by
  unfold retryStarts
  generalize List.range splen = zs at h ⊢
  induction zs generalizing flag with
  | nil => rfl
  | cons z zs ih =>
      rw [retryHanded] at h
      rw [List.foldl_cons, List.foldl_cons]
      by_cases hflag : flag = 0
      · rw [if_pos hflag, agreeOn_append] at h
        rw [if_pos hflag, if_pos hflag, ← htest z h.1]
        exact ih h.2
      · rw [if_neg hflag, if_neg hflag]
        apply ih
        cases zs <;> simp [retryHanded, hflag, AgreeOn]

/-- A field depends on what it asks. -/
theorem field_congr {test test' : List UInt8 → Nat} {hand : List UInt8 → List (List UInt8)}
    (htest : ∀ name, AgreeOn dict dict' (hand name) → test name = test' name) {flag : Nat}
    (h : AgreeOn dict dict' (fieldHanded test hand str flag)) :
    test str = test' str ∧
      retryStarts ((spilitStr str).length - 1)
          (fun z => test (str.drop ((spilitStr str).getD z 0))) flag =
        retryStarts ((spilitStr str).length - 1)
          (fun z => test' (str.drop ((spilitStr str).getD z 0))) flag := by
  rw [fieldHanded, agreeOn_append] at h
  exact ⟨htest str h.1, retryStarts_congr (fun z => htest _) h.2⟩

/-- The scan depends on what it asks. -/
theorem scan_congr {content : Nat → UInt8} {cur : Nat} {offsets : List Nat} {s : ScanState}
    (h : AgreeOn dict dict' (scanHanded dict content cur offsets s)) :
    offsets.foldl (scanStep dict content cur) s = offsets.foldl (scanStep dict' content cur) s := by
  induction offsets generalizing s with
  | nil => rfl
  | cons i offsets ih =>
      rw [scanHanded, agreeOn_append] at h
      have hdigits : scanDigits dict (content i) s = scanDigits dict' (content i) s := by
        have hasked := h.1
        unfold digitsHanded at hasked
        unfold scanDigits
        split
        · rfl
        · rename_i hdigit
          rw [if_neg hdigit] at hasked
          split
          · rename_i hpart
            by_cases hfound : s.isPublisher = 0
            · rw [if_pos ⟨hpart, hfound⟩] at hasked
              have hsame : isPublisherInDict dict s.partStr = isPublisherInDict dict' s.partStr :=
                isInDict_congr hasked
              rw [hsame]
            · rw [if_pos hfound, if_pos hfound]
          · rfl
      have hstep : scanStep dict content cur s i = scanStep dict' content cur s i := by
        rw [scanStep, scanStep, hdigits]
      rw [List.foldl_cons, List.foldl_cons, ← hstep]
      exact ih h.2

/-- A token's description depends on what is asked in the course of it. -/
theorem describe_congr {content : Nat → UInt8} {refAreaEnd : Nat}
    {tokenId : Nat → Option Nat → Nat} {cur : Nat} {mpredeli : UInt8} {r : SplitResult}
    (h : AgreeOn dict dict' (describeHanded dict content refAreaEnd cur r)) :
    describe dict content refAreaEnd tokenId cur mpredeli r =
      describe dict' content refAreaEnd tokenId cur mpredeli r := by
  simp only [describeHanded, agreeOn_append] at h
  obtain ⟨⟨⟨⟨⟨⟨hscan, hname⟩, hlast⟩, hcountry⟩, hfun⟩, hplace⟩, hpublisher⟩ := h
  have hscan : scanText dict content refAreaEnd cur r.ret =
      scanText dict' content refAreaEnd cur r.ret := scan_congr hscan
  have hfun : isFunWordInDict dict r.str = isFunWordInDict dict' r.str := isInDict_congr hfun
  obtain ⟨hname, hnames⟩ := @field_congr _ _ _ (isNameInDict dict) (isNameInDict dict') _
    (fun _ => isInDict_congr) _ hname
  obtain ⟨hlast, hlasts⟩ := field_congr (fun _ => rateLastNameInDict_congr) hlast
  obtain ⟨hcountry, hcountries⟩ := @field_congr _ _ _ (isCountryInDict dict)
    (isCountryInDict dict') _ (fun _ => isInDict_congr) _ hcountry
  obtain ⟨hplace, hplaces⟩ := @field_congr _ _ _ (isPlaceNameInDict dict)
    (isPlaceNameInDict dict') _ (fun _ => isInDict_congr) _ hplace
  obtain ⟨hpublisher, hpublishers⟩ := @field_congr _ _ _ (isPublisherInDict dict)
    (isPublisherInDict dict') _ (fun _ => isInDict_congr) _ hpublisher
  rw [describe, describe]
  dsimp only
  rw [hnames, hlasts, hcountries, hplaces, hpublishers, hscan, hname, hlast, hcountry, hfun, hplace,
    hpublisher]

end Dependence

/-! ## The digits asked about -/

/-- The digits collected before an offset. -/
def digitsBefore (content : Nat → UInt8) (cur p : Nat) : List UInt8 :=
  (segment content cur p).filter digitLike

/-- At the offset the scan asks about the digits collected before it: they are some, the
character there is none, and no digits asked about before are a publisher. -/
structure DigitsAsked (dict : Dict) (content : Nat → UInt8) (cur p : Nat) : Prop where
  other : digitLike (content p) = false
  some : digitsBefore content cur p ≠ []
  unknown : ∀ m, cur ≤ m → m < p → digitLike (content m) = false →
    digitsBefore content cur m ≠ [] →
      isPublisherInDict dict (digitsBefore content cur m) = 0

section Digits

variable {dict : Dict} {content : Nat → UInt8} {cur : Nat}

/-- Before an offset the scan has collected the digits, and knows of a publisher if it has
asked about one. -/
structure DigitsInv (dict : Dict) (content : Nat → UInt8) (cur p : Nat) (s : ScanState) :
    Prop where
  part : s.partStr = digitsBefore content cur p
  unknown : s.isPublisher = 0 ↔ ∀ m, cur ≤ m → m < p → digitLike (content m) = false →
    digitsBefore content cur m ≠ [] → isPublisherInDict dict (digitsBefore content cur m) = 0

/-- What a pass of the scan does about digits. -/
theorem scanStep_digits (s : ScanState) (p : Nat) :
    (scanStep dict content cur s p).partStr = (scanDigits dict (content p) s).partStr ∧
      (scanStep dict content cur s p).isPublisher =
        (scanDigits dict (content p) s).isPublisher := by
  have habbr : ∀ first before c (s : ScanState),
      (scanAbbr first before c s).partStr = s.partStr ∧
        (scanAbbr first before c s).isPublisher = s.isPublisher := by
    intro first before c s
    unfold scanAbbr
    dsimp only
    split_ifs <;> exact ⟨rfl, rfl⟩
  simp only [scanStep, habbr, (scanSwitch_sameWords _ _ _).partStr,
    (scanSwitch_sameWords _ _ _).isPublisher, and_self]

/-- A pass of the scan keeps its digits in order. -/
theorem DigitsInv.step {p : Nat} {s : ScanState} (h : DigitsInv dict content cur p s)
    (hp : cur ≤ p) : DigitsInv dict content cur (p + 1) (scanStep dict content cur s p) := by
  obtain ⟨hpart, hpublisher⟩ := @scanStep_digits dict content cur s p
  have hseg : digitsBefore content cur (p + 1) =
      digitsBefore content cur p ++ [content p].filter digitLike := by
    rw [digitsBefore, segment_succ content hp, List.filter_append]
    rfl
  have hsplit : (∀ m, cur ≤ m → m < p + 1 → digitLike (content m) = false →
        digitsBefore content cur m ≠ [] →
          isPublisherInDict dict (digitsBefore content cur m) = 0) ↔
      s.isPublisher = 0 ∧ (digitLike (content p) = false → digitsBefore content cur p ≠ [] →
        isPublisherInDict dict (digitsBefore content cur p) = 0) := by
    rw [h.unknown]
    constructor
    · intro hall
      exact ⟨fun m hm hmp => hall m hm (by omega), hall p hp (Nat.lt_succ_self p)⟩
    · rintro ⟨hbefore, hhere⟩ m hm hmp
      rcases Nat.lt_succ_iff_lt_or_eq.mp hmp with hlt | rfl
      · exact hbefore m hm hlt
      · exact hhere
  have hpos : 0 < s.partStr.length ↔ digitsBefore content cur p ≠ [] := by
    rw [h.part, List.length_pos_iff]
  constructor
  · rw [hpart, hseg, scanDigits]
    split
    · rename_i hdigit
      simp [h.part, hdigit]
    · rename_i hdigit
      rw [List.filter_cons_of_neg hdigit, List.filter_nil, List.append_nil]
      split <;> exact h.part
  · rw [hpublisher, hsplit, scanDigits]
    split
    · rename_i hdigit
      simp [hdigit]
    · rename_i hdigit
      rw [Bool.not_eq_true] at hdigit
      by_cases hsome : digitsBefore content cur p ≠ []
      · rw [if_pos (hpos.mpr hsome), h.part]
        by_cases hfound : s.isPublisher = 0 <;> simp [hfound, hdigit, hsome]
      · rw [if_neg (fun hlt => hsome (hpos.mp hlt))]
        simp [hsome]

/-- A pass of the scan asks exactly where the digits before it are asked about. -/
theorem DigitsInv.asked {p : Nat} {s : ScanState} (h : DigitsInv dict content cur p s) :
    digitsHanded dict (content p) s =
        handedIn [7] dict (digitsBefore content cur p) ∧ DigitsAsked dict content cur p ∨
      digitsHanded dict (content p) s = [] ∧ ¬ DigitsAsked dict content cur p := by
  unfold digitsHanded
  by_cases hdigit : digitLike (content p) = true
  · refine .inr ⟨if_pos hdigit, fun hasked => ?_⟩
    rw [hasked.other] at hdigit
    contradiction
  · rw [if_neg hdigit, h.part]
    rw [Bool.not_eq_true] at hdigit
    by_cases hask : 0 < (digitsBefore content cur p).length ∧ s.isPublisher = 0
    · exact .inl ⟨if_pos hask, hdigit, List.length_pos_iff.mp hask.1, h.unknown.mp hask.2⟩
    · refine .inr ⟨if_neg hask, fun hasked => hask ?_⟩
      exact ⟨List.length_pos_iff.mpr hasked.some, h.unknown.mpr hasked.unknown⟩

/-- The digits asked about are those collected before a character that is none. -/
theorem DigitsInv.forall_scanHanded {n p k : Nat} {s : ScanState}
    (h : DigitsInv dict content cur p s) (hp : cur ≤ p) :
    (∀ q ∈ scanHanded dict content cur (List.range' p k) s, q.length < n) ↔
      ∀ m, p ≤ m → m < p + k → DigitsAsked dict content cur m →
        (digitsBefore content cur m).length < n := by
  induction k generalizing p s with
  | zero =>
      refine iff_of_true (fun q hq => absurd hq List.not_mem_nil) fun m hm hmp => ?_
      omega
  | succ k ih =>
      have hhere : (∀ q ∈ digitsHanded dict (content p) s, q.length < n) ↔
          (DigitsAsked dict content cur p → (digitsBefore content cur p).length < n) := by
        rcases h.asked with ⟨hhanded, hasked⟩ | ⟨hhanded, hasked⟩
        · rw [hhanded, forall_handedIn (List.cons_ne_nil _ _)]
          exact (imp_iff_right hasked).symm
        · rw [hhanded]
          exact iff_of_true (fun q hq => absurd hq List.not_mem_nil) fun h => absurd h hasked
      rw [List.range'_succ, scanHanded, List.forall_mem_append, hhere,
        ih (h.step hp) (by omega)]
      constructor
      · rintro ⟨hfirst, hrest⟩ m hm hmp
        rcases Nat.eq_or_lt_of_le hm with rfl | hlt
        · exact hfirst
        · exact hrest m hlt (by omega)
      · intro hall
        exact ⟨hall p (Nat.le_refl p) (by omega), fun m hm hmp => hall m (by omega) (by omega)⟩

/-- At its start the scan has collected nothing. -/
theorem digitsInv_init (dict : Dict) (content : Nat → UInt8) (cur : Nat) :
    DigitsInv dict content cur cur .init where
  part := by
    rw [digitsBefore, segment_self]
    rfl
  unknown := iff_of_true rfl fun m hm hmp => by omega

end Digits

end CiteParser
