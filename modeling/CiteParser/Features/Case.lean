import CiteParser.Features.Words

/-!
# Upper and lower case

`strfeature` is to tell five classes of strings apart. Its loop looks at the first character
in every pass, so what it returns depends on that character and the length alone.
-/

namespace CiteParser

/-- A word whose first letter only is upper case. -/
def capitalised : List UInt8 → Bool
  | [] => false
  | c :: rest => isUppercaseCode c && rest.all isLowercaseCode

/-- The class that the comment above `strfeature` names for a string, if it names one. -/
def documentedClass (str : List UInt8) : Option Nat :=
  if str.all isUppercaseCode then some 0
  else if str.all isLowercaseCode then some 1
  else if capitalised str then some 2
  else if str.all isDigitCode then some 4
  else if str.any isUppercaseCode && str.any isLowercaseCode then some 3
  else none

/-- No letter is both upper and lower case. -/
theorem not_isLowercaseCode_of_isUppercaseCode :
    ∀ a : UInt8, isUppercaseCode a = true → isLowercaseCode a = false := by decide +kernel

section Loop

variable {str : List UInt8}

/-- Behind an upper-case letter every pass counts one more. -/
theorem strfeature_loop_upper (h : isUppercaseCode (charAt str 0) = true) (n : Nat) :
    (List.range n).foldl (fun s _ => strfeatureStep str s) ⟨1, 0, true⟩ =
      ⟨n + 1, 0, n == 0⟩ := by
  have hlower := not_isLowercaseCode_of_isUppercaseCode _ h
  induction n with
  | zero => rfl
  | succ n ih =>
      rw [List.range_succ, List.foldl_append, ih]
      simp [strfeatureStep, h, hlower]

/-- Behind any other character no pass counts an upper-case letter. -/
theorem strfeature_loop_other (h : isUppercaseCode (charAt str 0) = false) (n : Nat) :
    ∃ lc, 0 < lc ∧ (List.range n).foldl (fun s _ => strfeatureStep str s) ⟨0, 1, false⟩ =
      ⟨0, lc, false⟩ := by
  induction n with
  | zero => exact ⟨1, Nat.zero_lt_one, rfl⟩
  | succ n ih =>
      obtain ⟨lc, hpos, hloop⟩ := ih
      rw [List.range_succ, List.foldl_append, hloop]
      cases hlower : isLowercaseCode (charAt str 0) with
      | true => exact ⟨lc + 1, Nat.succ_pos lc, by simp [strfeatureStep, h, hlower]⟩
      | false => exact ⟨lc, hpos, by simp [strfeatureStep, h, hlower]⟩

end Loop

/-- What `strfeature` returns for two characters and more. -/
theorem strfeature_eq {str : List UInt8} {len : Nat} (hlen : 2 ≤ len) :
    strfeature str len = if isUppercaseCode (charAt str 0) then 0 else 1 := by
  cases hupper : isUppercaseCode (charAt str 0) with
  | true =>
      have hloop := strfeature_loop_upper hupper (len - 1)
      have hmore : ¬ len - 1 = 0 := by omega
      simp [strfeature, hupper, hloop, hmore]
  | false =>
      obtain ⟨lc, hpos, hloop⟩ := strfeature_loop_other hupper (len - 1)
      simp [strfeature, hupper, hloop, hpos]

/-- The two classes that depend on the first letter as `strfeature` does. -/
theorem isUppercaseCode_of_documentedClass {c : UInt8} {rest : List UInt8} {k : Nat}
    (h : documentedClass (c :: rest) = some k) (hk : k = 0 ∨ k = 1) :
    isUppercaseCode c = decide (k = 0) := by
  unfold documentedClass at h
  split_ifs at h with hupper hlower
  · obtain rfl := Option.some.inj h
    exact List.all_eq_true.mp hupper c List.mem_cons_self
  · obtain rfl := Option.some.inj h
    have hc := List.all_eq_true.mp hlower c List.mem_cons_self
    by_contra hne
    have hup : isUppercaseCode c = true := by simpa using hne
    rw [not_isLowercaseCode_of_isUppercaseCode c hup] at hc
    contradiction
  all_goals
    have hval := Option.some.inj h
    omega

/-- A capitalised word of two letters and more is in the class of its own. -/
theorem documentedClass_capitalised {str : List UInt8} (hlen : 2 ≤ str.length)
    (h : capitalised str = true) : documentedClass str = some 2 := by
  match str with
  | a :: b :: rest =>
      have hall := h
      simp only [capitalised, List.all_cons, Bool.and_eq_true] at hall
      obtain ⟨ha, hb, -⟩ := hall
      have hb' : isUppercaseCode b = false := by
        by_contra hne
        have hup : isUppercaseCode b = true := by simpa using hne
        rw [not_isLowercaseCode_of_isUppercaseCode b hup] at hb
        contradiction
      have ha' := not_isLowercaseCode_of_isUppercaseCode a ha
      simp [documentedClass, ha', hb', h]

/-- The classes of longer strings come out right, and capitalised words pass for names,
exactly where the documented class is upper case, lower case or none. -/
theorem strfeature_documented_iff {str : List UInt8} (hlen : 2 ≤ str.length) :
    ((∀ k, documentedClass str = some k → strfeature str str.length = k) ∧
      (capitalised str = true → ∀ next,
        namelike str str.length next (strfeature str str.length) ≠ 0)) ↔
    ∀ k, documentedClass str = some k → k = 0 ∨ k = 1 := by
  rw [strfeature_eq hlen]
  constructor
  · rintro ⟨hclass, -⟩ k hk
    have hvalue := hclass k hk
    split at hvalue
    · exact .inl hvalue.symm
    · exact .inr hvalue.symm
  · intro hclass
    refine ⟨fun k hk => ?_, fun hcap => ?_⟩
    · cases str with
      | nil => contradiction
      | cons c rest =>
          have hhead : charAt (c :: rest) 0 = c := rfl
          rw [hhead, isUppercaseCode_of_documentedClass hk (hclass k hk)]
          rcases hclass k hk with rfl | rfl <;> rfl
    · have htwo := hclass 2 (documentedClass_capitalised hlen hcap)
      omega

/-- Words in upper case are told from words in lower case. -/
theorem strfeature_documented_IEEE :
    (∀ k, documentedClass (bytes "IEEE") = some k →
      strfeature (bytes "IEEE") (bytes "IEEE").length = k) ∧
    (capitalised (bytes "IEEE") = true → ∀ next,
      namelike (bytes "IEEE") (bytes "IEEE").length next
        (strfeature (bytes "IEEE") (bytes "IEEE").length) ≠ 0) := by
  refine (strfeature_documented_iff (by decide)).mpr fun k hk => ?_
  have hclass : documentedClass (bytes "IEEE") = some 0 := by decide +kernel
  rw [hclass] at hk
  exact .inl (Option.some.inj hk).symm

/-- "Smith" counts as a word in upper case and not as a name. -/
theorem strfeature_smith :
    ¬ ∀ str : List UInt8, 2 ≤ str.length →
      (∀ k, documentedClass str = some k → strfeature str str.length = k) ∧
      (capitalised str = true → ∀ next,
        namelike str str.length next (strfeature str str.length) ≠ 0) := by
  intro h
  exact absurd ((h (bytes "Smith") (by decide)).1 2 (by decide +kernel)) (by decide +kernel)

end CiteParser
