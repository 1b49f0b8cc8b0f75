import CiteParser.Service.NameQuoting

/-!
# A session with the name service

`ngcli.cc` sends each of its arguments on a line and an empty line behind them, which `ng.cc` makes
into the words of a command. An argument without bytes ends the request early, or not at all where
the last one is empty, depending on how the request is cut; one with a line break in it becomes
several.
-/

namespace CiteParser

open Shell

/-- `request_buff` of `cnchk_read`. -/
def nameRequest (names : List (List UInt8)) : List UInt8 :=
  names.flatMap (· ++ [newline]) ++ [newline]

/-- A name that a line can be made of. -/
def Sendable (name : List UInt8) : Prop := name ≠ [] ∧ ∀ c ∈ name, isClient c = true

section Request

variable {name s t : List UInt8} {names : List (List UInt8)} {pieces : List Piece}

/-- Neither a zero nor a line break. -/
theorem isNameByte_eq_isClient (c : UInt8) : isNameByte c = isClient c := by
  rw [isNameByte, isClient, isBreak, Bool.not_or, Bool.and_comm (!(c == carriageReturn)),
    ← Bool.and_assoc]
  rfl

theorem Sendable.isNameByte (h : Sendable name) : ∀ c ∈ name, isNameByte c = true :=
  fun c hc => (isNameByte_eq_isClient c).trans (h.2 c hc)

theorem nameRequest_cons (name : List UInt8) (names : List (List UInt8)) :
    nameRequest (name :: names) = name ++ newline :: nameRequest names := by
  simp [nameRequest]

/-- Once two line breaks have come in succession, what follows makes no difference. -/
theorem breaksAgain_append {before : Bool} (h : breaksAgain before s = true) (t : List UInt8) :
    breaksAgain before (s ++ t) = true := by
  induction s generalizing before with
  | nil => cases h
  | cons c s ih =>
      rw [List.cons_append]
      rw [breaksAgain] at h ⊢
      split at h
      next hzero => rw [if_pos hzero, ih h]
      next hzero =>
          rw [if_neg hzero]
          split at h
          next hbreak =>
              rw [if_pos hbreak]
              rcases Bool.or_eq_true_iff.mp h with hbefore | hrest
              · rw [hbefore, Bool.true_or]
              · rw [ih hrest, Bool.or_true]
          next hbreak => rw [if_neg hbreak, ih h]

/-- Behind a byte of a name the count of line breaks begins again. -/
theorem breaksAgain_clean (hclean : ∀ c ∈ name, isNameByte c = true) (s : List UInt8) :
    breaksAgain false (name ++ s) = breaksAgain false s := by
  induction name with
  | nil => rfl
  | cons c name ih =>
      have hc := hclean c List.mem_cons_self
      simp only [isNameByte, Bool.and_eq_true, bne_iff_ne, Bool.not_eq_true'] at hc
      rw [List.cons_append, breaksAgain, if_neg hc.1, if_neg (by simp [hc.2])]
      exact ih fun d hd => hclean d (List.mem_cons_of_mem c hd)

theorem breaksAgain_line (h : Sendable name) (before : Bool) (s : List UInt8) :
    breaksAgain before (name ++ newline :: s) = breaksAgain true s := by
  have hclean := h.isNameByte
  cases name with
  | nil => exact absurd rfl h.1
  | cons c name =>
      have hc := hclean c List.mem_cons_self
      simp only [isNameByte, Bool.and_eq_true, bne_iff_ne, Bool.not_eq_true'] at hc
      rw [List.cons_append, breaksAgain, if_neg hc.1, if_neg (by simp [hc.2]),
        breaksAgain_clean fun d hd => hclean d (List.mem_cons_of_mem c hd), breaksAgain,
        if_neg (by decide), if_pos (by decide), Bool.false_or]

/-- Before the empty line there are no two line breaks in succession. -/
theorem breaksAgain_lines (h : ∀ name ∈ names, Sendable name) (before : Bool) :
    breaksAgain before (names.flatMap (· ++ [newline])) = false := by
  induction names generalizing before with
  | nil => rfl
  | cons name names ih =>
      rw [List.flatMap_cons, List.append_assoc, List.singleton_append,
        breaksAgain_line (h name List.mem_cons_self)]
      exact ih (fun other hother => h other (List.mem_cons_of_mem _ hother)) true

/-- All is gone through if two line breaks in succession come at the very end or nowhere. -/
theorem gone_eq_append_stream {before : List UInt8}
    (h : ∀ a b, before ++ stream pieces = a ++ b → b ≠ [] → breaksAgain false a = false) :
    gone before pieces = before ++ stream pieces := by
  induction pieces generalizing before with
  | nil => exact (List.append_nil before).symm
  | cons piece rest ih =>
      rw [append_stream_cons] at h ⊢
      rw [gone]
      split
      next hbreaks =>
          have hrest : stream rest = [] := by
            by_contra hne
            rw [h _ _ rfl hne] at hbreaks
            contradiction
          rw [hrest, List.append_nil]
      · exact ih h

/-- The whole request is gone through, however it is cut. -/
theorem gone_nameRequest (h : ∀ name ∈ names, Sendable name)
    (hstream : stream pieces = nameRequest names) : gone [] pieces = nameRequest names := by
  rw [gone_eq_append_stream, List.nil_append, hstream]
  intro a b hcut hne
  rw [List.nil_append, hstream, nameRequest] at hcut
  obtain ⟨b, last, rfl⟩ := (List.eq_nil_or_concat b).resolve_left hne
  rw [List.concat_eq_append, ← List.append_assoc] at hcut
  obtain ⟨hlines, -⟩ := List.append_inj' hcut rfl
  by_contra hbreaks
  have hagain := breaksAgain_append (Bool.not_eq_false _ ▸ hbreaks) b
  rw [← hlines, breaksAgain_lines h] at hagain
  contradiction

theorem namesOf_nameRequest (h : ∀ name ∈ names, Sendable name) :
    namesOf (nameRequest names) = names := by
  induction names with
  | nil => decide +kernel
  | cons name names ih =>
      obtain ⟨hname, hnames⟩ := List.forall_mem_cons.mp h
      rw [nameRequest_cons, namesOf_break (by decide), namesOf_clean hname.isNameByte,
        if_neg hname.1, ih hnames, List.singleton_append]

/-- The names arrive exactly if each of them makes a line. -/
theorem nameVect_nameRequest (hstream : stream pieces = nameRequest names) :
    nameVect pieces = names.map escapeName ↔ ∀ name ∈ names, Sendable name := by
  rw [nameVect_eq, List.map_inj_right fun _ _ h => escapeName_injective h]
  constructor
  · intro h name hname
    rw [← h] at hname
    refine ⟨?_, fun c hc => ?_⟩
    · rw [namesOf, List.mem_filter] at hname
      exact of_decide_eq_true hname.2
    · rw [← isNameByte_eq_isClient]
      exact isNameByte_of_mem_namesOf hname hc
  · intro h
    rw [gone_nameRequest h hstream, namesOf_nameRequest h]

end Request

/-! ## The command -/

/-- The words of the command are those of its base and then those of the names. -/
theorem words_ngCommand {path : List UInt8} {base names : List (List UInt8)}
    (hbase : words none (queryBase path) = some base)
    (hclient : ∀ name ∈ names, ∀ c ∈ name, isClient c = true) :
    words none (ngCommand path (names.map escapeName)) =
      (words none ((names.map escapeName).flatMap quoted)).map (base ++ ·) := by
  have hend : queryBase path =
      (bytes "java -jar " ++ cstr path ++ bytes "/" ++ bytes "ng.ja") ++ [114, 32] := by
    rw [queryBase, List.append_assoc _ (bytes "ng.ja")]
    rfl
  rw [hend] at hbase
  rw [ngCommand_eq hclient, ngQuery, hend, List.append_assoc, List.cons_append,
    List.singleton_append, words_append (by decide +kernel) hbase]

end CiteParser
