import CiteParser.Core.Ledger
import Mathlib.Data.List.Induction
import Mathlib.Data.List.Infix

/-!
# The buffers of the content store

`virtualcontent.c` once more, this time for its pointers. In two of its three modes
`content` and `pcontent` are one buffer, and the mode is spread over `contentType` and
`noparse`. What the parsing loop writes and returns does not touch the pointers, so a
file matters here only for whether it can be read.
-/

namespace CiteParser

/-- The static variables that decide which buffers are released. -/
structure Buffers where
  content : Option Nat
  pcontent : Option Nat
  offset : Option Nat
  tags : Option Nat
  contentType : Nat
  noparse : Bool
  heap : Ledger

namespace Buffers

/-- The variables before the program has done anything. -/
def static : Buffers := ⟨none, none, none, none, 0, false, ⟨0, []⟩⟩

def getPcontent (s : Buffers) : Option Nat := if s.contentType = 0 then none else s.pcontent

def initContent (s : Buffers) : Buffers :=
  { s with
    content := none, pcontent := none, offset := none, tags := none
    noparse := false, contentType := 0 }

def setNoParse (s : Buffers) (np : Bool) : Buffers := { s with noparse := np }

/-- How `setFileContent` and `parseFile` begin. -/
def releaseText (s : Buffers) : Buffers :=
  if s.contentType = 1 then
    { s with heap := s.heap.free s.pcontent, pcontent := none, content := none }
  else s

def setFileContent (s : Buffers) : Buffers :=
  let s := s.releaseText
  let b := s.heap.next
  { s with heap := s.heap.calloc, pcontent := some b, content := some b, contentType := 1 }

/-- `readFileToParse`, `none` where the file cannot be opened. -/
def readFileToParse (s : Buffers) (file : Option (List UInt8)) : Option Buffers :=
  file.map fun _ =>
    let b := s.heap.next
    let s := { s with content := some b, heap := s.heap.calloc }
    if !s.noparse then
      { s with
        pcontent := some (b + 1), offset := some (b + 2), tags := some (b + 3)
        heap := s.heap.calloc.calloc.calloc }
    else { s with pcontent := some b }

def parseFile (s : Buffers) (file : Option (List UInt8)) : Buffers :=
  let s := s.releaseText
  match s.readFileToParse file with
  | none => s
  | some s => { s with contentType := 2 }

def cleanContent (s : Buffers) : Buffers :=
  let s := { s with heap := s.heap.free s.content, content := none, noparse := false }
  let s :=
    if s.contentType = 2 ∧ s.noparse = false then
      { s with
        heap := ((s.heap.free s.pcontent).free s.offset).free s.tags
        pcontent := none, offset := none, tags := none }
    else s
  { s with contentType := 0 }

/-- The calls that the users of the store make. -/
inductive Op where
  | initContent
  | setNoParse (np : Bool)
  | setFileContent (str : List UInt8)
  | parseFile (file : Option (List UInt8))
  | cleanContent

def step (s : Buffers) : Op → Buffers
  | .initContent => s.initContent
  | .setNoParse np => s.setNoParse np
  | .setFileContent _ => s.setFileContent
  | .parseFile file => s.parseFile file
  | .cleanContent => s.cleanContent

/-- The variables after `initContent` and the calls that follow it. -/
def after (ops : List Op) : Buffers := ops.foldl step static.initContent

/-- Nothing has been released twice, and what `getPcontent` returns has not been released. -/
def Safe (s : Buffers) : Prop :=
  s.heap.released.Nodup ∧ ∀ b, s.getPcontent = some b → b ∉ s.heap.released

/-! ## What the calls mean -/

/-- What the store holds: nothing, a string it was given, a file without its tags, or a file
as it is. -/
inductive Mode where
  | empty
  | text
  | parsed
  | raw
  deriving DecidableEq

/-- The mode, and whether the next file is to be left as it is. -/
structure Usage where
  mode : Mode
  noparse : Bool

def Usage.step (u : Usage) : Op → Usage
  | .initContent => ⟨.empty, false⟩
  | .setNoParse np => { u with noparse := np }
  | .setFileContent _ => { u with mode := .text }
  | .parseFile none => u
  | .parseFile (some _) => { u with mode := if u.noparse then .raw else .parsed }
  | .cleanContent => ⟨.empty, false⟩

/-- What the store holds after `initContent` and the calls that follow it. -/
def usage (ops : List Op) : Usage := ops.foldl Usage.step ⟨.empty, false⟩

/-- `cleanContent` is never called on a file that was left as it is. -/
def Careful (ops : List Op) : Prop :=
  ∀ pre, pre ++ [.cleanContent] <+: ops → (usage pre).mode ≠ .raw

/-- The content type of a mode. -/
def Mode.contentType : Mode → Nat
  | .empty => 0
  | .text => 1
  | .parsed => 2
  | .raw => 2

/-- Only an empty store has the content type 0. -/
theorem Mode.contentType_eq_zero {m : Mode} : m.contentType = 0 ↔ m = .empty := by
  cases m <;> decide

/-- Only a string that was given has the content type 1. -/
theorem Mode.contentType_eq_one {m : Mode} : m.contentType = 1 ↔ m = .text := by
  cases m <;> decide

/-- The buffers of the texts that a mode may still release. -/
def texts (s : Buffers) : Mode → List Nat
  | .empty => []
  | .text => s.pcontent.toList
  | .parsed => s.content.toList ++ s.pcontent.toList
  | .raw => s.pcontent.toList

/-- What the pointers to the texts have to do with each other. -/
def Aliased (s : Buffers) : Mode → Prop
  | .empty => s.content = none
  | .text => s.content = s.pcontent
  | .parsed => True
  | .raw => ∃ b, s.content = some b ∧ s.pcontent = some b

/-- The state is one of the given mode, and each of its buffers can be released. -/
structure Tracks (u : Usage) (s : Buffers) : Prop where
  noparse : s.noparse = u.noparse
  contentType : s.contentType = u.mode.contentType
  aliased : s.Aliased u.mode
  owns : s.heap.Owns (s.texts u.mode ++ (s.offset.toList ++ s.tags.toList))

section Steps

variable {u : Usage} {s : Buffers}

/-- `initContent` forgets every buffer. -/
theorem Tracks.initContent (h : Tracks u s) : Tracks ⟨.empty, false⟩ s.initContent :=
  ⟨rfl, rfl, rfl, h.owns.mono List.nil_subperm⟩

/-- Releasing a text that was given leaves its mode without a text. -/
theorem Tracks.releaseText (h : Tracks u s) : Tracks u s.releaseText := by
  unfold Buffers.releaseText
  split
  · rename_i htype
    have hmode : u.mode = .text := Mode.contentType_eq_one.mp (h.contentType.symm.trans htype)
    have howns := h.owns
    rw [hmode] at howns
    refine ⟨h.noparse, h.contentType, ?_, ?_⟩
    · rw [hmode]
      exact (rfl : none = none)
    · rw [hmode]
      exact howns.free s.pcontent
  · exact h

/-- A string takes the place of whatever was there. -/
theorem Tracks.setFileContent (h : Tracks u s) :
    Tracks { u with mode := .text } s.setFileContent := by
  have hrel := h.releaseText
  refine ⟨hrel.noparse, rfl, rfl, ?_⟩
  exact (hrel.owns.mono (List.sublist_append_right _ _).subperm).calloc

/-- A file takes the place of whatever was there, if it can be read. -/
theorem Tracks.parseFile (h : Tracks u s) (file : Option (List UInt8)) :
    Tracks (u.step (.parseFile file)) (s.parseFile file) := by
  have hrel := h.releaseText
  unfold Buffers.parseFile readFileToParse
  cases file with
  | none => exact hrel
  | some text =>
      rw [Usage.step]
      cases hraw : u.noparse with
      | true =>
          have hraw : s.releaseText.noparse = true := hrel.noparse.trans hraw
          simp only [Option.map_some, hraw, Bool.not_true, Bool.false_eq_true, if_false, if_true]
          refine ⟨rfl, rfl, ⟨_, rfl, rfl⟩, ?_⟩
          exact (hrel.owns.mono (List.sublist_append_right _ _).subperm).calloc
      | false =>
          have hraw : s.releaseText.noparse = false := hrel.noparse.trans hraw
          simp only [Option.map_some, hraw, Bool.not_false, if_true]
          refine ⟨rfl, rfl, trivial, ?_⟩
          have hnew := (hrel.owns.mono List.nil_subperm).calloc.calloc.calloc.calloc
          exact hnew.mono (List.reverse_perm _).symm.subperm

/-- Cleaning releases what is held, unless that is a file left as it is. -/
theorem Tracks.cleanContent (h : Tracks u s) (hraw : u.mode ≠ .raw) :
    Tracks ⟨.empty, false⟩ s.cleanContent := by
  have htype := h.contentType
  have haliased := h.aliased
  have howns := h.owns
  unfold Buffers.cleanContent
  cases hmode : u.mode with
  | empty =>
      rw [hmode] at htype haliased howns
      have hcontent : s.content = none := haliased
      simp only [htype, hcontent, Mode.contentType]
      exact ⟨rfl, rfl, rfl, howns⟩
  | text =>
      rw [hmode] at htype haliased howns
      have hcontent : s.content = s.pcontent := haliased
      simp only [htype, Mode.contentType]
      rw [hcontent]
      exact ⟨rfl, rfl, rfl, howns.free s.pcontent⟩
  | parsed =>
      rw [hmode] at htype howns
      simp only [htype, Mode.contentType, and_self, if_true]
      have hall : s.heap.Owns (s.content.toList ++ (s.pcontent.toList ++
          (s.offset.toList ++ (s.tags.toList ++ [])))) := by
        rw [List.append_nil, ← List.append_assoc]
        exact howns
      exact ⟨rfl, rfl, rfl, (((hall.free _).free _).free _).free _⟩
  | raw => exact absurd hmode hraw

/-- Cleaning a file left as it is releases its buffer twice. -/
theorem Tracks.not_safe_cleanContent (h : Tracks u s) (hraw : u.mode = .raw) :
    ¬ s.cleanContent.Safe := by
  have htype := h.contentType
  have haliased := h.aliased
  rw [hraw] at htype haliased
  obtain ⟨b, hcontent, hpcontent⟩ := haliased
  rintro ⟨hnodup, -⟩
  unfold Buffers.cleanContent at hnodup
  simp only [htype, Mode.contentType, and_self, if_true, hcontent, hpcontent, Ledger.free,
    Option.toList_some] at hnodup
  have htwice := hnodup.sublist ((List.sublist_append_right _ _).trans
    (List.sublist_append_right _ _))
  exact absurd List.mem_cons_self (List.nodup_cons.mp htwice).1

/-- The text that is handed out is one that may still be released. -/
theorem Tracks.mem_texts (h : Tracks u s) {b : Nat} (hb : s.getPcontent = some b) :
    b ∈ s.texts u.mode := by
  rw [getPcontent, h.contentType, Option.ite_none_left_eq_some, Mode.contentType_eq_zero] at hb
  obtain ⟨hmode, hb⟩ := hb
  cases hm : u.mode with
  | empty => exact absurd hm hmode
  | text => simp [texts, hb]
  | parsed => simp [texts, hb]
  | raw => simp [texts, hb]

/-- A state that is tracked is safe. -/
theorem Tracks.safe (h : Tracks u s) : s.Safe := by
  refine ⟨h.owns.nodup_released, fun b hb => h.owns.not_mem_released ?_⟩
  apply List.mem_append_left
  exact h.mem_texts hb

/-- A call keeps track of the mode, unless it cleans a file left as it is. -/
theorem Tracks.step (h : Tracks u s) (op : Op) (hop : op = .cleanContent → u.mode ≠ .raw) :
    Tracks (u.step op) (s.step op) := by
  cases op with
  | initContent => exact h.initContent
  | setNoParse np => exact ⟨rfl, h.contentType, h.aliased, h.owns⟩
  | setFileContent str => exact h.setFileContent
  | parseFile file => exact h.parseFile file
  | cleanContent => exact h.cleanContent (hop rfl)

end Steps

/-- Care about one more call. -/
theorem careful_concat {ops : List Op} {op : Op} :
    Careful (ops ++ [op]) ↔ Careful ops ∧ (op = .cleanContent → (usage ops).mode ≠ .raw) := by
  constructor
  · intro h
    refine ⟨fun pre hpre => h pre (hpre.trans (List.prefix_append _ _)), ?_⟩
    rintro rfl
    exact h ops List.prefix_rfl
  · rintro ⟨h, hop⟩ pre hpre
    rcases List.prefix_concat_iff.mp hpre with heq | hpre
    · obtain ⟨rfl, hlast⟩ := List.append_inj' heq rfl
      exact hop (List.singleton_inj.mp hlast).symm
    · exact h pre hpre

/-- The state after careful calls is the one their meaning says. -/
theorem tracks_after {ops : List Op} (h : Careful ops) : Tracks (usage ops) (after ops) := by
  induction ops using List.reverseRecOn with
  | nil => exact ⟨rfl, rfl, rfl, Ledger.owns_start⟩
  | append_singleton ops op ih =>
      obtain ⟨hops, hop⟩ := careful_concat.mp h
      rw [usage, after, List.foldl_append, List.foldl_append]
      exact (ih hops).step op hop

/-- Every state that a sequence of calls goes through is safe exactly when the calls are
careful. -/
theorem safe_iff_careful (ops : List Op) :
    (∀ pre, pre <+: ops → (after pre).Safe) ↔ Careful ops := by
  constructor
  · intro hsafe
    induction ops using List.reverseRecOn with
    | nil => exact fun pre hpre => absurd (List.prefix_nil.mp hpre) (by simp)
    | append_singleton ops op ih =>
        have hops := ih fun pre hpre => hsafe pre (hpre.trans (List.prefix_append _ _))
        refine careful_concat.mpr ⟨hops, ?_⟩
        rintro rfl hraw
        refine (tracks_after hops).not_safe_cleanContent hraw ?_
        have hlast := hsafe (ops ++ [.cleanContent]) List.prefix_rfl
        rwa [after, List.foldl_append] at hlast
  · intro h pre hpre
    refine (tracks_after fun pre' hpre' => ?_).safe
    exact h pre' (hpre'.trans hpre)

/-- Reading a file without parsing it and cleaning up releases its buffer twice. -/
theorem unsafe_clean_after_noparse :
    ¬ ∀ ops : List Op, ∀ pre, pre <+: ops → (after pre).Safe := by
  intro h
  have hrun := h [.setNoParse true, .parseFile (some []), .cleanContent] _ List.prefix_rfl
  exact absurd hrun.1 (by decide)

end Buffers

end CiteParser
