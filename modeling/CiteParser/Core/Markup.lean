import CiteParser.Core.Segment
import Mathlib.Data.List.GetD

/-!
# Text marked up with nested elements

A document is text in which elements enclose pieces of the text. Written out, an element is
its body between an opening and a closing tag. `cells` lists the characters of the text with
the offset at which each is written and the elements that enclose it, innermost first: what
a reader that strips the tags is compared with.
-/

namespace CiteParser

/-- A sequence of characters and elements. -/
inductive Markup (ι α : Type*) where
  | nil : Markup ι α
  | char (c : α) (rest : Markup ι α) : Markup ι α
  | elem (e : ι) (body rest : Markup ι α) : Markup ι α

namespace Markup

/-- A character of the text, where it is written and what encloses it. -/
structure Cell (ι α : Type*) where
  char : α
  offset : Nat
  enclosing : List ι

variable {ι α : Type*}

/-- A document without elements. -/
def plain : List α → Markup ι α
  | [] => nil
  | c :: text => char c (plain text)

/-- The characters without the tags. -/
def text : Markup ι α → List α
  | nil => []
  | char c rest => c :: rest.text
  | elem _ body rest => body.text ++ rest.text

/-- The number of elements that enclose the most deeply nested place. -/
def depth : Markup ι α → Nat
  | nil => 0
  | char _ rest => rest.depth
  | elem _ body rest => max (body.depth + 1) rest.depth

/-- The elements, in the order of their opening tags. -/
def elements : Markup ι α → List ι
  | nil => []
  | char _ rest => rest.elements
  | elem e body rest => e :: (body.elements ++ rest.elements)

/-- The document with other elements in place of its own. -/
def mapElem {κ : Type*} (f : ι → κ) : Markup ι α → Markup κ α
  | nil => nil
  | char c rest => char c (rest.mapElem f)
  | elem e body rest => elem (f e) (body.mapElem f) (rest.mapElem f)

/-- For each character the elements around it, innermost first. -/
def scopes (d : Markup ι α) (around : List ι) : List (List ι) :=
  match d with
  | nil => []
  | char _ rest => around :: rest.scopes around
  | elem e body rest => body.scopes (e :: around) ++ rest.scopes around

/-- The elements with the positions of the text between which each encloses it, where the text
begins at position `k`. -/
def spans (d : Markup ι α) (k : Nat) : List (ι × Nat × Nat) :=
  match d with
  | nil => []
  | char _ rest => rest.spans (k + 1)
  | elem e body rest =>
      (e, k, k + body.text.length) :: (body.spans k ++ rest.spans (k + body.text.length))

/-- Every character has its enclosing elements. -/
@[simp] theorem length_scopes (d : Markup ι α) (around : List ι) :
    (d.scopes around).length = d.text.length := by
  induction d generalizing around with
  | nil => rfl
  | char c rest ih => simp [scopes, text, ih]
  | elem e body rest ihBody ihRest => simp [scopes, text, ihBody, ihRest]

/-- An element encloses a part of the text. -/
theorem bounds_of_mem_spans {d : Markup ι α} {k a b : Nat} {e : ι} (h : (e, a, b) ∈ d.spans k) :
    k ≤ a ∧ a ≤ b ∧ b ≤ k + d.text.length := by
  induction d generalizing k with
  | nil => exact absurd h List.not_mem_nil
  | char c rest ih =>
      obtain ⟨hlow, hle, hhigh⟩ := ih h
      rw [text, List.length_cons]
      exact ⟨by omega, hle, by omega⟩
  | elem e' body rest ihBody ihRest =>
      rw [text, List.length_append]
      rcases List.mem_cons.mp h with heq | h
      · simp only [Prod.mk.injEq] at heq
        omega
      · rcases List.mem_append.mp h with h | h
        · obtain ⟨hlow, hle, hhigh⟩ := ihBody h
          exact ⟨hlow, hle, by omega⟩
        · obtain ⟨hlow, hle, hhigh⟩ := ihRest h
          exact ⟨by omega, hle, by omega⟩

/-- The element encloses the character at a position of the text. -/
def Encloses (d : Markup ι α) (k : Nat) (e : ι) (pos : Nat) : Prop :=
  ∃ a b, (e, a, b) ∈ d.spans k ∧ a ≤ pos ∧ pos < b

/-- An element encloses no character before the text and none behind it. -/
theorem Encloses.bounds {d : Markup ι α} {k pos : Nat} {e : ι} (h : d.Encloses k e pos) :
    k ≤ pos ∧ pos < k + d.text.length := by
  obtain ⟨a, b, hmem, hlow, hhigh⟩ := h
  have hbounds := bounds_of_mem_spans hmem
  omega

/-- What encloses a character of an element or of what comes behind it. -/
theorem encloses_elem (e' : ι) (body rest : Markup ι α) (k : Nat) (e : ι) (pos : Nat) :
    (elem e' body rest).Encloses k e pos ↔
      (e = e' ∧ k ≤ pos ∧ pos < k + body.text.length) ∨ body.Encloses k e pos ∨
        rest.Encloses (k + body.text.length) e pos := by
  constructor
  · rintro ⟨a, b, hmem, hpos⟩
    rcases List.mem_cons.mp hmem with heq | hmem
    · simp only [Prod.mk.injEq] at heq
      obtain ⟨rfl, rfl, rfl⟩ := heq
      exact .inl ⟨rfl, hpos⟩
    · rcases List.mem_append.mp hmem with hmem | hmem
      · exact .inr (.inl ⟨a, b, hmem, hpos⟩)
      · exact .inr (.inr ⟨a, b, hmem, hpos⟩)
  · rintro (⟨rfl, hpos⟩ | ⟨a, b, hmem, hpos⟩ | ⟨a, b, hmem, hpos⟩)
    · exact ⟨k, _, List.mem_cons_self, hpos⟩
    · exact ⟨a, b, List.mem_cons_of_mem _ (List.mem_append_left _ hmem), hpos⟩
    · exact ⟨a, b, List.mem_cons_of_mem _ (List.mem_append_right _ hmem), hpos⟩

/-- The elements listed for a character are those around the whole document and those that
enclose its position. -/
theorem mem_scope_iff (d : Markup ι α) (around : List ι) (k j : Nat) (e : ι) :
    e ∈ (d.scopes around).getD j [] ↔
      (j < d.text.length ∧ e ∈ around) ∨ d.Encloses k e (k + j) := by
  induction d generalizing around k j with
  | nil => simp [scopes, text, Encloses, spans]
  | char c rest ih =>
      cases j with
      | zero =>
          have hbehind : ¬ rest.Encloses (k + 1) e (k + 0) := fun h => by
            have hbounds := h.bounds
            omega
          have hsame : (char c rest).Encloses k e (k + 0) ↔ rest.Encloses (k + 1) e (k + 0) :=
            Iff.rfl
          rw [hsame, or_iff_left hbehind]
          simp [scopes, text]
      | succ j =>
          have hrest := ih around (k + 1) j
          rw [show k + 1 + j = k + (j + 1) by omega] at hrest
          rw [scopes, List.getD_cons_succ, hrest, text, List.length_cons, Nat.add_lt_add_iff_right]
          exact Iff.rfl
  | elem e' body rest ihBody ihRest =>
      rw [scopes, text, List.length_append, encloses_elem]
      rcases Nat.lt_or_ge j body.text.length with hlt | hge
      · -- the character lies in the element
        have hbehind : ¬ rest.Encloses (k + body.text.length) e (k + j) := fun h => by
          have hbounds := h.bounds
          omega
        rw [List.getD_append _ _ _ _ (by rw [length_scopes]; exact hlt), ihBody _ k,
          List.mem_cons, or_iff_left hbehind]
        have hall : j < body.text.length + rest.text.length := by omega
        have hin : k ≤ k + j ∧ k + j < k + body.text.length := by omega
        simp only [hlt, hall, hin, true_and, and_true]
        tauto
      · have hbefore : ¬ body.Encloses k e (k + j) := fun h => by
          have hbounds := h.bounds
          omega
        rw [List.getD_append_right _ _ _ _ (by rw [length_scopes]; exact hge), length_scopes,
          ihRest _ (k + body.text.length), show k + body.text.length + (j - body.text.length) =
            k + j by omega, or_iff_right (by omega : ¬ (e = e' ∧ _ ∧ _)), or_iff_right hbefore]
        have hsame : j - body.text.length < rest.text.length ↔
            j < body.text.length + rest.text.length := by omega
        rw [hsame]

/-- Plain text is its own text. -/
@[simp] theorem text_plain (text : List α) : (plain text : Markup ι α).text = text := by
  induction text with
  | nil => rfl
  | cons c text ih => rw [plain, Markup.text, ih]

/-- Nothing encloses plain text. -/
@[simp] theorem depth_plain (text : List α) : (plain text : Markup ι α).depth = 0 := by
  induction text with
  | nil => rfl
  | cons c text ih => rw [plain, depth, ih]

section Written

variable (opening closing : ι → List α)

/-- The document with its tags. -/
def write : Markup ι α → List α
  | nil => []
  | char c rest => c :: rest.write
  | elem e body rest => opening e ++ (body.write ++ (closing e ++ rest.write))

/-- The characters of a document that is written from offset `i` on, inside `around`. -/
def cells (d : Markup ι α) (i : Nat) (around : List ι) : List (Cell ι α) :=
  match d with
  | nil => []
  | char c rest => ⟨c, i, around⟩ :: rest.cells (i + 1) around
  | elem e body rest =>
      body.cells (i + (opening e).length) (e :: around) ++
        rest.cells (i + (opening e).length + (body.write opening closing).length +
          (closing e).length) around

/-- Plain text is written as it is. -/
@[simp] theorem write_plain (text : List α) :
    (plain text : Markup ι α).write opening closing = text := by
  induction text with
  | nil => rfl
  | cons c text ih => rw [plain, write, ih]

/-- The cells carry the text. -/
theorem map_char_cells (d : Markup ι α) (i : Nat) (around : List ι) :
    (d.cells opening closing i around).map Cell.char = d.text := by
  induction d generalizing i around with
  | nil => rfl
  | char c rest ih => rw [cells, List.map_cons, ih, text]
  | elem e body rest ihBody ihRest => rw [cells, List.map_append, ihBody, ihRest, text]

/-- The cells carry what encloses the characters. -/
theorem map_enclosing_cells (d : Markup ι α) (i : Nat) (around : List ι) :
    (d.cells opening closing i around).map Cell.enclosing = d.scopes around := by
  induction d generalizing i around with
  | nil => rfl
  | char c rest ih => rw [cells, List.map_cons, ih, scopes]
  | elem e body rest ihBody ihRest => rw [cells, List.map_append, ihBody, ihRest, scopes]

/-- A character is written inside its document. -/
theorem offset_of_mem_cells {d : Markup ι α} {i : Nat} {around : List ι} {c : Cell ι α}
    (h : c ∈ d.cells opening closing i around) :
    i ≤ c.offset ∧ c.offset < i + (d.write opening closing).length := by
  induction d generalizing i around with
  | nil => exact absurd h List.not_mem_nil
  | char a rest ih =>
      rw [write, List.length_cons]
      rcases List.mem_cons.mp h with rfl | h
      · exact ⟨Nat.le_refl i, Nat.lt_add_of_pos_right (Nat.succ_pos _)⟩
      · obtain ⟨hlow, hhigh⟩ := ih h
        exact ⟨by omega, by omega⟩
  | elem e body rest ihBody ihRest =>
      rw [write, List.length_append, List.length_append, List.length_append]
      rcases List.mem_append.mp h with h | h
      · obtain ⟨hlow, hhigh⟩ := ihBody h
        exact ⟨by omega, by omega⟩
      · obtain ⟨hlow, hhigh⟩ := ihRest h
        exact ⟨by omega, by omega⟩

/-- Characters are written in the order of the text. -/
theorem pairwise_offset_cells (d : Markup ι α) (i : Nat) (around : List ι) :
    ((d.cells opening closing i around).map Cell.offset).Pairwise (· < ·) := by
  induction d generalizing i around with
  | nil => exact List.Pairwise.nil
  | char a rest ih =>
      rw [cells, List.map_cons]
      refine List.Pairwise.cons (fun j hj => ?_) (ih (i + 1) around)
      obtain ⟨c, hc, rfl⟩ := List.mem_map.mp hj
      exact (offset_of_mem_cells opening closing hc).1
  | elem e body rest ihBody ihRest =>
      rw [cells, List.map_append]
      refine List.pairwise_append.mpr ⟨ihBody _ _, ihRest _ _, fun j hj k hk => ?_⟩
      obtain ⟨c, hc, rfl⟩ := List.mem_map.mp hj
      obtain ⟨c', hc', rfl⟩ := List.mem_map.mp hk
      have hbefore := (offset_of_mem_cells opening closing hc).2
      have hafter := (offset_of_mem_cells opening closing hc').1
      omega

/-- No place is enclosed by more elements than the depth says. -/
theorem length_enclosing_le {d : Markup ι α} {i : Nat} {around : List ι} {c : Cell ι α}
    (h : c ∈ d.cells opening closing i around) :
    c.enclosing.length ≤ around.length + d.depth := by
  induction d generalizing i around with
  | nil => exact absurd h List.not_mem_nil
  | char a rest ih =>
      rcases List.mem_cons.mp h with rfl | h
      · exact Nat.le_add_right _ _
      · exact ih h
  | elem e body rest ihBody ihRest =>
      rw [depth]
      rcases List.mem_append.mp h with h | h
      · have hle := ihBody h
        rw [List.length_cons] at hle
        omega
      · have hle := ihRest h
        omega

end Written

/-- Where a document stands in a memory, each of its characters is at its offset. -/
theorem char_of_mem_cells {opening closing : ι → List α} {src : Nat → α} {d : Markup ι α}
    {i : Nat} {around : List ι} (hat : StandsAt src i (d.write opening closing))
    {c : Cell ι α} (h : c ∈ d.cells opening closing i around) : src c.offset = c.char := by
  induction d generalizing i around with
  | nil => exact absurd h List.not_mem_nil
  | char a rest ih =>
      obtain ⟨ha, hrest⟩ := standsAt_cons.mp hat
      rcases List.mem_cons.mp h with rfl | h
      · exact ha
      · exact ih hrest h
  | elem e body rest ihBody ihRest =>
      obtain ⟨-, htail⟩ := standsAt_append.mp hat
      obtain ⟨hbody, htail⟩ := standsAt_append.mp htail
      obtain ⟨-, hrest⟩ := standsAt_append.mp htail
      rcases List.mem_append.mp h with h | h
      · exact ihBody hbody h
      · exact ihRest hrest h

end Markup

end CiteParser
