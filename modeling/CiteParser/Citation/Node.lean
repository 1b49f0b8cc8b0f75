import CiteParser.Core.Memory
import Mathlib.Data.Fintype.Defs

/-!
# Citation nodes

`CitationNode` of `citpred.h` is a record of character arrays; a node is the memory they
lie in, so that a print that is longer than its array reaches the arrays behind it. The
nodes of a list follow each other and new ones come last.
-/

namespace CiteParser

/-- The arrays of `CitationNode`, in the order of their declaration. -/
inductive Field where
  | author
  | title
  | editor
  | journal
  | booktitle
  | publisher
  | institution
  | volume
  | location
  | pages
  | date
  | url
  | isbn
  | tech
  | other
  deriving DecidableEq, Repr

namespace Field

/-- All arrays. -/
def all : List Field :=
  [author, title, editor, journal, booktitle, publisher, institution, volume, location, pages,
    date, url, isbn, tech, other]

instance : Fintype Field where
  elems := ⟨all, by decide⟩
  complete := by
    intro f
    cases f <;> decide

/-- The number of bytes of an array; `author` and `editor` are ten rows of 50. -/
def size : Field → Nat
  | author | editor => 500
  | title | journal | booktitle | publisher | institution => 150
  | volume | location | pages | date | url | isbn | tech | other => 50

/-- Where an array starts: characters are not padded. -/
def offset : Field → Nat
  | author => 0
  | title => 500
  | editor => 650
  | journal => 1150
  | booktitle => 1300
  | publisher => 1450
  | institution => 1600
  | volume => 1750
  | location => 1800
  | pages => 1850
  | date => 1900
  | url => 1950
  | isbn => 2000
  | tech => 2050
  | other => 2100

/-- The addresses of an array. -/
def Holds (f : Field) (i : Nat) : Prop := f.offset ≤ i ∧ i < f.offset + f.size

/-- Two arrays do not overlap. -/
theorem apart : ∀ f g : Field, f ≠ g →
    f.offset + f.size ≤ g.offset ∨ g.offset + g.size ≤ f.offset := by decide

/-- An address of one array is none of another one. -/
theorem Holds.ne {f g : Field} {i : Nat} (hf : f.Holds i) (hg : g.Holds i) : f = g := by
  by_contra hne
  rcases apart f g hne with h | h
  · exact absurd (Nat.lt_of_lt_of_le hf.2 h) (Nat.not_lt_of_le hg.1)
  · exact absurd (Nat.lt_of_lt_of_le hg.2 h) (Nat.not_lt_of_le hf.1)

end Field

/-- The bytes of all arrays. -/
def nodeSize : Nat := 2150

/-- The length of a name, terminator included. -/
def nameSize : Nat := 50

/-- Every array lies inside the record. -/
theorem Field.le_nodeSize : ∀ f : Field, f.offset + f.size ≤ nodeSize := by decide

/-- The memory of a `CitationNode`; `next` is the place in the list of nodes. -/
abbrev CitationNode := Nat → UInt8

/-- What `initCitationNode` clears: the names in full, of every other array 50 bytes. -/
def initRanges : List (Nat × Nat) :=
  (List.range 10).map (fun i => (Field.author.offset + nameSize * i, 50)) ++
    (List.range 10).map (fun i => (Field.editor.offset + nameSize * i, 50)) ++
    [Field.title, .journal, .booktitle, .publisher, .institution, .volume, .location, .pages,
      .date, .url, .isbn, .tech, .other].map fun f => (f.offset, 50)

def initCitationNode (node : CitationNode) : CitationNode :=
  initRanges.foldl (fun mem r => memset mem r.1 r.2) node

/-- `cnIsEmpty`: every array starts with a zero byte. -/
def cnIsEmpty (node : CitationNode) : Bool :=
  [Field.author, .editor, .title, .journal, .booktitle, .publisher, .institution, .volume,
    .location, .pages, .date, .url, .isbn, .tech, .other].all fun f => node f.offset == 0

/-- A list of nodes, of which `now` is the last and the one that is filled. -/
structure NodeList where
  done : List CitationNode
  now : CitationNode

/-- The nodes from the head on. -/
def NodeList.nodes (l : NodeList) : List CitationNode := l.done ++ [l.now]

section Allocation

/- What the memory of the node that is allocated as number `k` holds. -/
variable (heap : Nat → CitationNode)

/-- The list after `addCitationNode(&nodeHead)` on NULL. -/
def NodeList.start : NodeList := ⟨[], initCitationNode (heap 0)⟩

/-- `addCitationNode` on a list: an empty node is used again. -/
def addCitationNode (l : NodeList) : NodeList :=
  if cnIsEmpty l.now then l
  else ⟨l.done ++ [l.now], initCitationNode (heap (l.done.length + 1))⟩

end Allocation

/-- The names of a new node are cleared to their last byte. -/
theorem initCitationNode_names (node : CitationNode) {i : Nat}
    (h : Field.author.Holds i ∨ Field.editor.Holds i) : initCitationNode node i = 0 := by
  have hrow : ∀ f : Field, (∀ r, r < 10 → (f.offset + nameSize * r, 50) ∈ initRanges) →
      f.size = 500 → f.Holds i → initCitationNode node i = 0 := by
    rintro f hmem hsize ⟨hlo, hhi⟩
    rw [hsize] at hhi
    refine foldl_memset_inside (hmem ((i - f.offset) / 50) (by omega)) ?_ node
    rw [nameSize]
    omega
  rcases h with h | h
  · exact hrow .author (by decide) rfl h
  · exact hrow .editor (by decide) rfl h

/-- Every array of a new node is an empty string. -/
theorem initCitationNode_offset (node : CitationNode) (f : Field) :
    initCitationNode node f.offset = 0 := by
  have hmem : ∀ f : Field, (f.offset, 50) ∈ initRanges := by decide
  exact foldl_memset_inside (hmem f) ⟨Nat.le_refl _, by omega⟩ node

/-- A node is empty when all its arrays are. -/
theorem cnIsEmpty_iff (node : CitationNode) :
    cnIsEmpty node = true ↔ ∀ f : Field, node f.offset = 0 := by
  have hall : ∀ f : Field, f ∈ [Field.author, .editor, .title, .journal, .booktitle, .publisher,
      .institution, .volume, .location, .pages, .date, .url, .isbn, .tech, .other] := by decide
  rw [cnIsEmpty, List.all_eq_true]
  constructor
  · exact fun h f => beq_iff_eq.mp (h f (hall f))
  · exact fun h f _ => beq_iff_eq.mpr (h f)

end CiteParser
