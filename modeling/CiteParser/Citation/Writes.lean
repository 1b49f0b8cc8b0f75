import CiteParser.Citation.Info

/-!
# The writes of a call

Every call of `addCitationInfo` does one of three things to its node: it splits names, it
prints a text to one array, or it leaves the node alone. Before that it may ask for a new
node.
-/

namespace CiteParser

/-- A call of `snprintf`: the array it starts at, its size limit and its text. -/
structure Print where
  field : Field
  limit : Nat
  text : List UInt8

/-- The `snprintf` that a call makes. -/
def infoPrint (c : InfoCall) : Option Print :=
  match c.id with
  | 4 => some ⟨.booktitle, 150, finished c.str⟩
  | 5 => some ⟨.date, 50, finished c.str⟩
  | 7 => some ⟨.institution, 150, finished c.str⟩
  | 8 => some ⟨.journal, 150, finished c.str⟩
  | 9 => some ⟨.location, 50, finished c.str⟩
  | 11 =>
      some ⟨.pages, 50, numberText (twovalue c.str c.str.length c.locals.page.1 c.locals.page.2)⟩
  | 12 => some ⟨.date, 150, finished c.str⟩
  | 13 => some ⟨.tech, 50, finished c.str⟩
  | 14 => some ⟨.title, 150, finished c.str⟩
  | 15 =>
      some ⟨.volume, 50, numberText (twovalue c.str c.str.length c.locals.vol.1 c.locals.vol.2)⟩
  | 16 => some ⟨.url, 50, finished c.str⟩
  | 17 => some ⟨.isbn, 50, finished c.str⟩
  | _ => none

/-- The ids whose segment is split into names. -/
def splitsNames (id : Nat) : Prop := id = 3 ∨ id = 6

instance (id : Nat) : Decidable (splitsNames id) := inferInstanceAs (Decidable (_ ∨ _))

/-- What a call writes to the arrays of its node. -/
def infoWrite (c : InfoCall) (node : CitationNode) : CitationNode :=
  if splitsNames c.id then spilitName node Field.author.offset (cstr c.str)
  else
    match infoPrint c with
    | some p => snprintf node p.field.offset p.limit p.text
    | none => node

/-- The calls that ask for a new node. -/
def asksNode (c : InfoCall) : Bool := (c.id == 0 && bracketed c) || c.id == 3

/-- A call asks for a node and writes to the last one. -/
theorem addCitationInfo_eq (heap : Nat → CitationNode) (l : NodeList) {c : InfoCall}
    (h : c.str.length < srcSize) :
    addCitationInfo heap l c =
      let l := if asksNode c then addCitationNode heap l else l
      some { l with now := infoWrite c l.now } := by
  obtain ⟨id, str, locals⟩ := c
  rw [addCitationInfo, if_neg (Nat.not_le_of_lt h)]
  unfold asksNode infoWrite infoPrint splitsNames NodeList.print
  split <;> simp_all

end CiteParser
