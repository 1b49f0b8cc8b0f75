import CiteParser.Citation.Info
import CiteParser.Store.Tokens
import Mathlib.Logic.Function.Basic

/-!
# What a citation is for

A citation as a record: under each field the values that the segments labelled with its
name have given. A segment replaces the values of its own field and of no other, and the
reply shows every field that has a value.
-/

namespace CiteParser

/-- The name of a field, as a label and as a member of the node. -/
def Field.name : Field → String
  | author => "author"
  | title => "title"
  | editor => "editor"
  | journal => "journal"
  | booktitle => "booktitle"
  | publisher => "publisher"
  | institution => "institution"
  | volume => "volume"
  | location => "location"
  | pages => "pages"
  | date => "date"
  | url => "url"
  | isbn => "isbn"
  | tech => "tech"
  | other => "other"

/-- The field whose name is the label with an id in `token.ini`. -/
def fieldOf (id : Nat) : Option Field :=
  if h : id < TOKEN_MAX_LEN then
    Field.all.find? fun f => id2Token (tokenInit tokenIni) ⟨id, h⟩ == some (bytes f.name)
  else none

/-- The values of the fields; a text field has one value at most, and no value is empty. -/
abbrev Record := Field → List (List UInt8)

/-- One text, if it is not empty. -/
def textValue (text : List UInt8) : List (List UInt8) := if text = [] then [] else [text]

/-- The values that a segment gives to the field it is labelled with. -/
def contentOf (f : Field) (str : List UInt8) : List (List UInt8) :=
  match f with
  | .author | .editor => (splitNames (cstr str)).filter (· ≠ [])
  | .volume | .pages =>
      textValue ((numberText (twovalue str str.length 0 0)).take (f.size - 1))
  | _ => textValue ((finished str).take (f.size - 1))

/-- The citations of a reference, of which `now` is the last. -/
structure RecordList where
  done : List Record
  now : Record

def RecordList.records (l : RecordList) : List Record := l.done ++ [l.now]

/-- A record without any value. -/
def Record.empty : Record := fun _ => []

/-- A new citation, unless the last one has no value yet. -/
def RecordList.open (l : RecordList) : RecordList :=
  if ∀ f, l.now f = [] then l else ⟨l.done ++ [l.now], Record.empty⟩

/-- The last citation with the values of a field replaced. -/
def RecordList.put (l : RecordList) (f : Field) (values : List (List UInt8)) : RecordList :=
  { l with now := Function.update l.now f values }

/-- What a labelled segment is for: authors open a citation, and every field keeps its own
segment. A segment without a label opens one when it looks like a number in brackets. -/
def RecordList.add (l : RecordList) (c : InfoCall) : RecordList :=
  match fieldOf c.id with
  | some .author => l.open.put .author (contentOf .author c.str)
  | some f => l.put f (contentOf f c.str)
  | none => if c.id = 0 ∧ bracketed c = true then l.open else l

/-- The citations after a sequence of labelled segments. -/
def recordRun (calls : List InfoCall) : RecordList :=
  calls.foldl RecordList.add ⟨[], Record.empty⟩

/-- The strings of the reply that show a record. -/
def Record.item (r : Record) : List (String × JsonValue) :=
  let names := fun key f => if r f = [] then [] else [(key, JsonValue.array (r f))]
  names "authors" .author ++
    textKeys.flatMap (fun k => (r k.2).map fun text => (k.1, JsonValue.string text)) ++
    names "editors" .editor

end CiteParser
