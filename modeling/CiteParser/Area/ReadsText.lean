import CiteParser.Area.NameReads
import CiteParser.Area.Overruns

/-!
# Which scanners read the text only

Eight of the scanners do for every window. The others do unless they get to one of the offsets
that the modules before this one tell.
-/

namespace CiteParser

open Loop Traced

/-- What the window must hold for a call of the scanner to leave the text. -/
def Scanner.Strays (T : Pcontent) (f : Scanner) (offset limit : Int) : Prop :=
  let (offset, offend) := defineStartAndEnd T offset limit
  match f with
  | pages2 => Reaches (PageOverrun T) (PageMark T) offend offset
  | names1 => ¬ NameDelimited nameShape1 T offend (headOffset offset 0)
  | names2 => ¬ NameDelimited nameShape2 T offend (headOffset offset 0)
  | keyWords => Reaches (KeyOverrun T) (KeyMark T offend) offend offset
  | _ => False

end CiteParser
