import CiteParser.Citation.Routing
import CiteParser.Core.Utf8
import CiteParser.Json.Roundtrip
import CiteParser.Service.Framing

/-!
# The reply and its client

`rpc_query` of `citepd.cc` prints the citations of a reference as a JSON text, and `cpcli.cc` is
the client: it sends a text with the end flag behind it and gathers what comes back, a buffer at a
time. What it has gathered is a JSON text from which every field of every citation can be had.
-/

namespace CiteParser

/-- The item of a value. -/
def JsonValue.item : JsonValue → CJson
  | string text => .string (.of text)
  | array items => .array (items.map fun text => .string (.of text))

/-- The item of one citation, with its children under their keys. -/
def citationItem (fields : List (String × JsonValue)) : CJson :=
  .object (fields.map fun m => (.of (bytes m.1), m.2.item))

/-- The item `root` of `rpc_query`. -/
def replyRoot (l : NodeList) : CJson :=
  .object [(.of (bytes "ref"), .array ((rpcQuery l).map citationItem))]

/-- The text that `rpc_query` returns: printed with its formatting, which is then taken out. -/
def rpcReply (l : NodeList) : Option (List UInt8) :=
  CJson.minify (CJson.printValue true 0 (replyRoot l))

/-- The reply is printed without formatting in the end. -/
theorem rpcReply_eq (l : NodeList) : rpcReply l = some (CJson.printValue false 0 (replyRoot l)) :=
  CJson.minify_printValue _

/-! ## The characters of the reply -/

namespace CJson

/-- The bytes of a text are all above 31. -/
def Printable (text : List UInt8) : Prop := ∀ c ∈ text, 31 < c

instance (text : List UInt8) : Decidable (Printable text) :=
  inferInstanceAs (Decidable (∀ c ∈ text, _))

theorem Printable.append {text text' : List UInt8} (h : Printable text) (h' : Printable text') :
    Printable (text ++ text') :=
  List.forall_mem_append.mpr ⟨h, h'⟩

/-- No control character is printed in a string. -/
theorem printable_printString (str : CText) : Printable (printString str) := by
  have hquote : Printable (bytes "\"") := by decide +kernel
  refine (hquote.append fun d hd => ?_).append hquote
  obtain ⟨c, -, hd⟩ := List.mem_flatMap.mp hd
  exact (mem_printChar hd).1

/-- An unformatted text has no control character. -/
theorem printable_printValue (depth : Nat) (v : CJson) : Printable (printValue false depth v) := by
  have htokens : ∀ t ∈ tokens, Printable t := by decide +kernel
  exact printValue_induct (fun _ hc => absurd hc List.not_mem_nil) Printable.append htokens depth v
    fun s _ => printable_printString s

/-- Valid text is printed as valid text. -/
theorem isUtf8_printString {str : CText} (h : IsUtf8 str.bytes) : IsUtf8 (printString str) := by
  have hquote : IsUtf8 (bytes "\"") := ⟨['"'], rfl⟩
  have hascii : ∀ c : UInt8, isAscii c = true → ∀ d ∈ printChar c, isAscii d = true :=
    fun c hc d hd => decide_eq_true ((mem_printChar hd).2 (of_decide_eq_true hc))
  have hself : ∀ c : UInt8, isAscii c = false → printChar c = [c] := by
    intro c hc
    rcases printChar_cases c with ⟨heq, -⟩ | ⟨hlow, -⟩
    · exact heq
    · exact absurd hlow (of_decide_eq_false hc)
  refine (hquote.append ?_).append hquote
  obtain ⟨cs, hcs⟩ := h
  rw [hcs]
  clear hcs
  induction cs with
  | nil => exact .nil
  | cons d cs ih =>
      rw [List.flatMap_cons, List.flatMap_append]
      refine .append ?_ ih
      rcases utf8EncodeChar_cases d with ⟨c, hc, hlow⟩ | ⟨-, hhigh⟩
      · rw [hc, List.flatMap_singleton]
        exact .of_ascii (hascii c hlow)
      · have hsame : (String.utf8EncodeChar d).flatMap printChar = String.utf8EncodeChar d := by
          rw [List.flatMap_congr fun c hc => hself c (hhigh c hc)]
          exact List.flatMap_singleton' _
        rw [hsame]
        exact ⟨[d], (List.flatMap_singleton ..).symm⟩

/-- An item of valid strings is printed as valid text. -/
theorem isUtf8_printValue (depth : Nat) {v : CJson} (h : ∀ s ∈ v.texts, IsUtf8 s.bytes) :
    IsUtf8 (printValue false depth v) := by
  have htokens : ∀ t ∈ tokens, ∀ c ∈ t, isAscii c = true := by decide +kernel
  exact printValue_induct .nil IsUtf8.append (fun t ht => .of_ascii (htokens t ht)) depth v
    fun s hs => isUtf8_printString (h s hs)

end CJson

/-- The strings that the reply shows. -/
def JsonValue.shown : JsonValue → List (List UInt8)
  | string text => [text]
  | array items => items

/-- The strings of the item of a value. -/
theorem JsonValue.mem_texts_item {v : JsonValue} {s : CText} :
    s ∈ v.item.texts ↔ ∃ text ∈ v.shown, CText.of text = s := by
  cases v with
  | string text => simp [item, shown, CJson.texts, eq_comm]
  | array items => simp [item, shown, CJson.texts, CJson.arrayTexts_eq, eq_comm]

/-- The reply is one line of printable characters, valid UTF-8 if every string it shows is, and
its parse is the tree it was printed from. -/
theorem rpcReply_spec (l : NodeList) : ∃ reply, rpcReply l = some reply ∧
    (∀ c ∈ reply, 31 < c) ∧
    ((∀ fields ∈ rpcQuery l, ∀ m ∈ fields, ∀ text ∈ m.2.shown, IsUtf8 text) → IsUtf8 reply) ∧
    CJson.parse reply = .ok (replyRoot l) := by
  refine ⟨_, rpcReply_eq l, CJson.printable_printValue 0 _, fun h => ?_,
    (CJson.parse_printValue _).2.1⟩
  refine CJson.isUtf8_printValue 0 fun s hs => ?_
  have hkey : ∀ key : String, IsUtf8 (CText.of (bytes key)).bytes := fun key =>
    IsUtf8.cstr ⟨key.toList, rfl⟩
  simp only [replyRoot, CJson.texts, CJson.objectTexts_eq, List.flatMap_singleton,
    CJson.arrayTexts_eq, List.mem_cons, List.mem_flatMap, List.mem_map] at hs
  rcases hs with rfl | ⟨_, ⟨fields, hfields, rfl⟩, hs⟩
  · exact hkey "ref"
  · simp only [citationItem, CJson.texts, CJson.objectTexts_eq, List.mem_flatMap,
      List.mem_map] at hs
    obtain ⟨_, ⟨m, hm, rfl⟩, hs⟩ := hs
    rcases List.mem_cons.mp hs with rfl | hs
    · exact hkey m.1
    · obtain ⟨text, htext, rfl⟩ := JsonValue.mem_texts_item.mp hs
      exact (h fields hfields m hm text htext).cstr

/-! ## Looking a field up -/

/-- The keys of a citation, each with its field. -/
def citationFields : List (String × Field) :=
  ("authors", .author) :: textKeys ++ [("editors", .editor)]

/-- The keys of a citation. -/
def citationKeys : List String := citationFields.map (·.1)

/-- No two keys are the same to `cJSON_GetObjectItem`. -/
theorem citationKeys_distinct : ∀ k ∈ citationKeys, ∀ k' ∈ citationKeys,
    strcasecmpEq (CText.of (bytes k)).bytes (bytes k') = (k' == k) := by
  decide +kernel

/-- `cJSON_GetObjectItem` finds the value of a key. -/
theorem getObjectItem_citationItem {fields : List (String × JsonValue)}
    (hkeys : ∀ m ∈ fields, m.1 ∈ citationKeys) {key : String} (hkey : key ∈ citationKeys) :
    (citationItem fields).getObjectItem (bytes key) = (fields.lookup key).map JsonValue.item := by
  induction fields with
  | nil => rfl
  | cons m fields ih =>
      rw [List.forall_mem_cons] at hkeys
      have hrest := ih hkeys.2
      have hfirst := citationKeys_distinct m.1 hkeys.1 key hkey
      simp only [citationItem, CJson.getObjectItem] at hrest ⊢
      rw [List.map_cons, List.find?_cons, hfirst, List.lookup_cons]
      cases key == m.1
      · exact hrest
      · rfl

/-- Where each key has a list of its own, a lookup finds the value in the list of the key. -/
theorem lookup_flatMap {ι β : Type*} {f : ι → List (String × β)} {key : ι → String}
    (hkey : ∀ i, ∀ m ∈ f i, m.1 = key i) {l : List ι} (hdistinct : (l.map key).Nodup) {i : ι}
    (hi : i ∈ l) : (l.flatMap f).lookup (key i) = (f i).lookup (key i) := by
  have hother : ∀ j, key j ≠ key i → (f j).lookup (key i) = none := by
    intro j hne
    rw [List.lookup_eq_none_iff]
    intro m hm
    rw [hkey j m hm]
    exact bne_iff_ne.mpr hne.symm
  induction l with
  | nil => exact absurd hi List.not_mem_nil
  | cons j l ih =>
      rw [List.map_cons, List.nodup_cons] at hdistinct
      rw [List.flatMap_cons, List.lookup_append]
      rcases List.mem_cons.mp hi with rfl | hi
      · have hnone : (l.flatMap f).lookup (key i) = none := by
          rw [List.lookup_eq_none_iff]
          intro m hm
          obtain ⟨j, hj, hm⟩ := List.mem_flatMap.mp hm
          rw [hkey j m hm]
          refine bne_iff_ne.mpr fun heq => hdistinct.1 ?_
          rw [heq]
          exact List.mem_map_of_mem hj
        rw [hnone, Option.or_none]
      · have hne : key j ≠ key i := fun heq => hdistinct.1 (heq ▸ List.mem_map_of_mem hi)
        rw [hother j hne, Option.none_or, ih hdistinct.2 hi]

/-- What a node has for a key. -/
def fieldItem (node : CitationNode) (k : String × Field) : List (String × JsonValue) :=
  if k.2.IsText then textItem node k.1 k.2 else namesItem node k.1 k.2

/-- An object has its fields key by key. -/
theorem resultItem_eq_flatMap (node : CitationNode) :
    resultItem node = citationFields.flatMap (fieldItem node) := by
  have htext : ∀ k ∈ textKeys, k.2.IsText := by decide
  have htexts : textKeys.flatMap (fieldItem node) =
      textKeys.flatMap fun k => textItem node k.1 k.2 :=
    List.flatMap_congr fun k hk => if_pos (htext k hk)
  rw [citationFields, List.cons_append, List.flatMap_cons, List.flatMap_append, htexts,
    List.flatMap_singleton, resultItem, List.append_assoc]
  rfl

/-- The items of a key are under it. -/
theorem fst_of_mem_fieldItem (node : CitationNode) (k : String × Field) :
    ∀ m ∈ fieldItem node k, m.1 = k.1 := by
  intro m hm
  unfold fieldItem textItem namesItem at hm
  split at hm <;> split at hm <;> simp_all

/-- The item that `cJSON_GetObjectItem` gives for a key of a citation: that of its field, if the
field is shown. -/
theorem getObjectItem_resultItem (node : CitationNode) {k : String × Field}
    (hk : k ∈ citationFields) :
    (citationItem (resultItem node)).getObjectItem (bytes k.1) =
      ((fieldItem node k).lookup k.1).map JsonValue.item := by
  have hkeys : ∀ m ∈ resultItem node, m.1 ∈ citationKeys := by
    intro m hm
    rw [resultItem_eq_flatMap] at hm
    obtain ⟨k, hk, hm⟩ := List.mem_flatMap.mp hm
    rw [fst_of_mem_fieldItem node k m hm]
    exact List.mem_map_of_mem hk
  rw [getObjectItem_citationItem hkeys (List.mem_map_of_mem hk), resultItem_eq_flatMap,
    lookup_flatMap (fst_of_mem_fieldItem node) (by decide) hk]

end CiteParser
