import CiteParser.Core.CString

/-!
# Items of a JSON text

The tree that `cjson.c` builds and prints. An item points to C strings, so the bytes of a
string or of a name are none of them zero. Numbers are doubles and not among the items.
-/

namespace CiteParser

/-- A C string by itself. -/
structure CText where
  bytes : List UInt8
  nonzero : ∀ c ∈ bytes, c ≠ 0
  deriving DecidableEq

/-- The string that starts at a buffer, as `cJSON_strdup` copies it. -/
def CText.of (buf : List UInt8) : CText := ⟨cstr buf, fun _ => ne_zero_of_mem_cstr⟩

@[simp] theorem CText.bytes_of (buf : List UInt8) : (CText.of buf).bytes = cstr buf := rfl

/-- A string is the one that starts at its bytes. -/
@[simp] theorem CText.of_bytes (s : CText) : CText.of s.bytes = s := by
  obtain ⟨bytes, hnonzero⟩ := s
  simp only [of, cstr_eq_self hnonzero]

/-- `struct cJSON`: an item by its type. The chain of `child` is a list, with the names of the
items in it when they are those of an object. -/
inductive CJson where
  | nullItem
  | falseItem
  | trueItem
  | string (valuestring : CText)
  | array (child : List CJson)
  | object (child : List (CText × CJson))

namespace CJson

/-- Induction along an item: over the chain of an array, and over that of an object. -/
theorem induct {P : CJson → Prop} (hnull : P .nullItem) (hfalse : P .falseItem)
    (htrue : P .trueItem) (hstring : ∀ s, P (.string s))
    (harray : ∀ child, (∀ v ∈ child, P v) → P (.array child))
    (hobject : ∀ child, (∀ m ∈ child, P m.2) → P (.object child)) (v : CJson) : P v :=
  @CJson.rec P (fun child => ∀ v ∈ child, P v) (fun child => ∀ m ∈ child, P m.2)
    (fun m => P m.2) hnull hfalse htrue hstring harray hobject
    (fun _ hv => absurd hv List.not_mem_nil)
    (fun _ _ hv hrest => List.forall_mem_cons.mpr ⟨hv, hrest⟩)
    (fun _ hm => absurd hm List.not_mem_nil)
    (fun _ _ hm hrest => List.forall_mem_cons.mpr ⟨hm, hrest⟩)
    (fun _ _ hv => hv) v

mutual

/-- The strings and the names of an item. -/
def texts : CJson → List CText
  | .string valuestring => [valuestring]
  | .array child => arrayTexts child
  | .object child => objectTexts child
  | _ => []

/-- Those of the items of an array. -/
def arrayTexts : List CJson → List CText
  | [] => []
  | v :: rest => v.texts ++ arrayTexts rest

/-- Those of the names and the items of an object. -/
def objectTexts : List (CText × CJson) → List CText
  | [] => []
  | m :: rest => m.1 :: m.2.texts ++ objectTexts rest

end

theorem arrayTexts_eq (child : List CJson) : arrayTexts child = child.flatMap texts := by
  induction child with
  | nil => rfl
  | cons v rest ih => rw [arrayTexts, ih, List.flatMap_cons]

theorem objectTexts_eq (child : List (CText × CJson)) :
    objectTexts child = child.flatMap fun m => m.1 :: m.2.texts := by
  induction child with
  | nil => rfl
  | cons m rest ih => rw [objectTexts, ih, List.flatMap_cons]

/-- `cJSON_GetObjectItem`: the first child whose name is `string`, whatever the case. -/
def getObjectItem (object : CJson) (string : List UInt8) : Option CJson :=
  match object with
  | .object child => (child.find? fun m => strcasecmpEq m.1.bytes string).map (·.2)
  | _ => none

/-- `cJSON_GetArrayItem` of an array. -/
def getArrayItem (array : CJson) (item : Nat) : Option CJson :=
  match array with
  | .array child => child[item]?
  | .object child => child[item]?.map (·.2)
  | _ => none

end CJson

end CiteParser
