import CiteParser.Core.Markup
import CiteParser.Store.TagNames

/-!
# Stripping the tags of a document

A file that is a document written out with the registered names as tags: `parseFile` follows
the document, one character, one start tag or one end tag a pass, with the packed stack
holding the elements that enclose the place it has reached.
-/

namespace CiteParser

/-- A registered name and its id. -/
abbrev Element (entries : List (List UInt8 × Nat)) := {e : List UInt8 × Nat // e ∈ entries}

/-- A document whose elements are registered. -/
abbrev Document (entries : List (List UInt8 × Nat)) := Markup (Element entries) UInt8

section Documents

variable {entries : List (List UInt8 × Nat)}

def Element.id (e : Element entries) : Nat := e.1.2

def startTag (e : Element entries) : List UInt8 := '<'.toUInt8 :: (e.1.1 ++ ['>'.toUInt8])

def endTag (e : Element entries) : List UInt8 :=
  '<'.toUInt8 :: '/'.toUInt8 :: (e.1.1 ++ ['>'.toUInt8])

/-- The bytes of the file that a document is written to. -/
def serialise (d : Document entries) : List UInt8 := d.write startTag endTag

theorem length_serialise_char (c : UInt8) (rest : Document entries) :
    (serialise (.char c rest)).length = 1 + (serialise rest).length :=
  Nat.add_comm _ 1

theorem length_serialise_elem (e : Element entries) (body rest : Document entries) :
    (serialise (.elem e body rest)).length = (startTag e).length +
      ((serialise body).length + ((endTag e).length + (serialise rest).length)) := by
  simp only [serialise, Markup.write, List.length_append]

/-- No tag is empty. -/
theorem length_tags_pos (e : Element entries) :
    0 < (startTag e).length ∧ 0 < (endTag e).length :=
  ⟨Nat.succ_pos _, Nat.succ_pos _⟩

/-- Where an element stands, its tags, its body and what follows stand one behind the other. -/
theorem standsAt_serialise_elem {src : Nat → UInt8} {i : Nat} {e : Element entries}
    {body rest : Document entries} :
    StandsAt src i (serialise (.elem e body rest)) ↔
      StandsAt src i (startTag e) ∧ StandsAt src (i + (startTag e).length) (serialise body) ∧
        StandsAt src (i + (startTag e).length + (serialise body).length) (endTag e) ∧
        StandsAt src (i + (startTag e).length + (serialise body).length + (endTag e).length)
          (serialise rest) := by
  rw [serialise, Markup.write, standsAt_append, standsAt_append, standsAt_append]
  rfl

/-- The text can be told from tags and the stack of enclosing ids fits its word. -/
structure Annotated (d : Document entries) : Prop where
  text_ne : ∀ c ∈ d.text, c ≠ '<'.toUInt8
  depth_le : d.depth ≤ 7

/-- What `parseFile` is to leave of a document: its text, offsets of the text in the file, and
for every character the ids of the elements around it. -/
structure Stripped (d : Document entries) (vc : VirtualContent) : Prop where
  pcontent : vc.pcontent = d.text
  offset_lt : vc.offset.Pairwise (· < ·)
  content : ∃ content, vc.content = some content ∧ vc.offset.map content = vc.pcontent
  tags : vc.tags.map (popAll 8) = (d.scopes []).map (List.map Element.id)

/-- `parseFile` succeeds on the file of a document and strips its tags. -/
def Strips (d : Document entries) : Prop :=
  ∀ (vc : VirtualContent) (heap : Nat → UInt8), vc.noparse = false →
    ∃ vc', parseFile (tokenInit entries) vc (some (serialise d)) heap = some (1, vc') ∧
      Stripped d vc'

/-- The state after some cells have been copied, with the counter and the stack moved on. -/
def ParseState.move (s : ParseState) (cells : List (Markup.Cell (Element entries) UInt8))
    (i : Nat) (nowTag : UInt32) : ParseState where
  i := i
  nowTag := nowTag
  pcontent := s.pcontent ++ cells.map Markup.Cell.char
  offset := s.offset ++ cells.map Markup.Cell.offset
  tags := s.tags ++ cells.map fun c => pack (c.enclosing.map Element.id)

/-- Nothing copied and nothing moved. -/
theorem ParseState.move_nil (s : ParseState) :
    s.move ([] : List (Markup.Cell (Element entries) UInt8)) s.i s.nowTag = s := by
  simp only [move, List.map_nil, List.append_nil]

/-- Some cells and then others. -/
theorem ParseState.move_move (s : ParseState)
    (cells more : List (Markup.Cell (Element entries) UInt8)) (i j : Nat) (t u : UInt32) :
    (s.move cells i t).move more j u = s.move (cells ++ more) j u := by
  simp only [move, List.append_assoc, List.map_append]

end Documents

section Passes

variable {entries : List (List UInt8 × Nat)} {content : Nat → UInt8} {flen : Nat}

/-- The ids of registered elements fit the stack. -/
theorem Registers.isId_elements (h : Registers entries) (stack : List (Element entries)) :
    ∀ id ∈ stack.map Element.id, IsId id := by
  intro id hid
  obtain ⟨e, -, rfl⟩ := List.mem_map.mp hid
  exact h.isId e.1 e.2

/-- A character of the text is taken for one. -/
theorem event_char (repo : TokenRepo) {i : Nat} {c : UInt8} (hc : content i = c)
    (hne : c ≠ '<'.toUInt8) (hend : i + 1 < 2 ^ 32) :
    event repo content i = (.char c, i + 1) := by
  rw [event, if_neg (by rwa [hc]), hc, uint_of_lt hend]

/-- A start tag is taken for one. -/
theorem Recognised.event_start {e : Element entries} (hr : Recognised entries e)
    (h : Registers entries) {i : Nat} (hat : StandsAt content i (startTag e))
    (hend : i + (startTag e).length < 2 ^ 32) :
    event (tokenInit entries) content i = (.start e.id, i + (startTag e).length) := by
  obtain ⟨hlt, hname⟩ := standsAt_cons.mp hat
  have hlen : (startTag e).length = e.1.1.length + 1 + 1 := by
    rw [startTag, List.length_cons, List.length_append, List.length_singleton]
  have hslash : content (uint (i + 1)) ≠ '/'.toUInt8 := by
    obtain ⟨c, name, hcons⟩ := List.exists_cons_of_ne_nil hr.ne_nil
    rw [hcons, List.cons_append] at hname
    rw [uint_of_lt (by omega), (standsAt_cons.mp hname).1]
    intro hc
    exact hr.head_ne (by rw [hcons, List.head?_cons, hc])
  have hfind := hr.findTag_name h e.2 hname (by omega)
  have hnext : uint (i + e.1.1.length + 1 + 1) = i + (startTag e).length := by
    rw [uint_of_lt (by omega), hlen]
    omega
  rw [event, if_pos hlt, if_neg hslash, hfind, ← hnext]
  rfl

/-- An end tag is taken for one. -/
theorem Recognised.event_stop {e : Element entries} (hr : Recognised entries e)
    (h : Registers entries) {i : Nat} (hat : StandsAt content i (endTag e))
    (hend : i + (endTag e).length < 2 ^ 32) :
    event (tokenInit entries) content i = (.stop e.id, i + (endTag e).length) := by
  obtain ⟨hlt, hrest⟩ := standsAt_cons.mp hat
  obtain ⟨hslash, hname⟩ := standsAt_cons.mp hrest
  have hlen : (endTag e).length = e.1.1.length + 2 + 1 := by
    rw [endTag, List.length_cons, List.length_cons, List.length_append, List.length_singleton]
  have hfind : findTag (tokenInit entries) content i 2 = some (e.1.1.length, e.1.2) :=
    hr.findTag_name h e.2 hname (by omega)
  have hnext : uint (i + e.1.1.length + 2 + 1) = i + (endTag e).length := by
    rw [uint_of_lt (by omega), hlen]
    omega
  rw [event, if_pos hlt, if_pos (by rwa [uint_of_lt (by omega)]), hfind, ← hnext]
  rfl

/-- The pass over a character. -/
theorem pass_char (repo : TokenRepo) {s : ParseState} {c : UInt8}
    {stack : List (Element entries)} (hc : content s.i = c) (hne : c ≠ '<'.toUInt8)
    (hend : s.i + 1 ≤ flen) (hflen : flen < 2 ^ 32)
    (htag : s.nowTag = pack (stack.map Element.id)) :
    parsePass repo content flen s = .next (s.move [⟨c, s.i, stack⟩] (s.i + 1) s.nowTag) := by
  rw [parsePass_eq (by omega), event_char repo hc hne (by omega)]
  simp only [ParseState.move, List.map_cons, List.map_nil, ← htag]

/-- The pass over a start tag. -/
theorem Recognised.pass_start {e : Element entries} (hr : Recognised entries e)
    (h : Registers entries) {s : ParseState} {stack : List (Element entries)}
    (hat : StandsAt content s.i (startTag e)) (hend : s.i + (startTag e).length ≤ flen)
    (hflen : flen < 2 ^ 32) (htag : s.nowTag = pack (stack.map Element.id))
    (hdepth : stack.length < 7) :
    parsePass (tokenInit entries) content flen s =
      .next (s.move ([] : List (Markup.Cell (Element entries) UInt8))
        (s.i + (startTag e).length) (pack ((e :: stack).map Element.id))) := by
  have hpos : 0 < (startTag e).length := Nat.succ_pos _
  have hpush := tokenPush_pack (h.isId_elements (e :: stack))
    (by rw [List.length_map]; exact hdepth)
  rw [parsePass_eq (by omega), hr.event_start h hat (by omega)]
  simp only [ParseState.move, List.map_nil, List.append_nil, List.map_cons, htag, hpush]

/-- The pass over the end tag of the innermost element. -/
theorem Recognised.pass_end {e : Element entries} (hr : Recognised entries e)
    (h : Registers entries) {s : ParseState} {stack : List (Element entries)}
    (hat : StandsAt content s.i (endTag e)) (hend : s.i + (endTag e).length ≤ flen)
    (hflen : flen < 2 ^ 32) (htag : s.nowTag = pack ((e :: stack).map Element.id))
    (hdepth : stack.length < 7) :
    parsePass (tokenInit entries) content flen s =
      .next (s.move ([] : List (Markup.Cell (Element entries) UInt8))
        (s.i + (endTag e).length) (pack (stack.map Element.id))) := by
  have hpos : 0 < (endTag e).length := Nat.succ_pos _
  have hpop : tokenPop (pack (e.id :: stack.map Element.id)) = _ :=
    (fits_of_length_le (h.isId_elements (e :: stack))
      (by rw [List.length_map]; exact hdepth)).tokenPop
  rw [parsePass_eq (by omega), hr.event_stop h hat (by omega)]
  simp only [ParseState.move, List.map_nil, List.append_nil, htag, List.map_cons, hpop, ne_eq,
    not_true_eq_false, if_false]

/-- The passes over a document: its cells are copied and the stack is as before. -/
theorem Registers.passes (h : Registers entries) (hflen : flen < 2 ^ 32)
    (d : Document entries) (hnames : ∀ e ∈ d.elements, Recognised entries e)
    (htext : ∀ c ∈ d.text, c ≠ '<'.toUInt8) (s : ParseState) (stack : List (Element entries))
    (hdepth : stack.length + d.depth ≤ 7) (hat : StandsAt content s.i (serialise d))
    (hend : s.i + (serialise d).length ≤ flen) (htag : s.nowTag = pack (stack.map Element.id)) :
    ∃ n, n ≤ (serialise d).length ∧
      Loop.Passes (parsePass (tokenInit entries) content flen) n s
        (s.move (d.cells startTag endTag s.i stack) (s.i + (serialise d).length) s.nowTag) := by
  induction d generalizing s stack with
  | nil => exact ⟨0, Nat.le_refl 0, s.move_nil.symm⟩
  | char c rest ih =>
      obtain ⟨hc, hrest⟩ := standsAt_cons.mp hat
      obtain ⟨hne, htext⟩ := List.forall_mem_cons.mp htext
      have hlen := length_serialise_char c rest
      have hfirst := pass_char (tokenInit entries) hc hne (by omega) hflen htag
      obtain ⟨n, hn, hpasses⟩ := ih hnames htext (s.move _ _ _) stack hdepth hrest
        (show s.i + 1 + _ ≤ flen by omega) htag
      rw [ParseState.move_move] at hpasses
      refine ⟨n + 1, by omega, .cons hfirst ?_⟩
      rw [hlen, ← Nat.add_assoc]
      exact hpasses
  | elem e body rest ihBody ihRest =>
      obtain ⟨hstart, hbody, hclose, hrest⟩ := standsAt_serialise_elem.mp hat
      obtain ⟨htextBody, htextRest⟩ := List.forall_mem_append.mp htext
      obtain ⟨hname, hnames⟩ := List.forall_mem_cons.mp hnames
      obtain ⟨hnamesBody, hnamesRest⟩ := List.forall_mem_append.mp hnames
      rw [Markup.depth] at hdepth
      have hlen := length_serialise_elem e body rest
      have hpos := length_tags_pos e
      -- the start tag leaves the element on the stack
      have hfirst := hname.pass_start h hstart (by omega) hflen htag (by omega)
      obtain ⟨n, hn, hinside⟩ := ihBody hnamesBody htextBody
        (s.move [] (s.i + _) (pack ((e :: stack).map Element.id))) (e :: stack)
        (by rw [List.length_cons]; omega) hbody (show s.i + _ + _ ≤ flen by omega) rfl
      rw [ParseState.move_move, List.nil_append] at hinside
      -- the end tag takes it off again
      have hlast := @Recognised.pass_end _ _ _ e hname h
        (s.move (body.cells startTag endTag (s.i + (startTag e).length) (e :: stack))
          (s.i + _ + _) (pack ((e :: stack).map Element.id)))
        stack hclose (show s.i + _ + (serialise body).length + _ ≤ flen by omega) hflen rfl
        (by omega)
      rw [ParseState.move_move, List.append_nil] at hlast
      obtain ⟨m, hm, hbehind⟩ := ihRest hnamesRest htextRest
        (s.move (body.cells startTag endTag (s.i + (startTag e).length) (e :: stack))
          (s.i + _ + _ + _) (pack (stack.map Element.id)))
        stack (by omega) hrest
        (show s.i + _ + (serialise body).length + _ + _ ≤ flen by omega) rfl
      rw [ParseState.move_move] at hbehind
      refine ⟨n + (m + 1) + 1, by omega, .cons hfirst (hinside.append (.cons hlast ?_))⟩
      rw [hlen, htag, ← Nat.add_assoc, ← Nat.add_assoc, ← Nat.add_assoc]
      exact hbehind

end Passes

section Runs

variable {entries : List (List UInt8 × Nat)} {d : Document entries}

/-- The loop copies the cells of the document and ends with success. -/
theorem Registers.run_document (h : Registers entries)
    (hnames : ∀ e ∈ d.elements, Recognised entries e) (hd : Annotated d)
    (hsize : (serialise d).length < 2 ^ 32) (heap : Nat → UInt8) :
    Loop.run (parsePass (tokenInit entries)
        (fileBuffer (serialise d) (serialise d).length heap) (serialise d).length)
        ((serialise d).length + 1) .start =
      some (1, ParseState.start.move (d.cells startTag endTag 0 []) (serialise d).length 0) := by
  obtain ⟨n, hn, hpasses⟩ := h.passes hsize d hnames hd.text_ne .start []
    (by rw [List.length_nil, Nat.zero_add]; exact hd.depth_le)
    (standsAt_fileBuffer (serialise d) heap) (show 0 + _ ≤ _ by omega) rfl
  have hrun := hpasses.run_eq ((serialise d).length - n + 1)
  rw [show (serialise d).length - n + 1 + n = (serialise d).length + 1 by omega,
    show ParseState.start.i + (serialise d).length = (serialise d).length from Nat.zero_add _]
    at hrun
  rw [hrun]
  exact Loop.run_exit (parsePass_end (Nat.lt_irrefl _)) _

/-- Below the size at which the counters wrap, `parseFile` strips the tags of every document
whose element names are recognised. -/
theorem strips_of_recognised (h : Registers entries) (hd : Annotated d)
    (hnames : ∀ e ∈ d.elements, Recognised entries e)
    (hsize : (serialise d).length + 1 < 2 ^ 32) : Strips d := by
  intro vc heap hparse
  have hflen : uint (serialise d).length = (serialise d).length := uint_of_lt (by omega)
  have hrun := h.run_document hnames hd (by omega) heap
  rw [← hflen] at hrun
  obtain ⟨vc', hvc', hcontent, hpcontent, hoffset, htags⟩ := parseFile_eq hparse hrun
  rw [hflen] at hcontent
  refine ⟨vc', hvc', ?_⟩
  constructor
  · rw [hpcontent]
    exact d.map_char_cells startTag endTag 0 []
  · rw [hoffset]
    exact d.pairwise_offset_cells startTag endTag 0 []
  · refine ⟨_, hcontent, ?_⟩
    rw [hoffset, hpcontent]
    apply (List.map_map ..).trans
    apply List.map_congr_left
    intro c hc
    exact Markup.char_of_mem_cells (standsAt_fileBuffer (serialise d) heap) hc
  · rw [htags, ← d.map_enclosing_cells startTag endTag 0 [], List.map_map]
    apply (List.map_map ..).trans
    apply List.map_congr_left
    intro c hc
    have hlen : (c.enclosing.map Element.id).length ≤ 7 := by
      rw [List.length_map]
      exact (Markup.length_enclosing_le startTag endTag hc).trans
        (by rw [List.length_nil, Nat.zero_add]; exact hd.depth_le)
    exact (fits_of_length_le (h.isId_elements c.enclosing) hlen).popAll

theorem refA_mem : (bytes "RefA", 1) ∈ tokenIni := by decide

/-- `<RefA><author>A</author>.</RefA>` with the names of `token.ini`. -/
def referenceArea : Document tokenIni :=
  .elem ⟨(bytes "RefA", 1), refA_mem⟩
    (.elem ⟨(bytes "author", 3), by decide⟩ (.char 'A'.toUInt8 .nil) (.char '.'.toUInt8 .nil))
    .nil

theorem strips_referenceArea : Strips referenceArea :=
  strips_of_recognised (by decide +kernel) ⟨by decide +kernel, by decide +kernel⟩
    (by decide +kernel) (by decide +kernel)

/-- What a run on a fresh module leaves when the tags are stripped. -/
theorem Strips.fresh (h : Strips d) :
    (parseFile (tokenInit entries) initContent (some (serialise d)) fun _ => 0).map
        (fun r => (r.1, r.2.pcontent, r.2.tags.map (popAll 8))) =
      some (1, d.text, (d.scopes []).map (List.map Element.id)) := by
  obtain ⟨vc', hrun, hstripped⟩ := h initContent (fun _ => 0) rfl
  rw [hrun, Option.map_some, hstripped.pcontent, hstripped.tags]

/-- A file whose length wraps to 0 is taken for an empty one. -/
theorem not_strips_of_wrap {text : List UInt8} (hwrap : uint text.length = 0)
    (htext : text ≠ []) : ¬ Strips (Markup.plain text : Document entries) := by
  intro h
  have hloop : Loop.run (parsePass (tokenInit entries)
      (fileBuffer text (uint text.length) fun _ => 0) (uint text.length))
      (uint text.length + 1) .start = some (1, .start) := by
    rw [hwrap]
    exact Loop.run_exit (parsePass_end (Nat.lt_irrefl 0)) 0
  obtain ⟨vc', hvc', -, hpcontent, -, -⟩ := @parseFile_eq _ initContent _ _ rfl _ _ hloop
  have hfresh := h.fresh
  rw [serialise, Markup.write_plain, hvc', Markup.text_plain, Option.map_some, hpcontent,
    Option.some.injEq, Prod.mk.injEq, Prod.mk.injEq] at hfresh
  exact htext hfresh.2.1.symm

/-- A document of one character inside one element. -/
def single (e : Element entries) : Document entries := .elem e (.char 'x'.toUInt8 .nil) .nil

theorem annotated_single (e : Element entries) : Annotated (single e) where
  text_ne := by
    intro c hc
    rw [List.mem_singleton.mp hc]
    decide
  depth_le := by
    simp only [single, Markup.depth]
    decide

end Runs

/-- Registration alone is not enough: not for a name that begins like an end tag, an empty
name, a name that another one cuts short, a name under two ids, or a file of `2 ^ 32` bytes. -/
theorem not_strips_registered :
    (∃ e : Element [(bytes "/a", 3)], Registers [(bytes "/a", 3)] ∧
      Annotated (single e) ∧ ¬ Strips (single e)) ∧
    (∃ e : Element [(bytes "", 3)], Registers [(bytes "", 3)] ∧
      Annotated (single e) ∧ ¬ Strips (single e)) ∧
    (∃ e : Element [(bytes "a", 1), (bytes "a>b", 2)],
      Registers [(bytes "a", 1), (bytes "a>b", 2)] ∧
      Annotated (single e) ∧ ¬ Strips (single e)) ∧
    (∃ e : Element [(bytes "a", 1), (bytes "a", 2)],
      Registers [(bytes "a", 1), (bytes "a", 2)] ∧
      Annotated (single e) ∧ ¬ Strips (single e)) ∧
    ∃ d : Document tokenIni, Registers tokenIni ∧ Annotated d ∧ ¬ Strips d := by
  refine ⟨⟨⟨(bytes "/a", 3), by decide⟩, by decide, annotated_single _, fun h => ?_⟩,
    ⟨⟨(bytes "", 3), by decide⟩, by decide, annotated_single _, fun h => ?_⟩,
    ⟨⟨(bytes "a>b", 2), by decide⟩, by decide, annotated_single _, fun h => ?_⟩,
    ⟨⟨(bytes "a", 2), by decide⟩, by decide, annotated_single _, fun h => ?_⟩,
    ⟨Markup.plain (List.replicate (2 ^ 32) 'x'.toUInt8), by decide, ?_, ?_⟩⟩
  · exact absurd h.fresh (by decide +kernel)
  · exact absurd h.fresh (by decide +kernel)
  · exact absurd h.fresh (by decide +kernel)
  · exact absurd h.fresh (by decide +kernel)
  · constructor
    · intro c hc
      rw [Markup.text_plain] at hc
      rw [List.eq_of_mem_replicate hc]
      decide
    · rw [Markup.depth_plain]
      exact Nat.zero_le 7
  · apply not_strips_of_wrap
    · rw [List.length_replicate, uint, Nat.mod_self]
    · exact List.ne_nil_of_length_pos (by rw [List.length_replicate]; exact Nat.two_pow_pos 32)

end CiteParser
