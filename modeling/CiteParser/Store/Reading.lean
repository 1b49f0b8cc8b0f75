import CiteParser.Core.Markup
import CiteParser.Store.Strip

/-!
# Files that read as documents

What `parseFile` takes the bytes at a place for depends on the file alone, not on the stack.
A file reads as a document when its start tags and end tags pair up. If `parseFile` accepts
such a file, no push was refused or wrapped on the way: every end tag was met by its own
element, so the words kept for the characters are exactly the stacks of the enclosing ids.
-/

namespace CiteParser

open Loop

/-- From the first place up to the second one the file reads as the document. -/
inductive ReadsAs (repo : TokenRepo) (content : Nat → UInt8) (flen : Nat) :
    Nat → Markup Nat UInt8 → Nat → Prop where
  | nil (i : Nat) : ReadsAs repo content flen i .nil i
  | char {i j k : Nat} {c : UInt8} {rest : Markup Nat UInt8} (hi : i < flen)
      (hchar : event repo content i = (.char c, j)) (hrest : ReadsAs repo content flen j rest k) :
      ReadsAs repo content flen i (.char c rest) k
  | elem {i j k l m id : Nat} {body rest : Markup Nat UInt8} (hi : i < flen)
      (hstart : event repo content i = (.start id, j)) (hbody : ReadsAs repo content flen j body k)
      (hk : k < flen) (hstop : event repo content k = (.stop id, l))
      (hrest : ReadsAs repo content flen l rest m) :
      ReadsAs repo content flen i (.elem id body rest) m

/-- The whole file reads as the document. -/
def IsDocument (repo : TokenRepo) (content : Nat → UInt8) (flen : Nat) (d : Markup Nat UInt8) :
    Prop :=
  ∃ k, ReadsAs repo content flen 0 d k ∧ ¬ k < flen

section Events

variable {repo : TokenRepo} {content : Nat → UInt8} {flen : Nat} {s : ParseState} {i id : Nat}

/-- The tags that are found are those of ids. -/
theorem isId_of_findTag {start j : Nat} (h : findTag repo content i start = some (j, id)) :
    IsId id := by
  have hbound (tkname : List UInt8) (len : Nat) : getTokenId repo tkname len < TOKEN_MAX_LEN := by
    rw [getTokenId]
    split
    · rw [token2Id]
      cases hfind : (List.range TOKEN_MAX_LEN).find? fun i => repo.tokens i == _ with
      | none => exact Nat.succ_pos 19
      | some k => exact List.mem_range.mp (List.mem_of_find?_eq_some hfind)
    · exact Nat.succ_pos 19
  obtain ⟨k, -, hk⟩ := List.exists_of_findSome?_eq_some h
  simp only at hk
  split_ifs at hk with hgt hne
  simp only [Option.some.injEq, Prod.mk.injEq] at hk
  rw [← hk.2]
  exact ⟨Nat.pos_of_ne_zero hne, hbound _ _⟩

/-- The ids of start tags are ids. -/
theorem isId_of_event_start {j : Nat} (h : event repo content i = (.start id, j)) : IsId id := by
  unfold event at h
  split at h
  · split at h
    · split at h <;> simp at h
    · split at h
      · rename_i hfind
        simp only [Prod.mk.injEq, Event.start.injEq] at h
        rw [← h.1]
        exact isId_of_findTag hfind
      · simp at h
  · simp at h

/-- The loop is left with success only at the end of the file. -/
theorem exits_end (hend : ¬ s.i < flen) {out : ParseState}
    (h : Exits (parsePass repo content flen) s (1, out)) : out = s :=
  (congrArg Prod.snd (h.exit (parsePass_end hend))).symm

end Events

/-- What a run that is to succeed has made of a document inside the elements of the stack. Each
push that was refused has cost an element of the stack; if there was none, the stacks of the
characters are in the words. -/
structure Follows (d : Markup Nat UInt8) (stack : List Nat) (s s' : ParseState) (refused : Nat) :
    Prop where
  nowTag : s'.nowTag = pack (stack.drop refused)
  pcontent : s'.pcontent = s.pcontent ++ d.text
  tags : refused = 0 → s'.tags = s.tags ++ (d.scopes stack).map pack
  fits : refused = 0 → ∀ scope ∈ d.scopes stack, Fits scope

section Follows

variable {body rest : Markup Nat UInt8} {stack stack' : List Nat} {s s₁ s' : ParseState}
  {id n lost refused : Nat}

/-- A character is kept with the stack it stands in, then the rest follows. -/
theorem Follows.char {c : UInt8} {j : Nat} (hfits : Fits stack) (htag : s.nowTag = pack stack)
    (h : Follows rest stack
      ⟨j, s.nowTag, s.pcontent ++ [c], s.offset ++ [s.i], s.tags ++ [s.nowTag]⟩ s' refused) :
    Follows (.char c rest) stack s s' refused where
  nowTag := h.nowTag
  pcontent := by
    rw [h.pcontent, Markup.text, List.append_assoc]
    rfl
  tags := by
    intro hzero
    rw [h.tags hzero, htag, Markup.scopes, List.append_assoc]
    rfl
  fits := fun hzero => List.forall_mem_cons.mpr ⟨hfits, h.fits hzero⟩

/-- An element whose end tag has cost the stack `n` elements, then what stands behind it. -/
theorem Follows.elem {j l : Nat} (hnone : n = 0 → lost = 0 ∧ stack' = id :: stack)
    (hbody : Follows body stack' { s with i := j, nowTag := pack stack' } s₁ lost)
    (hrest : Follows rest (stack.drop n) { s₁ with i := l, nowTag := pack (stack.drop n) } s'
      refused) :
    Follows (.elem id body rest) stack s s' (n + refused) where
  nowTag := by rw [hrest.nowTag, List.drop_drop]
  pcontent := by rw [hrest.pcontent, hbody.pcontent, Markup.text, List.append_assoc]
  tags := by
    intro hzero
    obtain ⟨rfl, rfl⟩ := Nat.add_eq_zero_iff.mp hzero
    obtain ⟨rfl, rfl⟩ := hnone rfl
    rw [hrest.tags rfl, hbody.tags rfl, Markup.scopes, List.map_append, List.append_assoc]
    rfl
  fits := by
    intro hzero
    obtain ⟨rfl, rfl⟩ := Nat.add_eq_zero_iff.mp hzero
    obtain ⟨rfl, rfl⟩ := hnone rfl
    exact List.forall_mem_append.mpr ⟨hbody.fits rfl, hrest.fits rfl⟩

end Follows

/-- What an element and its end tag leave of the stack below it. -/
theorem below_of_drop {stack stack' below : List Nat} {lost id : Nat}
    (hpush : stack' = id :: stack ∨ stack' = stack ∨ id ∉ stack')
    (hdrop : stack'.drop lost = id :: below) :
    ∃ n, n ≤ stack.length ∧ below = stack.drop n ∧ (n = 0 → lost = 0 ∧ stack' = id :: stack) := by
  have hcut {l : List Nat} {n : Nat} (h : l.drop n = id :: below) :
      n + 1 ≤ l.length ∧ below = l.drop (n + 1) := by
    have hlen := congrArg List.length h
    rw [List.length_drop, List.length_cons] at hlen
    exact ⟨by omega, by rw [← List.tail_drop, h, List.tail_cons]⟩
  rcases hpush with rfl | rfl | hnot
  · cases lost with
    | zero => exact ⟨0, Nat.zero_le _, (List.cons_eq_cons.mp hdrop).2.symm, fun _ => ⟨rfl, rfl⟩⟩
    | succ n =>
        obtain ⟨hle, hbelow⟩ := @hcut stack n hdrop
        exact ⟨n + 1, hle, hbelow, fun h => absurd h (Nat.succ_ne_zero n)⟩
  · obtain ⟨hle, hbelow⟩ := hcut hdrop
    exact ⟨lost + 1, hle, hbelow, fun h => absurd h (Nat.succ_ne_zero lost)⟩
  · exact absurd (List.mem_of_mem_drop (hdrop ▸ List.mem_cons_self)) hnot

/-- A run that succeeds goes through the document. -/
theorem ReadsAs.follows {repo : TokenRepo} {content : Nat → UInt8} {flen i k : Nat}
    {d : Markup Nat UInt8} (h : ReadsAs repo content flen i d k) {s : ParseState}
    (hi : s.i = i) {stack : List Nat} (hfits : Fits stack) (htag : s.nowTag = pack stack)
    {out : ParseState} (hexits : Exits (parsePass repo content flen) s (1, out)) :
    ∃ refused s', refused ≤ stack.length ∧ s'.i = k ∧
      Exits (parsePass repo content flen) s' (1, out) ∧ Follows d stack s s' refused := by
  induction h generalizing s stack with
  | nil i =>
      exact ⟨0, s, Nat.zero_le _, hi, hexits, by simpa using htag, by simp [Markup.text],
        fun _ => by simp [Markup.scopes], fun _ => by simp [Markup.scopes]⟩
  | @char i j k c rest hlt hchar _ ih =>
      subst hi
      have hpass : parsePass repo content flen s =
          .next ⟨j, s.nowTag, s.pcontent ++ [c], s.offset ++ [s.i], s.tags ++ [s.nowTag]⟩ := by
        rw [parsePass_eq hlt, hchar]
      obtain ⟨refused, s', hle, hi', hexits', hrest⟩ :=
        @ih ⟨j, s.nowTag, _, _, _⟩ rfl _ hfits htag (hexits.next hpass)
      exact ⟨refused, s', hle, hi', hexits', hrest.char hfits htag⟩
  | @elem i j k l m id body rest hlt hstart _ hkt hstop _ ihBody ihRest =>
      subst hi
      have hid := isId_of_event_start hstart
      have hopen : parsePass repo content flen s =
          .next { s with i := j, nowTag := (tokenPush s.nowTag id).2 } := by
        rw [parsePass_eq hlt, hstart]
      obtain ⟨stack', hfits', hpush, hstack'⟩ := hfits.tokenPush hid
      rw [htag, hpush] at hopen
      obtain ⟨lost, s₁, -, rfl, hexits₁, hbody⟩ :=
        @ihBody { s with i := j, nowTag := pack stack' } rfl _ hfits' rfl (hexits.next hopen)
      have hclose : parsePass repo content flen s₁ =
          if id ≠ (tokenPop s₁.nowTag).1 then .exit (0, s₁)
          else .next { s₁ with i := l, nowTag := (tokenPop s₁.nowTag).2 } := by
        rw [parsePass_eq hkt, hstop]
      by_cases hfit : id = (tokenPop s₁.nowTag).1
      · -- the end tag is met by its own id
        rw [if_neg (not_not.mpr hfit)] at hclose
        rw [hbody.nowTag] at hfit hclose
        obtain ⟨below, hdrop, hpop⟩ := (hfits'.drop lost).eq_cons_of_tokenPop hid.1 hfit
        obtain ⟨n, hn, rfl, hnone⟩ := below_of_drop hstack' hdrop
        rw [hpop] at hclose
        obtain ⟨refused, s', hle, hi', hexits', hrest⟩ :=
          @ihRest { s₁ with i := l, nowTag := pack (stack.drop n) } rfl _ (hfits.drop n) rfl
            (hexits₁.next hclose)
        rw [List.length_drop] at hle
        exact ⟨n + refused, s', by omega, hi', hexits', .elem hnone hbody hrest⟩
      · rw [if_pos hfit] at hclose
        have hzero := congrArg Prod.fst (hexits₁.exit hclose)
        contradiction

/-- The words kept for the characters of a document that is accepted are the stacks of the ids
around them. -/
theorem IsDocument.tags_eq {repo : TokenRepo} {content : Nat → UInt8} {flen : Nat}
    {d : Markup Nat UInt8} (h : IsDocument repo content flen d) {out : ParseState}
    (hexits : Exits (parsePass repo content flen) .start (1, out)) :
    out.pcontent = d.text ∧ out.tags = (d.scopes []).map pack ∧
      ∀ scope ∈ d.scopes [], Fits scope := by
  obtain ⟨k, hreads, hend⟩ := h
  obtain ⟨refused, s', hle, rfl, hexits', hfollows⟩ := hreads.follows rfl .nil rfl hexits
  rw [List.length_nil, Nat.le_zero] at hle
  subst hle
  rw [exits_end hend hexits']
  exact ⟨hfollows.pcontent, hfollows.tags rfl, hfollows.fits rfl⟩

section Documents

variable {entries : List (List UInt8 × Nat)} {content : Nat → UInt8} {flen : Nat}

/-- The document with the ids of its elements. -/
def Document.ids (d : Document entries) : Markup Nat UInt8 := d.mapElem Element.id

/-- Written out with names that are recognised, a document reads as itself. -/
theorem Registers.readsAs (h : Registers entries) (hflen : flen < 2 ^ 32) (d : Document entries)
    (hnames : ∀ e ∈ d.elements, Recognised entries e) (htext : ∀ c ∈ d.text, c ≠ '<'.toUInt8)
    {i : Nat} (hat : StandsAt content i (serialise d)) (hend : i + (serialise d).length ≤ flen) :
    ReadsAs (tokenInit entries) content flen i d.ids (i + (serialise d).length) := by
  induction d generalizing i with
  | nil => exact .nil i
  | char c rest ih =>
      obtain ⟨hc, hrest⟩ := standsAt_cons.mp hat
      obtain ⟨hne, htext⟩ := List.forall_mem_cons.mp htext
      have hlen := length_serialise_char c rest
      have hevent := event_char (tokenInit entries) hc hne (by omega)
      have hreads := ih hnames htext hrest (by omega)
      rw [hlen, ← Nat.add_assoc]
      exact .char (by omega) hevent hreads
  | elem e body rest ihBody ihRest =>
      obtain ⟨hstart, hbody, hclose, hrest⟩ := standsAt_serialise_elem.mp hat
      obtain ⟨htextBody, htextRest⟩ := List.forall_mem_append.mp htext
      obtain ⟨hname, hnames⟩ := List.forall_mem_cons.mp hnames
      obtain ⟨hnamesBody, hnamesRest⟩ := List.forall_mem_append.mp hnames
      have hlen := length_serialise_elem e body rest
      have hpos := length_tags_pos e
      have hinside := ihBody hnamesBody htextBody hbody (by omega)
      have hbehind := ihRest hnamesRest htextRest hrest
        (show i + _ + (serialise body).length + _ + _ ≤ flen by omega)
      rw [hlen, ← Nat.add_assoc, ← Nat.add_assoc, ← Nat.add_assoc]
      refine .elem (by omega) (hname.event_start h hstart (by omega)) hinside
        (show i + _ + (serialise body).length < flen by omega)
        (hname.event_stop h hclose
          (show i + _ + (serialise body).length + _ < 2 ^ 32 by omega))
        hbehind

/-- The file of a document that is annotated with such names is accepted and reads as it. -/
theorem Registers.accepts (h : Registers entries) {d : Document entries} (hd : Annotated d)
    (hnames : ∀ e ∈ d.elements, Recognised entries e) (hsize : (serialise d).length < 2 ^ 32)
    {vc : VirtualContent} (hparse : vc.noparse = false) (heap : Nat → UInt8) :
    (∃ vc', parseFile (tokenInit entries) vc (some (serialise d)) heap = some (1, vc')) ∧
      IsDocument (tokenInit entries) (fileBuffer (serialise d) (uint (serialise d).length) heap)
        (uint (serialise d).length) d.ids := by
  have hrun := h.run_document hnames hd hsize heap
  rw [← uint_of_lt hsize] at hrun
  obtain ⟨vc', hvc', -⟩ := parseFile_eq hparse hrun
  refine ⟨⟨vc', hvc'⟩, (serialise d).length, ?_, ?_⟩
  · rw [uint_of_lt hsize]
    have hreads := h.readsAs hsize d hnames hd.text_ne (standsAt_fileBuffer (serialise d) heap)
      (by rw [Nat.zero_add])
    rwa [Nat.zero_add] at hreads
  · rw [uint_of_lt hsize]
    exact Nat.lt_irrefl _

end Documents

end CiteParser
