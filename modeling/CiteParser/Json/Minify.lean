import CiteParser.Core.InPlace
import CiteParser.Core.Loop
import CiteParser.Json.Print

/-!
# Minifying a text

`cJSON_Minify` of `cjson.c` takes the blanks and the comments out of a text, in the buffer the
text stands in. On a formatted text that `cJSON_Print` has made this gives the unformatted one.
-/

namespace CiteParser.CJson

/-- The loop that `cJSON_Minify` is in. -/
inductive MinifyLoop where
  | text
  | line
  | block
  | string
  deriving DecidableEq, Repr

/-- The blanks between the tokens of a text. -/
def isMinifyBlank (c : UInt8) : Bool :=
  c == ' '.toUInt8 || c == '\t'.toUInt8 || c == '\r'.toUInt8 || c == '\n'.toUInt8

/-- The buffer of `cJSON_Minify`, which ends with the terminator, and its two pointers. -/
structure Minifying where
  buf : List UInt8
  json : Nat
  into : Nat
  loop : MinifyLoop
  deriving DecidableEq, Repr

/-- `json += n`. -/
def Minifying.skip (s : Minifying) (n : Nat) : Minifying := { s with json := s.json + n }

/-- `*into++=*json++`. -/
def Minifying.copy (s : Minifying) : Minifying :=
  { s with
    buf := s.buf.set s.into (s.buf.getD s.json 0), json := s.json + 1, into := s.into + 1 }

/-- One pass of the loop it is in. The value is the buffer at the end, or `none` when a character
behind the terminator is read. -/
def minifyPass (s : Minifying) : Loop.Outcome Minifying (Option (List UInt8)) :=
  match s.buf[s.json]? with
  | none => .exit none
  | some c =>
      match s.loop with
      | .text =>
          if c = 0 then .exit (some (s.buf.set s.into 0))
          else if isMinifyBlank c then .next (s.skip 1)
          else if c = '/'.toUInt8 ∧ s.buf[s.json + 1]? = some '/'.toUInt8 then
            .next { s with loop := .line }
          else if c = '/'.toUInt8 ∧ s.buf[s.json + 1]? = some '*'.toUInt8 then
            .next { s with loop := .block }
          else if c = '"'.toUInt8 then .next { s.copy with loop := .string }
          else .next s.copy
      | .line =>
          if c ≠ 0 ∧ c ≠ '\n'.toUInt8 then .next (s.skip 1) else .next { s with loop := .text }
      | .block =>
          if c ≠ 0 ∧ ¬ (c = '*'.toUInt8 ∧ s.buf[s.json + 1]? = some '/'.toUInt8) then
            .next (s.skip 1)
          else .next { s.skip 2 with loop := .text }
      | .string =>
          if c ≠ 0 ∧ c ≠ '"'.toUInt8 then
            if c = '\\'.toUInt8 then .next s.copy.copy else .next s.copy
          else .next { s.copy with loop := .text }

/-- What is left of a text, from the loop that its beginning is read in; `none` when it ends
inside a string or a comment that is to be closed. -/
def minifyFrom : MinifyLoop → List UInt8 → Option (List UInt8)
  | .text, [] => some []
  | .text, c :: rest =>
      if isMinifyBlank c then minifyFrom .text rest
      else if c = '/'.toUInt8 ∧ rest.head? = some '/'.toUInt8 then minifyFrom .line rest
      else if c = '/'.toUInt8 ∧ rest.head? = some '*'.toUInt8 then minifyFrom .block rest
      else if c = '"'.toUInt8 then (minifyFrom .string rest).map (c :: ·)
      else (minifyFrom .text rest).map (c :: ·)
  | .line, [] => some []
  | .line, c :: rest =>
      if c = '\n'.toUInt8 then minifyFrom .text rest else minifyFrom .line rest
  | .block, [] => none
  | .block, [_] => none
  | .block, c :: d :: rest =>
      if c = '*'.toUInt8 ∧ d = '/'.toUInt8 then minifyFrom .text rest
      else minifyFrom .block (d :: rest)
  | .string, [] => none
  | .string, c :: rest =>
      if c = '"'.toUInt8 then (minifyFrom .text rest).map (c :: ·)
      else if c = '\\'.toUInt8 then
        match rest with
        | [] => none
        | d :: rest => (minifyFrom .string rest).map fun out => c :: d :: out
      else (minifyFrom .string rest).map (c :: ·)

/-- A text without its blanks and comments. -/
def minify (text : List UInt8) : Option (List UInt8) := minifyFrom .text text

/-! ## The loop in the buffer -/

section Buffer

open Loop

/-- What the two pointers have between them: the written text, and the unread one with its
terminator. -/
structure Minifying.Holds (s : Minifying) (loop : MinifyLoop) (out rest : List UInt8) : Prop where
  loop_eq : s.loop = loop
  buffer : InPlace s.buf s.json s.into out (rest ++ [0])
  written : ∀ c ∈ out, c ≠ 0
  unread : ∀ c ∈ rest, c ≠ 0

/-- The terminator is no character that is looked for. -/
theorem head?_append_zero {rest : List UInt8} {d : UInt8} (hd : d ≠ 0) :
    (rest ++ [0])[0]? = some d ↔ rest.head? = some d := by
  cases rest with
  | nil => simp [hd.symm]
  | cons c rest => simp

namespace Minifying.Holds

variable {s : Minifying} {loop loop' : MinifyLoop} {out rest : List UInt8} {c d : UInt8}

/-- The character that is read. -/
theorem read (h : s.Holds loop out (c :: rest)) : s.buf[s.json]? = some c :=
  h.buffer.getElem? 0

/-- The character behind the one that is read. -/
theorem read_next (h : s.Holds loop out (c :: rest)) (hd : d ≠ 0) :
    s.buf[s.json + 1]? = some d ↔ rest.head? = some d := by
  rw [h.buffer.getElem? 1]
  exact head?_append_zero hd

theorem skip (h : s.Holds loop out (c :: rest)) : (s.skip 1).Holds loop out rest :=
  ⟨h.loop_eq, h.buffer.skip, h.written, (List.forall_mem_cons.mp h.unread).2⟩

theorem copy (h : s.Holds loop out (c :: rest)) : s.copy.Holds loop (out ++ [c]) rest where
  loop_eq := h.loop_eq
  buffer := by
    have hread : s.buf.getD s.json 0 = c := by rw [List.getD_eq_getElem?_getD, h.read]; rfl
    have hcopy := h.buffer.copy c
    unfold Minifying.copy
    rw [hread]
    exact hcopy
  written := List.forall_mem_append.mpr
    ⟨h.written, List.forall_mem_singleton.mpr (List.forall_mem_cons.mp h.unread).1⟩
  unread := (List.forall_mem_cons.mp h.unread).2

theorem enter (h : s.Holds loop out rest) (loop' : MinifyLoop) :
    { s with loop := loop' }.Holds loop' out rest :=
  ⟨rfl, h.buffer, h.written, h.unread⟩

/-- One pass over a character of the text. -/
theorem pass_cons (h : s.Holds loop out (c :: rest)) :
    minifyPass s = match loop with
      | .text =>
          if isMinifyBlank c then .next (s.skip 1)
          else if c = '/'.toUInt8 ∧ rest.head? = some '/'.toUInt8 then
            .next { s with loop := .line }
          else if c = '/'.toUInt8 ∧ rest.head? = some '*'.toUInt8 then
            .next { s with loop := .block }
          else if c = '"'.toUInt8 then .next { s.copy with loop := .string }
          else .next s.copy
      | .line => if c = '\n'.toUInt8 then .next { s with loop := .text } else .next (s.skip 1)
      | .block =>
          if c = '*'.toUInt8 ∧ rest.head? = some '/'.toUInt8 then
            .next { s.skip 2 with loop := .text }
          else .next (s.skip 1)
      | .string =>
          if c = '"'.toUInt8 then .next { s.copy with loop := .text }
          else if c = '\\'.toUInt8 then .next s.copy.copy else .next s.copy := by
  have hc : c ≠ 0 := (List.forall_mem_cons.mp h.unread).1
  have hslash := h.read_next (d := '/'.toUInt8) (by decide)
  have hstar := h.read_next (d := '*'.toUInt8) (by decide)
  unfold minifyPass
  rw [h.read, h.loop_eq]
  cases loop <;> simp only [hc, hslash, hstar, ne_eq, not_false_eq_true, true_and, ite_not,
    if_false]

/-- The pass that meets the terminator. -/
theorem pass_nil (h : s.Holds loop out []) :
    minifyPass s = match loop with
      | .text => .exit (some (s.buf.set s.into 0))
      | .line => .next { s with loop := .text }
      | .block => .next { s.skip 2 with loop := .text }
      | .string => .next { s.copy with loop := .text } := by
  have hread : s.buf[s.json]? = some 0 := h.buffer.getElem? 0
  unfold minifyPass
  rw [hread, h.loop_eq]
  cases loop <;> simp

/-- The terminator is the last character of the buffer. -/
theorem length_eq (h : s.Holds loop out []) : s.buf.length = s.json + 1 := by
  have hlen := congrArg List.length h.buffer.unread
  simp only [List.length_drop, List.nil_append, List.length_singleton] at hlen
  omega

end Minifying.Holds

/-- The loop leaves this string in the buffer, or reads behind the terminator. -/
def Leaves (s : Minifying) (text : Option (List UInt8)) : Prop :=
  ∃ r, Exits minifyPass s r ∧ r.map cstr = text

namespace Leaves

variable {s t : Minifying} {out : List UInt8} {text : Option (List UInt8)}

theorem of_next (hpass : minifyPass s = .next t) (h : Leaves t text) : Leaves s text := by
  obtain ⟨r, hexits, hr⟩ := h
  exact ⟨r, .of_next hpass hexits, hr⟩

/-- At the terminator what has been written is left. -/
theorem of_nil (h : s.Holds .text out []) : Leaves s (some out) := by
  refine ⟨_, .of_exit h.pass_nil, congrArg some ?_⟩
  have hinto : s.into < s.buf.length := by
    have hlen := h.length_eq
    have hbehind := h.buffer.behind
    omega
  rw [List.set_eq_take_append_cons_drop, if_pos hinto, h.buffer.written, cstr,
    List.takeWhile_append_of_pos]
  · exact List.append_nil out
  · exact fun c hc => bne_iff_ne.mpr (h.written c hc)

/-- Nothing is left when the terminator has been passed. -/
theorem of_past (h : s.buf.length ≤ s.json) : Leaves s none := by
  refine ⟨none, .of_exit ?_, rfl⟩
  unfold minifyPass
  rw [List.getElem?_eq_none h]

end Leaves

/-- What is written first comes first. -/
theorem map_append_cons (out : List UInt8) (c : UInt8) (text : Option (List UInt8)) :
    (text.map (c :: ·)).map (out ++ ·) = text.map (out ++ [c] ++ ·) := by
  rw [Option.map_map]
  exact congrArg (text.map ·) (funext fun more => List.append_cons out c more)

/-- The loop in the buffer leaves what the text comes down to. -/
theorem minifyPass_leaves (loop : MinifyLoop) (rest : List UInt8) {s : Minifying}
    {out : List UInt8} (h : s.Holds loop out rest) :
    Leaves s ((minifyFrom loop rest).map (out ++ ·)) := by
  fun_induction minifyFrom loop rest generalizing s out with
  | case1 => simpa only [Option.map_some, List.append_nil] using Leaves.of_nil h
  | case2 c rest hblank ih =>
      exact .of_next (h.pass_cons.trans (if_pos hblank)) (ih h.skip)
  | case3 c rest hblank hline ih =>
      have henter := h.enter .line
      refine .of_next (h.pass_cons.trans ((if_neg hblank).trans (if_pos hline))) ?_
      refine .of_next (henter.pass_cons.trans (if_neg ?_)) (ih henter.skip)
      exact hline.1 ▸ by decide
  | case4 c rest hblank hline hblock ih =>
      have henter := h.enter .block
      refine .of_next (h.pass_cons.trans
        ((if_neg hblank).trans ((if_neg hline).trans (if_pos hblock)))) ?_
      refine .of_next (henter.pass_cons.trans (if_neg fun hend => ?_)) (ih henter.skip)
      exact absurd (hblock.1.symm.trans hend.1) (by decide)
  | case5 rest hblank hline hblock ih =>
      rw [map_append_cons]
      exact .of_next (h.pass_cons.trans
        ((if_neg hblank).trans ((if_neg hline).trans ((if_neg hblock).trans (if_pos rfl)))))
        (ih (h.copy.enter .string))
  | case6 c rest hblank hline hblock hquote ih =>
      rw [map_append_cons]
      exact .of_next (h.pass_cons.trans
        ((if_neg hblank).trans ((if_neg hline).trans ((if_neg hblock).trans (if_neg hquote)))))
        (ih h.copy)
  | case7 =>
      refine .of_next h.pass_nil ?_
      simpa only [Option.map_some, List.append_nil] using Leaves.of_nil (h.enter .text)
  | case8 rest ih =>
      -- the line end is left to the outer loop, which skips it
      have henter := h.enter .text
      refine .of_next (h.pass_cons.trans (if_pos rfl)) ?_
      exact .of_next (henter.pass_cons.trans (if_pos (by decide))) (ih henter.skip)
  | case9 c rest hend ih => exact .of_next (h.pass_cons.trans (if_neg hend)) (ih h.skip)
  | case10 =>
      refine .of_next h.pass_nil (.of_past ?_)
      have hlen := h.length_eq
      exact hlen.le.trans (Nat.le_succ _)
  | case11 c =>
      refine .of_next (h.pass_cons.trans (if_neg fun hend => nomatch hend.2)) ?_
      refine .of_next h.skip.pass_nil (.of_past ?_)
      have hlen := h.skip.length_eq
      exact hlen.le.trans (Nat.le_succ _)
  | case12 c d rest hend ih =>
      refine .of_next (h.pass_cons.trans (if_pos ⟨hend.1, congrArg some hend.2⟩)) ?_
      exact ih (h.skip.skip.enter .text)
  | case13 c d rest hend ih =>
      refine .of_next (h.pass_cons.trans (if_neg fun hclose => hend ⟨hclose.1, ?_⟩)) (ih h.skip)
      exact Option.some.inj hclose.2
  | case14 =>
      refine .of_next h.pass_nil (.of_past ?_)
      have hlen := h.length_eq
      have hset := @List.length_set _ s.buf s.into (s.buf.getD s.json 0)
      exact (hset.trans hlen).le
  | case15 rest ih =>
      rw [map_append_cons]
      exact .of_next (h.pass_cons.trans (if_pos rfl)) (ih (h.copy.enter .text))
  | case16 hquote =>
      -- the backslash is the last character, and the terminator is copied with it
      refine .of_next (h.pass_cons.trans ((if_neg hquote).trans (if_pos rfl))) (.of_past ?_)
      have hlen := h.copy.length_eq
      have hset := @List.length_set _ s.copy.buf s.copy.into (s.copy.buf.getD s.copy.json 0)
      exact (hset.trans hlen).le
  | case17 d rest hquote ih =>
      refine .of_next (h.pass_cons.trans ((if_neg hquote).trans (if_pos rfl))) ?_
      rw [Option.map_map]
      simpa only [Function.comp_def, List.append_assoc, List.cons_append, List.nil_append] using
        ih h.copy.copy
  | case18 c rest hquote hslash ih =>
      rw [map_append_cons]
      exact .of_next (h.pass_cons.trans ((if_neg hquote).trans (if_neg hslash))) (ih h.copy)

/-- For every text, `cJSON_Minify` leaves what is between its blanks and comments in the buffer it
stands in; it reads behind the terminator exactly when a string or a comment is not closed. -/
theorem minifyPass_start {text : List UInt8} (htext : ∀ c ∈ text, c ≠ 0) :
    Leaves ⟨text ++ [0], 0, 0, .text⟩ (minify text) := by
  have h : Minifying.Holds ⟨text ++ [0], 0, 0, .text⟩ .text [] text :=
    ⟨rfl, .start _, fun c hc => absurd hc List.not_mem_nil, htext⟩
  have hleaves := minifyPass_leaves .text text h
  simpa only [minify, List.nil_append, Option.map_id'] using hleaves

/-- Blanks and a comment between two items. -/
theorem minifyPass_comment :
    Leaves ⟨bytes "[ \"a b\", /* c */ null]" ++ [0], 0, 0, .text⟩
      (some (bytes "[\"a b\",null]")) := by
  have h := @minifyPass_start (bytes "[ \"a b\", /* c */ null]") (by decide +kernel)
  rwa [show minify (bytes "[ \"a b\", /* c */ null]") = some (bytes "[\"a b\",null]") by
    decide +kernel] at h

end Buffer

/-! ## Printed texts -/

/-- Whatever follows it, the text comes down to the other one. -/
def MinifiesTo (text out : List UInt8) : Prop :=
  ∀ rest, minify (text ++ rest) = (minify rest).map (out ++ ·)

namespace MinifiesTo

variable {text text' out out' : List UInt8} {c : UInt8}

theorem nil : MinifiesTo [] [] := fun _ => Option.map_id'.symm

theorem append (h : MinifiesTo text out) (h' : MinifiesTo text' out') :
    MinifiesTo (text ++ text') (out ++ out') := by
  intro rest
  rw [List.append_assoc, h, h', Option.map_map]
  simp only [Function.comp_def, List.append_assoc]

/-- Blanks vanish. -/
theorem blanks (h : ∀ c ∈ text, isMinifyBlank c = true) : MinifiesTo text [] := by
  induction text with
  | nil => exact nil
  | cons c text ih =>
      intro rest
      rw [List.forall_mem_cons] at h
      have hskip : minify (c :: text ++ rest) = minify (text ++ rest) := if_pos h.1
      rw [hskip]
      exact ih h.2 rest

/-- What is neither a blank nor a quote nor a slash stays. -/
theorem plain (h : ∀ c ∈ text, isMinifyBlank c = false ∧ c ≠ '/'.toUInt8 ∧ c ≠ '"'.toUInt8) :
    MinifiesTo text text := by
  induction text with
  | nil => exact nil
  | cons c text ih =>
      intro rest
      rw [List.forall_mem_cons] at h
      obtain ⟨⟨hblank, hslash, hquote⟩, hrest⟩ := h
      have hcopy : minify (c :: text ++ rest) = (minify (text ++ rest)).map (c :: ·) := by
        simp only [minify, List.cons_append, minifyFrom, hblank, hslash, hquote, false_and,
          Bool.false_eq_true, if_false]
      rw [hcopy, ih hrest rest, Option.map_map]
      rfl

/-- A text that is only printed when formatted. -/
theorem formatted (h : ∀ c ∈ text, isMinifyBlank c = true) :
    MinifiesTo (formatted true text) (CJson.formatted false text) :=
  blanks h

end MinifiesTo

/-- The character of a string that closes it, quotes the next one, or is one like any other. -/
theorem minifyFrom_string_cons (c : UInt8) (rest : List UInt8) :
    minifyFrom .string (c :: rest) =
      if c = '"'.toUInt8 then (minify rest).map (c :: ·)
      else if c = '\\'.toUInt8 then
        match rest with
        | [] => none
        | d :: rest => (minifyFrom .string rest).map fun out => c :: d :: out
      else (minifyFrom .string rest).map (c :: ·) := by
  rw [minifyFrom.eq_def]
  rfl

/-- Inside a string everything is copied. -/
theorem minifyFrom_string {text : List UInt8}
    (h : ∀ c ∈ text, c ≠ '"'.toUInt8 ∧ c ≠ '\\'.toUInt8) (rest : List UInt8) :
    minifyFrom .string (text ++ rest) = (minifyFrom .string rest).map (text ++ ·) := by
  induction text with
  | nil => exact Option.map_id'.symm
  | cons c text ih =>
      rw [List.forall_mem_cons] at h
      rw [List.cons_append, minifyFrom_string_cons, if_neg h.1.1, if_neg h.1.2, ih h.2,
        Option.map_map]
      rfl

/-- A printed character is copied as a whole. -/
theorem minifyFrom_printChar (c : UInt8) (rest : List UInt8) :
    minifyFrom .string (printChar c ++ rest) =
      (minifyFrom .string rest).map (printChar c ++ ·) := by
  rcases printChar_cases c with ⟨heq, -, hchar⟩ | ⟨-, letter, tail, heq, -, htail⟩
  · rw [heq]
    exact minifyFrom_string (List.forall_mem_singleton.mpr hchar) rest
  · rw [heq, List.cons_append, List.cons_append, minifyFrom_string_cons, if_neg (by decide),
      if_pos rfl]
    simp only [minifyFrom_string fun d hd => (htail d hd).2.2, Option.map_map]
    rfl

/-- A printed string is left as it is. -/
theorem minifiesTo_printString (str : CText) :
    MinifiesTo (printString str) (printString str) := by
  have hchars : ∀ (text rest : List UInt8),
      minifyFrom .string (text.flatMap printChar ++ rest) =
        (minifyFrom .string rest).map (text.flatMap printChar ++ ·) := by
    intro text rest
    induction text with
    | nil => exact Option.map_id'.symm
    | cons c text ih =>
        rw [List.flatMap_cons, List.append_assoc, minifyFrom_printChar, ih, Option.map_map]
        simp only [Function.comp_def, List.append_assoc]
  intro rest
  have hquote : bytes "\"" = ['"'.toUInt8] := by decide
  have hopen : ∀ more, minify ('"'.toUInt8 :: more) =
      (minifyFrom .string more).map ('"'.toUInt8 :: ·) := fun more => rfl
  have hclose : ∀ more, minifyFrom .string ('"'.toUInt8 :: more) =
      (minify more).map ('"'.toUInt8 :: ·) := by
    intro more
    rw [minifyFrom_string_cons, if_pos rfl]
  rw [printString, hquote, List.append_assoc, List.append_assoc, List.singleton_append, hopen,
    hchars, List.singleton_append, hclose, Option.map_map, Option.map_map]
  simp only [Function.comp_def, List.cons_append, List.append_assoc, List.nil_append]

/-- The formatting of an entry vanishes. -/
theorem minifiesTo_composeMember {depth : Nat} {name entry name' entry' : List UInt8}
    (hname : MinifiesTo name name') (hentry : MinifiesTo entry entry') :
    MinifiesTo (composeMember true depth (name, entry))
      (composeMember false depth (name', entry')) := by
  have htabs : ∀ c ∈ tabs depth, isMinifyBlank c = true := by
    intro c hc
    rw [(List.mem_replicate.mp hc).2]
    decide +kernel
  exact ((((MinifiesTo.formatted htabs).append hname).append (.plain (by decide +kernel))).append
    (.formatted (by decide +kernel))).append hentry

/-- Texts that come down to others one by one are composed to an array that does. -/
theorem minifiesTo_composeArray {α : Type*} (l : List α) (f g : α → List UInt8)
    (h : ∀ a ∈ l, MinifiesTo (f a) (g a)) :
    MinifiesTo (composeArray true (l.map f)) (composeArray false (l.map g)) := by
  induction l with
  | nil => exact .nil
  | cons a rest ih =>
      rw [List.forall_mem_cons] at h
      cases rest with
      | nil => exact h.1
      | cons b rest =>
          exact ((h.1.append (.plain (by decide +kernel))).append
            (.formatted (by decide +kernel))).append (ih h.2)

/-- Names and texts that come down to others are composed to an object that does. -/
theorem minifiesTo_composeObject {α : Type*} (depth : Nat) (l : List α)
    (f g : α → List UInt8 × List UInt8)
    (h : ∀ a ∈ l, MinifiesTo (composeMember true depth (f a)) (composeMember false depth (g a))) :
    MinifiesTo (composeObject true depth (l.map f)) (composeObject false depth (l.map g)) := by
  induction l with
  | nil => exact .nil
  | cons a rest ih =>
      rw [List.forall_mem_cons] at h
      cases rest with
      | nil => exact h.1.append (.formatted (by decide +kernel))
      | cons b rest =>
          exact ((h.1.append (.plain (by decide +kernel))).append
            (.formatted (by decide +kernel))).append (ih h.2)

/-- A formatted text comes down to the unformatted one. -/
theorem minifiesTo_printValue (depth : Nat) (v : CJson) :
    MinifiesTo (printValue true depth v) (printValue false depth v) := by
  have hline : ∀ c ∈ bytes "\n", isMinifyBlank c = true := by decide +kernel
  have htabs : ∀ n, ∀ c ∈ tabs n, isMinifyBlank c = true := by
    intro n c hc
    rw [(List.mem_replicate.mp hc).2]
    decide +kernel
  induction v using CJson.induct generalizing depth with
  | hnull =>
      simp only [printValue]
      exact .plain (by decide +kernel)
  | hfalse =>
      simp only [printValue]
      exact .plain (by decide +kernel)
  | htrue =>
      simp only [printValue]
      exact .plain (by decide +kernel)
  | hstring s =>
      simp only [printValue]
      exact minifiesTo_printString s
  | harray child ih =>
      cases child with
      | nil =>
          simp only [printValue]
          exact .plain (by decide +kernel)
      | cons v rest =>
          simp only [printValue, arrayEntries_eq]
          refine ((MinifiesTo.plain (by decide +kernel)).append ?_).append
            (.plain (by decide +kernel))
          exact minifiesTo_composeArray _ _ _ fun w hw => ih w hw (depth + 1)
  | hobject child ih =>
      cases child with
      | nil =>
          refine ((MinifiesTo.plain (by decide +kernel)).append ?_).append
            (.plain (by decide +kernel))
          exact .formatted (List.forall_mem_append.mpr ⟨hline, htabs _⟩)
      | cons m rest =>
          simp only [printValue, objectEntries_eq]
          refine ((((MinifiesTo.plain (by decide +kernel)).append (.formatted hline)).append
            ?_).append (.formatted (htabs depth))).append (.plain (by decide +kernel))
          refine minifiesTo_composeObject _ _ _ _ fun w hw => ?_
          exact minifiesTo_composeMember (minifiesTo_printString w.1) (ih w hw (depth + 1))

/-- What `cJSON_Print` prints comes down to what `cJSON_PrintUnformatted` prints. -/
theorem minify_printValue (v : CJson) :
    minify (printValue true 0 v) = some (printValue false 0 v) := by
  have h := minifiesTo_printValue 0 v []
  rwa [List.append_nil, show minify [] = some [] from rfl, Option.map_some,
    List.append_nil] at h

end CiteParser.CJson
