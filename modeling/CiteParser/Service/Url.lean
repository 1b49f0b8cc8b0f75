import CiteParser.Core.CString
import CiteParser.Text.Chars
import Mathlib.Tactic.Ring

/-!
# Hosts and ports

`url_parse` of `argcvhttp.cc` looks for the first slash behind `//` and for a colon in front of
it, and copies the host and the port from between them. Both copies share one end offset, which is
right for a host without a port only: a path takes the port away, and without one the port is
copied with the host as well.
-/

namespace CiteParser

/-- `start_offset`: behind the last `//` that begins among the first seven characters. -/
def urlStartOffset (url : List UInt8) : Nat :=
  (List.range (min 7 (url.length - 1))).foldl (fun start i =>
    if memory url i = '/'.toUInt8 ∧ memory url (i + 1) = '/'.toUInt8 then i + 2 else start) 0

/-- The loop over the rest of the URL, from `i` on: the first colon that has been found, and the
first slash, which ends it. -/
def scanUrl : List UInt8 → Nat → Option Nat → Option Nat × Option Nat
  | [], _, hostStop => (hostStop, none)
  | c :: rest, i, hostStop =>
      if c = '/'.toUInt8 then (hostStop, some i)
      else scanUrl rest (i + 1) (if hostStop = none ∧ c = ':'.toUInt8 then some i else hostStop)

/-- A `memcpy` from the URL, with its length as it is computed. -/
structure UrlCopy where
  start : Nat
  length : Int
  deriving DecidableEq

/-- The string that the copy leaves; a negative length is a huge one for `memcpy`. -/
def UrlCopy.text (c : UrlCopy) (url : List UInt8) : Option (List UInt8) :=
  if c.length < 0 then none else some ((url.drop c.start).take c.length.toNat)

/-- The two copies of `url_parse`; without a colon the port is a constant. -/
structure UrlCopies where
  host : UrlCopy
  port : Option UrlCopy
  deriving DecidableEq

def urlCopies (url : List UInt8) : UrlCopies :=
  let start := urlStartOffset url
  let found := scanUrl (url.drop start) start none
  let endOffset := match found.2 with
    | some offset => found.1.getD offset
    | none => url.length
  { host := ⟨start, (endOffset : Int) - start⟩
    port := found.1.map fun stop => ⟨stop + 1, (endOffset : Int) - stop - 1⟩ }

/-- The lengths that are computed. -/
def UrlCopies.lengths (c : UrlCopies) : List Int :=
  c.host.length :: c.port.toList.map UrlCopy.length

/-- `url_parse`: the strings in `host` and `port`, `none` when a copy has no length. -/
def urlParse (url : List UInt8) : Option (List UInt8 × List UInt8) :=
  let copies := urlCopies url
  (copies.host.text url).bind fun host =>
    match copies.port with
    | some copy => (copy.text url).map fun port => (host, port)
    | none => some (host, bytes "80")

/-- A URL of the form `http://host:port/path`, of which port and path may be left out. -/
structure HttpUrl where
  host : List UInt8
  port : Option (List UInt8)
  path : List UInt8
  host_ne : host ≠ []
  host_plain : ∀ c ∈ host, c ≠ '/'.toUInt8 ∧ c ≠ ':'.toUInt8 ∧ c ≠ 0
  port_decimal : ∀ p ∈ port, p ≠ [] ∧ ∀ c ∈ p, isDigitCode c = true
  path_slash : path = [] ∨ path.head? = some '/'.toUInt8
  path_plain : ∀ c ∈ path, c ≠ 0

namespace HttpUrl

/-- The port with its colon. -/
def portText (u : HttpUrl) : List UInt8 :=
  match u.port with
  | some p => ':'.toUInt8 :: p
  | none => []

def text (u : HttpUrl) : List UInt8 := bytes "http://" ++ (u.host ++ (u.portText ++ u.path))

/-- `url_parse` finds the host and the port of the URL, 80 if it names none, and computes no
negative length. -/
def Splits (u : HttpUrl) : Prop :=
  (∀ n ∈ (urlCopies u.text).lengths, 0 ≤ n) ∧
    urlParse u.text = some (u.host, u.port.getD (bytes "80"))

section Scan

variable {l : List UInt8} {i : Nat} {hostStop : Option Nat}

/-- Characters that the loop goes over. -/
theorem scanUrl_append (h : ∀ c ∈ l, c ≠ '/'.toUInt8 ∧ (hostStop = none → c ≠ ':'.toUInt8))
    (rest : List UInt8) :
    scanUrl (l ++ rest) i hostStop = scanUrl rest (i + l.length) hostStop := by
  induction l generalizing i with
  | nil => rfl
  | cons c l ih =>
      obtain ⟨⟨hslash, hcolon⟩, hl⟩ := List.forall_mem_cons.mp h
      rw [List.cons_append, scanUrl, if_neg hslash, if_neg (fun hc => hcolon hc.1 hc.2), ih hl,
        List.length_cons, Nat.add_right_comm, Nat.add_assoc]

/-- The first slash is that of the path. -/
theorem scanUrl_path (u : HttpUrl) (i : Nat) (hostStop : Option Nat) :
    scanUrl u.path i hostStop = (hostStop, if u.path = [] then none else some i) := by
  have hslash := u.path_slash
  cases hpath : u.path with
  | nil => rfl
  | cons c path =>
      rw [hpath, List.head?_cons, Option.some.injEq] at hslash
      rw [scanUrl, if_pos (hslash.resolve_left (List.cons_ne_nil c path)),
        if_neg (List.cons_ne_nil c path)]

end Scan

section Urls

variable (u : HttpUrl)

/-- The host begins behind the protocol. -/
theorem urlStartOffset_text : urlStartOffset u.text = 7 := by
  have hplain := u.host_plain
  have hne := u.host_ne
  rw [text]
  cases hhost : u.host with
  | nil => contradiction
  | cons c host =>
      rw [hhost] at hplain
      have hslash := (hplain c List.mem_cons_self).1
      have hhttp : bytes "http://" = [104, 116, 116, 112, 58, 47, 47] := by decide
      have hrange : List.range 7 = [0, 1, 2, 3, 4, 5, 6] := rfl
      have hchar : '/'.toUInt8 = 47 := rfl
      rw [hchar] at hslash
      rw [urlStartOffset, hhttp, min_eq_left (by simp), hrange, hchar]
      simp [memory, hslash]

theorem drop_text : u.text.drop 7 = u.host ++ (u.portText ++ u.path) :=
  List.drop_left' (by decide)

theorem length_text :
    u.text.length = 7 + (u.host.length + (u.portText.length + u.path.length)) := by
  rw [text, List.length_append, List.length_append, List.length_append]
  rfl

/-- What the loop finds in a URL without a port. -/
theorem scanUrl_of_none (hport : u.port = none) :
    scanUrl (u.text.drop 7) 7 none =
      (none, if u.path = [] then none else some (7 + u.host.length)) := by
  have hplain : ∀ c ∈ u.host, c ≠ '/'.toUInt8 ∧ ((none : Option Nat) = none → c ≠ ':'.toUInt8) :=
    fun c hc => ⟨(u.host_plain c hc).1, fun _ => (u.host_plain c hc).2.1⟩
  rw [drop_text, scanUrl_append hplain, portText, hport, List.nil_append, scanUrl_path]

/-- What the loop finds in a URL with a port, which holds neither a slash nor a colon. -/
theorem scanUrl_of_some {p : List UInt8} (hport : u.port = some p) :
    scanUrl (u.text.drop 7) 7 none =
      (some (7 + u.host.length),
        if u.path = [] then none else some (7 + u.host.length + 1 + p.length)) := by
  have hplain : ∀ c ∈ u.host, c ≠ '/'.toUInt8 ∧ ((none : Option Nat) = none → c ≠ ':'.toUInt8) :=
    fun c hc => ⟨(u.host_plain c hc).1, fun _ => (u.host_plain c hc).2.1⟩
  have hdigits : ∀ c ∈ p, c ≠ '/'.toUInt8 ∧
      (some (7 + u.host.length) = none → c ≠ ':'.toUInt8) := by
    have hslash : ∀ c : UInt8, isDigitCode c = true → c ≠ '/'.toUInt8 := by decide +kernel
    intro c hc
    refine ⟨hslash c ((u.port_decimal p hport).2 c hc), fun h => ?_⟩
    exact absurd h (Option.some_ne_none _)
  rw [drop_text, scanUrl_append hplain, portText, hport, List.cons_append, scanUrl,
    if_neg (show ':'.toUInt8 ≠ '/'.toUInt8 by decide), if_pos ⟨rfl, rfl⟩, scanUrl_append hdigits,
    scanUrl_path]

/-- Without a port the host is copied up to the path, or to the end. -/
theorem urlCopies_of_none (hport : u.port = none) :
    urlCopies u.text = ⟨⟨7, u.host.length⟩, none⟩ := by
  have hlen := u.length_text
  rw [portText, hport] at hlen
  rw [urlCopies, urlStartOffset_text, scanUrl_of_none u hport]
  by_cases hpath : u.path = []
  · rw [hpath, List.length_nil] at hlen
    simp only [hpath, if_true, Option.map_none, hlen]
    simp
  · simp only [hpath, if_false, Option.getD_none, Option.map_none]
    simp

/-- With a port the copies end where the port does, or both where it begins. -/
theorem urlCopies_of_some {p : List UInt8} (hport : u.port = some p) :
    urlCopies u.text =
      if u.path = [] then
        ⟨⟨7, (u.host.length + 1 + p.length : Nat)⟩, some ⟨7 + u.host.length + 1, p.length⟩⟩
      else ⟨⟨7, u.host.length⟩, some ⟨7 + u.host.length + 1, -1⟩⟩ := by
  have hlen := u.length_text
  rw [portText, hport, List.length_cons] at hlen
  rw [urlCopies, urlStartOffset_text, scanUrl_of_some u hport]
  by_cases hpath : u.path = []
  · rw [hpath, List.length_nil] at hlen
    simp only [hpath, if_true, Option.map_some, hlen]
    congr 2
    · push_cast
      ring
    · congr 1
      push_cast
      ring
  · simp only [hpath, if_false, Option.getD_some, Option.map_some]
    congr 2
    · push_cast
      ring
    · congr 1
      push_cast
      ring

/-- `url_parse` takes a URL apart exactly if it names no port. -/
theorem splits_iff : u.Splits ↔ u.port = none := by
  cases hport : u.port with
  | none =>
      refine iff_of_true ?_ rfl
      rw [Splits, urlParse, urlCopies_of_none u hport, hport]
      refine ⟨?_, ?_⟩
      · simp [UrlCopies.lengths]
      · rw [UrlCopy.text, if_neg (by simp), drop_text, Int.toNat_natCast, List.take_left' rfl]
        rfl
  | some p =>
      refine iff_of_false ?_ (by simp)
      rintro ⟨hlengths, hparse⟩
      rw [urlCopies_of_some u hport] at hlengths
      rw [urlParse, urlCopies_of_some u hport] at hparse
      by_cases hpath : u.path = []
      · -- the host is copied up to the end, with the colon and the port
        have hcopied : (u.text.drop 7).take (u.host.length + 1 + p.length) =
            u.host ++ ':'.toUInt8 :: p := by
          rw [drop_text, portText, hport, hpath, List.append_nil]
          exact List.take_of_length_le (by simp; omega)
        rw [if_pos hpath] at hparse
        simp only [UrlCopy.text, Int.natCast_nonneg, not_lt.mpr, if_false, Option.bind_some,
          Int.toNat_natCast, hcopied, Option.map_some, Option.some.injEq, Prod.mk.injEq] at hparse
        have hlength := congrArg List.length hparse.1
        simp at hlength
      · -- the copy of the port would end where it begins
        rw [if_neg hpath] at hlengths
        have hnegative := hlengths (-1) (by simp [UrlCopies.lengths])
        contradiction

/-- `http://localhost:8080/index.html` -/
def localIndex : HttpUrl where
  host := bytes "localhost"
  port := some (bytes "8080")
  path := bytes "/index.html"
  host_ne := by decide +kernel
  host_plain := by decide +kernel
  port_decimal := by decide +kernel
  path_slash := by decide +kernel
  path_plain := by decide +kernel

/-- With a path the copy of the port has a length of -1, and without one the host is copied with
the port. -/
theorem not_splits :
    (urlCopies (bytes "http://localhost:8080/index.html")).lengths = [9, -1] ∧
      urlParse (bytes "http://localhost:8080") = some (bytes "localhost:8080", bytes "8080") ∧
      ¬ localIndex.Splits := by
  refine ⟨by decide +kernel, by decide +kernel, fun h => ?_⟩
  exact absurd (h.1 (-1) (by decide +kernel)) (by decide)

end Urls

end HttpUrl

end CiteParser
