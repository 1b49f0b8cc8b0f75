import CiteParser.Citation.Join
import Mathlib.Data.List.DropRight

/-!
# Splitting undoes joining

The rows that `spilitName` writes for a joined list hold its names again, up to blanks at
their ends, exactly when every name is intact, the last separator is one and leaves its blank a
place. A row that has lost a letter cannot be read as its name: reading stops at the zero byte
behind it. A row without a zero byte is read on into the next one.
-/

namespace CiteParser

open Loop

/-- The names of a reference and what stands before the last one. -/
structure AuthorList where
  names : List AuthorName
  last : LastSeparator
  some_name : names ≠ []
  ten : names.length ≤ 10

namespace AuthorList

/-- The names as `spilitName` gets them. -/
def text (l : AuthorList) : List UInt8 := joinNames l.last l.names

end AuthorList

/-- The text without the blanks at its end. -/
def rstrip (text : List UInt8) : List UInt8 := text.rdropWhile (· == ' '.toUInt8)

/-- The rows at `base` are read as the names, up to blanks at their ends, and those behind
them as nothing. -/
structure HoldsNames (mem : Nat → UInt8) (base : Nat) (names : List AuthorName) : Prop where
  name : ∀ k n, names[k]? = some n →
    ∃ s, StringAt mem (nameAt base k 0) s ∧ rstrip s = rstrip n.text
  empty : ∀ k, names.length ≤ k → k < 10 → StringAt mem (nameAt base k 0) []

/-- Blanks at the end of a text are not counted. -/
theorem nonblanks_rstrip (text : List UInt8) : nonblanks (rstrip text) = nonblanks text := by
  induction text using List.reverseRecOn with
  | nil => rfl
  | append_singleton text c ih =>
      rw [rstrip, List.rdropWhile_concat]
      split
      · rename_i hblank
        rw [beq_iff_eq] at hblank
        rw [← rstrip, ih, nonblanks_append, hblank]
        rfl
      · rfl

/-- A blank more at its end leaves a text what it is. -/
theorem rstrip_rowText (last : LastSeparator) (n : AuthorName) (behind : Nat) :
    rstrip (rowText last n behind) = rstrip n.text := by
  rw [rowText]
  split
  · rw [rstrip, List.rdropWhile_concat, if_pos (beq_self_eq_true _), rstrip]
  · rfl

/-- What begins a text holds no more letters. -/
theorem nonblanks_mono {u v : List UInt8} (h : u <+: v) : nonblanks u ≤ nonblanks v :=
  h.sublist.countP_le

section Rows

variable {last : LastSeparator} {l : List AuthorName}

/-- Every name has its row. -/
theorem length_rowTexts (last : LastSeparator) (l : List AuthorName) :
    (rowTexts last l).length = l.length := by
  induction l with
  | nil => rfl
  | cons n rest ih => rw [rowTexts, List.length_cons, List.length_cons, ih]

/-- The row of a name is decided by how many names are behind it. -/
theorem getD_rowTexts {k : Nat} {n : AuthorName} (h : l[k]? = some n) :
    (rowTexts last l).getD k [] = rowText last n (l.length - 1 - k) := by
  induction l generalizing k with
  | nil => contradiction
  | cons m rest ih =>
      cases k with
      | zero =>
          cases h
          rfl
      | succ k =>
          have hbehind : (m :: rest).length - 1 - (k + 1) = rest.length - 1 - k := by
            rw [List.length_cons]
            omega
          rw [rowTexts, List.getD_cons_succ, hbehind]
          exact ih h

/-- No row is longer than its place. -/
theorem length_of_mem_rowTexts {row : List UInt8} (h : row ∈ rowTexts last l) :
    row.length ≤ nameSize := by
  induction l with
  | nil => contradiction
  | cons n rest ih =>
      rcases List.mem_cons.mp h with rfl | h
      · exact length_rowText_le last n _
      · exact ih h

/-- The rows leave a place for their terminators if the blank before the "and" does. -/
theorem rowTexts_fit (hroom : last = .and → ∀ earlier n m, l = earlier ++ [n, m] →
    n.text.length ≤ 48) : ∀ row ∈ rowTexts last l, row.length < nameSize := by
  induction l with
  | nil => exact fun row h => absurd h List.not_mem_nil
  | cons n rest ih =>
      refine List.forall_mem_cons.mpr ⟨?_, ih fun hand earlier m m' hsplit =>
        hroom hand (n :: earlier) m m' (congrArg (n :: ·) hsplit)⟩
      have hshort := n.short
      rw [rowText, nameSize]
      split
      · rename_i hblank
        obtain ⟨m, rfl⟩ := List.length_eq_one_iff.mp hblank.1
        have hlen := hroom hblank.2 [] n m rfl
        rw [List.length_append, List.length_singleton]
        omega
      · omega

end Rows

section Reading

variable {base r : Nat} {mem : Nat → UInt8} {names : List (List UInt8)} {s : List UInt8}

/-- The bytes of a row are those of its name. -/
theorem RowBytes.segment_eq (h : RowBytes base r mem names) {k : Nat} (hk : k ≤ r)
    (hlen : (names.getD k []).length ≤ nameSize) :
    segment mem (nameAt base k 0) (nameAt base k 0 + (names.getD k []).length) =
      names.getD k [] := by
  apply List.ext_getElem
  · rw [length_segment, Nat.add_sub_cancel_left]
  · intro j _ hj
    simp only [segment, List.getElem_map, List.getElem_range', Nat.one_mul]
    have hbyte := h k j hk (by omega)
    rw [List.getD_eq_getElem _ _ hj] at hbyte
    exact hbyte

/-- A row with room behind its name is read as a part of the name at most. -/
theorem RowBytes.nonblanks_le (h : RowBytes base r mem names) {k : Nat} (hk : k ≤ r)
    (hlen : (names.getD k []).length < nameSize) (hs : StringAt mem (nameAt base k 0) s) :
    nonblanks s ≤ nonblanks (names.getD k []) := by
  have hzero : mem (nameAt base k 0 + (names.getD k []).length) = 0 := by
    have hbyte := h k _ hk hlen
    rwa [List.getD_eq_default _ _ (Nat.le_refl _)] at hbyte
  have hpre := hs.prefix_segment hzero
  rw [h.segment_eq hk hlen.le] at hpre
  exact nonblanks_mono hpre

/-- A full row is read on into the next one. -/
theorem RowBytes.nonblanks_lt (h : RowBytes base r mem names) {k : Nat} (hk : k + 1 ≤ r)
    (hlen : (names.getD k []).length = nameSize) (hzero : ∀ c ∈ names.getD k [], c ≠ 0)
    {c : UInt8} {tail : List UInt8} (hnext : names.getD (k + 1) [] = c :: tail) (hc : c ≠ 0)
    (hblank : c ≠ ' '.toUInt8) (hs : StringAt mem (nameAt base k 0) s) :
    nonblanks (names.getD k []) < nonblanks s := by
  have hrow := h.segment_eq (Nat.le_of_succ_le hk) hlen.le
  have hstart : nameAt base k 0 + nameSize = nameAt base (k + 1) 0 := by
    rw [nameAt, nameAt, nameSize]
    omega
  have hletter : mem (nameAt base k 0 + nameSize) = c := by
    rw [hstart, h (k + 1) 0 hk (by decide), hnext]
    rfl
  rw [hlen] at hrow
  have hbytes : segment mem (nameAt base k 0) (nameAt base k 0 + (nameSize + 1)) =
      names.getD k [] ++ [c] := by
    rw [← Nat.add_assoc, segment_succ mem (Nat.le_add_right _ _), hrow, hletter]
  have hpre := @StringAt.segment_begins _ _ _ hs (nameSize + 1) fun j hj => by
    have hmem : mem (nameAt base k 0 + j) ∈ names.getD k [] ++ [c] := by
      rw [← hbytes]
      exact mem_segment.mpr ⟨_, Nat.le_add_right _ j, Nat.add_lt_add_left hj _, rfl⟩
    rcases List.mem_append.mp hmem with hin | hin
    · exact hzero _ hin
    · rw [List.mem_singleton.mp hin]
      exact hc
  rw [hbytes] at hpre
  have hcount := nonblanks_mono hpre
  rw [nonblanks_append, nonblanks_singleton hblank] at hcount
  exact hcount

end Reading

/-- A joined list is a C string. -/
theorem ne_zero_of_mem_joinNames {last : LastSeparator} {l : List AuthorName} {c : UInt8}
    (h : c ∈ joinNames last l) : c ≠ 0 := by
  have hsep : ∀ behind, ∀ c ∈ separator last behind, c ≠ 0 := by
    intro behind
    match behind with
    | 0 => exact fun c hc => absurd hc List.not_mem_nil
    | 1 => cases last <;> decide +kernel
    | _ + 2 => exact (by decide +kernel : ∀ c ∈ bytes ", ", c ≠ 0)
  induction l with
  | nil => contradiction
  | cons n rest ih =>
      rcases List.mem_append.mp h with hname | h
      · exact (n.ascii c hname).1
      · rcases List.mem_append.mp h with hmem | hrest
        · exact hsep _ c hmem
        · exact ih hrest

section Undo

variable (l : AuthorList) (mem : Nat → UInt8) (base : Nat)

/-- The loop over a joined list begins at its first name. -/
theorem AuthorList.exits : Exits (collectPass l.text) ⟨0, [], []⟩ (splitNames l.text) :=
  ⟨_, (run_collectPass l.text).1⟩

/-- The rows are read as the names where every one of them has room for its terminator. -/
theorem holdsNames_of_rows (hrows : splitNames l.text = rowTexts l.last l.names)
    (hfit : ∀ row ∈ rowTexts l.last l.names, row.length < nameSize) :
    HoldsNames (spilitName (memset mem base 500) base l.text) base l.names := by
  have hhold := @spilitName_spec l.text (fun c hc => ne_zero_of_mem_joinNames hc) base
    (memset mem base 500) (fun i hlo hhi => memset_inside ⟨hlo, hhi⟩)
    (by rw [hrows]; exact hfit)
  rw [hrows] at hhold
  constructor
  · intro k n hn
    have hk := (List.getElem?_eq_some_iff.mp hn).choose
    have hstring := hhold.strings k (Nat.lt_of_lt_of_le hk l.ten)
    rw [getD_rowTexts hn] at hstring
    exact ⟨_, hstring, rstrip_rowText l.last n _⟩
  · intro k hk hten
    have hstring := hhold.strings k hten
    rwa [List.getD_eq_default _ _ (by rw [length_rowTexts]; exact hk)] at hstring

/-- A row that has lost a letter is not read as its name. -/
theorem not_holdsNames_of_lost
    (hbad : ¬ (IntactNames true l.names ∧ (2 ≤ l.names.length → l.last ≠ .commaAnd))) :
    ¬ HoldsNames (spilitName (memset mem base 500) base l.text) base l.names := by
  intro hholds
  obtain ⟨n, rows, row, hn, hpre, hrows, hcount, hlen⟩ := row_lost l.some_name
    (iff_of_true rfl rfl) (by rw [List.drop_zero]; rfl)
    (by rw [List.length_nil, Nat.zero_add]; exact l.ten) hbad l.exits
  rw [List.nil_append] at hpre
  have hk : rows.length < 10 :=
    Nat.lt_of_lt_of_le (List.getElem?_eq_some_iff.mp hn).choose l.ten
  have hrow : (splitNames l.text).getD rows.length [] = row := getD_of_begins hpre
  have hbytes := @spilitName_rowBytes l.text base rows.length (memset mem base 500) hk
    (fun i hlo hhi => memset_inside ⟨hlo, hhi⟩) fun k hle => by
      rcases Nat.lt_or_eq_of_le hle with hlt | rfl
      · obtain ⟨more, hmore⟩ := hpre
        rw [← hmore, List.append_assoc, List.getD_append _ _ _ _ hlt,
          List.getD_eq_getElem _ _ hlt]
        exact hrows _ (List.getElem_mem hlt)
      · rw [hrow]
        exact hlen.le
  obtain ⟨s, hs, hstrip⟩ := hholds.name _ n hn
  have hread := hbytes.nonblanks_le (Nat.le_refl _) (by rw [hrow]; exact hlen) hs
  have hsame : nonblanks s = nonblanks n.text := by
    rw [← nonblanks_rstrip, hstrip, nonblanks_rstrip]
  rw [hrow] at hread
  omega

/-- A name that fills its row together with the blank before the "and" is read on into the
last one. -/
theorem not_holdsNames_of_full (hrows : splitNames l.text = rowTexts l.last l.names)
    (hlast : l.last = .and) {earlier : List AuthorName} {n m : AuthorName}
    (hsplit : l.names = earlier ++ [n, m]) (hlong : 48 < n.text.length) :
    ¬ HoldsNames (spilitName (memset mem base 500) base l.text) base l.names := by
  intro hholds
  have hlength : l.names.length = earlier.length + 2 := by
    rw [hsplit, List.length_append]
    rfl
  have hn : l.names[earlier.length]? = some n := by
    rw [hsplit, List.getElem?_append_right (Nat.le_refl _), Nat.sub_self]
    rfl
  have hm : l.names[earlier.length + 1]? = some m := by
    rw [hsplit, List.getElem?_append_right (Nat.le_add_right _ 1), Nat.add_sub_cancel_left]
    rfl
  have hten := l.ten
  have hbytes := @spilitName_rowBytes l.text base (earlier.length + 1) (memset mem base 500)
    (by omega) (fun i hlo hhi => memset_inside ⟨hlo, hhi⟩) fun k _ => by
      rw [hrows]
      rcases Nat.lt_or_ge k (rowTexts l.last l.names).length with hlt | hge
      · rw [List.getD_eq_getElem _ _ hlt]
        exact length_of_mem_rowTexts (List.getElem_mem hlt)
      · rw [List.getD_eq_default _ _ hge]
        exact Nat.zero_le _
  have hrow : (splitNames l.text).getD earlier.length [] = n.text ++ [' '.toUInt8] := by
    rw [hrows, getD_rowTexts hn, rowText, if_pos ⟨by omega, hlast⟩]
  have hnext : (splitNames l.text).getD (earlier.length + 1) [] = m.text := by
    rw [hrows, getD_rowTexts hm, rowText, if_neg (fun h => absurd h.1 (by omega))]
  obtain ⟨c, tail, htext, hc⟩ := m.letter
  have hshort := n.short
  obtain ⟨s, hs, hstrip⟩ := hholds.name _ n hn
  have hread := hbytes.nonblanks_lt (Nat.le_refl _)
    (by rw [hrow, List.length_append, List.length_singleton, nameSize]; omega)
    (by
      rw [hrow, List.forall_mem_append]
      exact ⟨fun c hc => (n.ascii c hc).1, List.forall_mem_singleton.mpr (by decide)⟩)
    (hnext.trans htext) (by rintro rfl; contradiction) (by rintro rfl; contradiction) hs
  have hsame : nonblanks s = nonblanks n.text := by
    rw [← nonblanks_rstrip, hstrip, nonblanks_rstrip]
  rw [hrow, nonblanks_append] at hread
  omega

/-- Splitting a joined list gives its names back exactly when every name is intact, a comma and
an "and" do not stand together, and the blank before an "and" finds room in the row. -/
theorem spilitName_undoes_iff :
    HoldsNames (spilitName (memset mem base 500) base l.text) base l.names ↔
      IntactNames true l.names ∧ (2 ≤ l.names.length → l.last ≠ .commaAnd) ∧
      (l.last = .and → ∀ earlier n m, l.names = earlier ++ [n, m] → n.text.length ≤ 48) := by
  by_cases hgood : IntactNames true l.names ∧ (2 ≤ l.names.length → l.last ≠ .commaAnd)
  · have hrows : splitNames l.text = rowTexts l.last l.names := by
      have hread := rows_of_intact l.some_name (iff_of_true rfl rfl) (by rw [List.drop_zero]; rfl)
        (by rw [List.length_nil, Nat.zero_add]; exact l.ten) hgood.1 hgood.2 l.exits
      rwa [List.nil_append] at hread
    rw [← and_assoc, and_iff_right hgood]
    constructor
    · intro hholds hand earlier n m hsplit
      by_contra hlong
      exact not_holdsNames_of_full l mem base hrows hand hsplit (Nat.lt_of_not_le hlong) hholds
    · intro hroom
      exact holdsNames_of_rows l mem base hrows (rowTexts_fit hroom)
  · refine iff_of_false (not_holdsNames_of_lost l mem base hgood) ?_
    rw [← and_assoc]
    exact fun h => hgood h.1

end Undo

/-- The name "Peter". -/
def peter : AuthorName where
  text := bytes "Peter"
  letter := ⟨'P'.toUInt8, bytes "eter", rfl, rfl⟩
  short := by decide
  ascii := by decide +kernel
  comma := by decide +kernel
  noAnd := by decide +kernel
  noEtAl := by decide +kernel

/-- "Peter" alone comes back without the "e" before the "t". -/
theorem spilitName_loses_letter :
    ¬ ∀ (l : AuthorList) (mem : Nat → UInt8) (base : Nat),
      HoldsNames (spilitName (memset mem base 500) base l.text) base l.names := by
  intro h
  let l : AuthorList := ⟨[peter], .comma, List.cons_ne_nil _ _, by decide⟩
  obtain ⟨s, hs, hstrip⟩ := (h l (fun _ => 0) 0).name 0 peter rfl
  have hzero : spilitName (memset (fun _ => 0) 0 500) 0 l.text (nameAt 0 0 0 + 4) = 0 := by
    decide +kernel
  have hshort : (rstrip s).length ≤ s.length := (List.rdropWhile_prefix _ _).length_le
  have hlong : (rstrip peter.text).length = 5 := by decide +kernel
  have hread := hs.length_le hzero
  rw [hstrip, hlong] at hshort
  omega

end CiteParser
