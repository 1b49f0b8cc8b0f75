import CiteParser.Predict.Streaming
import CiteParser.Service.Framing
import CiteParser.Text.Reads

/-!
# The range of a request

`rpc_query` passes on two lengths: the bytes before the end flag, which end the range that
is scanned, and the string itself, of which `setFileContent` keeps what comes before the
first zero byte. The offsets that are read are told beside the prediction; all lie inside
the range, the byte behind its end included, so they lie inside the stored text as long as
the two lengths agree.
-/

namespace CiteParser

/-! ## What is read -/

/-- The offsets that a pass of the scan looks at. -/
def scanStepReads (content : Nat → UInt8) (cur i : Nat) : List Nat :=
  i :: ((if content i = 'I'.toUInt8 ∨ content i = 'l'.toUInt8 then [i + 1] else []) ++
    if i = cur then [] else [i - 1])

/-- The offsets that the scan over a token's text looks at. -/
def scanTextReads (content : Nat → UInt8) (refAreaEnd cur offset : Nat) : List Nat :=
  (scanRange cur offset refAreaEnd).flatMap (scanStepReads content cur)

/-- The offsets that the tokenise-and-describe step at `cur` looks at. -/
def Reference.tokenReads (ref : Reference) (cur : Nat) : List Nat :=
  (spilitContentReads SINGLEWORDLEN (fun i => ref.content (cur + i))
      (ref.refAreaEnd - cur)).map (cur + ·) ++
    if (ref.token cur).ret = 0 then []
    else scanTextReads ref.content ref.refAreaEnd cur (ref.token cur).ret

/-- The offsets that are looked at for the tokens of a range and copied for its spans. -/
def Reference.reads (ref : Reference) (refAreaStart : Nat) : List Nat :=
  (ref.snapshots.path (refAreaStart, ' '.toUInt8)).flatMap (fun s => ref.tokenReads s.1) ++
    (spans refAreaStart (tokens ref refAreaStart)).flatMap fun cp =>
      List.range' cp.1 (cp.2 - cp.1)

section Bounds

variable {ref : Reference}

/-- A step inside the range looks at nothing behind its end. -/
theorem Reference.tokenReads_le {cur i : Nat} (hcur : cur ≤ ref.refAreaEnd)
    (h : i ∈ ref.tokenReads cur) : i ≤ ref.refAreaEnd := by
  rcases List.mem_append.mp h with h | h
  · obtain ⟨k, hk, rfl⟩ := List.mem_map.mp h
    have hle := spilitContentReads_le hk
    omega
  · split at h
    · exact absurd h List.not_mem_nil
    · obtain ⟨k, hk, hi⟩ := List.mem_flatMap.mp h
      have hin := List.mem_range'_1.mp hk
      rcases List.mem_cons.mp hi with rfl | hi
      · omega
      · rcases List.mem_append.mp hi with hi | hi
        · split at hi
          · rw [List.mem_singleton.mp hi]
            omega
          · exact absurd hi List.not_mem_nil
        · split at hi
          · exact absurd hi List.not_mem_nil
          · rw [List.mem_singleton.mp hi]
            omega

/-- No state of the scanner lies behind the end of the range. -/
theorem Reference.path_le (s : Nat × UInt8) (hs : s.1 ≤ ref.refAreaEnd) :
    ∀ v ∈ ref.snapshots.path s, v.1 ≤ ref.refAreaEnd := by
  induction s using ref.snapshots.induct with
  | hnone s h =>
      rw [Source.path_none _ h]
      intro v hv
      rwa [List.mem_singleton.mp hv]
  | hsome s t s' h ih =>
      obtain ⟨-, -, hle, -, -⟩ := Reference.next_some h
      rw [Source.path_some _ h]
      intro v hv
      rcases List.mem_cons.mp hv with rfl | hv
      · exact hs
      · exact ih hle v hv

/-- Nothing behind the end of the range is looked at or copied. -/
theorem Reference.reads_le {refAreaStart i : Nat} (hstart : refAreaStart ≤ ref.refAreaEnd)
    (h : i ∈ ref.reads refAreaStart) : i ≤ ref.refAreaEnd := by
  rcases List.mem_append.mp h with h | h
  · obtain ⟨s, hs, hi⟩ := List.mem_flatMap.mp h
    exact ref.tokenReads_le (ref.path_le _ hstart s hs) hi
  · obtain ⟨cp, hcp, hi⟩ := List.mem_flatMap.mp h
    have hle := (spans_items ref (refAreaStart, ' '.toUInt8)).2 cp hcp
    have hin := List.mem_range'_1.mp hi
    omega

end Bounds

section Dependence

variable {ref : Reference} {content : Nat → UInt8}

/-- A pass of the scan depends on what it reads. -/
theorem scanStep_congr {dict : Dict} {cur i : Nat} {s : ScanState}
    (h : ∀ k ∈ scanStepReads ref.content cur i, ref.content k = content k) :
    scanStep dict ref.content cur s i = scanStep dict content cur s i := by
  have hi : ref.content i = content i := h i List.mem_cons_self
  have hswitch : ∀ s, scanSwitch (ref.content i) (ref.content (i + 1)) s =
      scanSwitch (ref.content i) (content (i + 1)) s := by
    intro s
    by_cases hc : ref.content i = 'I'.toUInt8 ∨ ref.content i = 'l'.toUInt8
    · rw [h (i + 1) (List.mem_cons_of_mem _ (List.mem_append_left _ (by
        rw [if_pos hc]
        exact List.mem_singleton.mpr rfl)))]
    · unfold scanSwitch
      rw [if_neg hc, if_neg hc]
  have habbr : ∀ s, scanAbbr (i == cur) (ref.content (i - 1)) (ref.content i) s =
      scanAbbr (i == cur) (content (i - 1)) (ref.content i) s := by
    intro s
    by_cases hc : i = cur
    · rw [beq_iff_eq.mpr hc]
      rfl
    · rw [h (i - 1) (List.mem_cons_of_mem _ (List.mem_append_right _ (by
        rw [if_neg hc]
        exact List.mem_singleton.mpr rfl)))]
  unfold scanStep
  simp only [hswitch, habbr]
  rw [hi]

/-- A tokenise-and-describe step depends on what it reads. -/
theorem Reference.next_congr {s : Nat × UInt8}
    (h : ∀ i ∈ ref.tokenReads s.1, ref.content i = content i) :
    ref.next s = Reference.next { ref with content := content } s := by
  obtain ⟨cur, mpredeli⟩ := s
  have htoken : ref.token cur = Reference.token { ref with content := content } cur :=
    spilitContent_congr fun i hi =>
      h _ (List.mem_append_left _ (List.mem_map.mpr ⟨i, hi, rfl⟩))
  unfold Reference.next
  simp only [← htoken]
  by_cases hret : (ref.token cur).ret = 0
  · rw [if_pos hret, if_pos hret]
  · rw [if_neg hret, if_neg hret]
    have hscan : scanText ref.dict ref.content ref.refAreaEnd cur (ref.token cur).ret =
        scanText ref.dict content ref.refAreaEnd cur (ref.token cur).ret := by
      unfold scanText
      refine List.foldl_ext _ _ _ fun s i hi => scanStep_congr fun k hk => ?_
      refine h k (List.mem_append_right _ ?_)
      rw [if_neg hret]
      exact List.mem_flatMap.mpr ⟨i, hi, hk⟩
    simp only [describe, hscan]

/-- The tokens of a range and the copies of its spans depend on what is read for them. -/
theorem Reference.reads_determine {refAreaStart : Nat}
    (h : ∀ i ∈ ref.reads refAreaStart, ref.content i = content i) :
    tokens { ref with content := content } refAreaStart = tokens ref refAreaStart ∧
      ∀ cp ∈ spans refAreaStart (tokens ref refAreaStart),
        segment content cp.1 cp.2 = segment ref.content cp.1 cp.2 := by
  constructor
  · refine (ref.snapshots.items_congr (Reference.snapshots { ref with content := content }) _
      fun v hv => Reference.next_congr fun i hi => ?_).1.symm
    exact h i (List.mem_append_left _ (List.mem_flatMap.mpr ⟨v, hv, hi⟩))
  · intro cp hcp
    refine List.map_congr_left fun i hi => (h i ?_).symm
    exact List.mem_append_right _ (List.mem_flatMap.mpr ⟨cp, hcp, hi⟩)

end Dependence

/-! ## Requests -/

/-- What `setFileContent` keeps: the text, and its length without the terminator. -/
structure StoredContent where
  pcontent : Nat → UInt8
  pclen : Nat

/-- `setFileContent(str)`; behind the terminator stands what the heap holds there. -/
def setFileContent (heap : Nat → UInt8) (str : List UInt8) : StoredContent where
  pcontent := fun i => if i ≤ (cstr str).length then memory (cstr str) i else heap i
  pclen := (cstr str).length

section Request

variable (heap : Nat → UInt8) (dict : Dict) (nextpre : Nat → UInt8)

/-- The reference that `CitationInfoPredictString(query, 0, query_len)` predicts. -/
def requestReference (query : List UInt8) (query_len : Nat) : Reference where
  dict := dict
  content := (setFileContent heap query).pcontent
  refAreaEnd := query_len
  nextpre := nextpre
  tokenId := fun _ _ => 0

/-- The range and all that is read for it lie inside the stored text. -/
def RangeInside (query : List UInt8) (query_len : Nat) : Prop :=
  query_len ≤ (setFileContent heap query).pclen ∧
    ∀ i ∈ (requestReference heap dict nextpre query query_len).reads 0,
      i ≤ (setFileContent heap query).pclen

/-- A range inside the stored text is all that matters: what is read for it lies before its
end, or right behind. -/
theorem rangeInside_iff_le (query : List UInt8) (query_len : Nat) :
    RangeInside heap dict nextpre query query_len ↔
      query_len ≤ (setFileContent heap query).pclen := by
  constructor
  · exact fun h => h.1
  · intro hle
    exact ⟨hle, fun i hi => (Reference.reads_le (Nat.zero_le _) hi).trans hle⟩

/-- A string is stored whole exactly when it holds no zero byte. -/
theorem length_le_pclen_iff (body : List UInt8) :
    body.length ≤ (setFileContent heap body).pclen ↔ ∀ c ∈ body, c ≠ 0 := by
  rw [← length_cstr_eq_iff]
  constructor
  · exact fun hle => Nat.le_antisymm (length_cstr_le body) hle
  · exact fun hlen => hlen.ge

/-- The range of a request lies inside the stored text exactly when the request holds no
zero byte. -/
theorem rangeInside_iff (body : List UInt8) :
    RangeInside heap dict nextpre body body.length ↔ ∀ c ∈ body, c ≠ 0 := by
  rw [rangeInside_iff_le, length_le_pclen_iff]

/-- However a connection is read, the calls it leads to scan inside the stored text exactly
when the bytes before the end flag hold no zero byte. -/
theorem requests_inside_iff (pieces : List Piece) :
    (∀ call ∈ rpcCalls pieces, RangeInside heap dict nextpre call.1 call.2) ↔
      ∀ call ∈ rpcCalls pieces, ∀ c ∈ call.1, c ≠ 0 := by
  refine forall_congr' fun call => forall_congr' fun hcall => ?_
  rw [rpcCalls_length hcall, rangeInside_iff_le, length_le_pclen_iff]

/-- A zero byte in a request ends the stored text before the range. -/
theorem not_rangeInside_zero :
    ¬ RangeInside (fun _ => 0) (fun _ _ => none) (fun _ => 0)
      (bytes "A. Bagga" ++ 0 :: bytes "B. Baldwin") 19 := by
  rintro ⟨hle, -⟩
  exact absurd hle (by decide +kernel)

end Request

end CiteParser
