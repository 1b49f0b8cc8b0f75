import CiteParser.Core.CString
import CiteParser.Core.Search

/-!
# Framing a request

The child process of `cpsd` in `citepd.cc` reads a connection piece by piece until the end
flag has come, too much has come or nothing more comes, and answers the bytes before the
flag. How the bytes are cut into pieces makes no difference to the request.
-/

namespace CiteParser

/-- `static std::string end_flag`. -/
def endFlag : List UInt8 := bytes "#MTFBWU#"

/-- `MAXLINE`, the most that one `read` returns. -/
def maxLine : Nat := 1024

/-- `Q_SIZE_LIMIT`, behind which no further piece is read. -/
def qSizeLimit : Nat := 100000

/-- What a `read` that is not at the end of the file returns. -/
structure Piece where
  bytes : List UInt8
  pos : 0 < bytes.length
  le : bytes.length ≤ maxLine

/-- The bytes that pieces are cut from. -/
def stream (pieces : List Piece) : List UInt8 := pieces.flatMap (·.bytes)

/-- The loop over the pieces: what `query` and `query_offset` are after it. The offset is
`none` for `npos`. -/
def readQuery (query : List UInt8) (query_offset : Option Nat) :
    List Piece → List UInt8 × Option Nat
  | [] => (query, query_offset)
  | piece :: rest =>
      let query := query ++ piece.bytes
      match findFirst endFlag query with
      | some p => (query, some p)
      | none => if qSizeLimit < query.length then (query, none) else readQuery query none rest

/-- The calls of `rpc_query` that one connection leads to, each with the string and the
length it is given. -/
def rpcCalls (pieces : List Piece) : List (List UInt8 × Nat) :=
  match readQuery [] (some 0) pieces with
  | (query, some query_offset) =>
      if 0 < query_offset then [(query.take query_offset, query_offset)] else []
  | (_, none) => []

/-- What has been read grows by a piece at a time. -/
theorem append_stream_cons (query : List UInt8) (piece : Piece) (rest : List Piece) :
    query ++ stream (piece :: rest) = query ++ piece.bytes ++ stream rest := by
  rw [stream, List.flatMap_cons, ← stream, List.append_assoc]

/-- A flag that comes before the size limit is found where the whole stream has it first. -/
theorem readQuery_found {query : List UInt8} {query_offset : Option Nat} {pieces : List Piece}
    {p : Nat} (hfirst : FirstAt endFlag (query ++ stream pieces) p)
    (hlimit : p + endFlag.length ≤ qSizeLimit) (hnot : findFirst endFlag query = none) :
    ∃ query', readQuery query query_offset pieces = (query', some p) ∧
      query'.take p = (query ++ stream pieces).take p := by
  induction pieces generalizing query query_offset with
  | nil =>
      rw [stream, List.flatMap_nil, List.append_nil] at hfirst
      rw [findFirst_eq_some_iff.mpr hfirst] at hnot
      contradiction
  | cons piece rest ih =>
      rw [append_stream_cons] at hfirst ⊢
      unfold readQuery
      cases hfind : findFirst endFlag (query ++ piece.bytes) with
      | some p' =>
          have hat := findFirst_some hfind
          have hle := hat.le_length (by decide +kernel)
          obtain rfl := hfirst.unique ((firstAt_append_iff (stream rest) hle).mpr hat)
          refine ⟨query ++ piece.bytes, by simp only [hfind], ?_⟩
          exact (List.take_append_of_le_length (by omega)).symm
      | none =>
          -- the flag is not complete, so the limit is not reached either
          have hshort : (query ++ piece.bytes).length < p + endFlag.length := by
            by_contra hlong
            have hat := (firstAt_append_iff (stream rest) (Nat.le_of_not_lt hlong)).mp hfirst
            rw [findFirst_eq_some_iff.mpr hat] at hfind
            contradiction
          obtain ⟨query', hread, htake⟩ := @ih (query ++ piece.bytes) none hfirst hfind
          refine ⟨query', ?_, htake⟩
          simp only [hfind, if_neg (show ¬ qSizeLimit < (query ++ piece.bytes).length by omega)]
          exact hread

/-- An offset that is not 0 is one at which the whole stream has the flag first. -/
theorem readQuery_some {query query' : List UInt8} {query_offset : Option Nat}
    {pieces : List Piece} {p : Nat} (hstart : query_offset = none ∨ query_offset = some 0)
    (hp : 0 < p) (h : readQuery query query_offset pieces = (query', some p)) :
    FirstAt endFlag (query ++ stream pieces) p ∧ p ≤ query'.length := by
  induction pieces generalizing query query_offset with
  | nil =>
      unfold readQuery at h
      rcases hstart with rfl | rfl
      · cases h
      · cases h
        contradiction
  | cons piece rest ih =>
      rw [append_stream_cons]
      unfold readQuery at h
      cases hfind : findFirst endFlag (query ++ piece.bytes) with
      | some p' =>
          simp only [hfind] at h
          cases h
          have hat := findFirst_some hfind
          have hle := hat.le_length (by decide +kernel)
          exact ⟨(firstAt_append_iff _ hle).mpr hat, by omega⟩
      | none =>
          simp only [hfind] at h
          split at h
          · cases h
          · exact ih (.inl rfl) h

/-- `rpc_query` is told the number of the bytes it is given. -/
theorem rpcCalls_length {pieces : List Piece} {call : List UInt8 × Nat}
    (h : call ∈ rpcCalls pieces) : call.2 = call.1.length := by
  unfold rpcCalls at h
  cases hread : readQuery [] (some 0) pieces with
  | mk query query_offset =>
      rw [hread] at h
      cases query_offset with
      | none => exact absurd h List.not_mem_nil
      | some p =>
          by_cases hp : 0 < p
          · simp only [if_pos hp, List.mem_singleton] at h
            rw [h, List.length_take, Nat.min_eq_left (readQuery_some (.inr rfl) hp hread).2]
          · simp only [if_neg hp, List.not_mem_nil] at h

/-- However a stream is cut: if the end flag comes first at an offset above 0 and ends within
the size limit, `rpc_query` is called once, with exactly the bytes before it; if the flag
comes nowhere, or first at offset 0, it is not called. -/
theorem rpcCalls_eq (pieces : List Piece) :
    (∀ p, FirstAt endFlag (stream pieces) p → 0 < p → p + endFlag.length ≤ qSizeLimit →
      rpcCalls pieces = [((stream pieces).take p, p)]) ∧
    (Nowhere endFlag (stream pieces) ∨ FirstAt endFlag (stream pieces) 0 →
      rpcCalls pieces = []) := by
  constructor
  · intro p hfirst hp hlimit
    obtain ⟨query, hread, htake⟩ := @readQuery_found [] (some 0) pieces p hfirst hlimit
      (by decide +kernel)
    unfold rpcCalls
    rw [hread]
    simp only [if_pos hp, htake, List.nil_append]
  · intro hnone
    unfold rpcCalls
    cases hread : readQuery [] (some 0) pieces with
    | mk query query_offset =>
        cases query_offset with
        | none => rfl
        | some p =>
            refine if_neg fun hp => ?_
            have hfirst : FirstAt endFlag (stream pieces) p :=
              (readQuery_some (.inr rfl) hp hread).1
            rcases hnone with hnowhere | hzero
            · exact hnowhere p hfirst.1
            · exact Nat.ne_of_gt hp (hfirst.unique hzero)

/-- A flag cut in two. -/
theorem rpcCalls_cut :
    rpcCalls [⟨bytes "A. Bagga#MTF", by decide +kernel, by decide +kernel⟩,
      ⟨bytes "BWU#", by decide +kernel, by decide +kernel⟩] = [(bytes "A. Bagga", 8)] := by
  refine ((rpcCalls_eq _).1 8 ?_ (by decide) (by decide +kernel)).trans (by decide +kernel)
  rw [← findFirst_eq_some_iff]
  decide +kernel

end CiteParser
