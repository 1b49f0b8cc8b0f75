import CiteParser.Service.Reply

/-!
# A session with the parser

One connection of `cpcli.cc` to `citepd.cc`. Requests and replies reach the other side cut into
pieces in any way.
-/

namespace CiteParser

/-- What `cpsd_cli` sends for the text of its file. -/
def clientRequest (text : List UInt8) : List UInt8 := text ++ endFlag

/-- What `cpsd_cli` returns: each piece is terminated and appended as a string. -/
def clientReply (pieces : List Piece) : List UInt8 := pieces.flatMap fun piece => cstr piece.bytes

section Session

-- `predict` is what `CitationInfoPredictString` makes of a string of some length
variable (predict : List UInt8 → Nat → NodeList)

/-- What `cpsd` writes to a connection, given what it has read from it. -/
def serverReply (request : List Piece) : List UInt8 :=
  (rpcCalls request).flatMap fun call => ((rpcReply (predict call.1 call.2)).map cstr).getD []

end Session

/-! ## The request -/

/-- The flag is its own beginning and end at one character only. -/
theorem endFlag_border : ∀ k, k < endFlag.length → 0 < k → endFlag.drop k <+: endFlag → k = 7 := by
  decide +kernel

/-- The flag that the client has sent is the first one. -/
theorem firstAt_clientRequest_iff (text : List UInt8) :
    FirstAt endFlag (clientRequest text) text.length ↔
      Nowhere endFlag text ∧ ¬ bytes "#MTFBWU" <:+ text := by
  have htake : endFlag.take 7 = bytes "#MTFBWU" := by decide +kernel
  have hborder : endFlag.drop 7 <+: endFlag := by decide +kernel
  have hlen : endFlag.length = 8 := by decide +kernel
  rw [clientRequest, firstAt_append_word_iff (by decide +kernel)]
  refine and_congr_right fun _ => ?_
  constructor
  · intro h hsuffix
    exact h 7 (by decide) (by omega) (htake ▸ hsuffix) hborder
  · intro h k hpos hk hsuffix hprefix
    obtain rfl := endFlag_border k hk hpos hprefix
    exact h (htake ▸ hsuffix)

/-- A flag behind the beginning and within the limit is what the loop stops at. -/
theorem rpcCalls_of_firstAt {request : List Piece} {p : Nat}
    (hfirst : FirstAt endFlag (stream request) p) (hp : 0 < p)
    (hlimit : p + endFlag.length ≤ qSizeLimit) :
    rpcCalls request = [((stream request).take p, p)] := by
  obtain ⟨query, hread, htake⟩ := @readQuery_found [] (some 0) request p hfirst hlimit
    (by decide +kernel)
  unfold rpcCalls
  rw [hread]
  simp only [if_pos hp, htake, List.nil_append]

/-- A call is made for the first flag only, and not for one at the beginning. -/
theorem firstAt_of_mem_rpcCalls {request : List Piece} {call : List UInt8 × Nat}
    (h : call ∈ rpcCalls request) : FirstAt endFlag (stream request) call.2 ∧ 0 < call.2 := by
  unfold rpcCalls at h
  cases hread : readQuery [] (some 0) request with
  | mk query query_offset =>
      rw [hread] at h
      cases query_offset with
      | none => exact absurd h List.not_mem_nil
      | some p =>
          by_cases hp : 0 < p
          · simp only [if_pos hp, List.mem_singleton] at h
            obtain ⟨hfirst, -⟩ := readQuery_some (.inr rfl) hp hread
            exact h ▸ ⟨hfirst, hp⟩
          · simp only [if_neg hp, List.not_mem_nil] at h

/-- However a request is cut, the server parses the text of the client, the whole of it and
nothing else, exactly when there is one, the flag does not occur in it and no flag but for its
last character is at the end of it. -/
theorem rpcCalls_clientRequest {text : List UInt8} {request : List Piece}
    (hrequest : stream request = clientRequest text)
    (hlimit : text.length + endFlag.length ≤ qSizeLimit) :
    rpcCalls request = [(text, text.length)] ↔
      text ≠ [] ∧ Nowhere endFlag text ∧ ¬ bytes "#MTFBWU" <:+ text := by
  have htake : (stream request).take text.length = text := by
    rw [hrequest, clientRequest, List.take_left]
  rw [← firstAt_clientRequest_iff, ← hrequest]
  constructor
  · intro hcalls
    obtain ⟨hfirst, hpos⟩ := firstAt_of_mem_rpcCalls (hcalls ▸ List.mem_singleton.mpr rfl)
    exact ⟨List.ne_nil_of_length_pos hpos, hfirst⟩
  · rintro ⟨hne, hfirst⟩
    rw [rpcCalls_of_firstAt hfirst (List.length_pos_of_ne_nil hne) hlimit, htake]

/-- A text that ends with most of the flag is cut short. -/
theorem rpcCalls_short :
    rpcCalls [⟨bytes "A. Bagga#MTFBWU#MTFBWU#", by decide +kernel, by decide +kernel⟩] ≠
      [(bytes "A. Bagga#MTFBWU", (bytes "A. Bagga#MTFBWU").length)] := by
  intro h
  have hframed := (@rpcCalls_clientRequest (bytes "A. Bagga#MTFBWU")
    [⟨bytes "A. Bagga#MTFBWU#MTFBWU#", by decide +kernel, by decide +kernel⟩]
    (by decide +kernel) (by decide +kernel)).mp h
  exact hframed.2.2 (by decide +kernel)

/-! ## The reply -/

/-- A reply without a zero byte reaches the client as it is, however it is cut. -/
theorem clientReply_eq {pieces : List Piece} (h : ∀ c ∈ stream pieces, c ≠ 0) :
    clientReply pieces = stream pieces := by
  refine List.flatMap_congr fun piece hpiece => cstr_eq_self fun c hc => ?_
  exact h c (List.mem_flatMap.mpr ⟨piece, hpiece, hc⟩)

/-- What the server writes for one call. -/
theorem serverReply_eq (predict : List UInt8 → Nat → NodeList) {request : List Piece}
    {text : List UInt8} (h : rpcCalls request = [(text, text.length)]) :
    serverReply predict request =
      CJson.printValue false 0 (replyRoot (predict text text.length)) := by
  have hprintable := CJson.printable_printValue 0 (replyRoot (predict text text.length))
  rw [serverReply, h, List.flatMap_singleton, rpcReply_eq, Option.map_some, Option.getD_some,
    cstr_eq_self]
  rintro c hc rfl
  exact absurd (hprintable 0 hc) (by decide)

/-- Whatever cuts are made on the way, the client of a text that can be framed has in the end what
parses to the citations that the server has made of exactly this text. -/
theorem session_parses (predict : List UInt8 → Nat → NodeList) {text : List UInt8}
    (hne : text ≠ []) (hnowhere : Nowhere endFlag text) (hend : ¬ bytes "#MTFBWU" <:+ text)
    (hlimit : text.length + endFlag.length ≤ qSizeLimit) {request reply : List Piece}
    (hrequest : stream request = clientRequest text)
    (hreply : stream reply = serverReply predict request) :
    CJson.parse (clientReply reply) = .ok (replyRoot (predict text text.length)) := by
  have hcalls := (rpcCalls_clientRequest hrequest hlimit).mpr ⟨hne, hnowhere, hend⟩
  have hserver := serverReply_eq predict hcalls
  have hnonzero : ∀ c ∈ stream reply, c ≠ 0 := by
    rw [hreply, hserver]
    rintro c hc rfl
    exact absurd (CJson.printable_printValue 0 _ 0 hc) (by decide)
  rw [clientReply_eq hnonzero, hreply, hserver]
  exact (CJson.parse_printValue _).2.1

/-! ## The citations -/

/-- What a client looks up in a reply: the value of a key of one citation. -/
def replyField (reply : CJson) (i : Nat) (key : String) : Option CJson :=
  ((reply.getObjectItem (bytes "ref")).bind (·.getArrayItem i)).bind
    (·.getObjectItem (bytes key))

/-- How a record shows a field: a text, or the list of its names. -/
def Record.fieldItem (f : Field) (r : Record) : Option CJson :=
  if r f = [] then none
  else if f.IsText then (r f).head?.map fun text => .string (.of text)
  else some (.array ((r f).map fun name => .string (.of name)))

/-- A node that shows a record has the fields of the record under their keys. -/
theorem Shows.getObjectItem_eq {node : CitationNode} {r : Record} (h : Shows node r)
    {k : String × Field} (hk : k ∈ citationFields) :
    (citationItem (resultItem node)).getObjectItem (bytes k.1) = r.fieldItem k.2 := by
  rw [getObjectItem_resultItem node hk, fieldItem, Record.fieldItem]
  by_cases hf : k.2.IsText
  · obtain ⟨text, hshows, hr⟩ := h.texts k.2 hf
    rw [if_pos hf, if_pos hf, hshows.textItem_eq, hr, textValue]
    by_cases hnil : text = []
    · simp only [hnil, if_true, List.map_nil, List.lookup_nil, Option.map_none]
    · simp [hnil, JsonValue.item]
  · obtain ⟨names, hshows, hr⟩ := h.names k.2 hf
    rw [if_neg hf, if_neg hf, hshows.namesItem_eq hf, hr]
    by_cases hnil : names.filter (· ≠ []) = []
    · rw [if_pos hnil, if_pos hnil]
      rfl
    · rw [if_neg hnil, if_neg hnil, List.lookup_cons, beq_self_eq_true]
      rfl

/-- What the client finds under a key of a citation is what the segments labelled with the field
have given, if the labelled segments can be routed. -/
theorem replyField_replyRoot (heap : Nat → CitationNode) {calls : List InfoCall} {l : NodeList}
    (hrun : infoRun heap calls = some l) (hroutable : ∀ c ∈ calls, Routable c) (i : Nat)
    {k : String × Field} (hk : k ∈ citationFields) :
    replyField (replyRoot l) i k.1 = ((recordRun calls).records[i]?).bind (·.fieldItem k.2) := by
  obtain ⟨l', hrun', hshows⟩ := (showsList_start heap).run heap hroutable
  obtain rfl : l = l' := Option.some.inj (hrun.symm.trans hrun')
  have hnodes : l.nodes[i]?.bind (fun node =>
      (citationItem (resultItem node)).getObjectItem (bytes k.1)) =
      ((recordRun calls).records[i]?).bind (·.fieldItem k.2) := by
    have hrel := hshows.nodes
    generalize l.nodes = nodes at hrel
    change List.Forall₂ Shows nodes (recordRun calls).records at hrel
    generalize (recordRun calls).records = rs at hrel
    induction hrel generalizing i with
    | nil => rfl
    | cons hhead _ ih =>
        cases i with
        | zero => exact hhead.getObjectItem_eq hk
        | succ i => exact ih i
  have href : (replyRoot l).getObjectItem (bytes "ref") =
      some (.array ((rpcQuery l).map citationItem)) := by
    have hkey : strcasecmpEq (CText.of (bytes "ref")).bytes (bytes "ref") = true := by
      decide +kernel
    simp only [replyRoot, CJson.getObjectItem, List.find?_cons, hkey, Option.map_some]
  rw [replyField, href, ← hnodes, Option.bind_some]
  simp only [CJson.getArrayItem, rpcQuery, List.map_map, List.getElem?_map, Option.bind_map]
  rfl

/-- A client whose text can be framed, and is made into labelled segments that can be routed, finds
under every key of every citation what the segments labelled with its field have given, wherever
the request and the reply are cut. -/
theorem session_shows {predict : List UInt8 → Nat → NodeList} (heap : Nat → CitationNode)
    {text : List UInt8} {calls : List InfoCall}
    (hrun : infoRun heap calls = some (predict text text.length))
    (hroutable : ∀ c ∈ calls, Routable c) (hne : text ≠ []) (hnowhere : Nowhere endFlag text)
    (hend : ¬ bytes "#MTFBWU" <:+ text) (hlimit : text.length + endFlag.length ≤ qSizeLimit)
    {request reply : List Piece} (hrequest : stream request = clientRequest text)
    (hreply : stream reply = serverReply predict request) :
    ∃ tree, CJson.parse (clientReply reply) = .ok tree ∧
      ∀ i, ∀ k ∈ citationFields,
        replyField tree i k.1 = ((recordRun calls).records[i]?).bind (·.fieldItem k.2) :=
  ⟨_, session_parses predict hne hnowhere hend hlimit hrequest hreply, fun i _ hk =>
    replyField_replyRoot heap hrun hroutable i hk⟩

/-- A title is looked up in a reply that comes in two pieces. -/
theorem session_shows_title :
    ∃ tree, CJson.parse (clientReply
        [⟨bytes "\x7b\"ref\":[\x7b\"title\":\"Entity-", by decide +kernel, by decide +kernel⟩,
          ⟨bytes "based\"\x7d]\x7d", by decide +kernel, by decide +kernel⟩]) = .ok tree ∧
      ∀ i, ∀ k ∈ citationFields, replyField tree i k.1 =
        ((recordRun [⟨14, bytes "Entity-based, ", default⟩]).records[i]?).bind
          (·.fieldItem k.2) := by
  let calls : List InfoCall := [⟨14, bytes "Entity-based, ", default⟩]
  exact @session_shows (fun _ _ => (infoRun (fun _ _ => 0) calls).getD (.start fun _ _ => 0))
    (fun _ _ => 0) (bytes "Entity-based, ") calls rfl (by decide +kernel) (by decide +kernel)
    (findFirst_eq_none_iff.mp (by decide +kernel)) (by decide +kernel) (by decide +kernel)
    [⟨bytes "Entity-based, #MTF", by decide +kernel, by decide +kernel⟩,
      ⟨bytes "BWU#", by decide +kernel, by decide +kernel⟩] _ (by decide +kernel)
    (by decide +kernel)

end CiteParser
