import LinuxSys.Lib.Fields
import LinuxSys.Sysagent.Procfs

/-! # The HTTP endpoint of sysagent ch36

`handle_client` answers what one read gives. The C++ version looks at the line up to CRLF and its
first two blanks, the Rust version at the line up to any line end and its words. What the first read
leaves for later is not looked at.
-/

namespace LinuxSys.Sysagent.Httpd

open Lib Procfs

inductive Server where
  | cpp
  | rust
deriving DecidableEq, Repr

structure Response where
  status : ℕ
  statusText : Bytes
  contentType : Bytes
  body : Bytes
deriving DecidableEq, Repr

/-- `http_response` -/
def Response.render (r : Response) : Bytes :=
  ascii "HTTP/1.1 " ++ decimal r.status ++ ascii " " ++ r.statusText ++
    ascii "\r\nContent-Type: " ++ r.contentType ++ ascii "\r\nContent-Length: " ++
    decimal r.body.length ++ ascii "\r\nConnection: close\r\n\r\n" ++ r.body

def get : Bytes := ascii "GET"

def metrics : Bytes := ascii "/metrics"

/-- The answer to a snapshot, or to its error. -/
def metricsResponse : Except Bytes Bytes → Response
  | .ok json => ⟨200, ascii "OK", ascii "application/json", json⟩
  | .error e => ⟨500, ascii "Internal Server Error", ascii "text/plain", e⟩

def notFound : Response := ⟨404, ascii "Not Found", ascii "text/plain", ascii "not found\n"⟩

/-- The line up to the first CRLF. -/
def requestLine : Bytes → Bytes
  | [] => []
  | b :: rest => if b = 0x0D ∧ rest.head? = some 0x0A then [] else b :: requestLine rest

/-- The method and the path of a request. -/
def methodPath : Server → Bytes → Bytes × Bytes
  | .cpp, req =>
    match splitFirst? 0x20 (requestLine req) with
    | none => ([], [])
    | some (method, rest) =>
      match splitFirst? 0x20 rest with
      | none => (method, [])
      | some (path, _) => (method, path)
  | .rust, req =>
    let parts := words ((strLines (Utf8.lossy req)).head?.getD [])
    (parts[0]?.getD [], parts[1]?.getD [])

/-- What a read gives at most. -/
def Server.room : Server → ℕ
  | .cpp => 4095
  | .rust => 4096

/-- What the client is sent, if anything. -/
def handleClient (server : Server) (snap : Except Bytes Bytes) (client : Lib.Source UInt8) :
    Option Response :=
  let req := (client.read server.room).1
  if req = [] then none
  else if methodPath server req = (get, metrics) then some (metricsResponse snap)
  else some notFound

/-! What the endpoint promises. -/

/-- `GET /metrics HTTP/1.x` -/
def Exact (line : Bytes) : Prop :=
  ∃ x, isDigit x ∧ line = get ++ 0x20 :: metrics ++ 0x20 :: ascii "HTTP/1." ++ [x]

/-- The answer to a request with this line. -/
def Right (server : Server) (json : Bytes) (client : Lib.Source UInt8) : Prop :=
  (Exact (requestLine client.bytes) →
    handleClient server (.ok json) client = some (metricsResponse (.ok json))) ∧
  (¬ Exact (requestLine client.bytes) → handleClient server (.ok json) client = some notFound)

/-- What a server takes for a request of the metrics. -/
def Asks : Server → Bytes → Prop
  | .cpp, req => get ++ 0x20 :: metrics ++ [0x20] <+: req
  | .rust, req => [get, metrics] <+: fields Utf8.spaces (before newline req)

instance (server : Server) (req : Bytes) : Decidable (Asks server req) :=
  match server with
  | .cpp => inferInstanceAs (Decidable (_ <+: _))
  | .rust => inferInstanceAs (Decidable (_ <+: _))

/-- The text that the first read gives. -/
def Server.first (server : Server) (client : Lib.Source UInt8) : Bytes :=
  (client.read server.room).1

def status (server : Server) (json : Bytes) (client : Lib.Source UInt8) : Option ℕ :=
  (handleClient server (.ok json) client).map Response.status

/-- Both servers get something or none does, and both take it for a request of the metrics or none
does. -/
structure Agree (left right : Server) (client peer : Lib.Source UInt8) : Prop where
  empty : client.bytes = [] ↔ peer.bytes = []
  asks : Asks left (left.first client) ↔ Asks right (right.first peer)

/-- So much of the line a server wants to see. -/
def Server.needs : Server → ℕ
  | .cpp => 13
  | .rust => 12

/-- The request has bytes; the first read of a promised line goes behind the path, and of another
gives nothing that passes for it. -/
structure Fine (server : Server) (client : Lib.Source UInt8) : Prop where
  some : client.bytes ≠ []
  reaches : Exact (requestLine client.bytes) → server.needs ≤ (server.first client).length
  other : ¬ Exact (requestLine client.bytes) → ¬ Asks server (server.first client)

/-! The line. -/

section Line

variable {front bytes : Bytes}

theorem requestLine_front (bytes : Bytes) : requestLine bytes <+: bytes := by
  induction bytes with
  | nil => exact List.nil_prefix
  | cons b rest ih =>
    rw [requestLine]
    split
    · exact List.nil_prefix
    · exact List.cons_prefix_cons.mpr ⟨rfl, ih⟩

/-- A text without a carriage return is in front of the line if it is in front of all. -/
theorem prefix_requestLine_iff (fresh : 0x0D ∉ front) :
    front <+: requestLine bytes ↔ front <+: bytes := by
  refine ⟨fun inside => inside.trans (requestLine_front bytes), fun inside => ?_⟩
  induction front generalizing bytes with
  | nil => exact List.nil_prefix
  | cons b front ih =>
    obtain ⟨back, rfl⟩ := inside
    have later : 0x0D ∉ front := fun member => fresh (List.mem_cons_of_mem b member)
    rw [List.cons_append, requestLine,
      if_neg fun both => fresh (List.mem_cons.mpr (.inl both.1.symm))]
    exact List.cons_prefix_cons.mpr ⟨rfl, ih later ⟨back, rfl⟩⟩

theorem before_append (fresh : newline ∉ front) (back : Bytes) :
    before newline (front ++ back) = front ++ before newline back := by
  cases found : splitFirst? newline back with
  | none =>
    have absent := splitFirst?_eq_none_iff.mp found
    rw [before_of_not_mem absent, before_of_not_mem]
    exact fun member => (List.mem_append.mp member).elim fresh absent
  | some parts =>
    obtain ⟨same, absent⟩ := splitFirst?_eq_some_iff.mp found
    rw [same, before_append_cons absent, ← List.append_assoc, before_append_cons]
    exact fun member => (List.mem_append.mp member).elim fresh absent

end Line

/-! The C++ version. -/

theorem methodPath_cpp_iff (req : Bytes) :
    methodPath .cpp req = (get, metrics) ↔ Asks .cpp req := by
  have fresh : (0x0D : UInt8) ∉ get ++ 0x20 :: metrics ++ [0x20] := by decide
  have metrics_blank : (0x20 : UInt8) ∉ metrics := by decide
  rw [Asks, ← prefix_requestLine_iff fresh, methodPath]
  constructor
  · intro asked
    split at asked
    · exact absurd (congrArg Prod.fst asked) (by decide)
    · next method rest found =>
      split at asked
      · exact absurd (congrArg Prod.snd asked) (show ([] : Bytes) ≠ metrics by decide)
      · next path behind again =>
        obtain ⟨rfl, rfl⟩ := Prod.mk.inj asked
        rw [(splitFirst?_eq_some_iff.mp found).1, (splitFirst?_eq_some_iff.mp again).1]
        exact ⟨behind, by simp only [List.append_assoc, List.cons_append, List.nil_append]⟩
  · rintro ⟨behind, line⟩
    have first : splitFirst? 0x20 (requestLine req) = some (get, metrics ++ 0x20 :: behind) := by
      rw [← line]
      simp only [List.append_assoc, List.cons_append, List.nil_append]
      exact splitFirst?_append (by decide) _
    simp only [first, splitFirst?_append metrics_blank]

/-! The Rust version. -/

theorem words_dropCR (line : Bytes) : words (dropCR line) = words line := by
  rw [dropCR]
  split
  · next ended =>
    obtain ⟨front, rfl⟩ := List.getLast?_eq_some_iff.mp ended
    rw [List.dropLast_concat, words, words,
      fields_append_cons (Utf8.single_spaces (by decide)) Utf8.nil_not_mem_spaces (by decide)]
    simp [fields]
  · rfl

/-- The carriage return at the end of a line is white space, so it does not matter that the last
line keeps it. -/
theorem words_first_line (req : Bytes) : words ((strLines req).head?.getD []) =
    fields Utf8.spaces (before newline req) := by
  cases found : splitFirst? newline req with
  | none =>
    have fresh := splitFirst?_eq_none_iff.mp found
    rw [strLines, cutLines_of_not_mem fresh, before_of_not_mem fresh]
    by_cases none : req = []
    · rw [none]
      rfl
    · simp [none, words]
  | some parts =>
    obtain ⟨rfl, fresh⟩ := splitFirst?_eq_some_iff.mp found
    rw [strLines, cutLines_cons fresh, before_append_cons fresh]
    exact words_dropCR parts.1

theorem before_lossy (req : Bytes) :
    before newline (Utf8.lossy req) = Utf8.lossy (before newline req) := by
  have low : newline ≤ 0x7F := by decide
  cases found : splitFirst? newline req with
  | none =>
    have fresh := splitFirst?_eq_none_iff.mp found
    rw [before_of_not_mem fresh,
      before_of_not_mem ((Utf8.mem_lossy_iff low req).not.mpr fresh)]
  | some parts =>
    obtain ⟨rfl, fresh⟩ := splitFirst?_eq_some_iff.mp found
    rw [before_append_cons fresh, Utf8.lossy_append_cons low,
      before_append_cons ((Utf8.mem_lossy_iff low parts.1).not.mpr fresh)]

/-- Two words in front are two words in front of words alike. -/
theorem front_alike {left right wanted : List Bytes} (alike : List.Forall₂ Utf8.Alike left right)
    (ascii : ∀ word ∈ wanted, ∀ b ∈ word, b ≤ 0x7F) (front : wanted <+: left) :
    wanted <+: right := by
  induction wanted generalizing left right with
  | nil => exact List.nil_prefix
  | cons word wanted ih =>
    cases alike with
    | nil => exact absurd front (by simp)
    | cons first later =>
      obtain ⟨rfl, inside⟩ := List.cons_prefix_cons.mp front
      rw [first.of_ascii (.inl (ascii _ List.mem_cons_self))] at *
      exact List.cons_prefix_cons.mpr
        ⟨rfl, ih later (fun other member => ascii other (List.mem_cons_of_mem _ member)) inside⟩

theorem methodPath_rust_iff (req : Bytes) :
    methodPath .rust req = (get, metrics) ↔ Asks .rust req := by
  have ascii : ∀ word ∈ [get, metrics], ∀ b ∈ word, b ≤ 0x7F := by decide
  have alike := Utf8.fields_lossy (before newline req)
  have back : List.Forall₂ Utf8.Alike (fields Utf8.spaces (Utf8.lossy (before newline req)))
      (fields Utf8.spaces (before newline req)) := by
    exact alike.flip.imp fun raw text (other : Utf8.Alike text raw) => other.symm
  have seen : Asks .rust req ↔
      [get, metrics] <+: words ((strLines (Utf8.lossy req)).head?.getD []) := by
    rw [words_first_line, before_lossy]
    exact ⟨front_alike alike ascii, front_alike back ascii⟩
  rw [seen, methodPath]
  generalize words ((strLines (Utf8.lossy req)).head?.getD []) = parts
  constructor
  · intro asked
    obtain ⟨method, path⟩ := Prod.mk.inj asked
    match parts with
    | [] => exact absurd method (show ([] : Bytes) ≠ get by decide)
    | [_] => exact absurd path (show ([] : Bytes) ≠ metrics by decide)
    | first :: second :: later =>
      obtain rfl : first = get := method
      obtain rfl : second = metrics := path
      exact ⟨later, rfl⟩
  · rintro ⟨later, rfl⟩
    rfl

/-! The answers. -/

section Answers

variable {server : Server} {client : Lib.Source UInt8} {front line bytes : Bytes}

theorem methodPath_iff (server : Server) (req : Bytes) :
    methodPath server req = (get, metrics) ↔ Asks server req := by
  cases server with
  | cpp => exact methodPath_cpp_iff req
  | rust => exact methodPath_rust_iff req

theorem handleClient_eq (server : Server) (snap : Except Bytes Bytes) (client : Lib.Source UInt8) :
    handleClient server snap client = if client.bytes = [] then none else
      if Asks server (server.first client) then some (metricsResponse snap) else some notFound := by
  have room : 0 < server.room := by cases server <;> decide
  simp only [handleClient, client.read_eq_nil_iff room, methodPath_iff]
  rfl

theorem first_front (server : Server) (client : Lib.Source UInt8) :
    server.first client <+: client.bytes :=
  ⟨_, client.read_append_bytes server.room⟩

theorem front_of_exact (exact : Exact (requestLine bytes)) :
    get ++ 0x20 :: metrics ++ [0x20] <+: bytes := by
  obtain ⟨x, -, same⟩ := exact
  refine List.IsPrefix.trans ?_ (requestLine_front bytes)
  rw [same]
  refine ⟨ascii "HTTP/1." ++ [x], ?_⟩
  simp only [List.append_assoc, List.cons_append, List.nil_append]

/-- Whatever stands behind the path and a blank, the first words are the method and the path. -/
theorem asks_rust_append (back : Bytes) : Asks .rust (get ++ 0x20 :: metrics ++ 0x20 :: back) := by
  have fresh : newline ∉ get ++ 0x20 :: metrics ++ [0x20] := by decide
  have line : get ++ 0x20 :: metrics ++ 0x20 :: back =
      get ++ 0x20 :: metrics ++ [0x20] ++ back := by
    simp only [List.append_assoc, List.cons_append, List.nil_append]
  have words : fields Utf8.spaces (get ++ 0x20 :: metrics) = [get, metrics] := by decide +kernel
  have cut : get ++ 0x20 :: metrics ++ [0x20] ++ before newline back =
      (get ++ 0x20 :: metrics) ++ 0x20 :: before newline back := by
    simp only [List.append_assoc, List.cons_append, List.nil_append]
  rw [Asks, line, before_append fresh, cut,
    fields_append_cons (Utf8.single_spaces (by decide)) Utf8.nil_not_mem_spaces (by decide), words]
  exact List.prefix_append _ _

theorem not_asks_rust_take : ∀ n < 12, ¬ [get, metrics] <+:
    fields Utf8.spaces (before newline ((get ++ 0x20 :: metrics).take n)) := by
  decide +kernel

/-- In front of a stream with the promised line, a server sees a request of the metrics once it sees
enough. -/
theorem asks_iff_of_exact (exact : Exact (requestLine bytes)) (inside : front <+: bytes) :
    Asks server front ↔ server.needs ≤ front.length := by
  cases server with
  | cpp =>
    exact ⟨fun asks => asks.length_le,
      List.prefix_of_prefix_length_le (front_of_exact exact) inside⟩
  | rust =>
    have path : get ++ 0x20 :: metrics <+: bytes :=
      (List.prefix_append _ _).trans (front_of_exact exact)
    constructor
    · intro asks
      by_contra short
      have less : front.length < 12 := not_le.mp short
      have part : front <+: get ++ 0x20 :: metrics :=
        List.prefix_of_prefix_length_le inside path less.le
      rw [List.prefix_iff_eq_take.mp part] at asks
      exact not_asks_rust_take front.length less asks
    · intro enough
      obtain ⟨back, rfl⟩ : get ++ 0x20 :: metrics <+: front :=
        List.prefix_of_prefix_length_le path inside enough
      cases back with
      | nil => decide +kernel
      | cons b back =>
        obtain ⟨later, same⟩ := inside
        obtain ⟨more, still⟩ := front_of_exact exact
        have both : get ++ 0x20 :: metrics ++ (b :: (back ++ later)) =
            get ++ 0x20 :: metrics ++ 0x20 :: more := by
          simpa only [List.append_assoc, List.cons_append, List.nil_append] using
            same.trans still.symm
        rw [(List.cons.inj (List.append_cancel_left both)).1]
        exact asks_rust_append back

theorem not_exact_nil : ¬ Exact (requestLine []) := by
  rintro ⟨x, -, same⟩
  exact absurd same.symm (List.cons_ne_nil _ _)

theorem metricsResponse_ne_notFound (json : Bytes) : metricsResponse (.ok json) ≠ notFound :=
  fun same => absurd (congrArg Response.status same) (show (200 : ℕ) ≠ 404 by decide)

theorem right_iff (server : Server) (json : Bytes) (client : Lib.Source UInt8) :
    Right server json client ↔ Fine server client := by
  rw [Right, handleClient_eq]
  constructor
  · rintro ⟨found, other⟩
    have some : client.bytes ≠ [] := by
      intro none
      rw [none] at other
      exact absurd (other not_exact_nil) (by simp)
    simp only [if_neg some] at found other
    refine ⟨some, fun exact => ?_, fun inexact asks => ?_⟩
    · refine (asks_iff_of_exact exact (first_front server client)).mp ?_
      by_contra refused
      rw [if_neg refused] at found
      exact metricsResponse_ne_notFound json (Option.some.inj (found exact)).symm
    · rw [if_pos asks] at other
      exact metricsResponse_ne_notFound json (Option.some.inj (other inexact))
  · intro fine
    rw [if_neg fine.some]
    constructor
    · intro exact
      rw [if_pos ((asks_iff_of_exact exact (first_front server client)).mpr (fine.reaches exact))]
    · intro inexact
      rw [if_neg (fine.other inexact)]

theorem not_asks_nil (server : Server) : ¬ Asks server [] := by
  cases server with
  | cpp => decide
  | rust => decide +kernel

theorem status_eq (server : Server) (json : Bytes) (client : Lib.Source UInt8) :
    status server json client = if client.bytes = [] then none else
      if Asks server (server.first client) then some 200 else some 404 := by
  rw [status, handleClient_eq]
  split_ifs <;> rfl

theorem first_of_nil (none : client.bytes = []) : server.first client = [] := by
  have front := first_front server client
  rw [none] at front
  exact List.prefix_nil.mp front

theorem status_eq_iff (left right : Server) (json other : Bytes) (client peer : Lib.Source UInt8) :
    status left json client = status right other peer ↔ Agree left right client peer := by
  rw [status_eq, status_eq]
  constructor
  · intro same
    by_cases empty : client.bytes = [] <;> by_cases none : peer.bytes = []
    · rw [if_pos empty, if_pos none] at same
      refine ⟨iff_of_true empty none, ?_⟩
      rw [first_of_nil empty, first_of_nil none]
      exact iff_of_false (not_asks_nil left) (not_asks_nil right)
    · rw [if_pos empty, if_neg none] at same
      split_ifs at same
    · rw [if_neg empty, if_pos none] at same
      split_ifs at same
    · rw [if_neg empty, if_neg none] at same
      refine ⟨iff_of_false empty none, ?_⟩
      split_ifs at same with asks too too
      · exact iff_of_true asks too
      · exact absurd same (by decide)
      · exact absurd same (by decide)
      · exact iff_of_false asks too
  · rintro ⟨empty, asks⟩
    simp only [empty, asks]

end Answers

/-- A server answers as promised where it reads enough at once and takes nothing else for a request
of the metrics; two answers have the same status where two reads agree. -/
theorem endpoint_right_iff (json other : Bytes) :
    (∀ server client, Right server json client ↔ Fine server client) ∧
      ∀ left right client peer,
        status left json client = status right other peer ↔ Agree left right client peer :=
  ⟨fun server client => right_iff server json client,
    fun left right client peer => status_eq_iff left right json other client peer⟩

/-- A request that arrives in two pieces. -/
def twoPieces : Lib.Source UInt8 where
  segments := [ascii "G", ascii "ET /metrics HTTP/1.1\r\n\r\n"]
  nonempty := by decide

theorem two_pieces_not_found : Exact (requestLine twoPieces.bytes) ∧ ∀ server json,
    handleClient server (.ok json) twoPieces = some notFound ∧ ¬ Right server json twoPieces := by
  have exact : Exact (requestLine twoPieces.bytes) := ⟨0x31, by decide, by decide⟩
  refine ⟨exact, fun server json => ?_⟩
  have short : ¬ server.needs ≤ (server.first twoPieces).length := by cases server <;> decide
  have answer : handleClient server (.ok json) twoPieces = some notFound := by
    rw [handleClient_eq, if_neg (by decide),
      if_neg ((asks_iff_of_exact exact (first_front server twoPieces)).not.mpr short)]
  refine ⟨answer, fun right => short ?_⟩
  exact ((right_iff server json twoPieces).mp right).reaches exact

end LinuxSys.Sysagent.Httpd
