import WebrtcCore.Ports.ByteBuffer
import WebrtcCore.Ports.NetAddress
import WebrtcCore.Verified.Simulation

/-!
# The SOCKS5 handshake between the client and the server of the package

Port of `AsyncSocksProxySocket`, `AsyncSocksProxyServerSocket` and of the part of
`BufferedReadAdapter` that fills the buffer both of them parse.  The sockets are joined by two
byte streams; a read event takes some of the bytes in flight, so a schedule of read events is a
way of cutting the streams.

The client waits when a reply is not complete.  The server does not: a hello or a connect request
that arrives in parts is an error, and so is anything a client with a user name sends, because
`HandleHello` reads one method of the two that it offers.
-/

namespace WebrtcCore.Ports.SocksHandshake

open Verified Ports.ByteBuffer Ports.NetAddress Bytes Cursor Simulation List

/-! ### The sockets -/

/-- `BufferedReadAdapter`, with whether the socket under it is open. -/
structure BufferedReadAdapter where
  bufferSize : Nat := 1024
  buffer : List UInt8 := []
  buffering : Bool := true
  isOpen : Bool := true
deriving DecidableEq, Repr

def BufferedReadAdapter.fill (a : BufferedReadAdapter) (count : Nat) (incoming : List UInt8) :
    BufferedReadAdapter × List UInt8 :=
  let data := if a.buffer.length ≥ a.bufferSize then [] else a.buffer
  let len := min (count + 1) (a.bufferSize - data.length)
  ({ a with buffer := data ++ incoming.take len }, incoming.drop len)

inductive ClientState where
  | init
  | hello
  | auth
  | connect
  | tunnel
  | error
deriving DecidableEq, Repr

structure AsyncSocksProxySocket where
  adapter : BufferedReadAdapter := {}
  state : ClientState := .init
  dest : SocketAddress
  user : List UInt8
  pass : List UInt8
deriving DecidableEq, Repr

namespace AsyncSocksProxySocket

def sendHello (c : AsyncSocksProxySocket) : AsyncSocksProxySocket × List UInt8 :=
  ({ c with state := .hello },
    writeUInt8 5 ++
      if c.user.isEmpty then writeUInt8 1 ++ writeUInt8 0
      else writeUInt8 2 ++ writeUInt8 0 ++ writeUInt8 2)

def sendAuth (c : AsyncSocksProxySocket) : AsyncSocksProxySocket × List UInt8 :=
  ({ c with state := .auth },
    writeUInt8 1 ++ writeUInt8 (UInt8.ofNat c.user.length) ++ c.user ++
      writeUInt8 (UInt8.ofNat c.pass.length) ++ c.pass)

def sendConnect (c : AsyncSocksProxySocket) : AsyncSocksProxySocket × List UInt8 :=
  ({ c with state := .connect },
    writeUInt8 5 ++ writeUInt8 1 ++ writeUInt8 0 ++
      (if c.dest.isUnresolvedIP then
        writeUInt8 3 ++ writeUInt8 (UInt8.ofNat c.dest.hostname.length) ++ c.dest.hostname
      else writeUInt8 1 ++ writeUInt32 c.dest.ip.v4AddressAsHostOrderInteger) ++
      writeUInt16 c.dest.port)

/-- `Error`, with the `Close` that clears the destination. -/
def error (c : AsyncSocksProxySocket) : AsyncSocksProxySocket :=
  { c with
    state := .error
    dest := {}
    adapter := { c.adapter with buffering := false, isOpen := false } }

/-- The end of `ProcessInput`: what was parsed is consumed, and in the tunnel the input
is no longer buffered. -/
def consume (r : AsyncSocksProxySocket × List UInt8) (response : ByteBufferReader) :
    AsyncSocksProxySocket × List UInt8 :=
  ({ r.1 with
      adapter := { r.1.adapter with
        buffer := response.rest
        buffering := r.1.adapter.buffering && r.1.state != .tunnel } }, r.2)

def readPair : Attempt ByteBufferReader (UInt8 × UInt8) := do
  let ver ← readUInt8
  let second ← readUInt8
  return (ver, second)

def readConnectReply : Attempt ByteBufferReader (UInt8 × UInt8 × UInt8 × UInt8) := do
  let ver ← readUInt8
  let rep ← readUInt8
  let rsv ← readUInt8
  let atyp ← readUInt8
  return (ver, rep, rsv, atyp)

/-- The bound address, by its type; no type but these is known. -/
def readBound (atyp : UInt8) : Option (Attempt ByteBufferReader Unit) :=
  if atyp = 1 then
    some do
      let _ ← readUInt32
      let _ ← readUInt16
      return ()
  else if atyp = 3 then
    some do
      let len ← readUInt8
      let _ ← readString len.toNat
      let _ ← readUInt16
      return ()
  else if atyp = 4 then
    some do
      let _ ← readString 16
      let _ ← readUInt16
      return ()
  else none

/-- `ProcessInput`, with the bytes it sends. -/
def processInput (c : AsyncSocksProxySocket) : AsyncSocksProxySocket × List UInt8 :=
  match c.state with
  | .hello =>
    match readPair (Cursor.start c.adapter.buffer) with
    | (none, _) => (c, [])
    | (some (ver, method), response) =>
      if ver ≠ 5 then (c.error, [])
      else if method = 0 then consume c.sendConnect response
      else if method = 2 then consume c.sendAuth response
      else (c.error, [])
  | .auth =>
    match readPair (Cursor.start c.adapter.buffer) with
    | (none, _) => (c, [])
    | (some (ver, status), response) =>
      if ver ≠ 1 ∨ status ≠ 0 then (c.error, []) else consume c.sendConnect response
  | .connect =>
    match readConnectReply (Cursor.start c.adapter.buffer) with
    | (none, _) => (c, [])
    | (some (ver, rep, _, atyp), response) =>
      if ver ≠ 5 ∨ rep ≠ 0 then (c.error, [])
      else
        match readBound atyp with
        | none => (c.error, [])
        | some bound =>
          match bound response with
          | (none, _) => (c, [])
          | (some (), response) => consume ({ c with state := .tunnel }, []) response
  | _ => (c, [])

end AsyncSocksProxySocket

inductive ServerState where
  | hello
  | auth
  | connect
  | connectPending
  | tunnel
  | error
deriving DecidableEq, Repr

/-- The server, with the addresses that `SignalConnectRequest` was called with. -/
structure AsyncSocksProxyServerSocket where
  adapter : BufferedReadAdapter := {}
  state : ServerState := .hello
  requests : List SocketAddress := []
deriving DecidableEq, Repr

namespace AsyncSocksProxyServerSocket

def error (s : AsyncSocksProxyServerSocket) : AsyncSocksProxyServerSocket :=
  { s with
    state := .error
    adapter := { s.adapter with buffering := false, isOpen := false } }

/-- One of the handlers: the next state, the bytes it sends, and what it has read. -/
abbrev Handled := AsyncSocksProxyServerSocket × List UInt8 × ByteBufferReader

def sendHelloReply (method : UInt8) : List UInt8 := writeUInt8 5 ++ writeUInt8 method

def sendAuthReply (result : UInt8) : List UInt8 := writeUInt8 1 ++ writeUInt8 result

def handleHello (s : AsyncSocksProxyServerSocket) (request : ByteBufferReader) : Handled :=
  match AsyncSocksProxySocket.readPair request with
  | (none, request) => (s.error, [], request)
  | (some (ver, numMethods), request) =>
    if ver ≠ 5 then (s.error, [], request)
    else
      match (if numMethods > 0 then readUInt8 else pure 0xFF) request with
      | (none, request) => (s.error, [], request)
      | (some method, request) =>
        ({ s with
            state := if method = 0 then .connect else if method = 2 then .auth else .error },
          sendHelloReply method, request)

def readAuth : Attempt ByteBufferReader (UInt8 × List UInt8 × List UInt8) := do
  let ver ← readUInt8
  let userLen ← readUInt8
  let user ← readString userLen.toNat
  let passLen ← readUInt8
  let pass ← readString passLen.toNat
  return (ver, user, pass)

def handleAuth (s : AsyncSocksProxyServerSocket) (request : ByteBufferReader) : Handled :=
  match readAuth request with
  | (none, request) => (s.error, [], request)
  | (some _, request) => ({ s with state := .connect }, sendAuthReply 0, request)

def readConnectRequest :
    Attempt ByteBufferReader (UInt8 × UInt8 × UInt8 × UInt8 × UInt32 × UInt16) := do
  let ver ← readUInt8
  let command ← readUInt8
  let reserved ← readUInt8
  let addrType ← readUInt8
  let ip ← readUInt32
  let port ← readUInt16
  return (ver, command, reserved, addrType, ip, port)

def handleConnect (s : AsyncSocksProxyServerSocket) (request : ByteBufferReader) : Handled :=
  match readConnectRequest request with
  | (none, request) => (s.error, [], request)
  | (some (ver, command, reserved, addrType, ip, port), request) =>
    if ver ≠ 5 ∨ command ≠ 1 ∨ reserved ≠ 0 ∨ addrType ≠ 1 then (s.error, [], request)
    else
      ({ s with
          requests := s.requests ++ [SocketAddress.ofHostOrder ip port]
          state := .connectPending }, [], request)

/-- `ProcessInput`, with the bytes it sends; what was read is consumed in every case. -/
def processInput (s : AsyncSocksProxyServerSocket) :
    AsyncSocksProxyServerSocket × List UInt8 :=
  let request := Cursor.start s.adapter.buffer
  let handled :=
    match s.state with
    | .hello => s.handleHello request
    | .auth => s.handleAuth request
    | .connect => s.handleConnect request
    | _ => (s, [], request)
  ({ handled.1 with
      adapter := { handled.1.adapter with buffer := handled.2.2.rest } }, handled.2.1)

def sendConnectResult (s : AsyncSocksProxyServerSocket) (result : Int) (addr : SocketAddress) :
    AsyncSocksProxyServerSocket × List UInt8 :=
  if s.state = .connectPending then
    ({ s with state := .tunnel, adapter := { s.adapter with buffering := false } },
      writeUInt8 5 ++ writeUInt8 (if result ≠ 0 then 1 else 0) ++ writeUInt8 0 ++
        writeUInt8 1 ++ writeUInt32 addr.ip.v4AddressAsHostOrderInteger ++
        writeUInt16 addr.port)
  else (s, [])

end AsyncSocksProxyServerSocket

/-! ### The two sockets joined -/

structure Connection where
  client : AsyncSocksProxySocket
  server : AsyncSocksProxyServerSocket
  toServer : List UInt8
  toClient : List UInt8
deriving DecidableEq, Repr

/-- `Connect` on the client, and the event that the connection to the proxy is there. -/
def connected (user pass : List UInt8) (dest : SocketAddress) : Connection :=
  let hello := AsyncSocksProxySocket.sendHello { dest, user, pass }
  { client := hello.1, server := {}, toServer := hello.2, toClient := [] }

inductive Happening where
  | serverReads (count : Nat)
  | clientReads (count : Nat)
  | answer (addr : SocketAddress)
deriving DecidableEq, Repr

/-- A read event needs bytes in flight, an open socket and a handshake that is going on. -/
def Connection.step (w : Connection) : Happening → Connection
  | .serverReads count =>
    if w.toServer ≠ [] ∧ w.server.adapter.isOpen ∧ w.server.adapter.buffering then
      let filled := w.server.adapter.fill count w.toServer
      let processed :=
        AsyncSocksProxyServerSocket.processInput { w.server with adapter := filled.1 }
      { w with
        server := processed.1
        toServer := filled.2
        toClient := w.toClient ++ processed.2 }
    else w
  | .clientReads count =>
    if w.toClient ≠ [] ∧ w.client.adapter.isOpen ∧ w.client.adapter.buffering then
      let filled := w.client.adapter.fill count w.toClient
      let processed := AsyncSocksProxySocket.processInput { w.client with adapter := filled.1 }
      { w with
        client := processed.1
        toClient := filled.2
        toServer := w.toServer ++ processed.2 }
    else w
  | .answer addr =>
    let answered := w.server.sendConnectResult 0 addr
    { w with server := answered.1, toClient := w.toClient ++ answered.2 }

def Connection.run (w : Connection) (schedule : List Happening) : Connection :=
  schedule.foldl Connection.step w

/-- Nothing in flight will be read any more, and a request that was signalled was
answered. -/
def Connection.Finished (w : Connection) : Prop :=
  (w.toServer = [] ∨ w.server.adapter.isOpen = false) ∧
    (w.toClient = [] ∨ w.client.adapter.isOpen = false) ∧ w.server.state ≠ .connectPending
  deriving Decidable

/-- What the handshake is for. -/
def Connection.Established (w : Connection) (dest : SocketAddress) : Prop :=
  (∃ request, w.server.requests = [request] ∧ request.ip = dest.ip ∧ request.port = dest.port) ∧
    w.client.state = .tunnel ∧ w.server.state = .tunnel ∧
    w.client.adapter.buffer = [] ∧ w.server.adapter.buffer = []

/-- A read of the server takes all that is in flight to it. -/
def Connection.WholeRead (w : Connection) : Happening → Prop
  | .serverReads count => w.toServer.length ≤ count + 1
  | _ => True

instance (w : Connection) (happening : Happening) : Decidable (w.WholeRead happening) := by
  cases happening <;> unfold Connection.WholeRead <;> infer_instance

/-! ### What the parsers need -/

open AsyncSocksProxySocket AsyncSocksProxyServerSocket

theorem readPair_width : Width readPair 2 :=
  (readNumber_width 1 _).bind fun _ => (readNumber_width 1 _).bind fun _ => Width.pure _

theorem readConnectReply_width : Width readConnectReply 4 :=
  (readNumber_width 1 _).bind fun _ => (readNumber_width 1 _).bind fun _ =>
    (readNumber_width 1 _).bind fun _ => (readNumber_width 1 _).bind fun _ => Width.pure _

theorem readConnectRequest_width : Width readConnectRequest 10 :=
  (readNumber_width 1 _).bind fun _ => (readNumber_width 1 _).bind fun _ =>
    (readNumber_width 1 _).bind fun _ => (readNumber_width 1 _).bind fun _ =>
      (readNumber_width 4 _).bind fun _ => (readNumber_width 2 _).bind fun _ => Width.pure _

theorem readPair_reads (a b : UInt8) : Reads readPair [a, b] (a, b) :=
  (readUInt8_reads_one a).bind ((readUInt8_reads_one b).map _)

theorem readConnectReply_reads (a b c d : UInt8) :
    Reads readConnectReply [a, b, c, d] (a, b, c, d) :=
  (readUInt8_reads_one a).bind ((readUInt8_reads_one b).bind ((readUInt8_reads_one c).bind
    ((readUInt8_reads_one d).map _)))

theorem readConnectRequest_reads (a b c d : UInt8) (ip : UInt32) (port : UInt16) :
    Reads readConnectRequest
      ([a, b, c, d] ++ writeUInt32 ip ++ writeUInt16 port) (a, b, c, d, ip, port) :=
  (readUInt8_reads_one a).bind ((readUInt8_reads_one b).bind ((readUInt8_reads_one c).bind
    ((readUInt8_reads_one d).bind ((readUInt32_reads ip).bind ((readUInt16_reads port).map _)))))

/-- The read of an IPv4 address and a port. -/
def readBoundV4 : Attempt ByteBufferReader Unit := do
  let _ ← readUInt32
  let _ ← readUInt16
  return ()

theorem readBoundV4_width : Width readBoundV4 6 :=
  (readNumber_width 4 _).bind fun _ => (readNumber_width 2 _).bind fun _ => Width.pure _

theorem readConnectRequest_ver {c c' : ByteBufferReader}
    {fields : UInt8 × UInt8 × UInt8 × UInt8 × UInt32 × UInt16}
    (h : readConnectRequest c = (some fields, c')) :
    ∃ c₁, readUInt8 c = (some fields.1, c₁) := by
  simp only [readConnectRequest, Attempt.bind_eq_some_iff] at h
  obtain ⟨ver, c₁, hver, _, _, -, _, _, -, _, _, -, _, _, -, _, _, -, rfl, -⟩ := h
  exact ⟨c₁, hver⟩

theorem processInput_connect_error (s : AsyncSocksProxyServerSocket) (hstate : s.state = .connect)
    (h : s.adapter.buffer.length < 10 ∨ ∃ b rest, s.adapter.buffer = b :: rest ∧ b ≠ 5) :
    s.processInput.1.state = .error ∧ s.processInput.1.adapter.isOpen = false := by
  have herror : (s.handleConnect (Cursor.start s.adapter.buffer)).1 = s.error := by
    unfold handleConnect
    cases hread : readConnectRequest (Cursor.start s.adapter.buffer) with
    | mk result request =>
      cases result with
      | none => rfl
      | some fields =>
        cases h with
        | inl hshort =>
          have hle := (readConnectRequest_width _ _ _ hread).1
          have hlen := Cursor.rest_length (Cursor.start s.adapter.buffer)
          rw [Cursor.rest_start] at hlen
          omega
        | inr hother =>
          obtain ⟨b, rest, hbuffer, hb⟩ := hother
          obtain ⟨c, hfirst⟩ := readConnectRequest_ver hread
          have hreads := readUInt8_reads_one b (Cursor.start s.adapter.buffer) rest
            (by rw [hbuffer]; rfl)
          rw [hfirst, Prod.mk.injEq, Option.some.injEq] at hreads
          obtain ⟨ver, command, reserved, addrType, ip, port⟩ := fields
          have hver : ver ≠ 5 := fun hver => hb (hreads.1.symm.trans hver)
          exact congrArg Prod.fst (if_pos (.inl hver))
  unfold AsyncSocksProxyServerSocket.processInput
  simp only [hstate, herror]
  exact ⟨rfl, rfl⟩

/-! ### A client without a user name -/

/-- The connect request for a resolved destination. -/
def connectRequest (dest : SocketAddress) : List UInt8 :=
  [5, 1, 0, 1] ++ writeUInt32 dest.ip.v4AddressAsHostOrderInteger ++ writeUInt16 dest.port

/-- The answer of a server that has reached the destination. -/
def connectReply (addr : SocketAddress) : List UInt8 :=
  [5, 0, 0, 1] ++ (writeUInt32 addr.ip.v4AddressAsHostOrderInteger ++ writeUInt16 addr.port)

theorem connectRequest_length (dest : SocketAddress) : (connectRequest dest).length = 10 := by
  simp [connectRequest]

theorem connectReply_length (addr : SocketAddress) : (connectReply addr).length = 10 := by
  simp [connectReply]

/-- The address a server signals for a connect request. -/
def requested (dest : SocketAddress) : SocketAddress :=
  SocketAddress.ofHostOrder dest.ip.v4AddressAsHostOrderInteger dest.port

def clientIn (pass : List UInt8) (dest : SocketAddress) (state : ClientState)
    (buffer : List UInt8) : AsyncSocksProxySocket :=
  { adapter := { buffer, buffering := state != .tunnel }, state, dest, user := [], pass }

def serverIn (state : ServerState) (requests : List SocketAddress) :
    AsyncSocksProxyServerSocket :=
  { adapter := { buffering := state != .tunnel }, state, requests }

section Client

variable (pass : List UInt8) {dest : SocketAddress}

theorem client_waits_hello {buffer : List UInt8} (h : buffer.length < 2) :
    (clientIn pass dest .hello buffer).processInput = (clientIn pass dest .hello buffer, []) := by
  obtain ⟨c, hread⟩ := readPair_width.eq_none (c := Cursor.start buffer) h
  simp [AsyncSocksProxySocket.processInput, clientIn, hread]

theorem client_requests (hdest : dest.isUnresolvedIP = false) :
    (clientIn pass dest .hello [5, 0]).processInput =
      (clientIn pass dest .connect [], connectRequest dest) := by
  obtain ⟨c, hread, hrest⟩ := (readPair_reads 5 0).start []
  rw [append_nil] at hread
  simp [AsyncSocksProxySocket.processInput, clientIn, hread, sendConnect,
    AsyncSocksProxySocket.consume, hdest, hrest, connectRequest, writeUInt8_eq]

theorem client_waits_reply {addr : SocketAddress} {buffer rest : List UInt8}
    (h : buffer ++ rest = connectReply addr) (hrest : rest ≠ []) :
    (clientIn pass dest .connect buffer).processInput =
      (clientIn pass dest .connect buffer, []) := by
  have hlen := congrArg length h
  have hpos := length_pos_iff.mpr hrest
  rw [connectReply_length] at hlen
  by_cases hshort : buffer.length < 4
  · obtain ⟨c, hread⟩ := readConnectReply_width.eq_none (c := Cursor.start buffer) hshort
    simp [AsyncSocksProxySocket.processInput, clientIn, hread]
  · -- the header is there and the bound address is not
    obtain ⟨more, rfl⟩ : ∃ more, buffer = [5, 0, 0, 1] ++ more := by
      have htake := congrArg (take 4) h
      rw [take_append_of_le_length (by omega)] at htake
      refine ⟨buffer.drop 4, ?_⟩
      rw [← take_append_drop 4 buffer, htake]
      rfl
    obtain ⟨c, hread, hmore⟩ := (readConnectReply_reads 5 0 0 1).start more
    have hfew : c.remaining < 6 := by
      rw [← Cursor.rest_length, hmore]
      simp only [length_append, length_cons] at hlen
      omega
    obtain ⟨c', hbound⟩ := readBoundV4_width.eq_none hfew
    have hv4 : readBound 1 = some readBoundV4 := rfl
    simp only [AsyncSocksProxySocket.processInput, clientIn, hread, hv4, hbound]
    simp

theorem client_tunnels (addr : SocketAddress) :
    (clientIn pass dest .connect (connectReply addr)).processInput =
      (clientIn pass dest .tunnel [], []) := rfl

end Client

theorem server_signals (dest : SocketAddress) :
    AsyncSocksProxyServerSocket.processInput
        { adapter := { buffer := connectRequest dest }, state := .connect } =
      (serverIn .connectPending [requested dest], []) := by
  obtain ⟨c, hread, hrest⟩ := (readConnectRequest_reads 5 1 0 1
    dest.ip.v4AddressAsHostOrderInteger dest.port).start []
  rw [append_nil] at hread
  simp only [AsyncSocksProxyServerSocket.processInput,
    handleConnect, serverIn, connectRequest, hread]
  simp [hrest, requested]

/-! ### The stages of the handshake -/

/-- As long as the server reads whole messages, the handshake is at one of these stages. -/
inductive Stage (pass : List UInt8) (dest : SocketAddress) : Connection → Prop
  | hello : Stage pass dest ⟨clientIn pass dest .hello [], serverIn .hello [], [5, 1, 0], []⟩
  | accepted {got left : List UInt8} (hreply : got ++ left = [5, 0]) (hleft : left ≠ []) :
      Stage pass dest ⟨clientIn pass dest .hello got, serverIn .connect [], [], left⟩
  | requesting : Stage pass dest
      ⟨clientIn pass dest .connect [], serverIn .connect [], connectRequest dest, []⟩
  | pending : Stage pass dest
      ⟨clientIn pass dest .connect [], serverIn .connectPending [requested dest], [], []⟩
  | answered {got left : List UInt8} {addr : SocketAddress}
      (hreply : got ++ left = connectReply addr) (hleft : left ≠ []) :
      Stage pass dest
        ⟨clientIn pass dest .connect got, serverIn .tunnel [requested dest], [], left⟩
  | tunnel : Stage pass dest
      ⟨clientIn pass dest .tunnel [], serverIn .tunnel [requested dest], [], []⟩

/-- The server has closed the connection. -/
def Failed (w : Connection) : Prop := w.server.state = .error ∧ w.server.adapter.isOpen = false

variable {w : Connection}

theorem failed_step (h : Failed w) (happening : Happening) : Failed (w.step happening) := by
  cases happening with
  | serverReads count => simpa [Connection.step, h.2] using h
  | clientReads count =>
    simp only [Connection.step]
    split
    · exact h
    · exact h
  | answer addr =>
    have hstate : w.server.state ≠ .connectPending := by
      rw [h.1]
      decide
    simpa [Connection.step, sendConnectResult, hstate] using h

theorem fill_eq {a : BufferedReadAdapter} {incoming : List UInt8} (hpos : incoming ≠ [])
    (hroom : a.buffer.length + incoming.length ≤ a.bufferSize) (count : Nat) :
    a.fill count incoming =
      ({ a with buffer := a.buffer ++ incoming.take (count + 1) }, incoming.drop (count + 1)) := by
  have hlen := length_pos_iff.mpr hpos
  have hdata : ¬ a.buffer.length ≥ a.bufferSize := by omega
  simp only [BufferedReadAdapter.fill, if_neg hdata]
  by_cases hcount : count + 1 ≤ a.bufferSize - a.buffer.length
  · rw [Nat.min_eq_left hcount]
  · rw [take_of_length_le (by omega), take_of_length_le (by omega), drop_of_length_le (by omega),
      drop_of_length_le (by omega)]

theorem step_serverReads_idle (h : w.toServer = []) (count : Nat) :
    w.step (.serverReads count) = w := by
  simp [Connection.step, h]

theorem step_clientReads_idle (h : w.toClient = []) (count : Nat) :
    w.step (.clientReads count) = w := by
  simp [Connection.step, h]

theorem step_answer_idle (h : w.server.state ≠ .connectPending) (addr : SocketAddress) :
    w.step (.answer addr) = w := by
  simp [Connection.step, sendConnectResult, h]

section Stages

variable {pass : List UInt8} {dest : SocketAddress}

theorem step_serverReads {client : AsyncSocksProxySocket} {state : ServerState}
    {requests : List SocketAddress} {toServer : List UInt8} (hstate : state ≠ .tunnel)
    (hne : toServer ≠ []) (hroom : toServer.length ≤ 1024) (toClient : List UInt8) (count : Nat) :
    Connection.step ⟨client, serverIn state requests, toServer, toClient⟩ (.serverReads count) =
      let processed := AsyncSocksProxyServerSocket.processInput
        { adapter := { buffer := toServer.take (count + 1) }, state, requests }
      ⟨client, processed.1, toServer.drop (count + 1), toClient ++ processed.2⟩ := by
  have hbuffering : (state != .tunnel) = true := bne_iff_ne.mpr hstate
  have hfill := fill_eq (a := {}) hne (by simpa using hroom) count
  simp only [Connection.step, serverIn, hbuffering, hfill]
  rw [if_pos ⟨hne, trivial, trivial⟩]
  rfl

variable {got left : List UInt8} {w : Connection}

theorem step_clientReads {server : AsyncSocksProxyServerSocket} {state : ClientState}
    (hstate : state ≠ .tunnel) (hne : left ≠ []) (hroom : got.length + left.length ≤ 1024)
    (toServer : List UInt8) (count : Nat) :
    Connection.step ⟨clientIn pass dest state got, server, toServer, left⟩ (.clientReads count) =
      let processed := (clientIn pass dest state (got ++ left.take (count + 1))).processInput
      ⟨processed.1, server, toServer ++ processed.2, left.drop (count + 1)⟩ := by
  have hbuffering : (state != .tunnel) = true := bne_iff_ne.mpr hstate
  have hfill := fill_eq (a := { buffer := got }) hne hroom count
  simp only [Connection.step, clientIn, hbuffering, hfill]
  rw [if_pos ⟨hne, trivial, trivial⟩]

/-- What an event makes of a stage: the next one, unless the server reads a part. -/
def Advances (pass : List UInt8) (dest : SocketAddress) (w : Connection)
    (happening : Happening) : Prop :=
  Stage pass dest (w.step happening) ∧ w.WholeRead happening ∨
    Failed (w.step happening) ∧ ¬ w.WholeRead happening

theorem Advances.idle {happening : Happening} (h : Stage pass dest w) (hstep : w.step happening = w)
    (hwhole : w.WholeRead happening) :
    Advances pass dest w happening :=
  .inl ⟨by rw [hstep]; exact h, hwhole⟩

theorem hello_serverReads (count : Nat) :
    Advances pass dest ⟨clientIn pass dest .hello [], serverIn .hello [], [5, 1, 0], []⟩
      (.serverReads count) := by
  unfold Advances
  rw [step_serverReads (by decide) (by decide) (by decide)]
  match count with
  | 0 | 1 => exact .inr ⟨⟨rfl, rfl⟩, by simp [Connection.WholeRead]⟩
  | count + 2 =>
    refine .inl ⟨?_, by simp [Connection.WholeRead]⟩
    rw [take_of_length_le (by simp), drop_of_length_le (by simp)]
    have haccepted : Stage pass dest
        ⟨clientIn pass dest .hello [], serverIn .connect [], [], [5, 0]⟩ :=
      .accepted rfl (by simp)
    exact haccepted

theorem requesting_serverReads (count : Nat) :
    Advances pass dest
      ⟨clientIn pass dest .connect [], serverIn .connect [], connectRequest dest, []⟩
      (.serverReads count) := by
  have hlen := connectRequest_length dest
  have hne : connectRequest dest ≠ [] := by
    intro hnil
    rw [hnil] at hlen
    simp at hlen
  unfold Advances
  rw [step_serverReads (by decide) hne (by omega)]
  by_cases hwhole : 10 ≤ count + 1
  · refine .inl ⟨?_, by simpa only [Connection.WholeRead, hlen] using hwhole⟩
    rw [take_of_length_le (by omega), drop_of_length_le (by omega), server_signals]
    exact .pending
  · refine .inr ⟨?_, by simpa only [Connection.WholeRead, hlen] using hwhole⟩
    have hshort : ((connectRequest dest).take (count + 1)).length < 10 := by
      rw [length_take]
      omega
    have herror := processInput_connect_error
      { adapter := { buffer := (connectRequest dest).take (count + 1) }, state := .connect }
      rfl (.inl hshort)
    exact herror

theorem read_split {reply : List UInt8} (h : got ++ left = reply) (n : Nat) :
    got ++ left.take n ++ left.drop n = reply := by
  rw [append_assoc, take_append_drop, h]

theorem accepted_clientReads (hdest : dest.isUnresolvedIP = false) (hreply : got ++ left = [5, 0])
    (hleft : left ≠ []) (count : Nat) :
    Stage pass dest (Connection.step
      ⟨clientIn pass dest .hello got, serverIn .connect [], [], left⟩ (.clientReads count)) := by
  have hlen := congrArg length hreply
  simp only [length_append, length_cons, length_nil] at hlen
  have hsplit := read_split hreply (count + 1)
  rw [step_clientReads (by decide) hleft (by omega)]
  by_cases hmore : left.drop (count + 1) = []
  · rw [hmore, append_nil] at hsplit
    rw [hsplit, hmore, client_requests pass hdest]
    exact .requesting
  · have hpos := length_pos_iff.mpr hmore
    have hshort := congrArg length hsplit
    rw [length_append] at hshort
    have hfew : (got ++ left.take (count + 1)).length < 2 := by
      simp only [length_cons, length_nil] at hshort
      omega
    rw [client_waits_hello pass hfew]
    exact .accepted hsplit hmore

theorem answered_clientReads {addr : SocketAddress} (hreply : got ++ left = connectReply addr)
    (hleft : left ≠ []) (count : Nat) :
    Stage pass dest (Connection.step
      ⟨clientIn pass dest .connect got, serverIn .tunnel [requested dest], [], left⟩
      (.clientReads count)) := by
  have hlen := congrArg length hreply
  rw [length_append, connectReply_length] at hlen
  have hsplit := read_split hreply (count + 1)
  rw [step_clientReads (by decide) hleft (by omega)]
  by_cases hmore : left.drop (count + 1) = []
  · rw [hmore, append_nil] at hsplit
    rw [hsplit, hmore, client_tunnels]
    exact .tunnel
  · rw [client_waits_reply pass hsplit hmore]
    exact .answered hsplit hmore

theorem pending_answer (addr : SocketAddress) :
    Stage pass dest (Connection.step
      ⟨clientIn pass dest .connect [], serverIn .connectPending [requested dest], [], []⟩
      (.answer addr)) := by
  have hsent : Connection.step
      ⟨clientIn pass dest .connect [], serverIn .connectPending [requested dest], [], []⟩
      (.answer addr) =
      ⟨clientIn pass dest .connect [], serverIn .tunnel [requested dest], [],
        connectReply addr⟩ := by
    simp [Connection.step, sendConnectResult, serverIn, connectReply, writeUInt8_eq]
  rw [hsent]
  refine .answered rfl ?_
  simp [connectReply]

theorem stage_step (hdest : dest.isUnresolvedIP = false) (h : Stage pass dest w)
    (happening : Happening) : Advances pass dest w happening := by
  cases happening with
  | serverReads count =>
    by_cases hidle : w.toServer = []
    · refine .idle h (step_serverReads_idle hidle count) ?_
      rw [Connection.WholeRead, hidle]
      exact Nat.zero_le _
    · cases h with
      | hello => exact hello_serverReads count
      | requesting => exact requesting_serverReads count
      | _ => exact absurd rfl hidle
  | clientReads count =>
    by_cases hidle : w.toClient = []
    · exact .idle h (step_clientReads_idle hidle count) trivial
    · cases h with
      | accepted hreply hleft =>
        exact .inl ⟨accepted_clientReads hdest hreply hleft count, trivial⟩
      | answered hreply hleft => exact .inl ⟨answered_clientReads hreply hleft count, trivial⟩
      | _ => exact absurd rfl hidle
  | answer addr =>
    by_cases hpending : w.server.state = .connectPending
    · cases h with
      | pending => exact .inl ⟨pending_answer addr, trivial⟩
      | _ => exact absurd hpending (by simp [serverIn])
    · exact .idle h (step_answer_idle hpending addr) trivial

theorem stage_run (hdest : dest.isUnresolvedIP = false) (h : Stage pass dest w)
    (schedule : List Happening) :
    Stage pass dest (w.run schedule) ∧ FoldAlong Connection.step Connection.WholeRead w schedule ∨
      Failed (w.run schedule) ∧ ¬ FoldAlong Connection.step Connection.WholeRead w schedule := by
  apply foldl_good_or_bad (P := Connection.WholeRead) _ _ schedule h
  · exact fun w happening h => stage_step hdest h happening
  · exact fun w happening h => failed_step h happening

end Stages

/-! ### A client with a user name -/

/-- The server has taken one of the two methods of the hello, and the other one stands
where it expects the connect request. -/
inductive Doomed : Connection → Prop
  | hello {client : AsyncSocksProxySocket} :
      Doomed ⟨client, serverIn .hello [], [5, 2, 0, 2], []⟩
  | misread {w : Connection} (hstate : w.server.state = .connect)
      (hroom : w.server.adapter.buffer.length < w.server.adapter.bufferSize)
      (hnext : (w.server.adapter.buffer ++ w.toServer).head? = some 2) : Doomed w
  | failed {w : Connection} (h : Failed w) : Doomed w

theorem Doomed.not_established (h : Doomed w) (dest : SocketAddress) : ¬ w.Established dest := by
  intro hest
  have htunnel := hest.2.2.1
  cases h with
  | hello => simp [serverIn] at htunnel
  | misread hstate _ _ => simp [hstate] at htunnel
  | failed h => simp [h.1] at htunnel

theorem Doomed.serverReads_hello (client : AsyncSocksProxySocket) (count : Nat) :
    Doomed (Connection.step ⟨client, serverIn .hello [], [5, 2, 0, 2], []⟩
      (.serverReads count)) := by
  rw [step_serverReads (by decide) (by decide) (by decide)]
  match count with
  | 0 | 1 => exact .failed ⟨rfl, rfl⟩
  | 2 => exact .misread rfl (by dsimp only; decide) rfl
  | count + 3 =>
    rw [take_of_length_le (by simp)]
    exact .misread rfl (by dsimp only; decide) rfl

theorem fill_head? {a : BufferedReadAdapter} (hroom : a.buffer.length < a.bufferSize)
    (count : Nat) (incoming : List UInt8) :
    (a.fill count incoming).1.buffer.head? = (a.buffer ++ incoming).head? := by
  have hlen : min (count + 1) (a.bufferSize - a.buffer.length) ≠ 0 := by omega
  simp only [BufferedReadAdapter.fill, if_neg (Nat.not_le.mpr hroom), head?_append,
    head?_take, if_neg hlen]

theorem Doomed.serverReads_misread (hstate : w.server.state = .connect)
    (hroom : w.server.adapter.buffer.length < w.server.adapter.bufferSize)
    (hnext : (w.server.adapter.buffer ++ w.toServer).head? = some 2) (count : Nat) :
    Doomed (w.step (.serverReads count)) := by
  by_cases hreads : w.toServer ≠ [] ∧ w.server.adapter.isOpen ∧ w.server.adapter.buffering
  · apply Doomed.failed
    rw [← fill_head? hroom count, head?_eq_some_iff] at hnext
    obtain ⟨rest, hbuffer⟩ := hnext
    have herror := processInput_connect_error
      { w.server with adapter := (w.server.adapter.fill count w.toServer).1 } hstate
      (.inr ⟨2, rest, hbuffer, by decide⟩)
    rw [Connection.step, if_pos hreads]
    exact herror
  · rw [Connection.step, if_neg hreads]
    exact .misread hstate hroom hnext

theorem Doomed.step (h : Doomed w) (happening : Happening) : Doomed (w.step happening) := by
  cases h with
  | hello =>
    cases happening with
    | serverReads count => exact Doomed.serverReads_hello _ count
    | clientReads count =>
      exact .hello
    | answer addr =>
      exact .hello
  | misread hstate hroom hnext =>
    cases happening with
    | serverReads count => exact Doomed.serverReads_misread hstate hroom hnext count
    | clientReads count =>
      simp only [Connection.step]
      split
      · refine .misread hstate hroom ?_
        rw [← append_assoc, head?_append, hnext]
        rfl
      · exact .misread hstate hroom hnext
    | answer addr =>
      rw [step_answer_idle (by simp [hstate])]
      exact .misread hstate hroom hnext
  | failed h => exact .failed (failed_step h _)

theorem Doomed.run (h : Doomed w) (schedule : List Happening) : Doomed (w.run schedule) := by
  apply foldl_keeps _ schedule h
  exact fun w happening h => h.step happening

/-! ### When the handshake succeeds -/

theorem connected_stage (pass : List UInt8) (dest : SocketAddress) :
    Stage pass dest (connected [] pass dest) :=
  .hello

theorem connected_doomed {user : List UInt8} (huser : user ≠ []) (pass : List UInt8)
    (dest : SocketAddress) : Doomed (connected user pass dest) := by
  have hsent : connected user pass dest =
      ⟨{ dest, user, pass, state := .hello }, serverIn .hello [], [5, 2, 0, 2], []⟩ := by
    simp [connected, sendHello, huser, writeUInt8_eq, serverIn]
  rw [hsent]
  exact .hello

theorem Stage.established {pass : List UInt8} {dest : SocketAddress} (h : Stage pass dest w)
    (hip : (requested dest).ip = dest.ip) (hfinished : w.Finished) :
    w.Established dest := by
  cases h with
  | hello => simp [Connection.Finished, serverIn] at hfinished
  | accepted hreply hleft => simp [Connection.Finished, clientIn, hleft] at hfinished
  | requesting =>
    simp [Connection.Finished, serverIn, connectRequest] at hfinished
  | pending => simp [Connection.Finished, serverIn] at hfinished
  | answered hreply hleft => simp [Connection.Finished, clientIn, hleft] at hfinished
  | tunnel => exact ⟨⟨requested dest, rfl, hip, rfl⟩, rfl, rfl, rfl, rfl⟩

/-- A handshake that is over has succeeded when the client had no user name and the server
read each message whole, and only then. -/
theorem handshake_succeeds_iff (user pass : List UInt8) (dest : SocketAddress) (ip4 : InAddr)
    (hv4 : dest.ip = .inet ip4) (schedule : List Happening)
    (hfinished : ((connected user pass dest).run schedule).Finished) :
    ((connected user pass dest).run schedule).Established dest ↔
      user = [] ∧
        FoldAlong Connection.step Connection.WholeRead (connected user pass dest) schedule := by
  by_cases huser : user = []
  · subst huser
    have hresolved : dest.isUnresolvedIP = false := by
      simp [SocketAddress.isUnresolvedIP, ipIsUnspec, hv4]
    have hip : (requested dest).ip = dest.ip := by
      rw [requested, hv4]
      exact IPAddress.ofHostOrder_v4Address ip4
    cases stage_run hresolved (connected_stage pass dest) schedule with
    | inl h => exact iff_of_true (h.1.established hip hfinished) ⟨rfl, h.2⟩
    | inr h =>
      exact iff_of_false ((Doomed.failed h.1).not_established dest) fun hwhole =>
        h.2 hwhole.2
  · have hdoomed := (connected_doomed huser pass dest).run schedule
    exact iff_of_false (hdoomed.not_established dest) fun hwhole => huser hwhole.1

/-- A handshake that goes through although the client gets the replies byte by byte. -/
theorem handshake_succeeds_bytewise :
    let dest : SocketAddress := { ip := .inet #v[10, 0, 0, 1], port := 80 }
    let schedule := [.serverReads 2, .clientReads 0, .clientReads 0, .serverReads 9,
      .answer dest] ++ replicate 10 (.clientReads 0)
    ((connected [] [] dest).run schedule).Finished ∧
      ((connected [] [] dest).run schedule).Established dest :=
  have hfinished : ((connected [] [] { ip := .inet #v[10, 0, 0, 1], port := 80 }).run
      ([.serverReads 2, .clientReads 0, .clientReads 0, .serverReads 9,
        .answer { ip := .inet #v[10, 0, 0, 1], port := 80 }] ++
          replicate 10 (.clientReads 0))).Finished := by decide +kernel
  ⟨hfinished, (handshake_succeeds_iff [] [] _ _ rfl _ hfinished).mpr ⟨rfl, by decide +kernel⟩⟩

/-- Whole reads do not help a client with a user name. -/
theorem handshake_fails_with_user :
    let dest : SocketAddress := { ip := .inet #v[10, 0, 0, 1], port := 80 }
    let w := (connected [117] [112] dest).run [.serverReads 99, .clientReads 99, .serverReads 99]
    w.Finished ∧ w.server.state = .error ∧ w.server.requests = [] ∧ w.client.state = .connect := by
  decide +kernel

end WebrtcCore.Ports.SocksHandshake
