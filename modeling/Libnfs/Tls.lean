import Libnfs.Transition

/-! A client context with `use_tls` set, from the moment `rpc_connect_program_4_cb` has set it:
queueing, `rpc_service`, reconnecting and the TLS handshake (`lib/socket.c`, `lib/pdu.c`,
`lib/libnfs.c`, `tls/handshake.c`). TCP, built with HAVE_TLS and without krb5.

Of gnutls only the outcome of each call is modelled. After a failed assertion the process is gone;
what the definitions compute after one does not matter. The `tls_cb_data` of an AUTH_TLS call is
read as if it were never freed. -/
namespace Libnfs
namespace Tls

open Transition

/-- `enum tls_handshake_state` -/
inductive HandshakeState
  | undefined
  | waitingForStarttls
  | inProgress
  | completed
  | failed
  deriving DecidableEq, Repr

/-- The continuation of an AUTH_TLS call: `rpc_connect_program_5_cb` or `reconnect_cb_tls` -/
inductive Cont
  | program5
  | reconnectTls
  deriving DecidableEq, Repr

/-- A PDU of the application, or an AUTH_TLS call (`expect_starttls`) -/
inductive Kind
  | app
  | auth (cb : Cont)
  deriving DecidableEq, Repr

structure Pdu where
  xid : ℕ
  kind : Kind
  deriving DecidableEq, Repr

/-- How `rpc_connect_sockaddr_async` ends -/
inductive Socket
  | unopened
  | refused
  | connecting
  deriving DecidableEq, Repr

/-- What gnutls does in one call of `do_tls_handshake` -/
inductive Gnutls
  | initFailed
  | setupFailed
  | again
  | fatal
  | success (ktls : Bool)
  deriving DecidableEq, Repr

/-- The outcomes of what a step calls: the sockets of the attempts to connect, by their number,
whether the AUTH_TLS call can be allocated, queued and sent, and gnutls. -/
structure Env where
  sockets : ℕ → Socket := fun _ => .connecting
  alloc : Bool := true
  queued : Bool := true
  sent : Bool := true
  gnutls : Gnutls := .success true

/-- What `rpc_write_to_socket` gets written: whole PDUs, part of the next one, and an error -/
structure Io where
  sent : ℕ := 0
  part : Bool := false
  error : Bool := false
  deriving DecidableEq, Repr

/-- Bytes of a PDU on a connection; `secure` says that the handshake on it was completed. -/
structure Sent where
  conn : ℕ
  kind : Kind
  secure : Bool
  deriving DecidableEq, Repr

/-- The state in which the application calls `rpc_queue_pdu` -/
structure Call where
  empty : Bool
  connected : Bool
  secure : Bool
  deriving DecidableEq, Repr

/-- The context. `conn` counts the attempts to connect; `session` is the attempt that the gnutls
session belongs to. The rest are ghosts: `secured` is the last connection on which the handshake was
completed, `wire` what was written, `calls` the states before calls of `rpc_queue_pdu`, `clears` says
whether a connect was under way when `rpc_connect_program_5_cb` cleared `connect_cb` or when
reconnecting was turned off, `failures` are the handshake states in which an AUTH_TLS call of a
reconnect failed, and `losses` says whether there was a session when a connection was given up. -/
structure Client where
  fd : Bool
  conn : ℕ
  isConnected : Bool
  useTls : Bool
  nfsVersion : ℕ
  autoReconnect : ℤ
  numRetries : ℤ
  connectCb : Bool
  xid : ℕ
  outqueue : List Pdu
  waitpdu : List (List Pdu)
  pdu : Option Pdu
  state : HandshakeState
  data : Cont
  session : Option ℕ
  aborted : Bool := false
  secured : Option ℕ := none
  wire : List Sent := []
  calls : List Call := []
  clears : List Bool := []
  failures : List HandshakeState := []
  losses : List Bool := []
  deriving DecidableEq, Repr

namespace Client

/-- `assert(p)`, and what follows it -/
def check (p : Bool) (f : Client → Client) (c : Client) : Client :=
  if p then f c else { c with aborted := true }

def secure (c : Client) : Bool := c.secured = some c.conn

/-- `rpc_hash_xid` -/
def rpcHashXid (c : Client) (xid : ℕ) : ℕ := (xid*7919)%2^32%c.waitpdu.length

/-- `rpc_enqueue` on a chain of `waitpdu` -/
def enqueueWait (p : Pdu) (c : Client) : Client :=
  { c with waitpdu := c.waitpdu.modify (c.rpcHashXid p.xid) (· ++ [p]) }

/-- `rpc_return_to_outqueue` -/
def rpcReturnToOutqueue (p : Pdu) (c : Client) : Client :=
  match c.outqueue with
  | a::b::q => { c with outqueue := a::p::b::q }
  | q => { c with outqueue := q ++ [p] }

/-- `rpc_write_to_socket`, and whether it fails -/
def rpcWriteToSocket (io : Io) (c : Client) : Client × Bool :=
  if c.fd then
    let written := c.outqueue.take (if io.part then io.sent+1 else io.sent)
    let done := c.outqueue.take io.sent
    let c := { c with
      wire := c.wire ++ written.map fun p => ⟨c.conn,p.kind,c.secure⟩
      outqueue := c.outqueue.drop io.sent }
    (done.foldl (fun c p => c.enqueueWait p) c,io.error)
  else (c,true)

/-- `rpc_queue_pdu` for a new PDU of the application, which is written at once when it is the first
of the queue. -/
def rpcQueuePdu (io : Io) (c : Client) : Client :=
  let c' := { c with
    calls := c.calls ++ [⟨c.outqueue.isEmpty,c.fd,c.secure⟩]
    xid := c.xid+1
    outqueue := c.outqueue ++ [⟨c.xid,.app⟩] }
  if c.outqueue.isEmpty then (c'.rpcWriteToSocket io).1 else c'

/-- `reconnect_cb_tls`, with `rpc_reconnect_requeue` -/
def reconnectCbTls (requeue : Client → Client) (c : Client) : Client :=
  c.check c.useTls fun c =>
    c.check (c.state = .completed ∨ c.state = .failed) fun c =>
      if c.state = .failed then requeue { c with fd := false, isConnected := false } else c

/-- `rpc_connect_program_5_cb`: `connect_cb` is cleared, and the user is called. -/
def rpcConnectProgram5Cb (c : Client) : Client :=
  { c with connectCb := false, clears := c.clears ++ [c.fd && !c.isConnected] }

/-- The continuation of an AUTH_TLS call -/
def callCont (requeue : Client → Client) : Cont → Client → Client
  | .program5, c => c.rpcConnectProgram5Cb
  | .reconnectTls, c => c.reconnectCbTls requeue

/-- `rpc_connect_program_4_1_cb` with a status other than `RPC_STATUS_SUCCESS` -/
def authFailed (requeue : Client → Client) (cb : Cont) (c : Client) : Client :=
  callCont requeue cb { c with
    failures := if cb = .reconnectTls then c.failures ++ [c.state] else c.failures }

/-- The callback of a PDU with a status other than `RPC_STATUS_SUCCESS` -/
def failPdu (requeue : Client → Client) (p : Pdu) (c : Client) : Client :=
  match p.kind with
  | .app => c
  | .auth cb => c.authFailed requeue cb

def failAll (requeue : Client → Client) (ps : List Pdu) (c : Client) : Client :=
  ps.foldl (fun c p => c.failPdu requeue p) c

/-- The chain `i` of `waitpdu` is emptied and its PDUs are failed. -/
def failChain (requeue : Client → Client) (c : Client) (i : ℕ) : Client :=
  ({ c with waitpdu := c.waitpdu.set i [] }).failAll requeue (c.waitpdu.getD i [])

/-- `rpc_error_all_pdus` -/
def rpcErrorAllPdus (requeue : Client → Client) (c : Client) : Client :=
  let c' := ({ c with outqueue := [] }).failAll requeue c.outqueue
  (List.range c'.waitpdu.length).foldl (fun c i => c.failChain requeue i) c'

/-- The PDUs in flight are moved to the out queue. -/
def requeueAll (c : Client) : Client :=
  (c.waitpdu.flatten ++ c.pdu.toList).foldl (fun c p => c.rpcReturnToOutqueue p)
    { c with waitpdu := c.waitpdu.map fun _ => [], pdu := none }

/-- The connection is given up. -/
def drop (c : Client) : Client :=
  { c with
    numRetries := if c.isConnected then c.autoReconnect else c.numRetries
    fd := false
    isConnected := false
    losses := c.losses ++ [c.session.isSome] }

/-- `rpc_reconnect_requeue`. It calls itself through the callbacks of AUTH_TLS calls, each time with
at least one PDU less; `fuel` bounds these calls. -/
def requeue (sockets : ℕ → Socket) : ℕ → Client → Client
  | 0, c => c
  | fuel+1, c =>
    if c.autoReconnect = 0 then c.rpcErrorAllPdus (requeue sockets fuel)
    else
      let c := c.drop.requeueAll
      if c.autoReconnect < 0 ∨ c.numRetries > 0 then
        let c := { c with numRetries := c.numRetries-1, connectCb := true, conn := c.conn+1 }
        match sockets c.conn with
        | .unopened => c.rpcErrorAllPdus (requeue sockets fuel)
        | .refused => ({ c with fd := true }).rpcErrorAllPdus (requeue sockets fuel)
        | .connecting => { c with fd := true }
      else c.rpcErrorAllPdus (requeue sockets fuel)

def rpcReconnectRequeue (env : Env) (c : Client) : Client :=
  requeue env.sockets (c.outqueue.length+c.waitpdu.flatten.length+c.pdu.toList.length+1) c

/-- `rpc_null_task_authtls`, and whether it returns a PDU -/
def rpcNullTaskAuthtls (env : Env) (version : ℕ) (cb : Cont) (c : Client) : Client × Bool :=
  if c.useTls ∧ (version = 3 ∨ version = 4) then
    if env.alloc then
      let c := { c with state := .waitingForStarttls, xid := c.xid+1 }
      if env.queued && env.sent then
        (({ c with wire := c.wire ++ [Sent.mk c.conn (.auth cb) c.secure] }).enqueueWait ⟨c.xid-1,.auth cb⟩,true)
      else (c,false)
    else (c,false)
  else ({ c with aborted := true },false)

/-- `do_tls_handshake`, with the state it returns -/
def doTlsHandshake (env : Env) (c : Client) : HandshakeState × Client :=
  if !c.fd then (.failed,c)
  else if !c.isConnected then (.failed,c)
  else if c.session.isNone ∨ c.state = .inProgress then
    match c.session, env.gnutls with
    | none, .initFailed => (.failed,c)
    | none, .setupFailed => (.failed,c)
    | s, .again => (.inProgress,{ c with session := some (s.getD c.conn) })
    | _, .success true => (.completed,{ c with session := none, secured := some c.conn })
    | _, _ => (.failed,{ c with session := none })
  else (.failed,{ c with aborted := true })

/-- The switch over the state of the handshake: nothing while it is in progress, and the continuation
once it is over. -/
def resume (env : Env) (c : Client) : Client :=
  match c.state with
  | .inProgress => c
  | .completed => callCont (rpcReconnectRequeue env) c.data c
  | .failed => callCont (rpcReconnectRequeue env) c.data c
  | _ => { c with aborted := true }

/-- `rpc->tls_context.state = do_tls_handshake(rpc)` and the switch over it -/
def handshake (env : Env) (c : Client) : Client :=
  let r := c.doTlsHandshake env
  ({ r.2 with state := r.1 }).resume env

/-- `rpc_connect_program_4_1_cb` -/
def rpcConnectProgram41Cb (env : Env) (success : Bool) (cb : Cont) (c : Client) : Client :=
  if success then ({ c with data := cb }).handshake env
  else c.authFailed (rpcReconnectRequeue env) cb

/-- `reconnect_cb` -/
def reconnectCb (env : Env) (success : Bool) (c : Client) : Client :=
  if success then
    let c := { c with isConnected := true, connectCb := false }
    if c.useTls then
      match c.rpcNullTaskAuthtls env c.nfsVersion .reconnectTls with
      | (c,true) => c
      | (c,false) => ({ c with fd := false, isConnected := false }).rpcReconnectRequeue env
    else c
  else c.rpcReconnectRequeue env

/-- `maybe_call_connect_cb` -/
def maybeCallConnectCb (env : Env) (success : Bool) (c : Client) : Client :=
  if c.connectCb then ({ c with connectCb := false }).reconnectCb env success else c

/-- What happens in `rpc_timeout_scan`: a PDU is found expired, and retried if it may be, or a
callback queues a PDU. -/
inductive Scan
  | expire (xid : ℕ) (retry : Bool) (env : Env)
  | queue (io : Io)

def scanOne (c : Client) : Scan → Client
  | .queue io => c.rpcQueuePdu io
  | .expire xid retry env =>
    match c.outqueue.find? (·.xid = xid) with
    | some p =>
      if p.kind = .app ∧ retry then c
      else ({ c with outqueue := c.outqueue.erase p }).failPdu (rpcReconnectRequeue env) p
    | none =>
      match c.waitpdu.flatten.find? (·.xid = xid) with
      | some p =>
        let c := { c with waitpdu := c.waitpdu.map fun (q : List Pdu) => q.erase p }
        if p.kind = .app ∧ retry then c.rpcReturnToOutqueue p
        else c.failPdu (rpcReconnectRequeue env) p
      | none => c

def rpcTimeoutScan (ss : List Scan) (c : Client) : Client := ss.foldl scanOne c

/-- What happens in `rpc_read_from_socket`: the header of a reply, the rest of it, with success when
it is accepted (and says STARTTLS, to an AUTH_TLS call), or a callback queues a PDU. -/
inductive Read
  | header (xid : ℕ)
  | rest (success : Bool) (env : Env)
  | queue (io : Io)

def readOne (c : Client) : Read → Client
  | .queue io => c.rpcQueuePdu io
  | .header xid =>
    match c.pdu, c.outqueue.find? (·.xid = xid), (c.waitpdu.getD (c.rpcHashXid xid) []).find? (·.xid = xid) with
    | none, some p, _ => { c with pdu := some p, outqueue := c.outqueue.erase p }
    | none, none, some p =>
      { c with pdu := some p, waitpdu := c.waitpdu.modify (c.rpcHashXid xid) (·.erase p) }
    | _, _, _ => c
  | .rest success env =>
    match c.pdu with
    | none => c
    | some p =>
      match p.kind with
      | .app => { c with pdu := none }
      | .auth cb => { c.rpcConnectProgram41Cb env success cb with pdu := none }

def rpcReadFromSocket (rs : List Read) (c : Client) : Client := rs.foldl readOne c

/-- What happens in a call of `rpc_service`: what the timeout scan does and whether it wants a new
connection, an error on the socket, POLLOUT and POLLIN, the error pending on a socket that connects,
what is read, whether that fails, and what is written; `after` is what the user queues when the
handshake is over. -/
structure Poll where
  scan : List Scan := []
  reconnect : Bool := false
  error : Bool := false
  out : Bool := false
  input : Bool := false
  soError : Bool := false
  reads : List Read := []
  readError : Bool := false
  io : Io := {}
  after : List Io := []
  env : Env := {}

/-- The rest of `rpc_service` on a connection without a handshake in progress -/
def serviceIo (p : Poll) (c : Client) : Client :=
  let c := if p.input then c.rpcReadFromSocket p.reads else c
  if p.input && p.readError then c.rpcReconnectRequeue p.env
  else if c.useTls ∧ c.state ≠ .completed then c
  else if p.out && !c.outqueue.isEmpty then
    match c.rpcWriteToSocket p.io with
    | (c,true) => c.rpcReconnectRequeue p.env
    | (c,false) => c
  else c

/-- `rpc_service` -/
def rpcService (p : Poll) (c : Client) : Client :=
  let c := c.rpcTimeoutScan p.scan
  if p.reconnect then c.rpcReconnectRequeue p.env
  else if p.error then
    if c.autoReconnect ≠ 0 then c.rpcReconnectRequeue p.env else c.maybeCallConnectCb p.env false
  else if !c.isConnected && c.fd && p.out then
    if p.soError then c.maybeCallConnectCb p.env false
    else ({ c with isConnected := true }).maybeCallConnectCb p.env true
  else if c.state = .inProgress ∧ (p.out || p.input) then
    c.check c.useTls fun c => p.after.foldl (fun c io => c.rpcQueuePdu io) (c.handshake p.env)
  else c.serviceIo p

/-- `rpc_set_autoreconnect` -/
def rpcSetAutoreconnect (n : ℤ) (c : Client) : Client :=
  { c with autoReconnect := n, clears := c.clears ++ [c.fd && !c.isConnected && n = 0] }

end Client

/-- The first connection, when `rpc_connect_program_4_cb` has set `use_tls`, with `queued` PDUs in the
out queue: the AUTH_TLS call is sent for the `version` of the caller. -/
def connected (version nfsVersion chains queued : ℕ) (env : Env) : Client :=
  (Client.rpcNullTaskAuthtls env version .program5
    { fd := true
      conn := 0
      isConnected := true
      useTls := true
      nfsVersion := nfsVersion
      autoReconnect := 0
      numRetries := 0
      connectCb := false
      xid := queued
      outqueue := (List.range queued).map fun i => ⟨i,.app⟩
      waitpdu := List.replicate chains []
      pdu := none
      state := .undefined
      data := .program5
      session := none }).1

/-- The application queues a PDU, polls, or turns reconnecting on or off. -/
inductive Event
  | rpcQueuePdu (io : Io)
  | rpcService (p : Client.Poll)
  | rpcSetAutoreconnect (n : ℤ)

def step (c : Client) : Event → Client
  | .rpcQueuePdu io => c.rpcQueuePdu io
  | .rpcService p => c.rpcService p
  | .rpcSetAutoreconnect n => c.rpcSetAutoreconnect n

end Tls
end Libnfs
