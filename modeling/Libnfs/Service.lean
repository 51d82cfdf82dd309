import Libnfs.Connection
import Libnfs.Transition

/-! The client as a transition system. An event is one call of the library by the application,
or one thing `rpc_service` does: the timeout scan, one reaction to `poll`, one turn of the read
loop, one `rpc_write_to_socket`. `rpcService_run` says that `rpc_service` is a run of these. -/
namespace Libnfs

open ByteWords Scatter Zdr Transition

/-- What a request brings along: the vectors behind the record marker, the vectors of a
zero-copy READ (none for any other request) and the decoder of the result. -/
structure Call where
  markerBuf : ℕ
  payload : List OutVec
  iov : List Vec := []
  zdrDecodeFn : Dec Unit
  zdrDecodeBufsize : ℕ
  doNotRetry : Bool := false

namespace Call

def size (c : Call) : ℕ := (c.payload.map fun v => v.data.length).sum

/-- The PDU of `rpc_allocate_pdu2` with the cursor of `rpc_nfs3_readv_task` and the record
marker of `rpc_queue_pdu`. -/
def pdu (c : Call) (id xid : ℕ) : Pdu :=
  { id := id
    xid := xid
    out := ⟨c.markerBuf,beBytes (2^31+c.size)⟩::c.payload
    cursor := if c.iov.isEmpty then none else some (Cursor.fresh c.iov)
    requestedReadCount := total c.iov % 2^32
    zdrDecodeFn := c.zdrDecodeFn
    zdrDecodeBufsize := c.zdrDecodeBufsize
    doNotRetry := c.doNotRetry }

end Call

namespace Rpc

/-- The PDU that `rpc_queue_pdu` puts on the out queue. -/
def newPdu (rpc : Rpc) (c : Call) : Pdu := rpc.pduSetTimeout (c.pdu rpc.nextId rpc.xid) 0

/-- `rpc_allocate_pdu2` and `rpc_queue_pdu` on TCP, up to the write. -/
def enqueueCall (rpc : Rpc) (c : Call) : Rpc :=
  { rpc with
    xid := (rpc.xid+1) % 2^32
    nextId := rpc.nextId+1
    outqueue := rpc.outqueue ++ [rpc.newPdu c] }

/-- `rpc_allocate_pdu2` and `rpc_queue_pdu` on TCP; `ws` is what `writev` returns when the
PDU is alone on the queue and written at once. -/
def rpcQueuePdu (rpc : Rpc) (c : Call) (ws : List Writev) : Rpc :=
  if rpc.memOk then
    if rpc.outqueue.isEmpty then ((rpc.enqueueCall c).rpcWriteToSocket ws).1
    else rpc.enqueueCall c
  else rpc

end Rpc

inductive Event
  | tick (msecs : ℕ)
  | memory (ok : Bool)
  | setResiliency (numTcpReconnect timeout retrans : ℤ)
  | disableSocket (val : Bool)
  | setProgram (nfsV3 : Bool)
  | queuePdu (c : Call) (ws : List Writev)
  | cancelPdu (xid : ℕ)
  | timeoutScan (conn : Connect)
  | pollError (conn : Connect)
  | pollConnect (soError : Bool) (conn : Connect)
  | recv (r : Recv) (conn : Connect)
  | write (ws : List Writev) (conn : Connect)
  | disconnect (error : String)
  | connectAsync (conn : Option Connect)
  | destroy

namespace Rpc

/-- What the return value of the read loop leads to in `rpc_service`. -/
def afterRead (conn : Connect) : Ctl → Rpc
  | .more rpc => rpc
  | .fail rpc => (rpc.rpcReconnectRequeue conn).1
  | .fault rpc => { rpc with crashed := true }

/-- What a failed scan or write leads to in `rpc_service`. -/
def orRequeue (conn : Connect) (r : Rpc × Bool) : Rpc :=
  if r.2 then r.1 else (r.1.rpcReconnectRequeue conn).1

/-- The POLLERR and POLLHUP branch of `rpc_service`. -/
def pollError (rpc : Rpc) (conn : Connect) : Rpc :=
  if rpc.autoReconnect ≠ 0 then (rpc.rpcReconnectRequeue conn).1
  else rpc.maybeCallConnectCb .error conn

/-- The branch of `rpc_service` that completes a connection. -/
def pollConnect (rpc : Rpc) (soError : Bool) (conn : Connect) : Rpc :=
  if soError then rpc.maybeCallConnectCb .error conn
  else ({ rpc with isConnected := true } : Rpc).maybeCallConnectCb .success conn

/-- The write branch of `rpc_service`. -/
def pollWrite (rpc : Rpc) (ws : List Writev) (conn : Connect) : Rpc :=
  if rpc.outqueue.isEmpty then rpc else orRequeue conn (rpc.rpcWriteToSocket ws)

def act (rpc : Rpc) : Event → Rpc
  | .tick msecs => { rpc with clock := rpc.clock+msecs }
  | .memory ok => { rpc with memOk := ok }
  | .setResiliency n timeout retrans => rpc.rpcSetResiliency n timeout retrans
  | .disableSocket val => { rpc with socketDisabled := val }
  | .setProgram v3 => { rpc with nfsV3 := v3 }
  | .queuePdu c ws => rpc.rpcQueuePdu c ws
  | .cancelPdu xid => rpc.rpcCancelPdu xid
  | .timeoutScan conn => orRequeue conn rpc.rpcTimeoutScan
  | .pollError conn => rpc.pollError conn
  | .pollConnect soError conn =>
    if rpc.isConnected = false ∧ rpc.fd then rpc.pollConnect soError conn else rpc
  | .recv r conn => afterRead conn (rpc.recvStep r)
  | .write ws conn => rpc.pollWrite ws conn
  | .disconnect error => rpc.rpcDisconnect error
  | .connectAsync conn => (rpc.rpcConnectAsync conn).1
  | .destroy => rpc.rpcDestroyContext

/-- One event. Nothing happens to a destroyed context or in a dead process. -/
def step (rpc : Rpc) (e : Event) : Rpc :=
  if rpc.destroyed ∨ rpc.crashed then rpc else rpc.act e

/-- What `rpc_init_context` leaves open. -/
structure Config where
  numHashes : ℕ
  numHashes_pos : 0 < numHashes
  xid : ℕ
  xid_lt : xid < 2^32
  maxWaitpduLen : ℕ := 0
  nfsV3 : Bool
  clock : ℕ
  mem : ℕ → UInt8 := fun _ => 0

/-- `rpc_init_context` -/
def init (cfg : Config) : Rpc where
  fd := false
  isConnected := false
  socketDisabled := false
  connectCb := .none
  autoReconnect := 0
  numRetries := 0
  timeout := 60000
  retrans := 0
  lastTimeoutScan := 0
  lastSuccessfulRpcResponse := 0
  nfsV3 := cfg.nfsV3
  xid := cfg.xid
  outqueue := []
  waitpdu := List.replicate cfg.numHashes []
  waitpduLen := 0
  maxWaitpduLen := cfg.maxWaitpduLen
  state := .readRm
  inpos := 0
  inbufSize := 0
  inbuf := []
  rmXid := List.replicate 8 0
  pduSize := 0
  pdu := none
  clock := cfg.clock
  memOk := true
  mem := cfg.mem
  destroyed := false
  crashed := false
  log := []
  nextId := 0
  cancelled := []
  closedAt := 0
  sent := []

/-- The context after some events since `rpc_init_context`. -/
def after (cfg : Config) (es : List Event) : Rpc := run step (init cfg) es

/-- `rpc_read_from_socket`; the kernel returns the bytes of the list, and then `last`. -/
def rpcReadFromSocket (rpc : Rpc) (last : Recv) : List (List UInt8) → Ctl
  | [] => rpc.recvStep last
  | bs::reads =>
    match rpc.recvStep (.data bs) with
    | .more rpc => rpc.rpcReadFromSocket last reads
    | c => c

/-- What `poll` reports to `rpc_service` and what the system calls in it return. -/
structure Poll where
  err : Bool
  pollin : Bool
  pollout : Bool
  soError : Bool
  reads : List (List UInt8)
  last : Recv
  writes : List Writev
  conn : Connect

/-- `rpc_service` without TLS -/
def rpcService (rpc : Rpc) (io : Poll) : Rpc :=
  let scan := rpc.rpcTimeoutScan
  if scan.2 = false then (scan.1.rpcReconnectRequeue io.conn).1
  else
    let rpc := scan.1
    if io.err then rpc.pollError io.conn
    else if rpc.isConnected = false ∧ rpc.fd ∧ io.pollout then
      rpc.pollConnect io.soError io.conn
    else
      match (if io.pollin then rpc.rpcReadFromSocket io.last io.reads else .more rpc) with
      | .more rpc => if io.pollout then rpc.pollWrite io.writes io.conn else rpc
      | c => afterRead io.conn c

/-- A client for concrete runs, with a request that has no result and a READ of four bytes. -/
def demoConfig : Config where
  numHashes := 4
  numHashes_pos := by decide
  xid := 1
  xid_lt := by decide
  nfsV3 := true
  clock := 1

def demoNull : Call where
  markerBuf := 0
  payload := [⟨4,List.replicate 40 0⟩]
  zdrDecodeFn := pure ()
  zdrDecodeBufsize := 0

def demoRead : Call where
  markerBuf := 0
  payload := [⟨4,List.replicate 40 0⟩]
  iov := [⟨1000,4⟩]
  zdrDecodeFn := zdrREAD3resZeroCopy
  zdrDecodeBufsize := 128

/-- Connect and be connected. -/
def demoConnect : List Event := [.connectAsync (some .started),.pollConnect false .started]

end Rpc
end Libnfs
