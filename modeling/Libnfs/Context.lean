import Libnfs.Cursor
import Libnfs.Zdr

/-! The state of a TCP client `rpc_context` and of its PDUs (`include/libnfs-private.h`),
with the queue functions of `lib/pdu.c` and the purge of `lib/init.c`.

A PDU is a value with an identity `id`. A queue is the list its chain of `next` pointers
spells; `Libnfs.Intrusive` has the chains themselves. Callbacks are entries of `log`: what the
application does in one is a later event. -/
namespace Libnfs

open ByteWords Scatter Zdr

/-- `enum input_state` -/
inductive InputState
  | readRm | readPayload | readFragment | readIovec | readPadding | readUnknown
  deriving DecidableEq, Repr

/-- One `struct rpc_iovec` of `pdu->out`: an address and the bytes there. -/
structure OutVec where
  buf : ℕ
  data : List UInt8
  deriving DecidableEq, Repr

/-- `struct rpc_pdu`. `cursor` is `in`, with `in.base == NULL` as `none`; `zdrDecodeBuf` says
whether that pointer is set and `decodeMem` is the storage it points at. `zdrSize` is `zdr.size`:
the result points into that many bytes of the receive buffer. -/
structure Pdu where
  id : ℕ
  xid : ℕ
  out : List OutVec
  numDone : ℕ := 0
  cursor : Option Cursor := none
  readCount : ℕ := 0
  requestedReadCount : ℕ := 0
  zdrDecodeFn : Dec Unit
  zdrDecodeBufsize : ℕ
  zdrDecodeBuf : Bool := false
  decodeMem : DecodeBuf := {}
  freeZdr : Bool := false
  zdrSize : ℕ := 0
  freePdu : Bool := false
  discardAfterSending : Bool := false
  doNotRetry : Bool
  timeout : ℕ := 0
  majorTimeout : ℕ := 0

namespace Pdu

/-- The record as it goes on the wire: record marker and payload. -/
def record (p : Pdu) : List UInt8 := p.out.flatMap OutVec.data

/-- `out.total_size` -/
def totalSize (p : Pdu) : ℕ := (p.out.map fun v => v.data.length).sum

def unsent (p : Pdu) : List UInt8 := p.record.drop p.numDone

theorem record_length (p : Pdu) : p.record.length = p.totalSize := by
  simp [record,totalSize,List.length_flatMap]

/-- What `rpc_return_to_outqueue` does to the PDU itself. -/
def reset (p : Pdu) : Pdu := { p with numDone := 0, cursor := p.cursor.map Cursor.rpcResetCursor }

/-- What `rpc_process_pdu` leaves in the PDU of a zero-copy READ. -/
def keepZdr (p : Pdu) (size : ℕ) : Pdu := { p with freeZdr := true, zdrSize := size }

@[simp] theorem keepZdr_id (p : Pdu) (n : ℕ) : (p.keepZdr n).id = p.id := rfl
@[simp] theorem keepZdr_freePdu (p : Pdu) (n : ℕ) : (p.keepZdr n).freePdu = p.freePdu := rfl

/-- The PDU without what changes during its life: the request it stands for. -/
def request (p : Pdu) : Pdu :=
  { p with
    numDone := 0
    cursor := p.cursor.map Cursor.rpcResetCursor
    readCount := 0
    zdrDecodeBuf := false
    decodeMem := {}
    freeZdr := false
    zdrSize := 0
    freePdu := false
    timeout := 0
    majorTimeout := 0 }

end Pdu

/-- `RPC_STATUS_*` -/
inductive Status
  | success | error | cancel | timeout
  deriving DecidableEq, Repr

/-- The `data` argument of a callback; `fields` are the bytes behind the pointers into the
receive buffer at the time of the call. -/
inductive CbData
  | null
  | text (s : String)
  | result (words : List ℕ) (raw : List UInt8) (fields : List (List UInt8))
  deriving DecidableEq, Repr

inductive LogEntry
  | record (buf : List UInt8)
  | callback (id : ℕ) (status : Status) (data : CbData)
  | connected (status : Status)
  deriving DecidableEq, Repr

/-- `rpc->connect_cb` -/
inductive ConnectCb
  | none | user | reconnect
  deriving DecidableEq, Repr

/-- `struct rpc_context` of a TCP client. `fd` says whether it is a socket or -1, `nfsV3`
whether `program` and `version` are those of NFSv3, `rmXid` is the memory of `rm_xid[2]`.

`clock` and `memOk` are the environment (the time, whether malloc succeeds), `mem` is the
memory of the application. `nextId`, `cancelled`, `closedAt` and `sent` are ghosts: the number of
PDUs so far, those removed by `rpc_cancel_pdu`, the number of PDUs there were when the context
last gave up, was disconnected or destroyed, and the bytes written on the socket in `fd`. -/
structure Rpc where
  fd : Bool
  isConnected : Bool
  socketDisabled : Bool
  connectCb : ConnectCb
  autoReconnect : ℤ
  numRetries : ℤ
  timeout : ℤ
  retrans : ℤ
  lastTimeoutScan : ℕ
  lastSuccessfulRpcResponse : ℕ
  nfsV3 : Bool
  xid : ℕ
  outqueue : List Pdu
  waitpdu : List (List Pdu)
  waitpduLen : ℕ
  maxWaitpduLen : ℕ
  state : InputState
  inpos : ℕ
  inbufSize : ℕ
  inbuf : List UInt8
  rmXid : List UInt8
  pduSize : ℕ
  pdu : Option Pdu
  clock : ℕ
  memOk : Bool
  mem : ℕ → UInt8
  destroyed : Bool
  crashed : Bool
  log : List LogEntry
  nextId : ℕ
  cancelled : List ℕ
  closedAt : ℕ
  sent : List UInt8

namespace Rpc

/-- `rm_xid[0]` and `rm_xid[1]` as host words; the host is little-endian. -/
def rm0 (rpc : Rpc) : ℕ := le32 rpc.rmXid
def rm1 (rpc : Rpc) : ℕ := le32 (rpc.rmXid.drop 4)

def setRm0 (rpc : Rpc) (n : ℕ) : Rpc := { rpc with rmXid := leBytes n ++ rpc.rmXid.drop 4 }
def setRm1 (rpc : Rpc) (n : ℕ) : Rpc := { rpc with rmXid := rpc.rmXid.take 4 ++ leBytes n }

def holding (rpc : Rpc) (p : Pdu) : Rpc := { rpc with pdu := some p }

def logRecord (rpc : Rpc) (buf : List UInt8) : Rpc := { rpc with log := rpc.log ++ [.record buf] }

def callback (rpc : Rpc) (p : Pdu) (status : Status) (data : CbData) : Rpc :=
  { rpc with log := rpc.log ++ [.callback p.id status data] }

/-- `pdu->zdr_decode_buf` as the callback sees it, its pointers followed into `buf`. -/
def decoded (p : Pdu) (buf : List UInt8) : CbData :=
  if p.zdrDecodeBuf then
    .result p.decodeMem.words p.decodeMem.raw
      (p.decodeMem.refs.map fun r => (buf.drop r.off.toNat).take r.len)
  else .null

/-- `rpc_hash_xid`: the product is a `uint32_t`. -/
def rpcHashXid (rpc : Rpc) (xid : ℕ) : ℕ := (xid*7919) % 2^32 % rpc.waitpdu.length

end Rpc

/-- The link that `rpc_return_to_outqueue` makes: behind the head, which may be half sent. -/
def insertAfterHead {α : Type} (p : α) : List α → List α
  | [] => [p]
  | x::xs => x::p::xs

/-- The first PDU with this xid, and the queue without it. -/
def findXid (xid : ℕ) : List Pdu → Option (Pdu × List Pdu)
  | [] => none
  | p::ps => if p.xid = xid then some (p,ps) else (findXid xid ps).map fun r => (r.1,p::r.2)

namespace Rpc

/-- `rpc_return_to_outqueue` -/
def rpcReturnToOutqueue (rpc : Rpc) (p : Pdu) : Rpc :=
  { rpc with outqueue := insertAfterHead p.reset rpc.outqueue }

/-- `rpc_enqueue(&rpc->waitpdu[hash], pdu)` with the counter -/
def enqueueWait (rpc : Rpc) (p : Pdu) : Rpc :=
  { rpc with
    waitpdu := rpc.waitpdu.modify (rpc.rpcHashXid p.xid) (· ++ [p])
    waitpduLen := rpc.waitpduLen+1 }

/-- `rpc_find_pdu` on TCP. The hash chain is the one of `rm_xid[1]`, not of `xid`. -/
def rpcFindPdu (rpc : Rpc) (xid : ℕ) : Option Pdu × Rpc :=
  match findXid xid rpc.outqueue with
  | some (p,q) => (some p,{ rpc with outqueue := q })
  | none =>
    match findXid xid (rpc.waitpdu.getD (rpc.rpcHashXid rpc.rm1) []) with
    | some (p,q) => (some p,{ rpc with
        waitpdu := rpc.waitpdu.set (rpc.rpcHashXid rpc.rm1) q
        waitpduLen := rpc.waitpduLen-1 })
    | none => (none,rpc)

/-- `rpc_cancel_pdu` of the PDU with this xid -/
def rpcCancelPdu (rpc : Rpc) (xid : ℕ) : Rpc :=
  match rpc.rpcFindPdu xid with
  | (some p,rpc) => { rpc with cancelled := rpc.cancelled ++ [p.id] }
  | (none,rpc) => rpc

/-- `pdu_set_timeout`, with `HAVE_CLOCK_GETTIME` -/
def pduSetTimeout (rpc : Rpc) (p : Pdu) (now : ℕ) : Pdu :=
  if rpc.timeout ≤ 0 then { p with timeout := 0 }
  else
    let now := if now = 0 then rpc.clock else now
    let minor := now+rpc.timeout.toNat
    let p := if p.timeout = 0 then { p with timeout := minor } else p
    if p.majorTimeout = 0 then
      let major := ((now+rpc.timeout*rpc.retrans) % 2^64).toNat
      { p with timeout := minor, majorTimeout := max major minor }
    else p

/-- Everything the context owes an answer: the out queue, the wait chains and the PDU whose
reply is being read. -/
def outstanding (rpc : Rpc) : List Pdu := rpc.outqueue ++ rpc.waitpdu.flatten ++ rpc.pdu.toList

/-- `rpc_purge_all_pdus`. Neither `rpc->pdu` nor `waitpdu_len` is touched. -/
def rpcPurgeAllPdus (rpc : Rpc) (status : Status) (data : CbData) : Rpc :=
  { rpc with
    outqueue := []
    waitpdu := rpc.waitpdu.map fun _ => []
    log := rpc.log ++ (rpc.outqueue ++ rpc.waitpdu.flatten).map fun p => .callback p.id status data }

/-- `rpc_error_all_pdus` -/
def rpcErrorAllPdus (rpc : Rpc) (error : String) : Rpc :=
  { rpc.rpcPurgeAllPdus .error (.text error) with closedAt := rpc.nextId }

end Rpc
end Libnfs
