import Libnfs.Context

/-! `rpc_read_from_socket` on TCP, with `rpc_process_pdu`, `rpc_process_reply` and
`rpc_finished_pdu`. `recvStep` is one turn of its loop: one `recv` or `readv` and what the
bytes it returned lead to. -/
namespace Libnfs

open ByteWords Scatter Zdr

/-- How a turn ends: the loop goes on, the function returns -1, or the process is gone
(a failed assertion, a NULL pointer or a load outside a buffer). -/
inductive Ctl
  | more (rpc : Rpc) | fail (rpc : Rpc) | fault (rpc : Rpc)

/-- `ZCRP`, the most that is read of a READ reply before its header is decoded. -/
def zcrp : ℕ := 1024
/-- `MAX_FRAGMENT_SIZE` -/
def maxFragmentSize : ℕ := 8*1024*1024
/-- `NFS_MAX_XFER_SIZE + 4096` -/
def maxPduSize : ℕ := 4*1024*1024+4096

namespace Rpc

/-- The `data` of the callback for an `accept_stat` other than SUCCESS. -/
def acceptStatText (astat : ℕ) : String :=
  if astat = acceptProgUnavail then "Server responded: Program not available"
  else if astat = acceptProgMismatch then "Server responded: Program version mismatch"
  else if astat = acceptProcUnavail then "Server responded: Procedure not available"
  else if astat = acceptGarbageArgs then "Server responded: Garbage arguments"
  else if astat = acceptSystemErr then "Server responded: System Error"
  else "Unknown rpc response from server"

/-- `rpc_process_reply` on the bytes `buf`: the context, the PDU and the cursor of the decoder
afterwards. A zero-copy READ that succeeded is only marked with `free_pdu`; every other reply is
given to the callback here. `none` is a load outside the buffer. -/
def rpcProcessReply (rpc : Rpc) (p : Pdu) (buf : List UInt8) : Option (Rpc × Pdu × ℤ) :=
  let p := if 0 < p.zdrDecodeBufsize then { p with zdrDecodeBuf := true } else p
  match zdrReplymsg p.zdrDecodeFn p.zdrDecodeBufsize buf ⟨0,p.decodeMem⟩ with
  | (.fault,_) => none
  | (.fail,z) =>
    some (rpc.callback p .error (.text "Message rejected by server"),
      { p with decodeMem := z.store, zdrDecodeBuf := false },z.pos)
  | (.ok msg,z) =>
    let p := { p with decodeMem := z.store }
    if msg.stat ≠ msgAccepted then
      some (rpc.callback p .error (.text "RPC Packet not accepted by the server"),p,z.pos)
    else if msg.astat = acceptSuccess then
      let rpc := { rpc with lastSuccessfulRpcResponse := rpc.clock }
      if p.cursor.isSome then some (rpc,{ p with freePdu := true },z.pos)
      else some (rpc.callback p .success (decoded p buf),p,z.pos)
    else some (rpc.callback p .error (.text (acceptStatText msg.astat)),p,z.pos)

/-- `rpc_finished_pdu` -/
def rpcFinishedPdu (rpc : Rpc) : Rpc :=
  let rpc := match rpc.pdu with
    | some p => if p.freePdu then rpc.callback p .success (decoded p (rpc.inbuf.take p.zdrSize)) else rpc
    | none => rpc
  { rpc with state := .readRm, inpos := 0, pdu := none }

/-- `adjust_inbuf` -/
def adjustInbuf (rpc : Rpc) (n : ℕ) : Option Rpc :=
  if rpc.inbufSize < n then
    if maxPduSize < n then none
    else if rpc.memOk then some { rpc with inbufSize := n }
    else none
  else some rpc

/-- The clamps and the copy that follow the decoded length word `n` of a READ reply, with `pos`
the start of the data in `inbuf`. -/
def placeData (rpc : Rpc) (p : Pdu) (c : Cursor) (n pos : ℕ) : Ctl :=
  let readCount := min n p.requestedReadCount
  let count := min (rpc.inpos-pos) readCount
  match (if readCount < c.remaining then c.rpcShrinkCursor readCount else some c) with
  | none => .fault rpc
  | some c =>
    let count := min count c.remaining
    match c.rpcMemcpyCursor rpc.mem ((rpc.inbuf.drop pos).take count) with
    | none => .fault rpc
    | some (mem,c) =>
      let rpc := { rpc with mem := mem }
      if c.remaining = 0 then
        .more (rpcFinishedPdu { rpc with
          pdu := some { p with cursor := some c, readCount := readCount } })
      else
        .more (({ rpc with
          pdu := some { p with cursor := some c, readCount := readCount-count }
          state := .readIovec
          inpos := 0 } : Rpc).setRm0 ((rpc.rm0+2^32-(pos+count)) % 2^32))

/-- READ_PAYLOAD after `rpc_process_pdu`, when `free_zdr` is set: the status check of NFSv3, then
the length word. -/
def zeroCopyPayload (rpc : Rpc) (p : Pdu) (c : Cursor) (pos : ℤ) : Ctl :=
  if rpc.nfsV3 ∧ p.zdrDecodeBuf = false then .fault rpc
  else if rpc.nfsV3 ∧ p.decodeMem.status ≠ 0 then .more rpc.rpcFinishedPdu
  else
    match zdrUInt (rpc.inbuf.take rpc.pduSize) ⟨pos,p.decodeMem⟩ with
    | (.fault,_) => .fault rpc
    | (.fail,_) => .fail rpc
    | (.ok n,z) => rpc.placeData p c n z.pos.toNat

/-- READ_PAYLOAD complete: `rpc_process_pdu` and what follows it. -/
def payloadDone (rpc : Rpc) : Ctl :=
  match rpc.pdu with
  | none => .fault rpc
  | some p =>
    let buf := rpc.inbuf.take rpc.pduSize
    match (rpc.logRecord buf).rpcProcessReply p buf with
    | none => .fault rpc
    | some (rpc,p,pos) =>
      match p.cursor with
      | none => .more (rpc.holding p).rpcFinishedPdu
      | some c =>
        let p := p.keepZdr buf.length
        (rpc.holding p).zeroCopyPayload p c pos

/-- The xid goes to the front of `inbuf`, where the payload will follow. -/
def startRecord (rpc : Rpc) (xid : ℕ) : Rpc :=
  { rpc with inbuf := overwrite rpc.inbuf 0 (beBytes xid), inpos := 0 }

/-- READ_RM after the checks of the marker: match the xid and make room for `size` bytes. -/
def matchRecord (rpc : Rpc) (size xid : ℕ) : Ctl :=
  match rpc.rpcFindPdu xid with
  | (some p,rpc) =>
    match (rpc.holding p).adjustInbuf (if p.cursor.isSome then zcrp else size) with
    | none => .fail { rpc.rpcReturnToOutqueue p with pdu := none }
    | some rpc => .more (rpc.startRecord xid)
  | (none,rpc) =>
    match ({ rpc with pdu := none } : Rpc).adjustInbuf size with
    | none => .fail { rpc with pdu := none }
    | some rpc => .more { rpc.startRecord xid with state := .readUnknown }

/-- READ_RM complete. -/
def rmDone (rpc : Rpc) : Ctl :=
  let marker := be32 rpc.rmXid
  let xid := be32 (rpc.rmXid.drop 4)
  if marker < 2^31 then .fail { rpc.setRm0 marker with state := .readFragment }
  else
    let size := marker-2^31
    let rpc := { rpc.setRm0 size with state := .readPayload }
    if size < 8 ∨ maxFragmentSize < size then .fail rpc
    else (rpc.setRm1 xid).matchRecord size xid

/-- READ_IOVEC complete. -/
def iovecDone (rpc : Rpc) : Ctl :=
  match rpc.pdu with
  | none => .fault rpc
  | some p =>
    let left := (rpc.rm0+2^32-rpc.pduSize) % 2^32
    let rpc := { rpc with pdu := some { p with readCount := p.readCount-rpc.pduSize } }.setRm0 left
    if left = 0 then .more rpc.rpcFinishedPdu
    else .more { rpc with state := .readPadding, inpos := 0 }

/-- The switch on `rpc->state` once `inpos == pdu_size`. There are no fragments: a marker
without the last-fragment bit fails the connection. -/
def readDone (rpc : Rpc) : Ctl :=
  match rpc.state with
  | .readRm => rpc.rmDone
  | .readPayload => rpc.payloadDone
  | .readIovec => rpc.iovecDone
  | .readPadding => .more rpc.rpcFinishedPdu
  | .readUnknown => .more { rpc with state := .readRm, inpos := 0 }
  | .readFragment => .more { rpc with state := .readRm, inpos := 0 }

/-- The switch at the top of the loop, taken when `inpos == 0`. -/
def readPrep (rpc : Rpc) : Option Rpc :=
  if rpc.inpos = 0 then
    match rpc.state with
    | .readRm => some { rpc with pduSize := 8, pdu := none }
    | .readPayload =>
      let zeroCopy := match rpc.pdu with
        | some p => p.cursor.isSome
        | none => false
      some { rpc with inpos := 4, pduSize := if zeroCopy then min rpc.rm0 zcrp else rpc.rm0 }
    | .readUnknown | .readFragment =>
      if rpc.rm0 ≤ rpc.inbufSize then some { rpc with inpos := 4, pduSize := rpc.rm0 } else none
    | .readIovec =>
      match rpc.pdu with
      | some p => some { rpc with pduSize := p.readCount }
      | none => none
    | .readPadding => some { rpc with pduSize := rpc.rm0 }
  else some rpc

/-- How many bytes the kernel is asked for. A `readv` asks for all the vectors hold, after the
assertions `iovcnt > 0` and `count <= remaining_size`. -/
def readWant (rpc : Rpc) : Option ℕ :=
  match rpc.state with
  | .readIovec =>
    match rpc.pdu.bind Pdu.cursor with
    | some c =>
      if c.iov ≠ [] ∧ rpc.pduSize-rpc.inpos ≤ c.remaining then some (total c.iov) else none
    | none => none
  | .readPadding => some (min (rpc.pduSize-rpc.inpos) rpc.inbufSize)
  | _ => some (rpc.pduSize-rpc.inpos)

/-- Where the bytes go. -/
def readStore (rpc : Rpc) (bs : List UInt8) : Option Rpc :=
  match rpc.state with
  | .readRm => some { rpc with rmXid := overwrite rpc.rmXid rpc.inpos bs, inpos := rpc.inpos+bs.length }
  | .readPayload | .readUnknown | .readFragment =>
    some { rpc with inbuf := overwrite rpc.inbuf rpc.inpos bs, inpos := rpc.inpos+bs.length }
  | .readPadding =>
    some { rpc with inbuf := overwrite rpc.inbuf 0 bs, inpos := rpc.inpos+bs.length }
  | .readIovec =>
    match rpc.pdu with
    | none => none
    | some p =>
      match p.cursor with
      | none => none
      | some c => (c.rpcAdvanceCursor bs.length).map fun d =>
        { rpc with
          mem := scatter rpc.mem c.iov bs
          pdu := some { p with cursor := some d }
          inpos := rpc.inpos+bs.length }

/-- `bs` has arrived in a prepared context. -/
def readBytes (rpc : Rpc) (bs : List UInt8) : Ctl :=
  match rpc.readStore bs with
  | none => .fault rpc
  | some rpc => if rpc.inpos = rpc.pduSize then rpc.readDone else .more rpc

end Rpc

/-- What `recv` or `readv` returns. -/
inductive Recv
  | data (bs : List UInt8) | again | error | closed

namespace Rpc

/-- One turn of the loop of `rpc_read_from_socket`. A request for no bytes returns 0, like a
closed connection; more bytes than asked for, or none, are nothing the kernel returns. -/
def recvStep (rpc : Rpc) (r : Recv) : Ctl :=
  if rpc.socketDisabled then .more rpc
  else
    match rpc.readPrep with
    | none => .fault rpc
    | some rpc =>
      match rpc.readWant with
      | none => .fault rpc
      | some want =>
        if want = 0 then .fail rpc
        else
          match (if rpc.fd then r else .error) with
          | .data bs => if 0 < bs.length ∧ bs.length ≤ want then rpc.readBytes bs else .more rpc
          | .again => .more rpc
          | .error => .fail rpc
          | .closed => .fail rpc

end Rpc
end Libnfs
