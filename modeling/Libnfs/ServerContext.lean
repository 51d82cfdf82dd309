import Libnfs.Dispatch
import Libnfs.Framing
import Libnfs.Records
import Libnfs.Server

/-! A server `rpc_context` on a TCP socket: `rpc_read_from_socket` with `rpc_process_call`, the handlers and what they send with
`rpc_send_reply`, calls that are answered later, and `rpc_register_service`. -/
namespace Libnfs

open ByteWords Zdr Zdrmem Dispatch RecordMark Transition
open Rpc (validMarker marking)

variable {α β : Type}

/-- What `rpc_send_reply` is given: `encode_fn` on `reply`, which marshals `bytes`, and `alloc_hint` -/
structure Results where
  encodeFn : Zop Unit
  allocHint : ℕ
  bytes : List UInt8
  writes : Writes encodeFn bytes

/-- `rpc_allocate_reply_pdu`: what it marshals behind the marker. The last four bytes of the buffer that `zdrmem_create` is told of
are not allocated. -/
def rpcAllocateReplyPdu (mem : Bool) (res : RpcMsg Unit) (proc : Codec Unit) (allocHint : ℕ) : Res (List UInt8) :=
  if mem then
    let size := encodebufMinsize+allocHint
    match (Zdrmem.zdrReplymsg proc).enc res (zdrmemCreate (List.replicate size 0) size) with
    | (.ok (),z) => if z.pos.toNat+4 ≤ size then .ok (z.buf.take z.pos.toNat) else .fault
    | (.fail,z) => if z.pos.toNat+4 ≤ size then .fail else .fault
    | (.fault,_) => .fault
  else .fail

/-- The message of `rpc_send_reply`, with the null verifier -/
def successMsg (xid : UInt32) : RpcMsg Unit := .reply xid (.areply ⟨0,[]⟩ (.results ()))

/-- What `rpc_send_reply` queues -/
def Results.marshal (r : Results) (mem : Bool) (xid : UInt32) : Res (List UInt8) :=
  rpcAllocateReplyPdu mem (successMsg xid) ⟨fun _ => r.encodeFn,fun _ => Zop.fault⟩ r.allocHint

/-- What a handler does: it changes the state of the application, sends replies and returns 0 or not. -/
structure Reaction (β : Type) where
  app : β
  replies : List Results
  ok : Bool

/-- The `func` of every procedure, with the state of the application -/
abbrev Handler (α β : Type) := β → ServiceProc α → RpcMsg Unit → α → Reaction β

/-- Where the buffer of a reply lies, and what `writev` returns if it is written at once -/
structure Sending where
  buf : ℕ
  writes : List Writev

/-- The context is in use, `rpc_service` has returned -1, or the process is gone. -/
inductive Fate
  | serving | failed | crashed
  deriving DecidableEq

/-- A server context with the application. `taken`, `handled` and `answered` are ghosts: the bytes that came, what became of each
record, and the replies with the record each one answers. -/
structure ServerContext (α β : Type) where
  server : Server
  endpoints : List (Endpoint α)
  app : β
  fate : Fate
  taken : List UInt8
  handled : List (List UInt8 × Outcome α)
  answered : List (List UInt8 × List UInt8)

/-- `deferred` is a reply to a call that was kept with `rpc_copy_deferred_call`. -/
inductive ServiceEvent (α β : Type)
  | memory (ok : Bool)
  | disableSocket (val : Bool)
  | register (e : Endpoint α)
  | recv (r : Recv) (ios : List Sending)
  | deferred (i : ℕ) (r : Results) (app : β) (io : Sending)
  | write (ws : List Writev)
  | pollError

namespace ServerContext

def init (app : β) : ServerContext α β := ⟨Server.init,[],app,.serving,[],[],[]⟩

def withRpc (s : ServerContext α β) (rpc : Rpc) : ServerContext α β := { s with server := { s.server with rpc := rpc } }

/-- The reader has taken `bs`. -/
def took (s : ServerContext α β) (rpc : Rpc) (bs : List UInt8) : ServerContext α β :=
  { s.withRpc rpc with taken := s.taken ++ bs }

def ended (s : ServerContext α β) (fate : Fate) : ServerContext α β := { s with fate := fate }

/-- A marshalled reply is queued. -/
def queue (s : ServerContext α β) (record body : List UInt8) (io : Sending) : ServerContext α β :=
  { s with
    server := s.server.rpcSendReply ⟨io.buf,body⟩ io.writes
    answered := s.answered ++ [(record,body)] }

/-- `rpc_send_reply` -/
def rpcSendReply (s : ServerContext α β) (record : List UInt8) (xid : UInt32) (r : Results) (io : Sending) :
    ServerContext α β :=
  match r.marshal s.server.rpc.memOk xid with
  | .ok body => s.queue record body io
  | .fail => s
  | .fault => s.ended .crashed

def sendAll (record : List UInt8) (xid : UInt32) : List Results → List Sending → ServerContext α β → ServerContext α β
  | [], _, s => s
  | r::rs, ios, s =>
    if s.fate = .serving then sendAll record xid rs ios.tail (s.rpcSendReply record xid r (ios.headD ⟨0,[]⟩)) else s

/-- `rpc_finished_pdu` -/
def finished (s : ServerContext α β) : ServerContext α β := s.withRpc s.server.rpc.rpcFinishedPdu

variable (handler : Handler α β)

/-- What the outcome of a record leads to in `rpc_read_from_socket` -/
def settle (s : ServerContext α β) (record : List UInt8) (ios : List Sending) : Outcome α → ServerContext α β
  | .queued body => (s.queue record body (ios.headD ⟨0,[]⟩)).finished
  | .noMemory => s.ended .failed
  | .crash => s.ended .crashed
  | .handler p call args =>
    let re := handler s.app p call args
    let s := sendAll record (cbody call).xid re.replies ios { s with app := re.app }
    if s.fate = .serving then (if re.ok then s.finished else s.ended .failed) else s

/-- `rpc_process_pdu` with a record -/
def process (s : ServerContext α β) (record : List UInt8) (ios : List Sending) : ServerContext α β :=
  let out := rpcProcessCall s.server.rpc.memOk s.endpoints (zdrmemCreate record record.length)
  settle handler { s with handled := s.handled ++ [(record,out)] } record ios out

/-- The xid goes to the front of `inbuf`, if there is room for `size` bytes. -/
def makeRoom (s : ServerContext α β) (rpc : Rpc) (size xid : ℕ) : ServerContext α β :=
  match rpc.adjustInbuf size with
  | none => (s.withRpc rpc).ended .failed
  | some rpc => s.withRpc (rpc.startRecord xid)

/-- A payload of `size` bytes is next. -/
def announced (rpc : Rpc) (size : ℕ) : Rpc := { rpc.setRm0 size with state := .readPayload }

/-- READ_RM complete. No PDU is searched for. -/
def rmDone (s : ServerContext α β) : ServerContext α β :=
  let rpc := s.server.rpc
  let marker := be32 rpc.rmXid
  let xid := be32 (rpc.rmXid.drop 4)
  if marker < 2^31 then (s.withRpc { rpc.setRm0 marker with state := .readFragment }).ended .failed
  else
    let size := marker-2^31
    if size < 8 ∨ maxFragmentSize < size then (s.withRpc (announced rpc size)).ended .failed
    else s.makeRoom ((announced rpc size).setRm1 xid) size xid

/-- The switch on `rpc->state` once `inpos == pdu_size` -/
def readDone (s : ServerContext α β) (ios : List Sending) : ServerContext α β :=
  match s.server.rpc.state with
  | .readRm => s.rmDone
  | .readPayload => s.process handler (s.server.rpc.inbuf.take s.server.rpc.pduSize) ios
  | .readIovec => s.ended .crashed
  | .readPadding => s.finished
  | .readUnknown | .readFragment => s.withRpc { s.server.rpc with state := .readRm, inpos := 0 }

def readBytes (s : ServerContext α β) (bs : List UInt8) (ios : List Sending) : ServerContext α β :=
  match s.server.rpc.readStore bs with
  | none => s.ended .crashed
  | some rpc => if rpc.inpos = rpc.pduSize then (s.took rpc bs).readDone handler ios else s.took rpc bs

/-- One turn of the loop of `rpc_read_from_socket` -/
def recvStep (s : ServerContext α β) (r : Recv) (ios : List Sending) : ServerContext α β :=
  if s.server.rpc.socketDisabled then s
  else
    match s.server.rpc.readPrep with
    | none => s.ended .crashed
    | some rpc =>
      match rpc.readWant with
      | none => s.ended .crashed
      | some want =>
        if want = 0 then s.ended .failed
        else
          match r with
          | .data bs => if 0 < bs.length ∧ bs.length ≤ want then (s.withRpc rpc).readBytes handler bs ios else s.withRpc rpc
          | .again => s.withRpc rpc
          | .error => (s.withRpc rpc).ended .failed
          | .closed => (s.withRpc rpc).ended .failed

/-- A call that was kept is answered. -/
def replyLater (s : ServerContext α β) (i : ℕ) (r : Results) (app : β) (io : Sending) : ServerContext α β :=
  match s.handled[i]? with
  | some (record,.handler _ call _) => { s with app := app }.rpcSendReply record (cbody call).xid r io
  | _ => s

def act (s : ServerContext α β) : ServiceEvent α β → ServerContext α β
  | .memory ok => s.withRpc { s.server.rpc with memOk := ok }
  | .disableSocket val => s.withRpc { s.server.rpc with socketDisabled := val }
  | .register e => if s.server.rpc.memOk then { s with endpoints := e :: s.endpoints } else s
  | .recv r ios => s.recvStep handler r ios
  | .deferred i r app io => s.replyLater i r app io
  | .write ws =>
    if s.server.rpc.outqueue.isEmpty then s
    else
      let r := s.server.rpc.rpcWriteToSocket ws
      if r.2 then s.withRpc r.1 else (s.withRpc r.1).ended .failed
  | .pollError => s.ended .failed

/-- One event. A context that has failed is destroyed. -/
def step (s : ServerContext α β) (e : ServiceEvent α β) : ServerContext α β :=
  if s.fate = .serving then s.act handler e else s

def after (app : β) (es : List (ServiceEvent α β)) : ServerContext α β := run (step handler) (init app) es

end ServerContext

namespace ServerContext

variable {handler : Handler α β} {s t : ServerContext α β} {rest bs body record r : List UInt8} {ios : List Sending}

section Reader

theorem be32_take (h : 4 ≤ r.length) : be32 (r.take 4) = be32 r := by
  conv_rhs => rw [← List.take_append_drop 4 r]
  rw [be32_append _ _ (List.length_take_of_le h)]

theorem isRecord_marking : IsRecord marking r ↔ 4 ≤ r.length ∧ validMarker (be32 r) = true ∧ be32 r-2^31 = r.length-4 := by
  rw [isRecord_iff]
  refine and_congr_right fun h4 => ?_
  show (if validMarker (be32 (r.take 4)) = true then some (be32 (r.take 4)-2^31) else none) = some (r.length-4) ↔ _
  rw [be32_take h4]
  cases validMarker (be32 r) <;> simp

theorem validMarker_iff {n : ℕ} : validMarker n = true ↔ 2^31 ≤ n ∧ 8 ≤ n-2^31 ∧ n-2^31 ≤ maxFragmentSize := by
  simp [validMarker]

/-- The reader has the bytes `rest` of a record. -/
inductive At (rest : List UInt8) (rpc : Rpc) : Prop
  | marker (hs : rpc.state = .readRm) (hp : rpc.pdu = none) (hx : rpc.rmXid.length = 8) (h8 : rest.length < 8)
      (hi : rpc.inpos = rest.length) (hb : rpc.rmXid.take rpc.inpos = rest) (hz : rpc.inpos ≠ 0 → rpc.pduSize = 8)
  | payload (hs : rpc.state = .readPayload) (hp : rpc.pdu = none) (hx : rpc.rmXid.length = 8) (h8 : 8 ≤ rest.length)
      (hv : validMarker (be32 rest) = true) (hn : rpc.rm0 = be32 rest-2^31) (hlt : rest.length < 4+rpc.rm0)
      (hi : rpc.inpos = 0 ∧ rest.length = 8 ∨ rpc.inpos+4 = rest.length ∧ rpc.pduSize = rpc.rm0)
      (hb : rpc.inbuf.take (rest.length-4) = rest.drop 4)

theorem At.congr {rpc rpc' : Rpc} (h : At rest rpc) (he : rpc'.readerPart = rpc.readerPart) : At rest rpc' := by
  simp only [Rpc.readerPart,Prod.mk.injEq] at he
  obtain ⟨hs',hi',hz',hp',hx',hb',-⟩ := he
  have hrm : rpc'.rm0 = rpc.rm0 := congrArg le32 hx'
  cases h with
  | marker hs hp hx h8 hi hb hz =>
    exact .marker (hs'.trans hs) (hp'.trans hp) (hx' ▸ hx) h8 (hi'.trans hi) (by rw [hx',hi',hb]) (by rw [hi',hz']; exact hz)
  | payload hs hp hx h8 hv hn hlt hi hb =>
    exact .payload (hs'.trans hs) (hp'.trans hp) (hx' ▸ hx) h8 hv (hrm.trans hn) (hrm ▸ hlt) (by rw [hi',hz',hrm]; exact hi)
      (by rw [hb',hb])

/-- The reader asks for more of the record, and has room for what it asks for. -/
inductive Asks (rest : List UInt8) (rpc : Rpc) : ℕ → Prop
  | marker (hs : rpc.state = .readRm) (hp : rpc.pdu = none) (hx : rpc.rmXid.length = 8) (h8 : rest.length < 8)
      (hi : rpc.inpos = rest.length) (hb : rpc.rmXid.take rpc.inpos = rest) (hz : rpc.pduSize = 8) : Asks rest rpc (8-rest.length)
  | payload (hs : rpc.state = .readPayload) (hp : rpc.pdu = none) (hx : rpc.rmXid.length = 8) (h8 : 8 ≤ rest.length)
      (hv : validMarker (be32 rest) = true) (hn : rpc.rm0 = be32 rest-2^31) (hlt : rest.length < 4+rpc.rm0)
      (hi : rpc.inpos+4 = rest.length) (hz : rpc.pduSize = rpc.rm0) (hb : rpc.inbuf.take (rest.length-4) = rest.drop 4) :
      Asks rest rpc (4+rpc.rm0-rest.length)

theorem At.asks {rpc : Rpc} (h : At rest rpc) : ∃ rpc' n, rpc.readPrep = some rpc' ∧ rpc'.readWant = some n ∧ 0 < n ∧
    Asks rest rpc' n ∧ At rest rpc' ∧ rpc'.shared = rpc.shared := by
  cases h with
  | marker hs hp hx h8 hi hb hz =>
    have hprep : rpc.readPrep = some { rpc with pduSize := 8, pdu := none } := by
      unfold Rpc.readPrep
      by_cases h0 : rpc.inpos = 0
      · rw [if_pos h0,hs]
      · rw [if_neg h0]
        have h1 := hz h0
        cases rpc
        simp_all
    refine ⟨_,8-rest.length,hprep,?_,by omega,.marker hs rfl hx h8 hi hb rfl,.marker hs rfl hx h8 hi hb fun _ => rfl,rfl⟩
    simp [Rpc.readWant,hs,hi]
  | payload hs hp hx h8 hv hn hlt hi hb =>
    have hprep : rpc.readPrep = some { rpc with inpos := rest.length-4, pduSize := rpc.rm0 } := by
      unfold Rpc.readPrep
      rcases hi with ⟨h0,hl⟩ | ⟨hl,hz⟩
      · rw [if_pos h0,hs,hp,hl]
        rfl
      · rw [if_neg (by omega)]
        have h1 : rest.length-4 = rpc.inpos := by omega
        rw [h1,← hz]
    have hl : rest.length-4+4 = rest.length := by omega
    refine ⟨_,4+rpc.rm0-rest.length,hprep,?_,by omega,.payload hs hp hx h8 hv hn hlt hl rfl hb,
      .payload hs hp hx h8 hv hn hlt (.inr ⟨hl,rfl⟩) hb,rfl⟩
    simp only [Rpc.readWant,hs]
    congr 1
    omega

/-- What a marker and an xid, or the last of a payload, lead to -/
theorem Asks.store {rpc : Rpc} {n : ℕ} (h : Asks rest rpc n) (hbs : 0 < bs.length) (hle : bs.length ≤ n) :
    ∃ rpc', rpc.readStore bs = some rpc' ∧ rpc'.shared = rpc.shared ∧
      (bs.length < n → rpc'.inpos ≠ rpc'.pduSize ∧ At (rest++bs) rpc') ∧
      (bs.length = n → rpc'.inpos = rpc'.pduSize ∧
        (rpc'.state = .readRm ∧ rpc'.rmXid = rest++bs ∧ (rest++bs).length = 8 ∧ rpc'.pdu = none ∨
        rpc'.state = .readPayload ∧ rpc'.pdu = none ∧ rpc'.rmXid.length = 8 ∧ IsRecord marking (rest++bs) ∧
          rpc'.inbuf.take rpc'.pduSize = (rest++bs).drop 4)) := by
  cases h with
  | marker hs hp hx h8 hi hb hz =>
    have hin : rpc.inpos ≤ rpc.rmXid.length := by omega
    have hall : (overwrite rpc.rmXid rpc.inpos bs).take (rpc.inpos+bs.length) = rest++bs := by
      rw [take_overwrite _ _ _ hin,hb]
    have hlen : (overwrite rpc.rmXid rpc.inpos bs).length = 8 := by
      rw [length_overwrite _ _ _ hin]
      omega
    refine ⟨_,Rpc.readStore_eq_marker hs bs,rfl,fun hlt => ⟨?_,.marker hs hp hlen ?_ ?_ hall fun _ => hz⟩,fun heq => ⟨?_,.inl ⟨hs,?_,?_,hp⟩⟩⟩
    · show rpc.inpos+bs.length ≠ rpc.pduSize
      omega
    · rw [List.length_append]
      omega
    · show rpc.inpos+bs.length = _
      rw [List.length_append,hi]
    · show rpc.inpos+bs.length = rpc.pduSize
      omega
    · show overwrite rpc.rmXid rpc.inpos bs = _
      rw [← hall,List.take_of_length_le (by omega)]
    · rw [List.length_append]
      omega
  | payload hs hp hx h8 hv hn hlt hi hz hb =>
    have hin : rpc.inpos ≤ rpc.inbuf.length := by
      have hl := congrArg List.length hb
      simp only [List.length_take,List.length_drop] at hl
      omega
    have hpos : rest.length-4 = rpc.inpos := by omega
    have hall : (overwrite rpc.inbuf rpc.inpos bs).take (rpc.inpos+bs.length) = (rest++bs).drop 4 := by
      rw [take_overwrite _ _ _ hin,← hpos,hb,List.drop_append_of_le_length (by omega)]
    have hbe : be32 (rest++bs) = be32 rest := by
      rw [← be32_take (by simp; omega),← be32_take (show 4 ≤ rest.length by omega),List.take_append_of_le_length (by omega)]
    have hlen : (rest++bs).length-4 = rpc.inpos+bs.length := by
      rw [List.length_append]
      omega
    refine ⟨_,Rpc.readStore_eq_payload (.inl hs) bs,rfl,fun hlt' => ⟨?_,.payload hs hp hx ?_ (hbe ▸ hv) (hn.trans (by rw [hbe])) ?_
      (.inr ⟨?_,hz⟩) (hlen ▸ hall)⟩,fun heq => ⟨?_,.inr ⟨hs,hp,hx,isRecord_marking.2 ⟨?_,hbe ▸ hv,?_⟩,?_⟩⟩⟩
    · show rpc.inpos+bs.length ≠ rpc.pduSize
      omega
    · rw [List.length_append]
      omega
    · show (rest++bs).length < 4+rpc.rm0
      rw [List.length_append]
      omega
    · show rpc.inpos+bs.length+4 = _
      rw [List.length_append]
      omega
    · show rpc.inpos+bs.length = rpc.pduSize
      omega
    · rw [List.length_append]
      omega
    · have hsize : be32 (rest++bs)-2^31 = rpc.rm0 := by rw [hbe,hn]
      rw [hsize,List.length_append]
      omega
    · have hend : rpc.inpos+bs.length = rpc.pduSize := by omega
      rw [hend] at hall
      exact hall

/-- No record ends in what the reader has. -/
theorem At.no_record {rpc : Rpc} (h : At rest rpc) (hr : r <+: rest) : ¬ IsRecord marking r := by
  intro hrec
  obtain ⟨h4,hv,hlen⟩ := isRecord_marking.1 hrec
  have h8 := (validMarker_iff.1 hv).2.1
  have hle := hr.length_le
  cases h with
  | marker _ _ _ hlt => omega
  | payload _ _ _ _ _ hn hlt =>
    have hbe : be32 r = be32 rest := by
      rw [← be32_take h4,← be32_take (h4.trans hle),List.prefix_iff_eq_take.1 hr,List.take_take,min_eq_left h4]
    have hsize : be32 r-2^31 = rpc.rm0 := by rw [hbe,hn]
    omega

theorem At.split {rpc : Rpc} (h : At (rest++bs) rpc) (l : List (List UInt8)) : Split.scan marking ⟨l,rest⟩ bs = ⟨l,rest++bs⟩ :=
  Split.scan_open fun _ ha _ => h.no_record ((List.prefix_append_right_inj rest).2 ha)

theorem makeRoom_cases {rpc : Rpc} {size xid : ℕ} (hv : (s.makeRoom rpc size xid).fate = .serving) :
    ∃ u : Rpc, s.makeRoom rpc size xid = s.withRpc (u.startRecord xid) ∧ u.shared = rpc.shared ∧ u.state = rpc.state ∧
      u.pdu = rpc.pdu ∧ u.rmXid = rpc.rmXid := by
  unfold makeRoom at hv ⊢
  cases hroom : rpc.adjustInbuf size with
  | none => simp [hroom,ended] at hv
  | some u =>
    obtain ⟨n,rfl,-⟩ := Rpc.adjustInbuf_some hroom
    exact ⟨_,rfl,rfl,rfl,rfl,rfl⟩

/-- The reader at the beginning of a payload -/
theorem at_startRecord {rpc : Rpc} (hs : rpc.state = .readPayload) (hp : rpc.pdu = none) (hx : rpc.rmXid.length = 8)
    (h8 : bs.length = 8) (hv : validMarker (be32 bs) = true) (hn : rpc.rm0 = be32 bs-2^31) :
    At bs (rpc.startRecord (be32 (bs.drop 4))) := by
  have hfront : (overwrite rpc.inbuf 0 (beBytes (be32 (bs.drop 4)))).take 4 = bs.drop 4 := by
    have htake := take_overwrite rpc.inbuf 0 (beBytes (be32 (bs.drop 4))) (Nat.zero_le _)
    rw [List.take_zero,List.nil_append,beBytes_length,Nat.zero_add] at htake
    rw [htake,beBytes_be32 _ (by rw [List.length_drop]; omega)]
  have hlt : bs.length < 4+rpc.rm0 := by
    have := (validMarker_iff.1 hv).2.1
    omega
  exact .payload hs hp hx h8.ge hv hn hlt (.inl ⟨rfl,h8⟩) (by rw [h8]; exact hfront)

theorem shared_startRecord (rpc : Rpc) (xid : ℕ) : (rpc.startRecord xid).shared = rpc.shared := rfl

theorem announced_frame (rpc : Rpc) (size n : ℕ) : ((announced rpc size).setRm1 n).shared = rpc.shared ∧
    ((announced rpc size).setRm1 n).state = .readPayload ∧ ((announced rpc size).setRm1 n).pdu = rpc.pdu ∧
    (rpc.rmXid.length = 8 → size < 2^32 → ((announced rpc size).setRm1 n).rm0 = size) :=
  ⟨rfl,rfl,rfl,fun h8 hlt => (Rpc.rm0_setRm1 _ _ (by simp [announced,Rpc.setRm0,h8])).trans (Rpc.rm0_setRm0 rpc _ hlt)⟩

/-- The marker and the xid of a record are there. -/
theorem rmDone_cases (hb : s.server.rpc.rmXid = bs) (h8 : bs.length = 8) (hp : s.server.rpc.pdu = none)
    (hv : s.rmDone.fate = .serving) : ∃ rpc, s.rmDone = s.withRpc rpc ∧ rpc.shared = s.server.rpc.shared ∧ At bs rpc := by
  have hend : ∀ (t : ServerContext α β), (t.ended .failed).fate ≠ .serving := by simp [ended]
  unfold rmDone at hv ⊢
  simp only [hb] at hv ⊢
  have hmlt := be32_lt bs
  generalize hm : be32 bs = marker at hv hmlt ⊢
  by_cases hlt : marker < 2^31
  · rw [if_pos hlt] at hv
    exact absurd hv (hend _)
  rw [if_neg hlt] at hv ⊢
  by_cases hsz : marker-2^31 < 8 ∨ maxFragmentSize < marker-2^31
  · rw [if_pos hsz] at hv
    exact absurd hv (hend _)
  rw [if_neg hsz] at hv ⊢
  have hvalid : validMarker (be32 bs) = true := by
    rw [hm,validMarker_iff]
    omega
  obtain ⟨u,he,hsh,hst,hpdu,hrm⟩ := makeRoom_cases hv
  obtain ⟨h1,h2,h3,h4⟩ := announced_frame s.server.rpc (marker-2^31) (be32 (bs.drop 4))
  have hx : u.rmXid.length = 8 := by
    rw [hrm]
    simp [Rpc.setRm1,announced,Rpc.setRm0]
  have hsize : u.rm0 = be32 bs-2^31 := by
    rw [hm]
    exact (congrArg le32 hrm).trans (h4 (by rw [hb,h8]) (by omega))
  exact ⟨_,he,(shared_startRecord u _).trans (hsh.trans h1),
    at_startRecord (hst.trans h2) (hpdu.trans (h3.trans hp)) hx h8 hvalid hsize⟩

theorem readDone_marker (h : s.server.rpc.state = .readRm) : s.readDone handler ios = s.rmDone := by rw [readDone,h]

theorem readDone_payload (h : s.server.rpc.state = .readPayload) :
    s.readDone handler ios = s.process handler (s.server.rpc.inbuf.take s.server.rpc.pduSize) ios := by rw [readDone,h]

/-- One turn of the loop takes nothing, a part of a record, or what completes one. -/
theorem recvStep_cases (h : At rest s.server.rpc) (r : Recv) (ios : List Sending)
    (hv : (s.recvStep handler r ios).fate = .serving) :
    (∃ rpc, s.recvStep handler r ios = s.withRpc rpc ∧ rpc.shared = s.server.rpc.shared ∧ At rest rpc) ∨
    (∃ rpc bs, s.recvStep handler r ios = s.took rpc bs ∧
      rpc.shared = s.server.rpc.shared ∧ At (rest++bs) rpc) ∨
    ∃ rpc bs, s.recvStep handler r ios = (s.took rpc bs).process handler ((rest++bs).drop 4) ios ∧
      bs ≠ [] ∧ IsRecord marking (rest++bs) ∧ rpc.shared = s.server.rpc.shared ∧ rpc.pdu = none ∧ rpc.rmXid.length = 8 := by
  obtain ⟨rpc,n,hprep,hwant,hn,hasks,hat,hsh⟩ := h.asks
  have hend : ∀ (t : ServerContext α β), (t.ended .failed).fate ≠ .serving := by simp [ended]
  unfold recvStep at hv ⊢
  by_cases hdis : s.server.rpc.socketDisabled = true
  · rw [if_pos hdis]
    exact .inl ⟨s.server.rpc,rfl,rfl,h⟩
  rw [if_neg hdis,hprep] at hv ⊢
  simp only [hwant,if_neg (Nat.ne_of_gt hn)] at hv ⊢
  cases r with
  | again => exact .inl ⟨rpc,rfl,hsh,hat⟩
  | error => exact absurd hv (hend _)
  | closed => exact absurd hv (hend _)
  | data bs =>
    simp only at hv ⊢
    by_cases hb : 0 < bs.length ∧ bs.length ≤ n
    swap
    · rw [if_neg hb]
      exact .inl ⟨rpc,rfl,hsh,hat⟩
    rw [if_pos hb] at hv ⊢
    obtain ⟨u,hstore,hush,hshort,hfull⟩ := hasks.store hb.1 hb.2
    have hush' : u.shared = s.server.rpc.shared := hush.trans hsh
    have hbs : bs ≠ [] := List.length_pos_iff.1 hb.1
    unfold readBytes at hv ⊢
    have hst : (s.withRpc rpc).server.rpc.readStore bs = some u := hstore
    simp only [hst] at hv ⊢
    rcases Nat.lt_or_eq_of_le hb.2 with hlt | heq
    · obtain ⟨hne,hat'⟩ := hshort hlt
      rw [if_neg hne]
      exact .inr (.inl ⟨u,bs,rfl,hush',hat'⟩)
    · obtain ⟨hend',hdone⟩ := hfull heq
      rw [if_pos hend'] at hv ⊢
      rcases hdone with ⟨hst',hrm,h8,hpdu⟩ | ⟨hst',hpdu,hrm8,hrec,hbuf⟩
      · have hmark : ((s.withRpc rpc).took u bs).readDone handler ios = ((s.withRpc rpc).took u bs).rmDone := readDone_marker hst'
        rw [hmark] at hv ⊢
        obtain ⟨v,hdone,hvsh,hat'⟩ := rmDone_cases (s := (s.withRpc rpc).took u bs) hrm h8 hpdu hv
        exact .inr (.inl ⟨v,bs,hdone,hvsh.trans hush',hat'⟩)
      · have hpay : ((s.withRpc rpc).took u bs).readDone handler ios = (s.took u bs).process handler (u.inbuf.take u.pduSize) ios :=
          readDone_payload hst'
        rw [hpay,hbuf]
        exact .inr (.inr ⟨u,bs,rfl,hbs,hrec,hush',hpdu,hrm8⟩)

end Reader

section Replies

variable {xid : UInt32} {io : Sending} {rs : List Results} {bodies : List (List UInt8)} {out : Outcome α} {mem : Bool}

/-- A reply with its marker -/
def frame (body : List UInt8) : List UInt8 := beBytes (2^31+body.length) ++ body

/-- What `rpc_send_reply` makes of the results of a handler -/
def marshalled (mem : Bool) (xid : UInt32) (rs : List Results) : List (List UInt8) :=
  rs.filterMap fun r => match r.marshal mem xid with
    | .ok body => some body
    | _ => none

/-- Replies to `record` are queued, and nothing else happens. -/
structure Sent (record : List UInt8) (bodies : List (List UInt8)) (s t : ServerContext α β) : Prop where
  reader : t.server.rpc.readerPart = s.server.rpc.readerPart
  mem : t.server.rpc.memOk = s.server.rpc.memOk
  endpoints : t.endpoints = s.endpoints
  app : t.app = s.app
  taken : t.taken = s.taken
  handled : t.handled = s.handled
  answered : t.answered = s.answered ++ bodies.map (record,·)
  replies : t.server.replies.map Pdu.record = s.server.replies.map Pdu.record ++ bodies.map frame
  inStep : s.server.InStep → t.server.InStep

theorem Sent.nil (s : ServerContext α β) : Sent record [] s s := ⟨rfl,rfl,rfl,rfl,rfl,rfl,by simp,by simp,id⟩

theorem Sent.trans {a b : List (List UInt8)} {u : ServerContext α β} (h : Sent record a s t) (k : Sent record b t u) :
    Sent record (a++b) s u where
  reader := k.reader.trans h.reader
  mem := k.mem.trans h.mem
  endpoints := k.endpoints.trans h.endpoints
  app := k.app.trans h.app
  taken := k.taken.trans h.taken
  handled := k.handled.trans h.handled
  answered := by rw [k.answered,h.answered,List.map_append,List.append_assoc]
  replies := by rw [k.replies,h.replies,List.map_append,List.append_assoc]
  inStep := k.inStep ∘ h.inStep

theorem newReply_record (s : Server) (m : ReplyMsg) : (s.newReply m).record = frame m.body := by
  obtain ⟨a,b,he⟩ := Server.newReply_eq s m
  rw [he]
  simp [ReplyMsg.pdu,Pdu.record,frame]

theorem queue_sent (hm : s.server.rpc.memOk = true) (record body : List UInt8) (io : Sending) :
    Sent record [body] s (s.queue record body io) := by
  have hstep : s.server.InStep → (s.server.rpcSendReply ⟨io.buf,body⟩ io.writes).InStep := fun h =>
    (Server.step_inStep (.sendReply ⟨io.buf,body⟩ io.writes)).1 h trivial
  have hcases : ∃ q w n b, (s.server.rpcSendReply ⟨io.buf,body⟩ io.writes).rpc =
      { (s.server.enqueueReply ⟨io.buf,body⟩).rpc.withQueues q w n with sent := b } := by
    unfold Server.rpcSendReply
    rw [if_pos hm]
    split
    · exact Rpc.rpcWriteToSocket_frame _ _
    · exact ⟨_,_,_,_,rfl⟩
  have hreplies : (s.server.rpcSendReply ⟨io.buf,body⟩ io.writes).replies = s.server.replies ++ [s.server.newReply ⟨io.buf,body⟩] := by
    unfold Server.rpcSendReply
    rw [if_pos hm]
    split <;> rfl
  obtain ⟨q,w,n,b,he⟩ := hcases
  refine ⟨?_,?_,rfl,rfl,rfl,rfl,rfl,?_,hstep⟩
  · show (s.server.rpcSendReply _ _).rpc.readerPart = _
    rw [he]
    rfl
  · show (s.server.rpcSendReply _ _).rpc.memOk = _
    rw [he]
    rfl
  · show (s.server.rpcSendReply _ _).replies.map Pdu.record = _
    rw [hreplies,List.map_append,List.map_singleton,newReply_record]
    rfl

theorem marshal_mem {r : Results} {body : List UInt8} (h : r.marshal mem xid = .ok body) : mem = true := by
  unfold Results.marshal rpcAllocateReplyPdu at h
  cases mem with
  | false => simp at h
  | true => rfl

theorem rpcSendReply_sent {r : Results} (hv : (s.rpcSendReply record xid r io).fate = .serving) :
    Sent record (marshalled s.server.rpc.memOk xid [r]) s (s.rpcSendReply record xid r io) := by
  unfold rpcSendReply at hv ⊢
  unfold marshalled
  cases hr : r.marshal s.server.rpc.memOk xid with
  | ok body =>
    simp only [hr,List.filterMap_cons,List.filterMap_nil]
    exact queue_sent (marshal_mem hr) record body io
  | fail =>
    simp only [hr,List.filterMap_cons,List.filterMap_nil]
    exact .nil s
  | fault =>
    rw [hr] at hv
    simp [ended] at hv

theorem sendAll_sent (hs : s.fate = .serving) (hv : (sendAll record xid rs ios s).fate = .serving) :
    Sent record (marshalled s.server.rpc.memOk xid rs) s (sendAll record xid rs ios s) := by
  induction rs generalizing ios s with
  | nil => exact .nil s
  | cons r rs ih =>
    unfold sendAll at hv ⊢
    rw [if_pos hs] at hv ⊢
    have hlive : (s.rpcSendReply record xid r (ios.headD ⟨0,[]⟩)).fate = .serving := by
      by_contra hne
      cases rs with
      | nil => exact hne hv
      | cons q rs =>
        unfold sendAll at hv
        rw [if_neg hne] at hv
        exact hne hv
    have h1 := rpcSendReply_sent hlive
    have h2 := ih hlive hv
    rw [h1.mem] at h2
    have hall : marshalled s.server.rpc.memOk xid (r::rs) =
        marshalled s.server.rpc.memOk xid [r] ++ marshalled s.server.rpc.memOk xid rs :=
      List.filterMap_append (l := [r])
    rw [hall]
    exact h1.trans h2

/-- What an outcome leads to: the state of the application, and the replies that are queued -/
def respond (handler : Handler α β) (mem : Bool) (app : β) : Outcome α → β × List (List UInt8)
  | .queued body => (app,[body])
  | .handler p call args =>
    ((handler app p call args).app,marshalled mem (cbody call).xid (handler app p call args).replies)
  | _ => (app,[])

/-- What a record leads to -/
def responses (handler : Handler α β) (mem : Bool) (endpoints : List (Endpoint α)) (app : β) (record : List UInt8) :
    β × List (List UInt8) := respond handler mem app (rpcProcessCall mem endpoints (zdrmemCreate record record.length))

theorem errorReply_queued {err : AcceptStat} {low high : Int32} (h : (errorReply mem xid err low high : Outcome α) = .queued r) :
    mem = true ∧ r = (Format.rpcMsg true noResults).bytes (errorMsg xid err low high) := by
  unfold errorReply at h
  split at h
  · rename_i hm
    exact ⟨hm,(Outcome.queued.inj h).symm⟩
  · simp at h

/-- An error reply and the call of a handler are about the message. -/
theorem dispatch_about (mem : Bool) (endpoints : List (Endpoint α)) (msg : RpcMsg Unit) (z : Zdrs) :
    (∀ b, dispatch mem endpoints msg z = .queued b →
      mem = true ∧ ∃ err low high, b = (Format.rpcMsg true noResults).bytes (errorMsg (cbody msg).xid err low high)) ∧
    ∀ p call args, dispatch mem endpoints msg z = .handler p call args → call = msg := by
  cases ht : target endpoints msg with
  | none =>
    obtain ⟨href,hans⟩ := @dispatch_noTarget _ mem _ _ z ht
    refine ⟨fun b hb => ?_,fun p call args hh => ?_⟩
    · rw [hb] at hans
      generalize ho : Outcome.queued b = o at hans
      cases hans with
      | handler => simp at ho
      | _ => exact (errorReply_queued ho.symm).imp_right fun hb => ⟨_,_,_,hb⟩
    · rw [hh] at href
      exact href.elim
  | some p =>
    rw [dispatch_target ht]
    cases ha : p.args z with
    | mk res z' =>
      cases res with
      | ok args =>
        refine ⟨fun b hb => by simp at hb,fun q call a hh => ?_⟩
        exact (Outcome.handler.inj hh).2.1.symm
      | fail =>
        refine ⟨fun b hb => (errorReply_queued hb).imp_right fun hb => ⟨_,_,_,hb⟩,fun q call a hh => ?_⟩
        simp only [errorReply] at hh
        split at hh <;> simp at hh
      | fault => exact ⟨fun b hb => by simp at hb,fun q call a hh => by simp at hh⟩

theorem cbody_decodedXid {z z' : Zdrs} {msg : RpcMsg Unit} (h : (zdrCallmsg nullProc).dec 0 z = (.ok msg,z')) :
    (cbody msg).xid = decodedXid z := by
  obtain ⟨xid,y,hx,h⟩ := Zop.of_bind_ok h
  obtain ⟨direction,y',-,h⟩ := Zop.of_bind_ok h
  have hd : decodedXid z = xid := by simp only [decodedXid,hx]
  rw [hd]
  split at h
  · obtain ⟨c,w,-,h⟩ := Zop.of_bind_ok h
    simp only [Pure.pure,Zop.pure,Prod.mk.injEq,Res.ok.injEq] at h
    rw [← h.1]
    rfl
  · split at h
    · obtain ⟨b,w,-,h⟩ := Zop.of_bind_ok h
      simp only [Pure.pure,Zop.pure,Prod.mk.injEq,Res.ok.injEq] at h
      rw [← h.1]
      cases b with
      | areply verf d => rfl
      | rreply r => cases r <;> rfl
    · simp [Zop.fail] at h

/-- Error replies and calls of handlers have the xid of the record. -/
theorem process_about (mem : Bool) (endpoints : List (Endpoint α)) (z : Zdrs) :
    (∀ b, rpcProcessCall mem endpoints z = .queued b →
      mem = true ∧ ∃ err low high, b = (Format.rpcMsg true noResults).bytes (errorMsg (decodedXid z) err low high)) ∧
    ∀ p call args, rpcProcessCall mem endpoints z = .handler p call args → (cbody call).xid = decodedXid z := by
  cases hd : (zdrCallmsg nullProc).dec 0 z with
  | mk res z' =>
    cases res with
    | ok msg =>
      rw [rpcProcessCall_ok hd,← cbody_decodedXid hd]
      obtain ⟨h1,h2⟩ := dispatch_about mem endpoints msg z'
      exact ⟨h1,fun p call args hh => by rw [h2 p call args hh]⟩
    | fail =>
      rw [rpcProcessCall_fail hd]
      refine ⟨fun b hb => (errorReply_queued hb).imp_right fun hb => ⟨_,_,_,hb⟩,fun p call args hh => ?_⟩
      simp only [errorReply] at hh
      split at hh <;> simp at hh
    | fault =>
      rw [rpcProcessCall_fault hd]
      exact ⟨fun b hb => by simp at hb,fun p call args hh => by simp at hh⟩

theorem settle_serving (hs : s.fate = .serving) (hq : ∀ b, out = .queued b → s.server.rpc.memOk = true)
    (hv : (s.settle handler record ios out).fate = .serving) : ∃ t, s.settle handler record ios out = t.finished ∧
      Sent record (respond handler s.server.rpc.memOk s.app out).2 { s with app := (respond handler s.server.rpc.memOk s.app out).1 } t := by
  cases out with
  | queued body => exact ⟨_,rfl,queue_sent (hq body rfl) record body _⟩
  | noMemory => simp [settle,ended] at hv
  | crash => simp [settle,ended] at hv
  | handler p call args =>
    unfold settle at hv ⊢
    unfold respond
    simp only at hv ⊢
    generalize handler s.app p call args = re at hv ⊢
    split at hv
    · rename_i hlive
      split at hv
      · rename_i hok
        rw [if_pos hlive,if_pos hok]
        exact ⟨_,rfl,sendAll_sent (s := { s with app := re.app }) hs hlive⟩
      · simp [ended] at hv
    · rename_i hdead
      exact absurd hv hdead

/-- A record that leaves the context in use is answered as its outcome says. -/
theorem process_serving (hs : s.fate = .serving) (hv : (s.process handler record ios).fate = .serving) :
    ∃ t out, out = rpcProcessCall s.server.rpc.memOk s.endpoints (zdrmemCreate record record.length) ∧
      s.process handler record ios = t.finished ∧ Sent record (respond handler s.server.rpc.memOk s.app out).2
      { s with handled := s.handled ++ [(record,out)], app := (respond handler s.server.rpc.memOk s.app out).1 } t := by
  unfold process at hv ⊢
  have hq := (process_about s.server.rpc.memOk s.endpoints (zdrmemCreate record record.length)).1
  generalize rpcProcessCall s.server.rpc.memOk s.endpoints (zdrmemCreate record record.length) = out at hq hv ⊢
  obtain ⟨t,he,ht⟩ := settle_serving (s := { s with handled := s.handled ++ [(record,out)] }) hs (fun b hb => (hq b hb).1) hv
  exact ⟨t,out,rfl,he,ht⟩

end Replies

section Runs

/-- Which results are right for the arguments of a procedure -/
abbrev Spec (α : Type) := ServiceProc α → RpcMsg Unit → α → Results → Prop

variable {Q : Spec α}

/-- What a record came to, and the reply to it: an error reply, or results that are right -/
def Answered (Q : Spec α) (out : Outcome α) (body : List UInt8) : Prop :=
  match out with
  | .queued b => body = b
  | .handler p call args => ∃ r, Q p call args r ∧ r.marshal true (cbody call).xid = .ok body
  | _ => False

/-- The handlers reply with results that are right. -/
def Promises (handler : Handler α β) (Q : Spec α) : Prop := ∀ app p call args, ∀ r ∈ (handler app p call args).replies, Q p call args r

/-- A call that was kept is answered with results that are right. -/
def Fulfils (Q : Spec α) (s : ServerContext α β) : ServiceEvent α β → Prop
  | .deferred i r _ _ => ∀ record p call args, s.handled[i]? = some (record,.handler p call args) → Q p call args r
  | _ => True

/-- The records of the stream were handled in order, each once and as a whole, and the reader has what is behind them. Every reply
on the out queue or before it answers one of them. -/
structure Served (Q : Spec α) (s : ServerContext α β) : Prop where
  bodies : s.handled.map Prod.fst = (split marking s.taken).bodies
  reader : At (split marking s.taken).rest s.server.rpc
  outcome : ∀ h ∈ s.handled, ∃ mem endpoints, endpoints <:+ s.endpoints ∧
    h.2 = rpcProcessCall mem endpoints (zdrmemCreate h.1 h.1.length)
  framed : s.server.replies.map Pdu.record = s.answered.map fun a => frame a.2
  answers : ∀ a ∈ s.answered, ∃ out, (a.1,out) ∈ s.handled ∧ Answered Q out a.2

theorem mem_marshalled {xid : UInt32} {rs : List Results} {mem : Bool} (h : body ∈ marshalled mem xid rs) :
    ∃ r ∈ rs, r.marshal true xid = .ok body := by
  obtain ⟨r,hin,hr⟩ := List.mem_filterMap.1 h
  split at hr
  · rename_i b hb
    obtain rfl := Option.some.inj hr
    exact ⟨r,hin,marshal_mem hb ▸ hb⟩
  · simp at hr

theorem mem_respond {mem : Bool} {app : β} {out : Outcome α} (hQ : Promises handler Q)
    (h : body ∈ (respond handler mem app out).2) : Answered Q out body := by
  cases out with
  | queued b => exact List.mem_singleton.1 h
  | handler p call args =>
    obtain ⟨r,hr,hb⟩ := mem_marshalled h
    exact ⟨r,hQ app p call args r hr,hb⟩
  | noMemory => simp [respond] at h
  | crash => simp [respond] at h

/-- Only the reader, the bytes that came and the replies count. -/
theorem Served.withRpc (h : Served Q s) {rpc : Rpc} (he : rpc.readerPart = s.server.rpc.readerPart) : Served Q (s.withRpc rpc) :=
  ⟨h.bodies,h.reader.congr he,h.outcome,h.framed,h.answers⟩

/-- The bytes of a part of a record are taken. -/
theorem Served.took (h : Served Q s) {rpc : Rpc} (hat : At ((split marking s.taken).rest++bs) rpc) : Served Q (s.took rpc bs) := by
  have hsplit : split marking (s.taken++bs) = ⟨(split marking s.taken).bodies,(split marking s.taken).rest++bs⟩ := by
    rw [split,Split.scan_append]
    exact hat.split _
  refine ⟨?_,?_,h.outcome,h.framed,h.answers⟩
  · show s.handled.map Prod.fst = (split marking (s.taken++bs)).bodies
    rw [hsplit]
    exact h.bodies
  · show At (split marking (s.taken++bs)).rest rpc
    rw [hsplit]
    exact hat

/-- Replies are queued for a record that was handled. -/
theorem Sent.served {bodies : List (List UInt8)} (h : Sent record bodies s t) (hs : Served Q s)
    (hb : ∀ b ∈ bodies, ∃ out, (record,out) ∈ s.handled ∧ Answered Q out b) : Served Q t where
  bodies := by rw [h.handled,h.taken,hs.bodies]
  reader := by
    rw [h.taken]
    exact hs.reader.congr h.reader
  outcome := by
    rw [h.handled,h.endpoints]
    exact hs.outcome
  framed := by
    rw [h.replies,h.answered,hs.framed,List.map_append,List.map_map]
    rfl
  answers := by
    rw [h.answered,h.handled]
    intro a ha
    rcases List.mem_append.1 ha with ha | ha
    · exact hs.answers a ha
    · obtain ⟨b,hb',rfl⟩ := List.mem_map.1 ha
      exact hb b hb'

/-- The last bytes of a record are taken: it is handled. -/
theorem Served.process (h : Served Q s) (hQ : Promises handler Q)
    (hs : s.fate = .serving) {rpc : Rpc} (hne : bs ≠ [])
    (hrec : IsRecord marking ((split marking s.taken).rest++bs)) (hsh : rpc.shared = s.server.rpc.shared) (hp : rpc.pdu = none)
    (hx : rpc.rmXid.length = 8)
    (hv : ((s.took rpc bs).process handler (((split marking s.taken).rest++bs).drop 4) ios).fate = .serving) :
    Served Q ((s.took rpc bs).process handler (((split marking s.taken).rest++bs).drop 4) ios) := by
  have hsplit : split marking (s.taken++bs) =
      ⟨(split marking s.taken).bodies++[((split marking s.taken).rest++bs).drop 4],[]⟩ := by
    rw [split,Split.scan_append]
    exact Split.scan_closed hne hrec
  generalize hr : ((split marking s.taken).rest++bs).drop 4 = record at hsplit hv ⊢
  have hmem : rpc.memOk = s.server.rpc.memOk := show rpc.shared.memOk = s.server.rpc.shared.memOk by rw [hsh]
  obtain ⟨t,out,hout,he,hsent⟩ := process_serving (s := s.took rpc bs) hs hv
  have hrp := hsent.reader
  simp only [Rpc.readerPart,Prod.mk.injEq] at hrp
  have hpdu : t.server.rpc.pdu = none := hrp.2.2.2.1.trans hp
  have hxid : t.server.rpc.rmXid.length = 8 := (congrArg List.length hrp.2.2.2.2.1).trans hx
  rw [he]
  have htaken : t.taken = s.taken++bs := hsent.taken
  have hhandled : t.handled = s.handled++[(record,out)] := hsent.handled
  have hends : t.endpoints = s.endpoints := hsent.endpoints
  have hanswered := hsent.answered
  have hreplies := hsent.replies
  have hall : ∀ b ∈ (respond handler (s.took rpc bs).server.rpc.memOk (s.took rpc bs).app out).2, Answered Q out b :=
    fun b hb => mem_respond hQ hb
  generalize (respond handler (s.took rpc bs).server.rpc.memOk (s.took rpc bs).app out).2 = bodies at hanswered hreplies hall
  refine ⟨?_,?_,?_,?_,?_⟩
  · show t.handled.map Prod.fst = (split marking t.taken).bodies
    rw [htaken,hsplit,hhandled,List.map_append,h.bodies]
    rfl
  · show At (split marking t.taken).rest t.server.rpc.rpcFinishedPdu
    have hfin : t.server.rpc.rpcFinishedPdu = { t.server.rpc with state := .readRm, inpos := 0, pdu := none } := by
      unfold Rpc.rpcFinishedPdu
      rw [hpdu]
    rw [htaken,hsplit,hfin]
    exact .marker rfl rfl hxid (by simp) rfl (by simp) (fun hne => absurd rfl hne)
  · show ∀ y ∈ t.handled, ∃ mem endpoints, endpoints <:+ t.endpoints ∧ _
    rw [hhandled,hends]
    intro y hy
    rcases List.mem_append.1 hy with hy | hy
    · exact h.outcome y hy
    · obtain rfl := List.mem_singleton.1 hy
      exact ⟨_,s.endpoints,List.suffix_rfl,hout⟩
  · show t.server.replies.map Pdu.record = t.answered.map _
    rw [hreplies,hanswered,List.map_append,List.map_map]
    exact congrArg (· ++ _) h.framed
  · show ∀ a ∈ t.answered, ∃ out, (a.1,out) ∈ t.handled ∧ _
    rw [hanswered,hhandled]
    intro a ha
    rcases List.mem_append.1 ha with ha | ha
    · obtain ⟨out,hout,hans⟩ := h.answers a ha
      exact ⟨out,List.mem_append_left _ hout,hans⟩
    · obtain ⟨b,hb,rfl⟩ := List.mem_map.1 ha
      exact ⟨out,List.mem_append_right _ (List.mem_singleton.2 rfl),hall b hb⟩

/-- One event keeps a context that stays in use at its work. -/
theorem act_served (h : Served Q s) (hQ : Promises handler Q) (hs : s.fate = .serving)
    (e : ServiceEvent α β) (he : s.Fulfils Q e) (hv : (s.act handler e).fate = .serving) :
    Served Q (s.act handler e) := by
  cases e with
  | memory ok => exact h.withRpc rfl
  | disableSocket val => exact h.withRpc rfl
  | register e =>
    simp only [act]
    split
    · refine ⟨h.bodies,h.reader,fun y hy => ?_,h.framed,h.answers⟩
      obtain ⟨mem,endpoints,hsuf,hy⟩ := h.outcome y hy
      exact ⟨mem,endpoints,hsuf.trans (List.suffix_cons _ _),hy⟩
    · exact h
  | recv r ios =>
    simp only [act] at hv ⊢
    rcases recvStep_cases h.reader r ios hv with ⟨rpc,he,hsh,hat⟩ | ⟨rpc,bs,he,hsh,hat⟩ | ⟨rpc,bs,he,hne,hrec,hsh,hp,hx⟩
    · rw [he]
      exact ⟨h.bodies,hat,h.outcome,h.framed,h.answers⟩
    · rw [he]
      exact h.took hat
    · rw [he] at hv ⊢
      exact h.process hQ hs hne hrec hsh hp hx hv
  | deferred i r app io =>
    simp only [act,replyLater] at hv ⊢
    split at hv
    · rename_i record p call args hi
      have hsent := rpcSendReply_sent (s := { s with app := app }) hv
      refine hsent.served (s := { s with app := app }) ⟨h.bodies,h.reader,h.outcome,h.framed,h.answers⟩ fun b hb => ?_
      obtain ⟨q,hq,hm⟩ := mem_marshalled hb
      obtain rfl := List.mem_singleton.1 hq
      exact ⟨_,List.mem_of_getElem? hi,q,he record p call args hi,hm⟩
    · exact h
  | write ws =>
    simp only [act] at hv ⊢
    split
    · exact h
    · rename_i hne
      rw [if_neg hne] at hv
      split
      · refine h.withRpc ?_
        obtain ⟨q,w,n,b,he⟩ := Rpc.rpcWriteToSocket_frame s.server.rpc ws
        rw [he]
        rfl
      · rename_i hf
        simp [hf,ended] at hv
  | pollError => simp [act,ended] at hv

theorem init_served (app : β) : Served Q (init app : ServerContext α β) :=
  ⟨rfl,.marker rfl rfl rfl (Nat.zero_lt_succ 7) rfl rfl fun hne => absurd rfl hne,by simp [init],rfl,by simp [init]⟩

/-- One event of a run -/
theorem step_served (hQ : Promises handler Q) {e : ServiceEvent α β}
    (he : s.Fulfils Q e) (h : s.fate = .serving → Served Q s) (hv : (s.step handler e).fate = .serving) : Served Q (s.step handler e) := by
  unfold step at hv ⊢
  split at hv
  · rename_i hlive
    rw [if_pos hlive]
    exact act_served (h hlive) hQ hlive e he hv
  · rename_i hdead
    exact absurd hv hdead

/-- The condition on the writes that keeps the replies whole -/
def WritesHeadOnly (s : ServerContext α β) : ServiceEvent α β → Prop
  | .write ws => Server.HeadOnly s.server.rpc ws
  | _ => True

theorem inStep_withRpc (h : s.server.InStep) {rpc : Rpc} (hsh : rpc.shared = s.server.rpc.shared) : (s.withRpc rpc).server.InStep := by
  refine Server.Sends.congr Server.through_local h ?_
  have hq : rpc.outqueue = s.server.rpc.outqueue := show rpc.shared.outqueue = s.server.rpc.shared.outqueue by rw [hsh]
  have hm : rpc.maxWaitpduLen = s.server.rpc.maxWaitpduLen :=
    show rpc.shared.maxWaitpduLen = s.server.rpc.shared.maxWaitpduLen by rw [hsh]
  have hfd : rpc.fd = s.server.rpc.fd := show rpc.shared.fd = s.server.rpc.shared.fd by rw [hsh]
  have hsent : rpc.sent = s.server.rpc.sent := show rpc.shared.sent = s.server.rpc.shared.sent by rw [hsh]
  rw [hq,hm,hfd,hsent]

/-- Replies stay whole on the wire as long as the writes keep to the head of the out queue. -/
theorem act_inStep (h : Served Q s) (hin : s.server.InStep) (hs : s.fate = .serving) {e : ServiceEvent α β} (hw : WritesHeadOnly s e)
    (hv : (s.act handler e).fate = .serving) : (s.act handler e).server.InStep := by
  cases e with
  | memory ok => exact Server.Sends.congr Server.through_local hin rfl
  | disableSocket val => exact Server.Sends.congr Server.through_local hin rfl
  | register e =>
    simp only [act]
    split
    · exact hin
    · exact hin
  | recv r ios =>
    simp only [act] at hv ⊢
    rcases recvStep_cases h.reader r ios hv with ⟨rpc,he,hsh,-⟩ | ⟨rpc,bs,he,hsh,-⟩ | ⟨rpc,bs,he,-,-,hsh,-,-⟩
    · rw [he]
      exact inStep_withRpc hin hsh
    · rw [he]
      exact inStep_withRpc hin hsh
    · rw [he] at hv ⊢
      obtain ⟨t,out,-,he,hsent⟩ := process_serving (s := s.took rpc bs) hs hv
      rw [he]
      exact inStep_withRpc (hsent.inStep (inStep_withRpc hin hsh)) (Rpc.finished_shared t.server.rpc)
  | deferred i r app io =>
    simp only [act,replyLater] at hv ⊢
    split at hv
    · exact (rpcSendReply_sent (s := { s with app := app }) hv).inStep hin
    · exact hin
  | write ws =>
    simp only [act] at hv ⊢
    split
    · exact hin
    · have hstep := (Server.write_step s.server ws).1 hin hw
      split
      · exact hstep
      · exact hstep
  | pollError => exact hin

/-- A server context in use: whatever chunks the stream comes in and whatever is done in between, each record is handled once, and
if the handlers and the later replies keep to their specification then so does every reply. -/
theorem records_served (handler : Handler α β) (Q : Spec α) (hQ : Promises handler Q) (app : β) (es : List (ServiceEvent α β))
    (hg : Guarded (step handler) (Fulfils Q) (init app) es) (hv : (after handler app es).fate = .serving) :
    Served Q (after handler app es) :=
  guarded_induction (P := fun s => s.fate = .serving → Served Q s) (step handler) hg (fun _ => init_served app)
    (fun _ _ hu he hv => step_served hQ he hu hv) hv

end Runs

section Demo

/-- A program with the NULL procedure -/
def demoEndpoint : Endpoint Unit := ⟨1,1,[⟨0,pure (),0⟩]⟩

def demoHandler : Handler Unit ℕ := fun calls _ _ _ => ⟨calls+1,[⟨pure (),0,[],writes_pure⟩],true⟩

/-- A call of it, with its marker -/
def demoCall : List UInt8 := [2^31+40,7,0,2,1,1,0,0,0,0,0].flatMap beBytes

/-- The call comes in three chunks, and a part of the reply is written at once. -/
def demoServing : List (ServiceEvent Unit ℕ) :=
  [.recv (.data (demoCall.take 5)) [],.recv (.data ((demoCall.drop 5).take 3)) [],
    .recv (.data (demoCall.drop 8)) [⟨1000,[.wrote 10]⟩],.write [.again]]

/-- The NULL procedure has no results. -/
def demoSpec : Spec Unit := fun _ _ _ r => r.bytes = []

theorem demoHandler_promises : Promises demoHandler demoSpec := by
  intro app p call args r hr
  obtain rfl := List.mem_singleton.1 hr
  rfl

theorem records_served_demo : Served demoSpec (after demoHandler 0 (.register demoEndpoint :: demoServing)) :=
  records_served demoHandler demoSpec demoHandler_promises 0 (.register demoEndpoint :: demoServing)
    ⟨trivial,trivial,trivial,trivial,trivial,trivial⟩ (by decide +kernel)

end Demo

end ServerContext
end Libnfs
