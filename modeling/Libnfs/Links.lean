import Libnfs.Intrusive
import Libnfs.Transition

/-! The queues of a client `rpc_context`, TCP or UDP, as the code has them: PDUs linked by `next`, a
head and a tail pointer for each queue, and the counter `waitpdu_len` (`lib/pdu.c`, `lib/socket.c`,
`lib/init.c`). A PDU is a pointer; what happens to its bytes is in `Libnfs.Context`.

`none` is a failed assertion, a NULL pointer, or a loop over links that do not end. Callbacks are
not modelled: what the application does in one is a later event. -/
namespace Libnfs
namespace Links

open Intrusive Transition Function

/-- `rpc->outqueue`, or `rpc->waitpdu[h]` -/
inductive Loc
  | out
  | wait (h : ℕ)
  deriving DecidableEq, Repr

/-- The context. `fresh` is the next PDU to be allocated, `freed` those that were freed; `discard` is
`discard_after_sending`. -/
structure Ctx where
  isUdp : Bool
  isBroadcast : Bool
  autoReconnect : ℤ
  numHashes : ℕ
  queue : Loc → Queue ℕ
  next : ℕ → Option ℕ
  xids : ℕ → ℕ
  discard : ℕ → Bool
  waitpduLen : ℕ
  pdu : Option ℕ
  rm1 : ℕ
  xid : ℕ
  fresh : ℕ
  freed : List ℕ
  crashed : Bool

/-- A number as a `uint32_t` -/
def wrap (n : ℤ) : ℕ := (n%2^32).toNat

namespace Ctx

def setNext (p : ℕ) (n : Option ℕ) (c : Ctx) : Ctx := { c with next := update c.next p n }

def setQueue (a : Loc) (q : Queue ℕ) (c : Ctx) : Ctx := { c with queue := update c.queue a q }

/-- `rpc_free_pdu` -/
def rpcFreePdu (p : ℕ) (c : Ctx) : Ctx := { c with freed := p::c.freed }

/-- `rpc_hash_xid`: the product is a `uint32_t`. -/
def rpcHashXid (c : Ctx) (xid : ℕ) : ℕ := (xid*7919)%2^32%c.numHashes

/-- `waitpdu_len++` and `waitpdu_len--`, of a `uint32_t` -/
def inc (c : Ctx) : Ctx := { c with waitpduLen := wrap (c.waitpduLen+1) }
def dec (c : Ctx) : Ctx := { c with waitpduLen := wrap (c.waitpduLen-1) }

/-- `rpc_enqueue` -/
def rpcEnqueue (a : Loc) (p : ℕ) (c : Ctx) : Option Ctx :=
  match (c.queue a).head, (c.queue a).tail with
  | none, none => some ((c.setQueue a ⟨some p,some p⟩).setNext p none)
  | some h, some t =>
    if p = h ∨ p = t then none
    else some (((c.setNext t (some p)).setQueue a ⟨some h,some p⟩).setNext p none)
  | _, _ => none

/-- `rpc_return_to_outqueue` -/
def rpcReturnToOutqueue (p : ℕ) (c : Ctx) : Ctx :=
  match (c.queue .out).head with
  | none => (c.setQueue .out ⟨some p,some p⟩).setNext p none
  | some h =>
    if (c.queue .out).tail = some h then
      ((c.setNext h (some p)).setQueue .out ⟨some h,some p⟩).setNext p none
    else (c.setNext p (c.next h)).setNext h (some p)

/-- The element before `p`, from `x` on -/
def before (next : ℕ → Option ℕ) (p : ℕ) : ℕ → ℕ → Option (Option ℕ)
  | 0, _ => none
  | fuel+1, x =>
    match next x with
    | none => some none
    | some y => if y = p then some (some x) else before next p fuel y

/-- `rpc_remove_pdu_from_queue` -/
def rpcRemovePduFromQueue (a : Loc) (p : ℕ) (c : Ctx) : Option Ctx :=
  match (c.queue a).head, (c.queue a).tail with
  | none, none => some c
  | some h, some t =>
    if h = p then
      if t = p then
        if c.next p = none then some ((c.setQueue a ⟨none,none⟩).setNext p none) else none
      else if c.next p = none then none
      else some ((c.setQueue a ⟨c.next p,some t⟩).setNext p none)
    else
      match before c.next p (c.fresh+1) h with
      | none => none
      | some none => some c
      | some (some x) =>
        some (((c.setNext x (c.next p)).setQueue a
          ⟨some h,if t = p then some x else some t⟩).setNext p none)
  | _, _ => none

/-- The first PDU with this xid and the one before it, from `cur` on -/
def search (c : Ctx) (xid : ℕ) : ℕ → Option ℕ → Option ℕ → Option (Option (ℕ × Option ℕ))
  | 0, _, _ => none
  | _+1, _, none => some none
  | fuel+1, prev, some p =>
    if c.xids p = xid then some (some (p,prev)) else c.search xid fuel (some p) (c.next p)

/-- A found PDU is taken out of its queue, which it is not in a broadcast context. Its link is cleared
in any case. -/
def take (a : Loc) (p : ℕ) (prev : Option ℕ) (c : Ctx) : Ctx :=
  if c.isUdp && c.isBroadcast then c.setNext p none
  else
    let q := c.queue a
    let q' : Queue ℕ := ⟨if q.head = some p then c.next p else q.head,if q.tail = some p then prev else q.tail⟩
    match prev with
    | none => (c.setQueue a q').setNext p none
    | some x => ((c.setNext x (c.next p)).setQueue a q').setNext p none

/-- `rpc_find_pdu` -/
def rpcFindPdu (xid : ℕ) (c : Ctx) : Option (Option ℕ × Ctx) :=
  match c.search xid (c.fresh+1) none (c.queue .out).head with
  | none => none
  | some (some (p,prev)) => some (some p,c.take .out p prev)
  | some none =>
    match c.search xid (c.fresh+1) none (c.queue (.wait (c.rpcHashXid c.rm1))).head with
    | none => none
    | some (some (p,prev)) =>
      let c' := c.take (.wait (c.rpcHashXid c.rm1)) p prev
      some (some p,if c.isUdp && c.isBroadcast then c' else c'.dec)
    | some none => some (none,c)

/-- `rpc_cancel_pdu` -/
def rpcCancelPdu (p : ℕ) (c : Ctx) : Option Ctx :=
  match c.rpcFindPdu (c.xids p) with
  | none => none
  | some (some p,c) => some (c.rpcFreePdu p)
  | some (none,c) => some c

/-- `rpc_write_to_socket` with so many PDUs written in full -/
def rpcWriteToSocket : ℕ → Ctx → Option Ctx
  | 0, c => some c
  | sent+1, c =>
    match (c.queue .out).head with
    | none => some c
    | some p =>
      let c := c.setQueue .out ⟨c.next p,if c.next p = none then none else (c.queue .out).tail⟩
      if c.discard p then some (c.rpcFreePdu p)
      else
        match c.rpcEnqueue (.wait (c.rpcHashXid (c.xids p))) p with
        | none => none
        | some c => c.inc.rpcWriteToSocket sent

/-- A call, an AUTH_TLS call, or a PDU that is discarded after sending -/
inductive Kind
  | call
  | authtls
  | discard
  deriving DecidableEq, Repr

/-- `rpc_allocate_pdu` -/
def rpcAllocatePdu (kind : Kind) (c : Ctx) : Ctx :=
  { c with
    next := update c.next c.fresh none
    xids := update c.xids c.fresh c.xid
    discard := update c.discard c.fresh (kind = .discard)
    xid := (c.xid+1)%2^32
    fresh := c.fresh+1 }

/-- `rpc_queue_pdu` of a PDU that is in none of the queues. On UDP, and for AUTH_TLS, it is sent at
once. -/
def rpcQueuePdu (kind : Kind) (ok : Bool) (sent : ℕ) (p : ℕ) (c : Ctx) : Option Ctx :=
  if c.isUdp ∨ kind = .authtls then
    if c.isUdp ∧ kind = .authtls then none
    else
      match c.rpcEnqueue (.wait (c.rpcHashXid (c.xids p))) p with
      | none => none
      | some c =>
        if ok then some c.inc
        else (c.inc.rpcRemovePduFromQueue (.wait (c.rpcHashXid (c.xids p))) p).map (rpcFreePdu p)
  else
    match c.rpcEnqueue .out p with
    | none => none
    | some c => if (c.queue .out).head = some p then c.rpcWriteToSocket sent else some c

/-- The first loop of `rpc_timeout_scan`: `gone` are the PDUs that are timed out and not retried. -/
def scanOut (gone : ℕ → Bool) : ℕ → Option ℕ → Ctx → Option Ctx
  | 0, _, _ => none
  | _+1, none, c => some c
  | fuel+1, some p, c =>
    let n := c.next p
    if gone p then
      match c.rpcRemovePduFromQueue .out p with
      | none => none
      | some c => scanOut gone fuel n (c.rpcFreePdu p)
    else scanOut gone fuel n c

/-- The second loop of `rpc_timeout_scan`, over one chain of `waitpdu` -/
def scanWait (a : Loc) (expired retry : ℕ → Bool) : ℕ → Option ℕ → Ctx → Option Ctx
  | 0, _, _ => none
  | _+1, none, c => some c
  | fuel+1, some p, c =>
    let n := c.next p
    if expired p then
      match c.rpcRemovePduFromQueue a p with
      | none => none
      | some c =>
        scanWait a expired retry fuel n (if retry p then c.dec.rpcReturnToOutqueue p else c.dec.rpcFreePdu p)
    else scanWait a expired retry fuel n c

def scanWaits (expired retry : ℕ → Bool) : List ℕ → Ctx → Option Ctx
  | [], c => some c
  | h::hs, c =>
    match scanWait (.wait h) expired retry (c.fresh+1) (c.queue (.wait h)).head c with
    | none => none
    | some c => scanWaits expired retry hs c

/-- `rpc_timeout_scan`. In the out queue a PDU that may be retried stays. -/
def rpcTimeoutScan (expired retry : ℕ → Bool) (c : Ctx) : Option Ctx :=
  match scanOut (fun p => expired p && !retry p) (c.fresh+1) (c.queue .out).head c with
  | none => none
  | some c => scanWaits expired retry (List.range c.numHashes) c

/-- The PDUs of a queue that was reset are freed. -/
def freeAll : ℕ → Option ℕ → Ctx → Option Ctx
  | 0, _, _ => none
  | _+1, none, c => some c
  | fuel+1, some p, c => freeAll fuel (c.next p) ((c.setNext p none).rpcFreePdu p)

def purge : List Loc → Ctx → Option Ctx
  | [], c => some c
  | a::as, c =>
    match freeAll (c.fresh+1) (c.queue a).head (c.setQueue a ⟨none,none⟩) with
    | none => none
    | some c => purge as c

/-- `rpc_purge_all_pdus` -/
def rpcPurgeAllPdus (c : Ctx) : Option Ctx :=
  match purge (.out::(List.range c.numHashes).map .wait) c with
  | none => none
  | some c => if (c.queue .out).head = none then some c else none

/-- The PDUs of a chain go to the out queue. -/
def returnAll : ℕ → Option ℕ → Ctx → Option Ctx
  | 0, _, _ => none
  | _+1, none, c => some c
  | fuel+1, some p, c => returnAll fuel (c.next p) (c.rpcReturnToOutqueue p)

def requeue : List ℕ → Ctx → Option Ctx
  | [], c => some c
  | h::hs, c =>
    match returnAll (c.fresh+1) (c.queue (.wait h)).head c with
    | none => none
    | some c => requeue hs (c.setQueue (.wait h) ⟨none,none⟩)

/-- The half-read PDU goes to the out queue. -/
def returnPdu (c : Ctx) : Ctx :=
  match c.pdu with
  | none => c
  | some p => { c.rpcReturnToOutqueue p with pdu := none }

/-- `rpc_reconnect_requeue`, and whether a new connect is started -/
def rpcReconnectRequeue (started : Bool) (c : Ctx) : Option Ctx :=
  if c.autoReconnect = 0 then c.rpcPurgeAllPdus
  else
    match requeue (List.range c.numHashes) c with
    | none => none
    | some c =>
      let c := returnPdu { c with waitpduLen := 0 }
      if started then some c else c.rpcPurgeAllPdus

end Ctx

/-- `reply` is a record that starts with this xid: its PDU becomes `rpc->pdu`, and on TCP `room` says
whether the receive buffer can hold it. `finished` is `rpc_finished_pdu`, and `marker` the start of a
new record, with what is in `rm_xid[1]` until it is read in full; both are for TCP. -/
inductive Event
  | queuePdu (kind : Ctx.Kind) (ok : Bool) (sent : ℕ)
  | write (sent : ℕ)
  | reply (xid : ℕ) (room : Bool)
  | marker (raw : ℕ)
  | finished
  | cancelPdu (p : ℕ)
  | timeoutScan (expired retry : ℕ → Bool)
  | purge
  | reconnect (started : Bool)
  | setAutoreconnect (n : ℤ)
  | setUdpDestination (broadcast : Bool)

namespace Ctx

/-- The PDU of a record is looked up. -/
def reply (xid : ℕ) (room : Bool) (c : Ctx) : Option Ctx :=
  match ({ c with rm1 := xid } : Ctx).rpcFindPdu xid with
  | none => none
  | some (none,c) => some { c with pdu := none }
  | some (some p,c) =>
    if c.isUdp ∨ room then some { c with pdu := some p }
    else some { c.rpcReturnToOutqueue p with pdu := none }

/-- `rpc_finished_pdu` -/
def rpcFinishedPdu (c : Ctx) : Ctx :=
  match c.pdu with
  | none => c
  | some p => if c.isUdp && c.isBroadcast then c else { c.rpcFreePdu p with pdu := none }

def act (c : Ctx) : Event → Option Ctx
  | .queuePdu kind ok sent => (c.rpcAllocatePdu kind).rpcQueuePdu kind ok sent c.fresh
  | .write sent => c.rpcWriteToSocket sent
  | .reply xid room => c.reply xid room
  | .marker raw => some (if c.isUdp then c else { c with rm1 := raw, pdu := none })
  | .finished => some (if c.isUdp then c else c.rpcFinishedPdu)
  | .cancelPdu p => if p < c.fresh ∧ p ∉ c.freed then c.rpcCancelPdu p else some c
  | .timeoutScan expired retry => c.rpcTimeoutScan expired retry
  | .purge => c.rpcPurgeAllPdus
  | .reconnect started => c.rpcReconnectRequeue started
  | .setAutoreconnect n => some { c with autoReconnect := n }
  | .setUdpDestination b => some (if c.isUdp then { c with isBroadcast := b } else c)

end Ctx

/-- After a crash nothing happens. -/
def step (c : Ctx) (e : Event) : Ctx :=
  if c.crashed then c
  else
    match c.act e with
    | none => { c with crashed := true }
    | some c => c

/-- A new context -/
def init (isUdp : Bool) (numHashes xid : ℕ) : Ctx where
  isUdp := isUdp
  isBroadcast := false
  autoReconnect := 0
  numHashes := numHashes
  queue := fun _ => ⟨none,none⟩
  next := fun _ => none
  xids := fun _ => 0
  discard := fun _ => false
  waitpduLen := 0
  pdu := none
  rm1 := 0
  xid := xid
  fresh := 0
  freed := []
  crashed := false

end Links
end Libnfs
