import Libnfs.Reader
import Libnfs.Writer

/-! `rpc_timeout_scan`, and the life of a connection in `lib/socket.c`: connecting,
reconnecting with everything put back on the out queue, disconnecting and destroying. -/
namespace Libnfs

open Zdr

namespace Rpc

/-- `!pdu->do_not_retry && rpc->retrans > 0` -/
def retries (rpc : Rpc) (p : Pdu) : Bool := !p.doNotRetry && decide (0 < rpc.retrans)

/-- What the scan makes of a PDU on the out queue; `none` is one that has timed out. -/
def scanOutPdu (rpc : Rpc) (t : ℕ) (p : Pdu) : Option Pdu :=
  if p.timeout = 0 ∨ t < p.timeout then some p
  else if rpc.retries p then
    some (rpc.pduSetTimeout { p with timeout := 0, majorTimeout := 0 } t)
  else none

/-- The loop over the out queue. -/
def scanOutqueue (rpc : Rpc) (t : ℕ) : Rpc :=
  { rpc with
    outqueue := rpc.outqueue.filterMap (rpc.scanOutPdu t)
    log := rpc.log ++ (rpc.outqueue.filter fun p => (rpc.scanOutPdu t p).isNone).map
      fun p => .callback p.id .timeout .null }

/-- A PDU on a wait chain that the scan passes over. -/
def waiting (t : ℕ) (p : Pdu) : Bool :=
  decide (p.timeout = 0 ∨ t < p.timeout ∧ t < p.majorTimeout)

/-- A PDU that has timed out on a wait chain, after it is unlinked. -/
def waitTimedOut (rpc : Rpc) (t : ℕ) (p : Pdu) : Rpc :=
  let rpc := { rpc with waitpduLen := rpc.waitpduLen-1 }
  if rpc.retries p then
    let q := { p with
      timeout := 0
      majorTimeout := if p.majorTimeout ≤ t then 0 else p.majorTimeout }
    rpc.rpcReturnToOutqueue (rpc.pduSetTimeout q t)
  else rpc.callback p .timeout .null

/-- The loop over the PDUs of the wait chains. What is done for one of them touches no chain, so
the chains are cleared of all of them first. -/
def scanWaitpdu (rpc : Rpc) (t : ℕ) : Rpc :=
  let expired := rpc.waitpdu.flatten.filter fun p => !waiting t p
  expired.foldl (fun rpc p => rpc.waitTimedOut t p)
    { rpc with waitpdu := rpc.waitpdu.map fun q => q.filter (waiting t) }

/-- `last_rpc_msecs`, an `int` -/
def lastRpcMsecs (rpc : Rpc) : ℤ :=
  if rpc.lastSuccessfulRpcResponse = 0 then -1
  else sint32 ((rpc.clock-rpc.lastSuccessfulRpcResponse) % 2^32)

/-- A request that is retried has passed its major timeout, and no reply came for long. -/
def needReconnect (rpc : Rpc) (t : ℕ) : Bool :=
  (rpc.waitpdu.flatten.any fun p => !waiting t p && rpc.retries p && decide (p.majorTimeout ≤ t)) &&
    decide (rpc.timeout < rpc.lastRpcMsecs)

/-- `rpc_timeout_scan`; `false` is a return of -1. -/
def rpcTimeoutScan (rpc : Rpc) : Rpc × Bool :=
  if rpc.clock ≤ rpc.lastTimeoutScan+1000 then (rpc,true)
  else
    let rpc := { rpc with lastTimeoutScan := rpc.clock }
    ((rpc.scanOutqueue rpc.clock).scanWaitpdu rpc.clock,!rpc.needReconnect rpc.clock)

end Rpc

/-- How `rpc_connect_sockaddr_async` ends: a connection is under way, there is no socket, or
a later call fails and the new socket stays in `rpc->fd`. -/
inductive Connect
  | started | noSocket | failed
  deriving DecidableEq, Repr

namespace Rpc

/-- `rpc_connect_sockaddr_async`, from a context without a socket; `false` is a return of -1. -/
def rpcConnectSockaddrAsync (rpc : Rpc) : Connect → Rpc × Bool
  | .started => ({ rpc with fd := true, sent := [] },true)
  | .noSocket => ({ rpc with fd := false },false)
  | .failed => ({ rpc with fd := true, sent := [] },false)

/-- `rpc->outqueue.head->out.num_done = 0` -/
def restartHead : List Pdu → List Pdu
  | [] => []
  | p::ps => { p with numDone := 0 }::ps

/-- `rpc_reconnect_requeue` up to its loop: the socket is gone and the reader starts over. -/
def hungUp (rpc : Rpc) : Rpc :=
  { rpc with
    numRetries := if rpc.isConnected then rpc.autoReconnect else rpc.numRetries
    fd := false
    isConnected := false
    outqueue := restartHead rpc.outqueue
    inpos := 0
    state := .readRm }

/-- The loop of `rpc_reconnect_requeue` over the wait chains. -/
def returnWaiting (rpc : Rpc) : Rpc :=
  { rpc.waitpdu.flatten.foldl rpcReturnToOutqueue rpc with
    waitpdu := rpc.waitpdu.map fun _ => []
    waitpduLen := 0 }

/-- "If there's any half-read PDU, that needs to be restarted too." -/
def returnHeld (rpc : Rpc) : Rpc :=
  match rpc.pdu with
  | some p => { rpc.rpcReturnToOutqueue p with pdu := none }
  | none => rpc

/-- The part of `rpc_reconnect_requeue` between the two socket operations. -/
def requeueAll (rpc : Rpc) : Rpc := rpc.hungUp.returnWaiting.returnHeld

def retrying (rpc : Rpc) : Rpc :=
  { rpc with numRetries := rpc.numRetries-1, connectCb := .reconnect }

/-- `rpc_reconnect_requeue`; `false` is a return of -1. -/
def rpcReconnectRequeue (rpc : Rpc) (conn : Connect) : Rpc × Bool :=
  if rpc.autoReconnect = 0 then
    (rpc.rpcErrorAllPdus "RPC ERROR: Failed to reconnect async",false)
  else
    let rpc := rpc.requeueAll
    if rpc.autoReconnect < 0 ∨ 0 < rpc.numRetries then
      let r := rpc.retrying.rpcConnectSockaddrAsync conn
      if r.2 then r else (r.1.rpcErrorAllPdus "RPC ERROR: Failed to reconnect async",false)
    else (rpc.rpcErrorAllPdus "RPC ERROR: All attempts to reconnect failed.",false)

/-- `reconnect_cb`, without TLS -/
def reconnectCb (rpc : Rpc) (status : Status) (conn : Connect) : Rpc :=
  if status ≠ .success then (rpc.rpcReconnectRequeue conn).1
  else { rpc with isConnected := true, connectCb := .none }

/-- `maybe_call_connect_cb` -/
def maybeCallConnectCb (rpc : Rpc) (status : Status) (conn : Connect) : Rpc :=
  match rpc.connectCb with
  | .none => rpc
  | .user => { rpc with connectCb := .none, log := rpc.log ++ [.connected status] }
  | .reconnect => ({ rpc with connectCb := .none } : Rpc).reconnectCb status conn

/-- `rpc_set_resiliency` -/
def rpcSetResiliency (rpc : Rpc) (numTcpReconnect timeout retrans : ℤ) : Rpc :=
  { rpc with autoReconnect := numTcpReconnect, timeout := timeout, retrans := retrans }

/-- `rpc_disconnect`. With the resiliency turned off no connection is tried from the connect
callback, so its outcome does not matter. -/
def rpcDisconnect (rpc : Rpc) (error : String) : Rpc :=
  let rpc := { rpc with fd := false, closedAt := rpc.nextId }
  if rpc.isConnected = false then rpc
  else
    let rpc := { rpc.rpcSetResiliency 0 rpc.timeout 0 with isConnected := false }
    (rpc.rpcErrorAllPdus error).maybeCallConnectCb .cancel .noSocket

/-- `rpc_connect_async`; `none` is an address that does not resolve. `false` is a return
of -1. -/
def rpcConnectAsync (rpc : Rpc) (conn : Option Connect) : Rpc × Bool :=
  if rpc.fd then (rpc,false)
  else
    let rpc := { rpc with autoReconnect := 0 }
    match conn with
    | none => (rpc,false)
    | some conn => ({ rpc with connectCb := .user } : Rpc).rpcConnectSockaddrAsync conn

/-- `rpc_destroy_context` -/
def rpcDestroyContext (rpc : Rpc) : Rpc :=
  { rpc.rpcPurgeAllPdus .cancel .null with
    fd := false
    destroyed := true
    closedAt := rpc.nextId }

end Rpc
end Libnfs
