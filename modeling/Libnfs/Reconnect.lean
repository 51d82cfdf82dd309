import Libnfs.Reachable

/-! Losing a connection. `rpc_reconnect_requeue` keeps all the work and starts the reader over;
`rpc_disconnect` followed by `rpc_connect_async` leaves the reader where it was. -/
namespace Libnfs

open ByteWords Scatter Zdr Transition

/-- A request that one of the events made. -/
def Issued (es : List Event) (p : Pdu) : Prop :=
  ∃ c ws id xid, Event.queuePdu c ws ∈ es ∧ p = c.pdu id xid

theorem queues_issued {es : List Event} {e : Event} (he : e ∈ es) : Rpc.Queues (Issued es) e := by
  cases e with
  | queuePdu c ws => exact fun id xid => ⟨c,ws,id,xid,he,rfl⟩
  | _ => trivial

namespace Rpc

/-- The contexts that `rpc_reconnect_requeue` is called with when the client is in `u`: on a poll
error, after the scan, the read or the write that failed, or from the connect callback. -/
inductive Failing (u : Rpc) : Rpc → Prop
  | poll : Failing u u
  | scan {s : Rpc} (h : u.rpcTimeoutScan = (s,false)) : Failing u s
  | read {r : Recv} {s : Rpc} (h : u.recvStep r = .fail s) : Failing u s
  | write {ws : List Writev} {s : Rpc} (h : u.rpcWriteToSocket ws = (s,false)) : Failing u s
  | connect : Failing u { u with connectCb := .none }

theorem Failing.ok {P : Pdu → Prop} {u s : Rpc} (h : Failing u s) (hu : u.Ok P) : s.Ok P := by
  cases h with
  | poll => exact hu
  | scan h =>
    have hs := rpcTimeoutScan_ok hu
    rwa [h] at hs
  | @read r _ h =>
    have hs := recvStep_ok hu r
    rwa [h] at hs
  | @write ws _ h =>
    have hs := rpcWriteToSocket_ok hu ws
    rwa [h] at hs
  | connect => exact hu.congr rfl rfl rfl

/-- The requeue returns 0 only after a connection was started on the requeued context. -/
theorem rpcReconnectRequeue_true {s t : Rpc} {conn : Connect}
    (h : s.rpcReconnectRequeue conn = (t,true)) :
    t = { s.requeueAll.retrying with fd := true, sent := [] } := by
  unfold rpcReconnectRequeue at h
  split at h
  · simp at h
  · dsimp only at h
    split at h
    · split at h
      · cases conn with
        | started => exact (congrArg Prod.fst h).symm
        | noSocket => simp [rpcConnectSockaddrAsync] at h
        | failed => simp [rpcConnectSockaddrAsync] at h
      · simp at h
    · simp at h

theorem restartHead_eq_map {q : List Pdu} (h : OutOk q) {P : Pdu → Prop}
    (hq : ∀ p ∈ q, PduOk P p) : restartHead q = q.map Pdu.reset := by
  cases q with
  | nil => rfl
  | cons x xs =>
    have hxs : xs.map Pdu.reset = xs := by
      rw [List.map_congr_left (g := id),List.map_id]
      intro p hp
      rw [reset_of_pduOk (hq p (List.mem_cons_of_mem x hp)),← h.tail p hp]
      rfl
    rw [restartHead,List.map_cons,reset_of_pduOk (hq x List.mem_cons_self),hxs]

theorem requeueAll_perm {P : Pdu → Prop} {s : Rpc} (h : s.Ok P) :
    s.requeueAll.outqueue.Perm (s.outstanding.map Pdu.reset) := by
  rw [requeueAll_eq]
  refine (returned_perm _ _).trans (List.Perm.of_eq ?_)
  rw [restartHead_eq_map h.out fun p hp => h.queued p (List.mem_append_left _ hp),outstanding]
  simp only [List.map_append,List.append_assoc]

/-- The cursor of a queued PDU is the one its request was made with. -/
theorem cursor_of_issued {es : List Event} {p : Pdu} (h : PduOk (Issued es) p) :
    ∃ c ws, Event.queuePdu c ws ∈ es ∧
      p.cursor = if c.iov.isEmpty then none else some (Cursor.fresh c.iov) := by
  obtain ⟨c,ws,id,xid,hmem,hreq⟩ := h.origin
  refine ⟨c,ws,hmem,?_⟩
  have hr := congrArg Pdu.cursor (reset_of_pduOk h)
  have hc : p.request.cursor = p.cursor := hr
  rw [← hc,hreq]
  rfl

/-- Reconnecting loses nothing: all outstanding PDUs, and no others, are on the out queue, to be
sent from their first byte and answered into the vectors they were made with. -/
theorem reconnect_keeps_work (cfg : Config) (es : List Event) (s t : Rpc) (conn : Connect)
    (hlive : (after cfg es).crashed = false) (hs : Failing (after cfg es) s)
    (h : s.rpcReconnectRequeue conn = (t,true)) :
    t.outqueue.Perm (s.outstanding.map Pdu.reset) ∧
    (∀ q ∈ t.waitpdu, q = []) ∧ t.waitpduLen = 0 ∧
    (∀ p ∈ t.outqueue, p.numDone = 0 ∧ ∃ c ws, Event.queuePdu c ws ∈ es ∧
      p.cursor = if c.iov.isEmpty then none else some (Cursor.fresh c.iov)) ∧
    t.state = .readRm ∧ t.inpos = 0 ∧ t.pdu = none := by
  have hok : s.Ok (Issued es) := hs.ok (after_ok cfg es (fun e he => queues_issued he) hlive)
  obtain rfl := rpcReconnectRequeue_true h
  have hall := (requeueAll_fresh hok).2
  refine ⟨requeueAll_perm hok,?_,?_,?_,?_,?_,?_⟩
  · intro q hq
    rw [requeueAll_eq] at hq
    obtain ⟨-,-,rfl⟩ := List.mem_map.mp hq
    rfl
  · rw [requeueAll_eq]
    rfl
  · intro p hp
    exact ⟨(hall p hp).2,cursor_of_issued (hall p hp).1⟩
  · rw [requeueAll_eq]
    rfl
  · rw [requeueAll_eq]
    rfl
  · rw [requeueAll_eq]
    rfl

/-- One request waits for its reply and one is half sent when the server hangs up. -/
def demoLoss : List Event :=
  demoConnect ++ [.setResiliency (-1) 60000 0,.queuePdu demoNull [.wrote 44],
    .queuePdu demoRead [.wrote 10]]

theorem reconnect_keeps_work_demo :
    ((after demoConfig demoLoss).rpcReconnectRequeue .started).1.outqueue.Perm
      ((after demoConfig demoLoss).outstanding.map Pdu.reset) :=
  (reconnect_keeps_work demoConfig demoLoss (after demoConfig demoLoss) _ .started rfl .poll rfl).1

theorem rpcReconnectRequeue_disabled {s : Rpc} (h : s.autoReconnect = 0) (conn : Connect) :
    s.rpcReconnectRequeue conn =
      (s.rpcErrorAllPdus "RPC ERROR: Failed to reconnect async",false) := by
  rw [rpcReconnectRequeue,if_pos h]

/-- Neither `rpc_disconnect` nor `rpc_connect_async` touches the reader. -/
theorem rpcDisconnect_readerPart (s : Rpc) (error : String) :
    (s.rpcDisconnect error).readerPart = s.readerPart := by
  unfold rpcDisconnect
  dsimp only
  split
  · rfl
  · unfold maybeCallConnectCb reconnectCb
    split
    · rfl
    · rfl
    · split
      · rw [rpcReconnectRequeue_disabled rfl]
        rfl
      · rfl

theorem rpcConnectAsync_readerPart (s : Rpc) (conn : Option Connect) :
    (s.rpcConnectAsync conn).1.readerPart = s.readerPart := by
  unfold rpcConnectAsync
  split
  · rfl
  · split
    · rfl
    · rename_i conn
      cases conn with
      | started => rfl
      | noSocket => rfl
      | failed => rfl

theorem step_disconnect_readerPart (s : Rpc) (error : String) :
    (s.step (.disconnect error)).readerPart = s.readerPart := by
  unfold step
  split
  · rfl
  · exact rpcDisconnect_readerPart _ error

theorem step_connectAsync_readerPart (s : Rpc) (conn : Option Connect) :
    (s.step (.connectAsync conn)).readerPart = s.readerPart := by
  unfold step
  split
  · rfl
  · exact rpcConnectAsync_readerPart _ conn

/-- The reader is at a record marker, holds no PDU, and whatever arrives first goes to the
marker and nowhere else. -/
structure StartsClean (s : Rpc) : Prop where
  state : s.state = .readRm
  inpos : s.inpos = 0
  pdu : s.pdu = none
  marker : s.fd = true → s.socketDisabled = false → ∀ bs : List UInt8, 0 < bs.length →
    bs.length ≤ 8 → s.recvStep (.data bs) =
      (let t := { s with rmXid := overwrite s.rmXid 0 bs, inpos := bs.length, pduSize := 8 }
      if bs.length = 8 then t.rmDone else .more t)

theorem startsClean_iff (s : Rpc) :
    StartsClean s ↔ s.state = .readRm ∧ s.inpos = 0 ∧ s.pdu = none := by
  refine ⟨fun h => ⟨h.state,h.inpos,h.pdu⟩,fun ⟨hs,hi,hp⟩ => ⟨hs,hi,hp,?_⟩⟩
  intro hfd hdis bs hpos hle
  obtain ⟨_,_,_,_,_,_,_,_,_,_,_,_,_,_,_,_,state,inpos,_,_,rmXid,_,pdu,_,_,_,_,_,_,_,_,_,_⟩ := s
  dsimp only at hs hi hp hfd hdis ⊢
  subst hs hi hp hfd hdis
  simp only [recvStep,readPrep,readWant,readBytes,readStore,readDone,hpos,hle,Nat.zero_add,
    Nat.sub_zero,and_self,if_true,Bool.false_eq_true,if_false]
  rfl

/-- What a new connection finds: the reader is clean if and only if it was between two records
when the old connection was given up. -/
theorem new_connection_clean_iff (cfg : Config) (es : List Event) (error : String)
    (conn : Option Connect) (hlive : (after cfg es).crashed = false) :
    StartsClean (after cfg (es ++ [.disconnect error,.connectAsync conn])) ↔
      (after cfg es).state = .readRm ∧ (after cfg es).inpos = 0 := by
  have hr : (after cfg (es ++ [.disconnect error,.connectAsync conn])).readerPart =
      (after cfg es).readerPart := by
    rw [after,run_append]
    exact (step_connectAsync_readerPart _ conn).trans (step_disconnect_readerPart _ error)
  have hok : (after cfg es).Ok fun _ => True :=
    after_ok cfg es (fun e _ => by cases e <;> simp [Queues]) hlive
  simp only [readerPart,Prod.mk.injEq] at hr
  obtain ⟨hs,hi,-,hp,-⟩ := hr
  rw [startsClean_iff,hs,hi,hp]
  refine ⟨fun h => ⟨h.1,h.2.1⟩,fun h => ⟨h.1,h.2,hok.idle h.1⟩⟩

theorem new_connection_clean_demo :
    StartsClean (after demoConfig (demoConnect ++ [.disconnect "",.connectAsync (some .started)])) :=
  (new_connection_clean_iff demoConfig demoConnect "" (some .started) rfl).mpr ⟨rfl,rfl⟩

/-- The marker and the xid of a reply of 24 bytes have arrived when the application disconnects. -/
def demoHalfRead : List Event :=
  demoConnect ++ [.queuePdu demoNull [.wrote 44],.recv (.data [0x80,0,0,24,0,0,0,1]) .started]

theorem new_connection_not_clean :
    ¬ StartsClean (after demoConfig
      (demoHalfRead ++ [.disconnect "",.connectAsync (some .started)])) := by
  intro h
  have hs : (after demoConfig
      (demoHalfRead ++ [.disconnect "",.connectAsync (some .started)])).state = .readPayload := rfl
  rw [h.state] at hs
  exact absurd hs (by decide)

end Rpc
end Libnfs
