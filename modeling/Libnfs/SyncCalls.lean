import Libnfs.ExactlyOnce

/-! A synchronous call. `wait_for_nfs_reply` serves the context until the callback of the call has set `is_finished`, or until
`rpc_service` fails; the data of the callback is gone when it returns. -/
namespace Libnfs

open Transition

namespace Rpc

/-- What is tried again on a new connection when it fails -/
def orReconnect (conn : Connect) (r : Rpc × Bool) : Rpc × Bool := if r.2 then r else r.1.rpcReconnectRequeue conn

/-- `rpc_service` without TLS, and what it returns; `false` is a return of -1. -/
def rpcServiceStatus (rpc : Rpc) (io : Poll) : Rpc × Bool :=
  let scan := rpc.rpcTimeoutScan
  if scan.2 = false then scan.1.rpcReconnectRequeue io.conn
  else
    let rpc := scan.1
    if io.err then
      if rpc.autoReconnect ≠ 0 then rpc.rpcReconnectRequeue io.conn
      else (rpc.maybeCallConnectCb .error io.conn,false)
    else if rpc.isConnected = false ∧ rpc.fd ∧ io.pollout then (rpc.pollConnect io.soError io.conn,!io.soError)
    else
      match (if io.pollin then rpc.rpcReadFromSocket io.last io.reads else .more rpc) with
      | .more rpc =>
        if io.pollout ∧ rpc.outqueue.isEmpty = false then orReconnect io.conn (rpc.rpcWriteToSocket io.writes) else (rpc,true)
      | .fail rpc => rpc.rpcReconnectRequeue io.conn
      | .fault rpc => ({ rpc with crashed := true },false)

/-- The loop of `wait_for_nfs_reply`, and whether it ends with `is_finished`; `none` is a loop that still polls. -/
def waitForNfsReply (id : ℕ) (rpc : Rpc) : List Poll → Option (Rpc × Bool)
  | [] => if id ∈ rpc.called then some (rpc,true) else none
  | io::ios =>
    if id ∈ rpc.called then some (rpc,true)
    else
      let r := rpc.rpcServiceStatus io
      if r.2 then waitForNfsReply id r.1 ios
      else some (r.1.rpcErrorAllPdus "RPC ERROR: Failed to reconnect async",false)

/-- The events of `rpc_read_from_socket` -/
def readEvents (rpc : Rpc) (last : Recv) (conn : Connect) : List (List UInt8) → List Event
  | [] => [.recv last conn]
  | bs::reads => .recv (.data bs) conn::
    match rpc.recvStep (.data bs) with
    | .more rpc => rpc.readEvents last conn reads
    | _ => []

/-- The events of `rpc_service` -/
def serviceEvents (rpc : Rpc) (io : Poll) : List Event :=
  let scan := rpc.rpcTimeoutScan
  .timeoutScan io.conn::
    if scan.2 = false then []
    else if io.err then [.pollError io.conn]
    else if scan.1.isConnected = false ∧ scan.1.fd ∧ io.pollout then [.pollConnect io.soError io.conn]
    else (if io.pollin then scan.1.readEvents io.last io.conn io.reads else []) ++ if io.pollout then [.write io.writes io.conn] else []

/-- No READ is half read whose callback was called, or it is not put back. -/
def Settled (s : Rpc) : Prop := s.autoReconnect ≠ 0 → ∀ p, s.pdu = some p → answered s.state p = false

/-- The condition under which `rpc_service` calls no PDU back twice -/
def Calm (s : Rpc) : Event → Prop
  | .timeoutScan _ => s.rpcTimeoutScan.2 = false → s.Settled
  | .pollError _ => s.autoReconnect ≠ 0 ∨ s.connectCb = .reconnect → s.Settled
  | .pollConnect soError _ => soError = true → s.connectCb = .reconnect → s.Settled
  | .recv r _ => s.RejectsOnce r ∧ ((∃ t, s.recvStep r = .fail t) → s.Settled)
  | .write ws _ => (s.rpcWriteToSocket ws).2 = false → s.Settled
  | _ => True

/-- All services of the loop are calm. -/
def Undisturbed (id : ℕ) (s : Rpc) : List Poll → Prop
  | [] => True
  | io::ios => id ∉ s.called → Guarded step Calm s (s.serviceEvents io) ∧ Undisturbed id (s.rpcServiceStatus io).1 ios

def standing (s : Rpc) := (s.cancelled,s.destroyed,s.crashed)

/-- Some pending PDUs are called back, each once, and the others stay pending. -/
structure Pays (s t : Rpc) : Prop where
  account : ∃ done, t.called = s.called ++ done ∧ s.pending.Perm (t.pending ++ done)
  nextId : t.nextId = s.nextId
  standing : t.standing = s.standing

/-- What `rpc_service` has done. Where it fails, a PDU that is half read may be left, and no other. -/
structure Served (s : Rpc) (r : Rpc × Bool) : Prop where
  pays : Pays s r.1
  moves : r.2 = true ∨ r.1.held = [] → Moves s r.1

variable {P : Pdu → Prop} {s t u : Rpc} {r : Rpc × Bool} {conn : Connect} {io : Poll} {id : ℕ}

theorem rpcServiceStatus_fst (s : Rpc) (io : Poll) : (s.rpcServiceStatus io).1 = s.rpcService io := by
  unfold rpcServiceStatus rpcService
  dsimp only
  generalize s.rpcTimeoutScan = scan
  by_cases hs : scan.2 = false
  · rw [if_pos hs,if_pos hs]
  · rw [if_neg hs,if_neg hs]
    by_cases he : io.err = true
    · rw [if_pos he,if_pos he,pollError]
      by_cases ha : scan.1.autoReconnect ≠ 0
      · rw [if_pos ha,if_pos ha]
      · rw [if_neg ha,if_neg ha]
    · rw [if_neg he,if_neg he]
      by_cases hc : scan.1.isConnected = false ∧ scan.1.fd = true ∧ io.pollout = true
      · rw [if_pos hc,if_pos hc]
      · rw [if_neg hc,if_neg hc]
        cases (if io.pollin = true then scan.1.rpcReadFromSocket io.last io.reads else .more scan.1) with
        | more t =>
          by_cases ho : io.pollout = true
          · by_cases hq : t.outqueue.isEmpty = true
            · simp [ho,hq,pollWrite]
            · simp only [ho,hq,pollWrite,orReconnect,orRequeue,and_self,if_true,if_false,Bool.false_eq_true]
              split <;> rfl
          · simp [ho]
        | fail t => rfl
        | fault t => rfl

theorem Moves.pays (h : Moves s t) (hc : t.standing = s.standing) : Pays s t := by
  obtain ⟨done,can,h1,h2,h3⟩ := h.account
  have hcan : t.cancelled = s.cancelled := congrArg Prod.fst hc
  obtain rfl : can = [] := by simpa [hcan] using h2
  exact ⟨⟨done,h1,by simpa using h3⟩,h.nextId,hc⟩

theorem Pays.trans (h : Pays s t) (k : Pays t u) : Pays s u := by
  obtain ⟨d,h1,h2⟩ := h.account
  obtain ⟨e,k1,k2⟩ := k.account
  refine ⟨⟨d++e,by rw [k1,h1,List.append_assoc],?_⟩,k.nextId.trans h.nextId,k.standing.trans h.standing⟩
  rw [List.perm_iff_count] at h2 k2 ⊢
  intro x
  have hx := h2 x
  have hy := k2 x
  simp only [List.count_append] at hx hy ⊢
  omega

/-- The queues are emptied, and what is half read stays. -/
theorem rpcErrorAllPdus_served (s : Rpc) (error : String) (b : Bool) (hb : b = false) : Served s (s.rpcErrorAllPdus error,b) := by
  refine ⟨⟨⟨s.pool.map Pdu.id,?_,?_⟩,rfl,rfl⟩,fun h => ?_⟩
  · simp only [called,rpcErrorAllPdus,rpcPurgeAllPdus,calledIn_append,calledIn_callbacks]
    rfl
  · have hp : (s.rpcErrorAllPdus error).pending = s.held := by
      have hpool : (s.rpcErrorAllPdus error).pool = [] := purged_pool s .error (.text error)
      rw [pending,hpool]
      rfl
    rw [hp]
    exact List.perm_append_comm
  · have hh : s.held = [] := h.resolve_left (by simp [hb])
    exact rpcErrorAllPdus_moves hh error

theorem Served.of_moves (h : Moves s r.1) (hc : r.1.standing = s.standing) : Served s r := ⟨h.pays hc,fun _ => h⟩

theorem Served.before (h : Moves s t) (hc : t.standing = s.standing) (k : Served t r) : Served s r :=
  ⟨(h.pays hc).trans k.pays,fun hr => h.trans (k.moves hr)⟩

theorem Served.failed {t : Rpc} {b : Bool} (h : Served s (t,b)) : Served s (t,false) :=
  ⟨h.pays,fun hr => h.moves (.inr (hr.resolve_left (by simp)))⟩

theorem rpcReconnectRequeue_served (h : s.Settled) (conn : Connect) : Served s (s.rpcReconnectRequeue conn) := by
  by_cases h0 : s.autoReconnect = 0
  · rw [rpcReconnectRequeue_disabled h0]
    exact rpcErrorAllPdus_served s _ _ rfl
  · refine .of_moves (rpcReconnectRequeue_moves ⟨fun ha => absurd ha h0,h⟩ conn) ?_
    obtain ⟨b,l,he⟩ := rpcConnectSockaddrAsync_eq s.requeueAll.retrying conn
    have hq : s.requeueAll.standing = s.standing := by
      rw [requeueAll_eq]
      rfl
    unfold rpcReconnectRequeue
    rw [if_neg h0]
    dsimp only
    split
    · split
      · rw [he]
        exact hq
      · exact (congrArg Rpc.standing he).trans hq
    · exact hq

theorem maybeCallConnectCb_served {status : Status} (h : status ≠ .success → s.connectCb = .reconnect → s.Settled) (conn : Connect) :
    Served s (s.maybeCallConnectCb status conn,false) ∧
      (status = .success → Moves s (s.maybeCallConnectCb status conn) ∧ (s.maybeCallConnectCb status conn).standing = s.standing) := by
  have hsame : ∀ {t : Rpc}, Moves s t → t.standing = s.standing →
      Served s (t,false) ∧ (status = .success → Moves s t ∧ t.standing = s.standing) :=
    fun m hc => ⟨.of_moves m hc,fun _ => ⟨m,hc⟩⟩
  unfold maybeCallConnectCb reconnectCb
  split
  · exact hsame (.refl s) rfl
  · refine hsame (.of_eq ?_ rfl (List.Perm.refl _) rfl rfl) rfl
    simp [called,calledIn]
  · rename_i hcb
    have h0 : Moves s { s with connectCb := .none } := .queues rfl rfl rfl (List.Perm.refl _) rfl rfl
    split
    · rename_i hst
      have hset : ({ s with connectCb := .none } : Rpc).Settled := h hst hcb
      exact ⟨.before h0 rfl (rpcReconnectRequeue_served hset conn).failed,fun hs => absurd hs hst⟩
    · exact hsame (.queues rfl rfl rfl (List.Perm.refl _) rfl rfl) rfl

theorem Settled.congr (h : s.Settled) (hr : t.readerPart = s.readerPart) (ha : t.autoReconnect = s.autoReconnect) : t.Settled := by
  simp only [readerPart,Prod.mk.injEq] at hr
  unfold Settled
  rw [ha,hr.1,hr.2.2.2.1]
  exact h

theorem recvStep_settled (h : s.Ok P) {r : Recv} (hu : s.recvStep r = .fail u) (hs : s.Settled) (ha : u.autoReconnect = s.autoReconnect) :
    u.Settled := by
  intro h0
  have hcan : s.CanRequeue := ⟨fun hz => absurd (ha.trans hz) h0,hs⟩
  exact (recvStep_canRequeue h hu hcan ha).2 h0

theorem standing_of_booked (h : t.booked = s.booked) : t.standing = s.standing := by
  simp only [booked,Prod.mk.injEq] at h
  simp only [standing,h]

/-- One turn of the read loop -/
theorem recvStep_served (h : s.Ok P) (hl : s.Live) {r : Recv} (hc : s.Calm (.recv r conn)) :
    (∀ t, s.recvStep r = .more t → Moves s t ∧ t.standing = s.standing ∧ t.Ok P ∧ t.Live ∧ s.step (.recv r conn) = t) ∧
      ∀ t, s.recvStep r = .fail t → Moves s t ∧ t.standing = s.standing ∧ t.Settled := by
  have hm := (recvStep_moves h hc.1).1
  have hb := recvStep_booked h r
  have hk := recvStep_ok h r
  refine ⟨fun t ht => ?_,fun t ht => ?_⟩
  · rw [ht] at hm hb hk
    refine ⟨hm,standing_of_booked hb,hk,hl.booked hb,?_⟩
    rw [step_live hl,act,ht]
    rfl
  · have hset := hc.2 ⟨t,ht⟩
    rw [ht] at hm hb
    exact ⟨hm,standing_of_booked hb,recvStep_settled h ht hset (congrArg Prod.fst hb)⟩

/-- The read loop calls back the PDUs of the replies that are complete. -/
theorem rpcReadFromSocket_served (h : s.Ok P) (hl : s.Live) {last : Recv} {reads : List (List UInt8)}
    (hg : Guarded step Calm s (s.readEvents last conn reads)) :
    (∀ t, s.rpcReadFromSocket last reads = .more t → Moves s t ∧ t.standing = s.standing ∧ t.Ok P ∧ t.Live ∧
      run step s (s.readEvents last conn reads) = t) ∧
    ∀ t, s.rpcReadFromSocket last reads = .fail t → Moves s t ∧ t.standing = s.standing ∧ t.Settled := by
  induction reads generalizing s with
  | nil =>
    obtain ⟨hmore,hfail⟩ := recvStep_served h hl hg.1
    exact ⟨hmore,hfail⟩
  | cons bs reads ih =>
    obtain ⟨hmore,hfail⟩ := recvStep_served h hl hg.1
    have hrest := hg.2
    simp only [readEvents,rpcReadFromSocket] at hrest ⊢
    cases hr : s.recvStep (.data bs) with
    | more t =>
      obtain ⟨hm,hc,hk,hlt,hst⟩ := hmore t hr
      rw [hr] at hrest
      obtain ⟨hmore',hfail'⟩ := ih hk hlt (hst ▸ hrest)
      refine ⟨fun v hv => ?_,fun v hv => ?_⟩
      · obtain ⟨k1,k2,k3,k4,k5⟩ := hmore' v hv
        refine ⟨hm.trans k1,k2.trans hc,k3,k4,?_⟩
        rw [run_cons,hst]
        exact k5
      · obtain ⟨k1,k2,k3⟩ := hfail' v hv
        exact ⟨hm.trans k1,k2.trans hc,k3⟩
    | fail t => exact ⟨fun v hv => by simp at hv,fun v hv => by rw [← Ctl.fail.inj hv]; exact hfail t hr⟩
    | fault t => exact ⟨fun v hv => by simp at hv,fun v hv => by simp at hv⟩

theorem orReconnect_served (h : Moves s r.1) (hc : r.1.standing = s.standing) (hs : r.2 = false → r.1.Settled) :
    Served s (orReconnect conn r) := by
  unfold orReconnect
  split
  · exact .of_moves h hc
  · rename_i hr
    exact .before h hc (rpcReconnectRequeue_served (hs (by simpa using hr)) conn)

/-- A service that succeeds keeps the books; one that fails loses no more than the PDU that is half read. -/
theorem rpcServiceStatus_served (h : s.Ok P) (hl : s.Live) (hg : Guarded step Calm s (s.serviceEvents io))
    (hcr : (s.rpcServiceStatus io).2 = true ∨ (s.rpcServiceStatus io).1.crashed = false) : Served s (s.rpcServiceStatus io) := by
  have hscan : s.step (.timeoutScan io.conn) = orRequeue io.conn s.rpcTimeoutScan := step_live hl _
  have hmove := rpcTimeoutScan_moves s
  have hok := rpcTimeoutScan_ok h
  obtain ⟨hreader,hbooked⟩ := rpcTimeoutScan_frame s
  have hlt := hl.booked hbooked
  have hset : s.rpcTimeoutScan.2 = false → s.rpcTimeoutScan.1.Settled := fun hf =>
    (hg.1 hf).congr hreader (congrArg Prod.fst hbooked)
  have hcan : s.rpcTimeoutScan.1.standing = s.standing := standing_of_booked hbooked
  have hrest := hg.2
  unfold rpcServiceStatus at hcr ⊢
  dsimp only at hcr hrest ⊢
  rw [hscan] at hrest
  generalize s.rpcTimeoutScan = scan at *
  by_cases hs : scan.2 = false
  · rw [if_pos hs]
    exact .before hmove hcan (rpcReconnectRequeue_served (hset hs) _)
  · rw [if_neg hs] at hcr hrest ⊢
    rw [orRequeue,if_pos (by simpa using hs)] at hrest
    refine .before hmove hcan ?_
    by_cases he : io.err = true
    · rw [if_pos he] at hrest ⊢
      by_cases ha : scan.1.autoReconnect ≠ 0
      · rw [if_pos ha]
        exact rpcReconnectRequeue_served (hrest.1 (.inl ha)) _
      · rw [if_neg ha]
        exact (maybeCallConnectCb_served (fun _ hc => hrest.1 (.inr hc)) _).1
    · rw [if_neg he] at hcr hrest ⊢
      by_cases hc : scan.1.isConnected = false ∧ scan.1.fd = true ∧ io.pollout = true
      · rw [if_pos hc] at hrest ⊢
        unfold pollConnect
        by_cases hso : io.soError = true
        · rw [if_pos hso,hso]
          exact (maybeCallConnectCb_served (fun _ hc => hrest.1 hso hc) _).1
        · rw [if_neg hso]
          have h0 : Moves scan.1 { scan.1 with isConnected := true } := .queues rfl rfl rfl (List.Perm.refl _) rfl rfl
          obtain ⟨hm,hcc⟩ := (@maybeCallConnectCb_served { scan.1 with isConnected := true } .success
            (fun hst => absurd rfl hst) io.conn).2 rfl
          exact .before h0 rfl (.of_moves hm hcc)
      · rw [if_neg hc] at hcr hrest ⊢
        rw [guarded_append] at hrest
        have hread : (∀ t, (if io.pollin = true then scan.1.rpcReadFromSocket io.last io.reads else .more scan.1) = .more t →
              Moves scan.1 t ∧ t.standing = scan.1.standing ∧ t.Ok P ∧ t.Live ∧
                run step scan.1 (if io.pollin = true then scan.1.readEvents io.last io.conn io.reads else []) = t) ∧
            ∀ t, (if io.pollin = true then scan.1.rpcReadFromSocket io.last io.reads else .more scan.1) = .fail t →
              Moves scan.1 t ∧ t.standing = scan.1.standing ∧ t.Settled := by
          by_cases hin : io.pollin = true
          · simp only [if_pos hin] at hrest ⊢
            exact rpcReadFromSocket_served hok hlt hrest.1
          · simp only [if_neg hin]
            refine ⟨fun t ht => ?_,fun t ht => by simp at ht⟩
            obtain rfl := Ctl.more.inj ht
            exact ⟨.refl _,rfl,hok,hlt,rfl⟩
        obtain ⟨hmore,hfail⟩ := hread
        generalize (if io.pollin = true then scan.1.rpcReadFromSocket io.last io.reads else .more scan.1) = c at hmore hfail hcr ⊢
        cases c with
        | more t =>
          obtain ⟨hm,hcc,htk,htl,hrun⟩ := hmore t rfl
          refine .before hm hcc ?_
          dsimp only
          split
          · rename_i hout
            have hw := hrest.2
            rw [hrun,if_pos hout.1] at hw
            obtain ⟨q,w,n,b,hframe⟩ := rpcWriteToSocket_frame t io.writes
            refine orReconnect_served (rpcWriteToSocket_moves htk.toQueueOk _) ?_ fun hf => ?_
            · rw [hframe]
              rfl
            · rw [hframe]
              exact hw.1 hf
          · exact .of_moves (.refl t) rfl
        | fail t =>
          obtain ⟨hm,hcc,hset⟩ := hfail t rfl
          exact .before hm hcc (rpcReconnectRequeue_served hset _)
        | fault t => simp at hcr

theorem rpcServiceStatus_ok (h : s.Ok (fun _ => True)) (hl : s.Live) (hcr : (s.rpcServiceStatus io).1.crashed = false) :
    (s.rpcServiceStatus io).1.Ok (fun _ => True) := by
  obtain ⟨es,he⟩ := rpcService_run h hl io
  rw [rpcServiceStatus_fst,he] at hcr ⊢
  exact reachable_induction (P := fun u => u.crashed = false → u.Ok (fun _ => True)) step ⟨es,rfl⟩ (fun _ => h)
    (fun u e hu => step_ok hu e (by cases e <;> simp [Queues])) hcr

theorem accounted_run {es : List Event} (h : s.crashed = false → s.Ok (fun _ => True) ∧ s.Accounted) (ho : s.Once)
    (hg : Guarded step Orderly s es) :
    ((run step s es).crashed = false → (run step s es).Ok (fun _ => True) ∧ (run step s es).Accounted) ∧ (run step s es).Once := by
  refine guarded_induction (P := fun u => (u.crashed = false → u.Ok (fun _ => True) ∧ u.Accounted) ∧ u.Once) step hg ⟨h,ho⟩ ?_
  rintro u e ⟨hu,hs⟩ he
  unfold step
  split
  · exact ⟨hu,hs⟩
  · rename_i hlive
    have hc : u.crashed = false := by simp only [not_or,Bool.not_eq_true] at hlive; exact hlive.2
    have hP : Queues (fun _ => True) e := by cases e <;> simp [Queues]
    obtain ⟨h1,h2⟩ := act_accounted (hu hc).1 (hu hc).2 hP he
    exact ⟨fun hcr => ⟨act_ok (hu hc).1 e hP hcr,h1 hcr⟩,h2⟩

theorem Accounted.count_one (h : s.Accounted) (hid : id < s.nextId) :
    s.called.count id + s.cancelled.count id + s.pending.count id = 1 := by
  have hc := h.ledger.count_eq id
  rw [List.count_eq_one_of_mem List.nodup_range (List.mem_range.2 hid)] at hc
  simpa only [List.count_append] using hc

/-- How the caller of a synchronous function is left: its callback was called and will not be called again, or the connection
failed while its reply was half read. -/
structure Returned (id : ℕ) (u : Rpc) (finished : Bool) : Prop where
  once : u.called.count id + u.pending.count id = 1
  lost : id ∈ u.pending → finished = false ∧ id ∈ u.held
  books : finished = true ∨ u.held = [] → u.Ok (fun _ => True) ∧ u.Accounted

theorem waitForNfsReply_returned {ios : List Poll} {b : Bool} (hok : s.Ok (fun _ => True)) (hl : s.Live) (ha : s.Accounted)
    (hid : id < s.nextId) (hcan : id ∉ s.cancelled) (hg : Undisturbed id s ios) (hw : waitForNfsReply id s ios = some (u,b))
    (hcr : u.crashed = false) : Returned id u b := by
  have hfinished : ∀ {s : Rpc}, s.Ok (fun _ => True) → s.Accounted → id < s.nextId → id ∉ s.cancelled → id ∈ s.called →
      Returned id s true := by
    intro s hok ha hid hcan hmem
    have hone := ha.count_one hid
    rw [List.count_eq_zero.2 hcan] at hone
    have hpos := List.count_pos_iff.2 hmem
    refine ⟨by omega,fun hp => ?_,fun _ => ⟨hok,ha⟩⟩
    have := List.count_pos_iff.2 hp
    omega
  induction ios generalizing s with
  | nil =>
    unfold waitForNfsReply at hw
    split at hw
    · rename_i hmem
      obtain ⟨rfl,rfl⟩ := Prod.mk.inj (Option.some.inj hw)
      exact hfinished hok ha hid hcan hmem
    · simp at hw
  | cons io ios ih =>
    unfold waitForNfsReply at hw
    split at hw
    · rename_i hmem
      obtain ⟨rfl,rfl⟩ := Prod.mk.inj (Option.some.inj hw)
      exact hfinished hok ha hid hcan hmem
    · rename_i hmem
      obtain ⟨hcalm,hrest⟩ := hg hmem
      have hserved := @rpcServiceStatus_served _ s io hok hl hcalm
      have hok' := @rpcServiceStatus_ok s io hok hl
      dsimp only at hw
      generalize s.rpcServiceStatus io = r at *
      split at hw
      · rename_i hr
        have hsr := hserved (.inl hr)
        have hstand := hsr.pays.standing
        simp only [standing,Prod.mk.injEq] at hstand
        have hlr : r.1.Live := ⟨hstand.2.1.trans hl.1,hstand.2.2.trans hl.2⟩
        exact ih (hok' hlr.2) hlr (ha.moves (hsr.moves (.inl hr))) (by rw [hsr.pays.nextId]; exact hid) (by rw [hstand.1]; exact hcan)
          hrest hw
      · obtain ⟨rfl,rfl⟩ := Prod.mk.inj (Option.some.inj hw)
        have hsr := hserved (.inr hcr)
        have herr := rpcErrorAllPdus_served r.1 "RPC ERROR: Failed to reconnect async" false rfl
        have hpend : (r.1.rpcErrorAllPdus "RPC ERROR: Failed to reconnect async").pending = r.1.held := by
          have hpool : (r.1.rpcErrorAllPdus "RPC ERROR: Failed to reconnect async").pool = [] := purged_pool r.1 .error (.text "RPC ERROR: Failed to reconnect async")
          rw [pending,hpool]
          rfl
        obtain ⟨done,hd,hperm⟩ := (hsr.pays.trans herr.pays).account
        refine ⟨?_,fun hp => ⟨rfl,?_⟩,fun hheld => ?_⟩
        · have hone := ha.count_one hid
          have hcount := hperm.count_eq id
          rw [List.count_eq_zero.2 hcan] at hone
          rw [hd]
          simp only [List.count_append] at hcount ⊢
          omega
        · rw [hpend] at hp
          exact hp
        · have hheld : r.1.held = [] := hheld.resolve_left (by simp)
          exact ⟨rpcErrorAllPdus_ok (hok' hcr) _,(ha.moves (hsr.moves (.inr hheld))).moves (herr.moves (.inr hheld))⟩

theorem rpcQueuePdu_standing (hm : s.memOk = true) (c : Call) (ws : List Writev) :
    (s.rpcQueuePdu c ws).standing = s.standing ∧ (s.rpcQueuePdu c ws).nextId = s.nextId+1 := by
  unfold rpcQueuePdu
  rw [if_pos hm]
  split
  · obtain ⟨q,w,n,b,he⟩ := rpcWriteToSocket_frame (s.enqueueCall c) ws
    rw [he]
    exact ⟨rfl,rfl⟩
  · exact ⟨rfl,rfl⟩

/-- The reply to a request without a result, in two pieces -/
def demoPoll : Poll where
  err := false
  pollin := true
  pollout := false
  soError := false
  reads := [[0x80,0,0,24,0,0,0,1],ByteWords.beBytes 1 ++ List.replicate 16 0]
  last := .again
  writes := []
  conn := .started

def demoAsked : Rpc := (after demoConfig demoConnect).rpcQueuePdu demoNull [.wrote 44]

def demoServed : Rpc := (demoAsked.rpcServiceStatus demoPoll).1

theorem demo_waits : waitForNfsReply 0 demoAsked [demoPoll] = some (demoServed,true) := by
  have hasked : 0 ∉ demoAsked.called := by decide +kernel
  have hok : (demoAsked.rpcServiceStatus demoPoll).2 = true := by decide +kernel
  have hcalled : 0 ∈ (demoAsked.rpcServiceStatus demoPoll).1.called := by decide +kernel
  rw [waitForNfsReply,if_neg hasked]
  dsimp only
  rw [if_pos hok,waitForNfsReply,if_pos hcalled]
  rfl

def fails : Ctl → Bool
  | .fail _ => true
  | _ => false

/-- A turn that rejects no READ and does not fail -/
theorem calm_recv {r : Recv} (h : (s.rejected r).isNone = true) (hf : fails (s.recvStep r) = false) : s.Calm (.recv r conn) := by
  refine ⟨fun p hp => ?_,fun ⟨t,ht⟩ => ?_⟩
  · rw [hp] at h
    simp at h
  · rw [ht] at hf
    simp [fails] at hf

theorem demo_undisturbed : Undisturbed 0 demoAsked [demoPoll] := by
  intro _
  have hevents : demoAsked.serviceEvents demoPoll = .timeoutScan .started::(demoPoll.reads.map fun bs => .recv (.data bs) .started) ++
    [.recv .again .started] := rfl
  have hscan : demoAsked.rpcTimeoutScan.2 = true := by decide +kernel
  refine ⟨?_,trivial⟩
  rw [hevents]
  refine ⟨fun h => ?_,calm_recv ?_ ?_,calm_recv ?_ ?_,calm_recv ?_ ?_,trivial⟩
  · rw [hscan] at h
    simp at h
  all_goals decide +kernel

end Rpc
end Libnfs
