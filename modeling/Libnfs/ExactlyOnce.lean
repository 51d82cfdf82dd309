import Libnfs.ReaderFrame
import Libnfs.Reconnect

/-! Every PDU is completed once. `pending` are the PDUs still owed an answer, and `Moves` is all
that a step may do with them: call a callback, cancel, or keep. -/
namespace Libnfs

open ByteWords Scatter Zdr Transition

/-- The callback of the half-read PDU has been called already; only bytes are left to read. -/
def answered (state : InputState) (p : Pdu) : Bool :=
  (state == .readIovec || state == .readPadding) && !p.freePdu

/-- The PDUs whose callbacks the log shows, one entry for each call. -/
def calledIn (log : List LogEntry) : List ℕ :=
  log.filterMap fun
    | .callback id _ _ => some id
    | _ => none

@[simp] theorem calledIn_append (l m : List LogEntry) : calledIn (l++m) = calledIn l ++ calledIn m :=
  List.filterMap_append

@[simp] theorem calledIn_callbacks (ps : List Pdu) (status : Status) (data : CbData) :
    calledIn (ps.map fun p => .callback p.id status data) = ps.map Pdu.id := by
  simp [calledIn,List.filterMap_map]

theorem Ctl.All.imp {P Q : Rpc → Prop} {c : Ctl} (h : c.All P) (hpq : ∀ t, P t → Q t) : c.All Q := by
  cases c with
  | more t => exact hpq t h
  | fail t => exact hpq t h
  | fault t => trivial

theorem Ctl.all_of_rpc {P : Rpc → Prop} {c : Ctl} (h : P c.rpc) : c.All P := by
  cases c with
  | more t => exact h
  | fail t => exact h
  | fault t => trivial

namespace Rpc

/-- The half-read PDU, if it is still owed an answer. -/
def held (s : Rpc) : List ℕ :=
  match s.pdu with
  | some p => if answered s.state p then [] else [p.id]
  | none => []

/-- The PDUs still owed an answer. -/
def pending (s : Rpc) : List ℕ := s.pool.map Pdu.id ++ s.held

def called (s : Rpc) : List ℕ := calledIn s.log

/-- From `s` to `t` some pending PDUs are called back and some cancelled, each once. Where the
context is closed on the way, none is left pending. -/
structure Moves (s t : Rpc) : Prop where
  account : ∃ done can, t.called = s.called ++ done ∧ t.cancelled = s.cancelled ++ can ∧
    s.pending.Perm (t.pending ++ (done ++ can))
  nextId : t.nextId = s.nextId
  closed : t.closedAt = s.closedAt ∨ t.closedAt = t.nextId ∧ t.pending = []

theorem Moves.of_eq {s t : Rpc} (hl : t.called = s.called) (hc : t.cancelled = s.cancelled)
    (hp : s.pending.Perm t.pending) (hn : t.nextId = s.nextId) (hcl : t.closedAt = s.closedAt) :
    Moves s t :=
  ⟨⟨[],[],by simpa using hl,by simpa using hc,by simpa using hp⟩,hn,.inl hcl⟩

theorem Moves.refl (s : Rpc) : Moves s s := .of_eq rfl rfl (List.Perm.refl _) rfl rfl

theorem Moves.trans {s t u : Rpc} (h : Moves s t) (k : Moves t u) : Moves s u := by
  obtain ⟨d,c,h1,h2,h3⟩ := h.account
  obtain ⟨d',c',k1,k2,k3⟩ := k.account
  refine ⟨⟨d++d',c++c',?_,?_,?_⟩,k.nextId.trans h.nextId,?_⟩
  · rw [k1,h1,List.append_assoc]
  · rw [k2,h2,List.append_assoc]
  · rw [List.perm_iff_count]
    intro a
    have ha := h3.count_eq a
    have hb := k3.count_eq a
    simp only [List.count_append] at ha hb ⊢
    omega
  · rcases k.closed with kc | kc
    · rcases h.closed with hc | ⟨hc,hp⟩
      · exact .inl (kc.trans hc)
      · right
        refine ⟨by rw [kc,hc,k.nextId],?_⟩
        rw [hp] at k3
        have hk := k3.length_eq
        simp only [List.length_nil,List.length_append] at hk
        exact List.length_eq_zero_iff.mp (by omega)
    · exact .inr kc

/-- The books are in order: each PDU so far is called back, cancelled or pending, once, and those
from before the last close are not pending. -/
structure Accounted (s : Rpc) : Prop where
  ledger : (s.called ++ s.cancelled ++ s.pending).Perm (List.range s.nextId)
  closed : s.closedAt ≤ s.nextId
  fresh : ∀ id ∈ s.pending, s.closedAt ≤ id

theorem Accounted.moves {s t : Rpc} (h : Accounted s) (m : Moves s t) : Accounted t := by
  obtain ⟨d,c,h1,h2,h3⟩ := m.account
  refine ⟨?_,?_,?_⟩
  · rw [m.nextId,h1,h2]
    refine List.Perm.trans ?_ h.ledger
    rw [List.perm_iff_count]
    intro a
    have ha := h3.count_eq a
    simp only [List.count_append] at ha ⊢
    omega
  · rcases m.closed with hc | hc
    · rw [hc,m.nextId]
      exact h.closed
    · exact hc.1.le
  · intro id hid
    rcases m.closed with hc | hc
    · rw [hc]
      exact h.fresh id (h3.symm.subset (List.mem_append_left _ hid))
    · rw [hc.2] at hid
      simp at hid

theorem held_congr {s t : Rpc} (h : t.readerPart = s.readerPart) : t.held = s.held := by
  simp only [readerPart,Prod.mk.injEq] at h
  unfold held
  rw [h.1,h.2.2.2.1]

/-- Moving PDUs between the queues. -/
theorem Moves.queues {s t : Rpc} (hr : t.readerPart = s.readerPart) (hl : t.log = s.log)
    (hc : t.cancelled = s.cancelled) (hp : (s.pool.map Pdu.id).Perm (t.pool.map Pdu.id))
    (hn : t.nextId = s.nextId) (hcl : t.closedAt = s.closedAt) : Moves s t := by
  refine .of_eq (by rw [called,called,hl]) hc ?_ hn hcl
  rw [pending,pending,held_congr hr]
  exact hp.append_right _

theorem account_ids {s : Rpc} {q : List Pdu} (count : ℕ) (hw : 0 < s.waitpdu.length)
    (hq : ∀ p ∈ q, p.discardAfterSending = false) :
    (q.map Pdu.id ++ s.waitpdu.flatten.map Pdu.id).Perm ((s.account count q).1.pool.map Pdu.id) := by
  induction q generalizing s count with
  | nil => simp [pool,account]
  | cons p q ih =>
    cases count with
    | zero => simp [pool,account]
    | succ count =>
      simp only [account]
      split
      · rw [if_neg (by simp [hq p List.mem_cons_self])]
        have hp := (enqueueWait_perm hw { p with numDone := p.totalSize }).map Pdu.id
        refine List.Perm.trans ?_ (ih _ (by simpa using hw)
          fun a ha => hq a (List.mem_cons_of_mem p ha))
        refine List.Perm.trans ?_ (hp.symm.append_left _)
        exact List.perm_middle.symm
      · simp [pool]

theorem writeLoop_ids {P : Pdu → Prop} {s : Rpc} (h : s.QueueOk P) (cap : ℕ) (ws : List Writev) :
    (s.pool.map Pdu.id).Perm ((s.writeLoop cap ws).1.pool.map Pdu.id) := by
  induction ws generalizing s cap with
  | nil => exact List.Perm.refl _
  | cons v ws ih =>
    unfold writeLoop
    split
    · split
      · exact List.Perm.refl _
      · rename_i p ps hps
        cases v with
        | again => exact List.Perm.refl _
        | error => exact List.Perm.refl _
        | wrote count =>
          dsimp only
          have hok : ∀ a ∈ p::ps, PduOk P a := fun a ha =>
            h.queued a (List.mem_append_left _ (hps ▸ ha))
          have hacc : ∀ b n, (s.pool.map Pdu.id).Perm
              ((({ s with sent := b } : Rpc).account n (p::ps)).1.pool.map Pdu.id) := by
            intro b n
            refine List.Perm.trans ?_ (account_ids (s := { s with sent := b }) n h.hashes
              fun a ha => (hok a ha).kept)
            rw [pool,hps,List.map_append]
          have hqok : ∀ b n, (({ s with sent := b } : Rpc).account n (p::ps)).1.QueueOk P := by
            intro b n
            exact account_queueOk n h.hashes
              (fun a ha => h.queued a (List.mem_append_right _ ha)) hok (hps ▸ h.out)
          split
          · exact hacc _ _
          · exact (hacc _ _).trans (ih (hqok _ _) _)
    · exact List.Perm.refl _

theorem rpcWriteToSocket_moves {P : Pdu → Prop} {s : Rpc} (h : s.QueueOk P) (ws : List Writev) :
    Moves s (s.rpcWriteToSocket ws).1 := by
  have hids : (s.pool.map Pdu.id).Perm ((s.rpcWriteToSocket ws).1.pool.map Pdu.id) := by
    unfold rpcWriteToSocket
    split
    · exact List.Perm.refl _
    · split
      · exact List.Perm.refl _
      · exact writeLoop_ids h _ ws
  obtain ⟨q,w,n,b,he⟩ := rpcWriteToSocket_frame s ws
  rw [he] at hids ⊢
  exact .queues rfl rfl rfl hids rfl rfl

theorem rpcFindPdu_ids {s t : Rpc} {x : ℕ} {p : Pdu} (hw : 0 < s.waitpdu.length)
    (hf : s.rpcFindPdu x = (some p,t)) :
    (s.pool.map Pdu.id).Perm (p.id::t.pool.map Pdu.id) := by
  obtain ⟨-,q,w,n,rfl,-,-,hp⟩ := rpcFindPdu_some hw hf
  exact hp.map Pdu.id

theorem rpcCancelPdu_moves {s : Rpc} (hw : 0 < s.waitpdu.length) (x : ℕ) :
    Moves s (s.rpcCancelPdu x) := by
  unfold rpcCancelPdu
  split
  · rename_i p t hf
    have hids := rpcFindPdu_ids hw hf
    obtain ⟨-,q,w,n,rfl,-⟩ := rpcFindPdu_some hw hf
    refine ⟨⟨[],[p.id],by simp [called,withQueues],rfl,?_⟩,rfl,.inl rfl⟩
    rw [List.perm_iff_count] at hids ⊢
    intro a
    have ha := hids a
    simp only [pending,List.count_append,List.count_cons,List.count_nil] at ha ⊢
    have hheld : ({ s.withQueues q w n with cancelled := s.cancelled ++ [p.id] } : Rpc).held =
        s.held := rfl
    have hpool : ({ s.withQueues q w n with cancelled := s.cancelled ++ [p.id] } : Rpc).pool =
        (s.withQueues q w n).pool := rfl
    have hc : (s.withQueues q w n).cancelled = s.cancelled := rfl
    rw [hc,hheld,hpool]
    omega
  · rename_i t hf
    exact rpcFindPdu_none hf ▸ .refl s

/-- PDUs leave the queues and their callbacks are called. -/
theorem Moves.calls {s t : Rpc} {done : List ℕ} (hr : t.readerPart = s.readerPart)
    (hl : t.called = s.called ++ done) (hc : t.cancelled = s.cancelled)
    (hp : (s.pool.map Pdu.id).Perm (t.pool.map Pdu.id ++ done)) (hn : t.nextId = s.nextId)
    (hcl : t.closedAt = s.closedAt) : Moves s t := by
  refine ⟨⟨done,[],hl,by simpa using hc,?_⟩,hn,.inl hcl⟩
  rw [pending,pending,held_congr hr]
  rw [List.perm_iff_count] at hp ⊢
  intro a
  have ha := hp a
  simp only [List.count_append,List.count_nil] at ha ⊢
  omega

theorem scan_ids (s : Rpc) (t : ℕ) (q : List Pdu) :
    (q.map Pdu.id).Perm ((q.filterMap (s.scanOutPdu t)).map Pdu.id ++
      (q.filter fun p => (s.scanOutPdu t p).isNone).map Pdu.id) := by
  induction q with
  | nil => simp
  | cons p q ih =>
    cases hs : s.scanOutPdu t p with
    | none =>
      simp only [List.filterMap_cons,hs,List.filter_cons,Option.isNone_none,if_true,List.map_cons]
      exact (ih.cons p.id).trans List.perm_middle.symm
    | some r =>
      obtain ⟨x,y,rfl⟩ := scanOutPdu_some hs
      simp only [List.filterMap_cons,hs,List.filter_cons,Option.isNone_some,Bool.false_eq_true,
        if_false,List.map_cons,List.cons_append]
      exact ih.cons p.id

theorem scanOutqueue_moves (s : Rpc) (t : ℕ) : Moves s (s.scanOutqueue t) := by
  have hl : (s.scanOutqueue t).called = s.called ++
      (s.outqueue.filter fun p => (s.scanOutPdu t p).isNone).map Pdu.id := by
    simp only [called,scanOutqueue,calledIn_append,calledIn_callbacks]
  refine .calls rfl hl rfl ?_ rfl rfl
  simp only [pool,scanOutqueue,List.map_append]
  rw [List.perm_iff_count]
  intro a
  have ha := (scan_ids s t s.outqueue).count_eq a
  simp only [List.count_append] at ha ⊢
  omega

/-- The PDUs that timed out on the wait chains are put back or called back, one by one. -/
theorem foldl_waitTimedOut (t : ℕ) (l : List Pdu) (u : Rpc) :
    ∃ done, (l.foldl (fun r p => r.waitTimedOut t p) u).called = u.called ++ done ∧
      (u.pool.map Pdu.id ++ l.map Pdu.id).Perm
        ((l.foldl (fun r p => r.waitTimedOut t p) u).pool.map Pdu.id ++ done) ∧
      (l.foldl (fun r p => r.waitTimedOut t p) u).readerPart = u.readerPart ∧
      (l.foldl (fun r p => r.waitTimedOut t p) u).cancelled = u.cancelled ∧
      (l.foldl (fun r p => r.waitTimedOut t p) u).nextId = u.nextId ∧
      (l.foldl (fun r p => r.waitTimedOut t p) u).closedAt = u.closedAt := by
  induction l generalizing u with
  | nil => exact ⟨[],by simp,by simp,rfl,rfl,rfl,rfl⟩
  | cons p l ih =>
    obtain ⟨done,h1,h2,h3,h4,h5,h6⟩ := ih (u.waitTimedOut t p)
    rw [List.foldl_cons]
    rcases waitTimedOut_eq u t p with ⟨a,b,he⟩ | he
    · rw [he] at h1 h2 h3 h4 h5 h6 ⊢
      refine ⟨done,h1,?_,h3,h4,h5,h6⟩
      refine List.Perm.trans ?_ h2
      have hi := (insertAfterHead_perm (Pdu.reset { p with timeout := a, majorTimeout := b })
        u.outqueue).map Pdu.id
      rw [List.perm_iff_count] at hi ⊢
      intro x
      have hx := hi x
      simp only [pool,rpcReturnToOutqueue,List.map_append,List.map_cons,List.count_append,
        List.count_cons,reset_id] at hx ⊢
      omega
    · rw [he] at h1 h2 h3 h4 h5 h6 ⊢
      refine ⟨p.id::done,?_,?_,h3,h4,h5,h6⟩
      · rw [h1]
        simp only [called,callback,calledIn_append,List.append_assoc]
        rfl
      · rw [List.perm_iff_count] at h2 ⊢
        intro x
        have hx := h2 x
        simp only [pool,callback,List.map_append,List.map_cons,List.count_append,
          List.count_cons] at hx ⊢
        omega

theorem scanWaitpdu_moves (s : Rpc) (t : ℕ) : Moves s (s.scanWaitpdu t) := by
  unfold scanWaitpdu
  obtain ⟨done,h1,h2,h3,h4,h5,h6⟩ := foldl_waitTimedOut t
    (s.waitpdu.flatten.filter fun p => !waiting t p)
    { s with waitpdu := s.waitpdu.map fun q => q.filter (waiting t) }
  refine .calls h3 h1 h4 (List.Perm.trans ?_ h2) h5 h6
  have hf := (List.filter_append_perm (waiting t) s.waitpdu.flatten).map Pdu.id
  rw [List.perm_iff_count] at hf ⊢
  intro x
  have hx := hf x
  simp only [pool,List.map_append,List.count_append,← List.filter_flatten] at hx ⊢
  omega

theorem rpcTimeoutScan_moves (s : Rpc) : Moves s s.rpcTimeoutScan.1 := by
  unfold rpcTimeoutScan
  split
  · exact .refl s
  · have h0 : Moves s { s with lastTimeoutScan := s.clock } :=
      .queues rfl rfl rfl (List.Perm.refl _) rfl rfl
    exact h0.trans ((scanOutqueue_moves _ _).trans (scanWaitpdu_moves _ _))

/-- A purge that leaves no half-read PDU behind closes the books. -/
theorem rpcPurgeAllPdus_moves {s t : Rpc} {status : Status} {data : CbData} (hh : s.held = [])
    (hr : t.readerPart = s.readerPart) (hl : t.log = (s.rpcPurgeAllPdus status data).log)
    (hc : t.cancelled = s.cancelled) (hp : t.pool = []) (hn : t.nextId = s.nextId)
    (hcl : t.closedAt = s.nextId) : Moves s t := by
  have hpend : t.pending = [] := by rw [pending,hp,held_congr hr,hh]; rfl
  refine ⟨⟨s.pool.map Pdu.id,[],?_,by simpa using hc,?_⟩,hn,.inr ⟨hcl.trans hn.symm,hpend⟩⟩
  · simp only [called,hl,rpcPurgeAllPdus,calledIn_append,calledIn_callbacks]
    rfl
  · rw [hpend,pending,hh]
    simp

theorem purged_pool (s : Rpc) (status : Status) (data : CbData) :
    (s.rpcPurgeAllPdus status data).pool = [] := by
  simp [pool,rpcPurgeAllPdus]

theorem rpcErrorAllPdus_moves {s : Rpc} (hh : s.held = []) (error : String) :
    Moves s (s.rpcErrorAllPdus error) :=
  rpcPurgeAllPdus_moves hh rfl rfl rfl (purged_pool s .error (.text error)) rfl rfl

/-- The condition under which `rpc_reconnect_requeue` neither loses the half-read PDU nor puts
one back whose callback was called. -/
def CanRequeue (s : Rpc) : Prop :=
  (s.autoReconnect = 0 → s.held = []) ∧
    (s.autoReconnect ≠ 0 → ∀ p, s.pdu = some p → answered s.state p = false)

theorem returned_ids (q ps : List Pdu) :
    (returned q ps).map Pdu.id |>.Perm (q.map Pdu.id ++ ps.map Pdu.id) := by
  have h := (returned_perm q ps).map Pdu.id
  simpa [List.map_map,Function.comp_def] using h

theorem restartHead_ids (q : List Pdu) : (restartHead q).map Pdu.id = q.map Pdu.id := by
  cases q with
  | nil => rfl
  | cons p q => rfl

theorem requeueAll_moves {s : Rpc} (h : ∀ p, s.pdu = some p → answered s.state p = false) :
    Moves s s.requeueAll := by
  have hheld : s.held = s.pdu.toList.map Pdu.id := by
    unfold held
    cases hp : s.pdu with
    | none => rfl
    | some p => simp [h p hp]
  rw [requeueAll_eq]
  refine .of_eq rfl rfl ?_ rfl rfl
  have hr := returned_ids (restartHead s.outqueue) (s.waitpdu.flatten ++ s.pdu.toList)
  rw [restartHead_ids] at hr
  rw [pending,hheld,pending]
  simp only [pool,List.map_append,List.append_assoc] at hr ⊢
  refine hr.symm.trans (List.Perm.of_eq ?_)
  simp [held]

theorem rpcConnectSockaddrAsync_moves (s : Rpc) (conn : Connect) :
    Moves s (s.rpcConnectSockaddrAsync conn).1 := by
  obtain ⟨b,l,he⟩ := rpcConnectSockaddrAsync_eq s conn
  rw [he]
  exact .queues rfl rfl rfl (List.Perm.refl _) rfl rfl

theorem rpcReconnectRequeue_moves {s : Rpc} (h : s.CanRequeue) (conn : Connect) :
    Moves s (s.rpcReconnectRequeue conn).1 := by
  unfold rpcReconnectRequeue
  split
  · rename_i h0
    exact rpcErrorAllPdus_moves (h.1 h0) _
  · rename_i h0
    have hr := requeueAll_moves (h.2 h0)
    have hnone : s.requeueAll.held = [] := by
      rw [requeueAll_eq]
      rfl
    have hc : Moves s (s.requeueAll.retrying.rpcConnectSockaddrAsync conn).1 := by
      have hq : Moves s.requeueAll s.requeueAll.retrying :=
        .queues rfl rfl rfl (List.Perm.refl _) rfl rfl
      exact hr.trans (hq.trans (rpcConnectSockaddrAsync_moves _ conn))
    dsimp only
    split
    · split
      · exact hc
      · refine hc.trans (rpcErrorAllPdus_moves ?_ _)
        obtain ⟨b,l,he⟩ := rpcConnectSockaddrAsync_eq s.requeueAll.retrying conn
        rw [he]
        exact hnone
    · exact hr.trans (rpcErrorAllPdus_moves hnone _)

theorem maybeCallConnectCb_moves {s : Rpc} {status : Status}
    (h : status ≠ .success → s.connectCb = .reconnect → s.CanRequeue) (conn : Connect) :
    Moves s (s.maybeCallConnectCb status conn) := by
  unfold maybeCallConnectCb reconnectCb
  split
  · exact .refl s
  · refine .of_eq ?_ rfl (List.Perm.refl _) rfl rfl
    simp [called,calledIn]
  · rename_i hcb
    have h0 : Moves s { s with connectCb := .none } :=
      .queues rfl rfl rfl (List.Perm.refl _) rfl rfl
    split
    · rename_i hst
      refine h0.trans (rpcReconnectRequeue_moves ?_ conn)
      exact h hst hcb
    · exact .queues rfl rfl rfl (List.Perm.refl _) rfl rfl

/-- The reader calls back the PDU it holds, or keeps it. -/
theorem Moves.reader {s t : Rpc} {d : List ℕ} (hsh : t.shared = s.shared)
    (hc : t.called = s.called ++ d) (hd : s.held = t.held ++ d) : Moves s t := by
  have hpool : t.pool = s.pool := show t.shared.pool = s.shared.pool by rw [hsh]
  have hcan : t.cancelled = s.cancelled := show t.shared.cancelled = s.shared.cancelled by rw [hsh]
  have hn : t.nextId = s.nextId := show t.shared.nextId = s.shared.nextId by rw [hsh]
  have hcl : t.closedAt = s.closedAt := show t.shared.closedAt = s.shared.closedAt by rw [hsh]
  refine ⟨⟨d,[],hc,by simpa using hcan,?_⟩,hn,.inl hcl⟩
  rw [pending,pending,hpool,hd]
  simp

theorem held_of_some {s : Rpc} {p : Pdu} (hp : s.pdu = some p) :
    s.held = if answered s.state p then [] else [p.id] := by
  simp [held,hp]

/-- `rpc_finished_pdu` calls back the PDU that `free_pdu` marks, and lets go of it. -/
theorem finished_called {s : Rpc} {p : Pdu} (hp : s.pdu = some p) :
    s.rpcFinishedPdu.called = s.called ++ (if p.freePdu then [p.id] else []) ∧
      s.rpcFinishedPdu.held = [] := by
  refine ⟨?_,rfl⟩
  unfold rpcFinishedPdu
  simp only [hp]
  split
  · simp [called,callback,calledIn]
  · simp [called]

/-- How a READ reply goes on after its header: nothing is called back twice, and what is not
called back yet is held, if `free_pdu` says that there is something to call back. -/
def Settles (u : Rpc) (p : Pdu) : Ctl → Prop
  | .more t => ∃ done, t.called = u.called ++ done ∧
      t.held ++ done = if p.freePdu then [p.id] else []
  | .fail t => t = u
  | .fault t => t.called = u.called

theorem finished_settles {u v : Rpc} {p q : Pdu} (hv : v.pdu = some q) (hid : q.id = p.id)
    (hfree : q.freePdu = p.freePdu) (hl : v.called = u.called) :
    Settles u p (.more v.rpcFinishedPdu) := by
  obtain ⟨h1,h2⟩ := finished_called hv
  rw [hid,hfree,hl] at h1
  exact ⟨_,h1,by rw [h2,List.nil_append]⟩

theorem placeData_settles (u : Rpc) (p : Pdu) (c : Cursor) (n pos : ℕ) :
    Settles u p (u.placeData p c n pos) := by
  unfold placeData
  dsimp only
  split
  · rfl
  · split
    · rfl
    · split
      · exact finished_settles rfl rfl rfl rfl
      · refine ⟨[],(List.append_nil _).symm,?_⟩
        rw [List.append_nil,held_of_some rfl]
        simp only [setRm0,answered]
        cases p.freePdu <;> rfl

theorem zeroCopyPayload_settles {u : Rpc} {p : Pdu} (hp : u.pdu = some p) (c : Cursor) (pos : ℤ) :
    Settles u p (u.zeroCopyPayload p c pos) := by
  unfold zeroCopyPayload
  split
  · rfl
  · split
    · exact finished_settles hp rfl rfl rfl
    · split
      · rfl
      · rfl
      · exact placeData_settles u p c _ _

/-- A reply that is read in full: its PDU is called back once, now or when its data is read. -/
theorem payloadDone_moves {P : Pdu → Prop} {s : Rpc} {p : Pdu} (hs : s.state = .readPayload)
    (hp : s.pdu = some p) (ok : PduOk P p)
    (hrej : p.cursor.isSome → rejects p (s.inbuf.take s.pduSize) →
      p.freePdu = false ∧ ∀ t, s.payloadDone ≠ .fail t) :
    s.payloadDone.All (Moves s) ∧
      ∀ t, s.payloadDone = .fault t → t.called = s.called ∨ t.called = s.called ++ [p.id] := by
  have hshared := payloadDone_shared s
  have hheld : s.held = [p.id] := by rw [held_of_some hp,hs]; rfl
  have hmoves : ∀ (t : Rpc) (done : List ℕ), t.shared = s.shared → t.called = s.called ++ done →
      t.held ++ done = [p.id] → Moves s t := by
    intro t done hsh hc hd
    exact .reader hsh hc (by rw [hheld,hd])
  cases hr : (s.logRecord (s.inbuf.take s.pduSize)).rpcProcessReply p (s.inbuf.take s.pduSize) with
  | none =>
    rw [payloadDone_none hp hr]
    exact ⟨trivial,fun t ht => .inl (by simp only [Ctl.fault.injEq] at ht; rw [← ht])⟩
  | some r =>
    obtain ⟨t,q,pos⟩ := r
    have hlog : (s.logRecord (s.inbuf.take s.pduSize)).called = s.called := by
      simp [called,logRecord,calledIn]
    rcases rpcProcessReply_some hr with ⟨hor,b,d,hq,last,st,da,ht⟩ | ⟨hsome,-,b,d,hq,ht⟩
    · have htc : t.called = s.called ++ [p.id] := by
        rw [← hlog,ht]
        simp [called,calledIn]
      cases hc : q.cursor with
      | none =>
        have hfree : q.freePdu = false := by
          rw [hq] at hc ⊢
          exact ok.plain hc
        have he := payloadDone_plain hp hr hc
        obtain ⟨h1,h2⟩ := finished_called (s := t.holding q) (p := q) rfl
        rw [he] at hshared ⊢
        refine ⟨hmoves _ [p.id] hshared ?_ (by rw [h2]; rfl),fun t ht => by simp at ht⟩
        rw [h1,hfree,if_neg Bool.false_ne_true,List.append_nil]
        exact htc
      | some c =>
        have hpc : p.cursor.isSome := by
          rw [hq] at hc
          exact Option.isSome_of_eq_some hc
        have hrejects : rejects p (s.inbuf.take s.pduSize) = true := by
          rcases hor with h | h
          · rw [h] at hpc
            simp at hpc
          · exact h
        obtain ⟨hfree,hnofail⟩ := hrej hpc hrejects
        have hqfree : q.freePdu = false := by rw [hq]; exact hfree
        have he := payloadDone_zeroCopy hp hr hc
        have hset := zeroCopyPayload_settles
          (u := t.holding (q.keepZdr (s.inbuf.take s.pduSize).length)) rfl c pos
        rw [← he] at hset
        cases hres : s.payloadDone with
        | more v =>
          rw [hres] at hset hshared
          obtain ⟨done,h1,h2⟩ := hset
          simp only [Pdu.keepZdr_freePdu,hqfree,Bool.false_eq_true,if_false,
            List.append_eq_nil_iff] at h2
          refine ⟨hmoves v [p.id] hshared ?_ (by rw [h2.1]; rfl),fun t ht => by simp at ht⟩
          rw [h1,h2.2,List.append_nil]
          exact htc
        | fail v => exact absurd hres (hnofail v)
        | fault v =>
          rw [hres] at hset
          refine ⟨trivial,fun w hw => .inr ?_⟩
          rw [← Ctl.fault.inj hw]
          exact hset.trans htc
    · have htc : t.called = s.called := by
        rw [← hlog,ht]
        rfl
      have hid : q.id = p.id := by rw [hq]
      have hqfree : q.freePdu = true := by rw [hq]
      cases hc : q.cursor with
      | none =>
        rw [hq] at hc
        rw [show p.cursor = none from hc] at hsome
        simp at hsome
      | some c =>
        have he := payloadDone_zeroCopy hp hr hc
        have hset := zeroCopyPayload_settles
          (u := t.holding (q.keepZdr (s.inbuf.take s.pduSize).length)) rfl c pos
        rw [← he] at hset
        cases hres : s.payloadDone with
        | more v =>
          rw [hres] at hset hshared
          obtain ⟨done,h1,h2⟩ := hset
          simp only [Pdu.keepZdr_freePdu,hqfree,if_true,Pdu.keepZdr_id,hid] at h2
          exact ⟨hmoves v done hshared (h1.trans (congrArg (· ++ done) htc)) h2,fun t ht => by simp at ht⟩
        | fail v =>
          rw [hres] at hset hshared
          have hts : t.state = .readPayload := by rw [ht]; exact hs
          have hv : v.held = [p.id] := by
            rw [show v = _ from hset,held_of_some rfl,show (t.holding _).state = _ from hts]
            exact congrArg ([·]) hid
          have hvc : v.called = s.called ++ [] := by
            rw [show v = _ from hset,List.append_nil]
            exact htc
          exact ⟨hmoves v [] hshared hvc (by rw [hv]; rfl),fun t ht => by simp at ht⟩
        | fault v =>
          rw [hres] at hset
          refine ⟨trivial,fun w hw => .inl ?_⟩
          rw [← Ctl.fault.inj hw]
          exact hset.trans htc

/-- The rest of a READ that is read into its vectors: the PDU is called back, if it is still owed
that, or its padding is to come. -/
theorem iovecDone_moves {s : Rpc} {p : Pdu} (hs : s.state = .readIovec) (hp : s.pdu = some p) :
    s.iovecDone.All (Moves s) ∧ ∀ t, s.iovecDone ≠ .fault t := by
  have hshared := iovecDone_shared s
  have hheld : s.held = if p.freePdu then [p.id] else [] := by
    rw [held_of_some hp,hs,answered]
    cases p.freePdu <;> rfl
  generalize hc : s.iovecDone = c at hshared ⊢
  unfold iovecDone at hc
  simp only [hp] at hc
  split at hc
  · subst hc
    refine ⟨?_,by simp⟩
    obtain ⟨h1,h2⟩ := finished_called (s := setRm0 { s with
      pdu := some { p with readCount := p.readCount-s.pduSize } } 0) rfl
    rename_i h0
    simp only [h0] at hshared ⊢
    exact .reader hshared h1 (by rw [h2,hheld]; rfl)
  · subst hc
    refine ⟨.reader (d := []) hshared (List.append_nil _).symm ?_,by simp⟩
    rw [hheld,held_of_some rfl,answered]
    cases p.freePdu <;> rfl

/-- Looking a reply up moves its PDU from the queues to the reader, or leaves it pending. -/
theorem lookedUp_moves {s u : Rpc} {x : ℕ} (hw : 0 < s.waitpdu.length) (hp : s.pdu = none)
    (h : LookedUp s x u) : Moves s u := by
  have hheld : s.held = [] := by simp [held,hp]
  have hlog : u.log = s.log → u.called = s.called := fun hl => by rw [called,called,hl]
  have hids : ∀ {v t : Rpc} {p : Pdu}, v.shared = s.shared → v.rpcFindPdu x = (some p,t) →
      (s.pool.map Pdu.id).Perm (p.id::t.pool.map Pdu.id) ∧ t.cancelled = s.cancelled ∧
        t.nextId = s.nextId ∧ t.closedAt = s.closedAt := by
    intro v t p hv hf
    have hvw : 0 < v.waitpdu.length := by
      rw [show v.waitpdu = s.waitpdu from show v.shared.waitpdu = s.shared.waitpdu by rw [hv]]
      exact hw
    have hvp : v.pool = s.pool := show v.shared.pool = s.shared.pool by rw [hv]
    obtain ⟨-,q,w,n,ht,-⟩ := rpcFindPdu_some hvw hf
    refine ⟨hvp ▸ rpcFindPdu_ids hvw hf,?_⟩
    rw [ht]
    exact ⟨show v.shared.cancelled = s.shared.cancelled by rw [hv],
      show v.shared.nextId = s.shared.nextId by rw [hv],
      show v.shared.closedAt = s.shared.closedAt by rw [hv]⟩
  cases h with
  | found v t p hv hf hu hup hus hl =>
    obtain ⟨h1,h2,h3,h4⟩ := hids hv hf
    have hpool : u.pool = t.pool := show u.shared.pool = t.shared.pool by rw [hu]
    have huh : u.held = [p.id] := by rw [held_of_some hup,hus]; rfl
    refine .of_eq (hlog hl) ?_ ?_ ?_ ?_
    · exact (show u.shared.cancelled = t.shared.cancelled by rw [hu]).trans h2
    · rw [pending,pending,hheld,huh,hpool,List.append_nil]
      exact h1.trans (List.perm_append_singleton _ _).symm
    · exact (show u.shared.nextId = t.shared.nextId by rw [hu]).trans h3
    · exact (show u.shared.closedAt = t.shared.closedAt by rw [hu]).trans h4
  | back v t p hv hf hu hup hl =>
    obtain ⟨h1,h2,h3,h4⟩ := hids hv hf
    have hpool : u.pool = (t.rpcReturnToOutqueue p).pool :=
      show u.shared.pool = (t.rpcReturnToOutqueue p).shared.pool by rw [hu]
    have huh : u.held = [] := by simp [held,hup]
    refine .of_eq (hlog hl) ?_ ?_ ?_ ?_
    · exact (show u.shared.cancelled = (t.rpcReturnToOutqueue p).shared.cancelled by
        rw [hu]).trans h2
    · rw [pending,pending,hheld,huh,hpool,List.append_nil,List.append_nil]
      refine h1.trans ?_
      have hi := (insertAfterHead_perm p.reset t.outqueue).map Pdu.id
      simp only [pool,rpcReturnToOutqueue,List.map_append] at hi ⊢
      exact (hi.append_right _).symm
    · exact (show u.shared.nextId = (t.rpcReturnToOutqueue p).shared.nextId by rw [hu]).trans h3
    · exact (show u.shared.closedAt = (t.rpcReturnToOutqueue p).shared.closedAt by
        rw [hu]).trans h4
  | unknown hu hup hl =>
    refine .reader (d := []) hu (by rw [hlog hl,List.append_nil]) ?_
    rw [hheld]
    simp [held,hup]

theorem readPrep_called {P : Pdu → Prop} {s t : Rpc} (h : s.Ok P) (ht : s.readPrep = some t) :
    t.called = s.called ∧ t.held = s.held := by
  obtain ⟨i,n,rfl⟩ := h.readPrep_eq ht
  exact ⟨rfl,rfl⟩

/-- Bytes that are stored change the PDU that is held only in its cursor. -/
theorem readStore_called {t v : Rpc} {bs : List UInt8} (h : t.readStore bs = some v) :
    v.called = t.called ∧ v.held = t.held := by
  unfold readStore at h
  split at h
  · exact Option.some.inj h ▸ ⟨rfl,rfl⟩
  · exact Option.some.inj h ▸ ⟨rfl,rfl⟩
  · exact Option.some.inj h ▸ ⟨rfl,rfl⟩
  · exact Option.some.inj h ▸ ⟨rfl,rfl⟩
  · exact Option.some.inj h ▸ ⟨rfl,rfl⟩
  · split at h
    · simp at h
    · rename_i p hp
      split at h
      · simp at h
      · obtain ⟨d,-,rfl⟩ := Option.map_eq_some_iff.mp h
        refine ⟨rfl,?_⟩
        rw [held_of_some rfl,held_of_some hp]
        rfl

theorem readStore_payload {t v : Rpc} {bs : List UInt8} (hs : t.state = .readPayload)
    (h : t.readStore bs = some v) :
    v.inbuf = overwrite t.inbuf t.inpos bs ∧ v.inpos = t.inpos+bs.length ∧
      v.pduSize = t.pduSize ∧ v.pdu = t.pdu := by
  simp only [readStore,hs,Option.some.injEq] at h
  subst h
  exact ⟨rfl,rfl,rfl,rfl⟩

theorem readStore_iovec {t v : Rpc} {p : Pdu} {bs : List UInt8} (hs : t.state = .readIovec)
    (hp : t.pdu = some p) (h : t.readStore bs = some v) : ∃ d, v.pdu = some { p with cursor := d } := by
  simp only [readStore,hs,hp] at h
  split at h
  · simp at h
  · obtain ⟨d,-,rfl⟩ := Option.map_eq_some_iff.mp h
    exact ⟨some d,rfl⟩

/-- The zero-copy READ whose reply `r` completes, where that reply is no success. -/
def rejected (s : Rpc) : Recv → Option Pdu
  | .data bs =>
    s.readPrep.bind fun t => t.pdu.bind fun p =>
      if t.state = .readPayload ∧ t.inpos+bs.length = t.pduSize ∧ p.cursor.isSome ∧
          rejects p ((overwrite t.inbuf t.inpos bs).take t.pduSize) then some p
      else none
  | _ => none

/-- A READ that is answered with an error is called back in `rpc_process_reply`: it must not be
marked for another call from an earlier try, and must not be put back on the queue. -/
def RejectsOnce (s : Rpc) (r : Recv) : Prop :=
  ∀ p, s.rejected r = some p → p.freePdu = false ∧ ∀ t, s.recvStep r ≠ .fail t

/-- What the process has done when it dies. -/
def DiesOwing (s t : Rpc) : Prop :=
  t.called = s.called ∨ ∃ id ∈ s.pending, t.called = s.called ++ [id]

theorem matchRecord_ne_fault (v u : Rpc) (size x : ℕ) : v.matchRecord size x ≠ .fault u := by
  unfold matchRecord
  split
  · split <;> simp
  · split <;> simp

theorem rmDone_ne_fault (v u : Rpc) : v.rmDone ≠ .fault u := by
  unfold rmDone
  dsimp only
  generalize be32 v.rmXid-2^31 = size
  by_cases hm : be32 v.rmXid < 2^31
  · rw [if_pos hm]
    simp
  · rw [if_neg hm]
    split
    · simp
    · exact matchRecord_ne_fault _ u _ _

theorem readDone_moves {P : Pdu → Prop} {s t v : Rpc} {bs : List UInt8} (h : s.Ok P)
    (hrej : s.RejectsOnce (.data bs)) (hstep : s.recvStep (.data bs) = v.readDone)
    (ht : s.readPrep = some t) (hp : Prepared P t) (hbs : 0 < bs.length)
    (hle : t.inpos+bs.length ≤ t.pduSize) (hv : t.readStore bs = some v)
    (heq : v.inpos = v.pduSize) :
    v.readDone.All (Moves s) ∧ ∀ u, v.readDone = .fault u → DiesOwing s u := by
  obtain ⟨hts,htst⟩ := readPrep_shared ht
  obtain ⟨hvs,hvst⟩ := readStore_shared hv
  obtain ⟨htc,hth⟩ := readPrep_called h ht
  obtain ⟨hvc,hvh⟩ := readStore_called hv
  have hsv : Moves s v := by
    refine .reader (d := []) (hvs.trans hts) ?_ ?_
    · rw [hvc,htc,List.append_nil]
    · rw [hvh,hth,List.append_nil]
  have hpend : v.pending = s.pending := by
    have hpool : v.pool = s.pool :=
      show v.shared.pool = s.shared.pool by rw [hvs,hts]
    rw [pending,pending,hpool,hvh,hth]
  cases hp with
  | marker hs hpn hsz =>
    have hst := htst.symm.trans hs
    obtain ⟨-,-,htl,htw⟩ := readPrep_marker hst ht
    obtain ⟨-,-,hvl,hvw,-⟩ := readStore_marker hs hv
    have hw : 0 < v.waitpdu.length := by
      rw [hvw,htw]
      exact h.hashes
    have hlook := rmDone_lookedUp hw (hvs.trans hts) (hvl.trans htl)
    have hnofault := rmDone_ne_fault v
    rw [readDone_marker (hvst.trans hs)]
    refine ⟨?_,fun u hu => absurd hu (hnofault u)⟩
    split at hlook
    · exact Ctl.all_of_rpc (lookedUp_moves h.hashes (h.idle hst) hlook)
    · obtain ⟨u,hu,hus,hup,hul⟩ := hlook
      rw [hu]
      have hvp : v.pdu = none := by
        simp only [readStore,hs,Option.some.injEq] at hv
        rw [← hv]
        exact hpn
      refine .reader (d := []) hus (by rw [called,hul,List.append_nil]; rfl) ?_
      simp [held,h.idle hst,hup,hvp]
  | payload p hs hpp ok hrm hsz hi hb hroom =>
    obtain ⟨hvb,hvi,hvsz,hvp⟩ := readStore_payload hs hv
    have hd : v.readDone = v.payloadDone := by simp only [readDone,hvst,hs]
    rw [hpp] at hvp
    have hpay := payloadDone_moves (hvst.trans hs) hvp ok (by
      intro hcur hr
      have hsome : s.rejected (.data bs) = some p := by
        rw [hvb,hvsz] at hr
        have hn : t.inpos+bs.length = t.pduSize := by rw [← hvi,heq,hvsz]
        simp only [rejected,ht,Option.bind_some,hpp,hs,hn,hcur,hr,true_and,and_self,if_true]
      rw [← hd,← hstep]
      exact hrej p hsome)
    rw [hd]
    refine ⟨?_,fun u hu => ?_⟩
    · exact hpay.1.imp fun u hu => hsv.trans hu
    · have hcalled : v.called = s.called := hvc.trans htc
      rcases hpay.2 u hu with hu | hu
      · exact .inl (hu.trans hcalled)
      · refine .inr ⟨p.id,?_,by rw [hu,hcalled]⟩
        rw [← hpend,pending,held_of_some hvp,hvst,hs]
        exact List.mem_append_right _ List.mem_cons_self
  | unknown hs hpn =>
    have hd : v.readDone = .more { v with state := .readRm, inpos := 0 } := by
      simp only [readDone,hvst,hs]
    rw [hd]
    refine ⟨hsv.trans (.reader (d := []) rfl (List.append_nil _).symm ?_),by simp⟩
    have hth' : t.held = [] := by simp [held,hpn]
    have hvp : v.pdu = none := by
      simp only [readStore,hs,Option.some.injEq] at hv
      rw [← hv]
      exact hpn
    rw [hvh,hth']
    simp [held,hvp]
  | iovec p c hs hpp ok hc =>
    obtain ⟨d,hd⟩ := readStore_iovec hs hpp hv
    obtain ⟨hm,hf⟩ := iovecDone_moves (hvst.trans hs) hd
    have hd : v.readDone = v.iovecDone := by simp only [readDone,hvst,hs]
    rw [hd]
    exact ⟨hm.imp fun u hu => hsv.trans hu,fun u hu => absurd hu (hf u)⟩
  | padding p hs hpp =>
    have hd : v.readDone = .more v.rpcFinishedPdu := by simp only [readDone,hvst,hs]
    have hvp : v.pdu = some p := by
      simp only [readStore,hs,Option.some.injEq] at hv
      rw [← hv]
      exact hpp
    obtain ⟨h1,h2⟩ := finished_called hvp
    rw [hd]
    refine ⟨hsv.trans (.reader (finished_shared v) h1 ?_),by simp⟩
    rw [h2,held_of_some hvp,hvst,hs,answered]
    cases p.freePdu <;> rfl
  | stuck hs hi hsz => omega

/-- A turn of the read loop calls back the PDU whose reply it completes, and that once. -/
theorem recvStep_moves {P : Pdu → Prop} {s : Rpc} (h : s.Ok P) {r : Recv} (hrej : s.RejectsOnce r) :
    (s.recvStep r).All (Moves s) ∧ ∀ u, s.recvStep r = .fault u → DiesOwing s u := by
  have hturn := recvStep_turn h r
  have hprep : ∀ t, s.readPrep = some t → Moves s t := by
    intro t ht
    obtain ⟨hc,hh⟩ := readPrep_called h ht
    exact .reader (d := []) (readPrep_shared ht).1 (by rw [hc,List.append_nil])
      (by rw [hh,List.append_nil])
  generalize hstep : s.recvStep r = c at hturn ⊢
  cases hturn with
  | none => exact ⟨.refl s,by simp⟩
  | idle t ht => exact ⟨hprep t ht,by simp⟩
  | lost t ht => exact ⟨hprep t ht,by simp⟩
  | abort t bs hr ht =>
    refine ⟨trivial,fun u hu => .inl ?_⟩
    rw [← Ctl.fault.inj hu]
    exact (readPrep_called h ht).1
  | part t v bs hr ht hp hv =>
    obtain ⟨hc,hh⟩ := readStore_called hv
    refine ⟨(hprep t ht).trans (.reader (d := []) (readStore_shared hv).1 ?_ ?_),by simp⟩
    · rw [hc,List.append_nil]
    · rw [hh,List.append_nil]
  | full t v bs hr ht hp hbs hle hv heq =>
    subst hr
    exact readDone_moves h hrej hstep ht hp hbs hle hv heq

theorem matchRecord_fail {v u : Rpc} {size x : ℕ} (h : v.matchRecord size x = .fail u) :
    u.pdu = none := by
  unfold matchRecord at h
  split at h
  · split at h
    · exact Ctl.fail.inj h ▸ rfl
    · simp at h
  · split at h
    · exact Ctl.fail.inj h ▸ rfl
    · simp at h

theorem rmDone_fail {v u : Rpc} (hp : v.pdu = none) (h : v.rmDone = .fail u) : u.pdu = none := by
  unfold rmDone at h
  dsimp only at h
  generalize be32 v.rmXid-2^31 = size at h
  by_cases hm : be32 v.rmXid < 2^31
  · rw [if_pos hm] at h
    exact Ctl.fail.inj h ▸ hp
  · rw [if_neg hm] at h
    split at h
    · exact Ctl.fail.inj h ▸ hp
    · exact matchRecord_fail h

theorem payloadDone_fail {s u : Rpc} (hs : s.state = .readPayload) (h : s.payloadDone = .fail u) :
    u.state = .readPayload ∧ s.pdu.isSome := by
  cases hp : s.pdu with
  | none => simp [payloadDone,hp] at h
  | some p =>
    refine ⟨?_,rfl⟩
    cases hr : (s.logRecord (s.inbuf.take s.pduSize)).rpcProcessReply p (s.inbuf.take s.pduSize) with
    | none => simp [payloadDone_none hp hr] at h
    | some r =>
      obtain ⟨t,q,pos⟩ := r
      have ht : t.state = .readPayload := by
        rcases rpcProcessReply_some hr with ⟨-,b,d,-,last,st,da,ht⟩ | ⟨-,-,b,d,-,ht⟩
        · rw [ht]
          exact hs
        · rw [ht]
          exact hs
      cases hc : q.cursor with
      | none => simp [payloadDone_plain hp hr hc] at h
      | some c =>
        have hset := zeroCopyPayload_settles
          (u := t.holding (q.keepZdr (s.inbuf.take s.pduSize).length)) rfl c pos
        rw [← payloadDone_zeroCopy hp hr hc,h] at hset
        rw [show u = _ from hset]
        exact ht

/-- Whether a failed read is followed by a clean requeue is known before it. -/
theorem recvStep_canRequeue {P : Pdu → Prop} {s u : Rpc} (h : s.Ok P) {r : Recv}
    (hu : s.recvStep r = .fail u) (hcan : s.CanRequeue) (hauto : u.autoReconnect = s.autoReconnect) :
    u.CanRequeue := by
  have hturn := recvStep_turn h r
  rw [hu] at hturn
  have hnone : u.pdu = none → u.CanRequeue := fun hn => ⟨fun _ => by simp [held,hn],by simp [hn]⟩
  generalize hc : Ctl.fail u = c at hturn
  cases hturn with
  | none => simp at hc
  | idle => simp at hc
  | lost t ht =>
    obtain rfl := Ctl.fail.inj hc
    obtain ⟨i,n,rfl⟩ := h.readPrep_eq ht
    exact hcan
  | abort => simp at hc
  | part => simp at hc
  | full t v bs hr ht hp hbs hle hv heq =>
    obtain ⟨hts,htst⟩ := readPrep_shared ht
    obtain ⟨hvs,hvst⟩ := readStore_shared hv
    have hvst' := hvst.trans htst
    cases hst : s.state with
    | readRm =>
      rw [readDone_marker (hvst'.trans hst)] at hc
      refine hnone (rmDone_fail ?_ hc.symm)
      have htp : t.pdu = none := by
        obtain ⟨i,n,rfl⟩ := h.readPrep_eq ht
        exact h.idle hst
      simp only [readStore,htst.trans hst,Option.some.injEq] at hv
      rw [← hv]
      exact htp
    | readPayload =>
      simp only [readDone,hvst'.trans hst] at hc
      obtain ⟨hus,hvp⟩ := payloadDone_fail (hvst'.trans hst) hc.symm
      obtain ⟨-,-,-,hvt⟩ := readStore_payload (htst.trans hst) hv
      have hsp : s.pdu = v.pdu := by
        obtain ⟨i,n,rfl⟩ := h.readPrep_eq ht
        exact hvt.symm
      obtain ⟨p,hp⟩ := Option.isSome_iff_exists.mp hvp
      have hheld : s.held = [p.id] := by rw [held_of_some (hsp.trans hp),hst]; rfl
      refine ⟨fun h0 => ?_,fun _ q _ => by rw [hus]; rfl⟩
      have := hcan.1 (hauto.symm.trans h0)
      simp [hheld] at this
    | readFragment => simp [readDone,hvst'.trans hst] at hc
    | readIovec =>
      simp only [readDone,hvst'.trans hst,iovecDone] at hc
      split at hc
      · simp at hc
      · split at hc <;> simp at hc
    | readPadding => simp [readDone,hvst'.trans hst] at hc
    | readUnknown => simp [readDone,hvst'.trans hst] at hc

theorem CanRequeue.congr {s t : Rpc} (h : s.CanRequeue) (hr : t.readerPart = s.readerPart)
    (ha : t.autoReconnect = s.autoReconnect) : t.CanRequeue := by
  have hh := held_congr hr
  simp only [readerPart,Prod.mk.injEq] at hr
  unfold CanRequeue
  rw [ha,hh,hr.1,hr.2.2.2.1]
  exact h

/-- A new PDU is pending. -/
theorem enqueueCall_accounted {s : Rpc} (h : s.Accounted) (c : Call) :
    (s.enqueueCall c).Accounted := by
  have hpend : (s.enqueueCall c).pending.Perm (s.pending ++ [s.nextId]) := by
    obtain ⟨a,b,ha⟩ := newPdu_eq s c
    have hid : (s.newPdu c).id = s.nextId := by
      rw [ha]
      rfl
    have hheld : (s.enqueueCall c).held = s.held := rfl
    have hout : (s.enqueueCall c).outqueue = s.outqueue ++ [s.newPdu c] := rfl
    have hwait : (s.enqueueCall c).waitpdu = s.waitpdu := rfl
    rw [List.perm_iff_count]
    intro x
    simp only [pending,pool,hheld,hout,hwait,List.map_append,List.map_cons,List.map_nil,hid,
      List.count_append]
    omega
  refine ⟨?_,?_,?_⟩
  · have hl := h.ledger
    rw [show (s.enqueueCall c).nextId = s.nextId+1 from rfl,List.range_succ]
    rw [List.perm_iff_count] at hl hpend ⊢
    intro x
    have hx := hl x
    have hy := hpend x
    simp only [List.count_append] at hx hy ⊢
    rw [show (s.enqueueCall c).called = s.called from rfl,
      show (s.enqueueCall c).cancelled = s.cancelled from rfl]
    omega
  · exact h.closed.trans (Nat.le_succ _)
  · intro id hid
    rcases List.mem_append.mp (hpend.subset hid) with hid | hid
    · exact h.fresh id hid
    · rw [List.mem_singleton.mp hid]
      exact h.closed

theorem rpcDisconnect_moves {s : Rpc} (hh : s.held = []) (hp : s.isConnected = false → s.pool = [])
    (error : String) : Moves s (s.rpcDisconnect error) := by
  unfold rpcDisconnect
  dsimp only
  split
  · rename_i hc
    have hpend : s.pending = [] := by rw [pending,hp hc,hh]; rfl
    exact ⟨⟨[],[],(List.append_nil _).symm,(List.append_nil _).symm,hpend ▸ hpend ▸ .refl _⟩,rfl,
      .inr ⟨rfl,hpend⟩⟩
  · have hpurge := rpcPurgeAllPdus_moves (s := s)
      (t := rpcErrorAllPdus { rpcSetResiliency { s with fd := false, closedAt := s.nextId } 0
        s.timeout 0 with isConnected := false } error)
      hh rfl rfl rfl (purged_pool s .error (.text error)) rfl rfl
    refine hpurge.trans (maybeCallConnectCb_moves (fun _ _ => ?_) _)
    exact ⟨fun _ => hh,fun h => absurd rfl h⟩

theorem rpcDestroyContext_moves {s : Rpc} (hh : s.held = []) : Moves s s.rpcDestroyContext :=
  rpcPurgeAllPdus_moves hh rfl rfl rfl (purged_pool s .cancel .null) rfl rfl

theorem orRequeue_moves {s : Rpc} {r : Rpc × Bool} (h : Moves s r.1)
    (hcan : r.2 = false → r.1.CanRequeue) (conn : Connect) : Moves s (orRequeue conn r) := by
  unfold orRequeue
  split
  · exact h
  · rename_i hr
    exact h.trans (rpcReconnectRequeue_moves (hcan (by simpa using hr)) conn)

/-- The condition under which no PDU is lost or called back twice: the context is not closed while
a PDU is half read, nor before it is connected with PDUs on the queue; the connection does not
fail in the few bytes after the callback of a READ; and a READ that is answered with an error
`RejectsOnce`. -/
def Orderly (s : Rpc) : Event → Prop
  | .recv r _ => s.RejectsOnce r ∧ ((∃ t, s.recvStep r = .fail t) → s.CanRequeue)
  | .timeoutScan _ => s.rpcTimeoutScan.2 = false → s.CanRequeue
  | .write ws _ => (s.rpcWriteToSocket ws).2 = false → s.CanRequeue
  | .pollError _ => s.autoReconnect ≠ 0 ∨ s.connectCb = .reconnect → s.CanRequeue
  | .pollConnect soError _ => soError = true → s.connectCb = .reconnect → s.CanRequeue
  | .disconnect _ => s.held = [] ∧ (s.isConnected = false → s.pool = [])
  | .destroy => s.held = []
  | _ => True

/-- No PDU is called back twice, and those from before the last close are called back. -/
def Once (s : Rpc) : Prop :=
  ∀ id, s.called.count id ≤ 1 ∧
    (id < s.closedAt → id ∉ s.cancelled → s.called.count id = 1)

theorem Accounted.once {s : Rpc} (h : s.Accounted) : s.Once := by
  intro id
  have hc := h.ledger.count_eq id
  have hle : (List.range s.nextId).count id ≤ 1 := List.nodup_iff_count_le_one.mp List.nodup_range id
  simp only [List.count_append] at hc
  refine ⟨by omega,fun hid hcan => ?_⟩
  have hone : (List.range s.nextId).count id = 1 :=
    List.count_eq_one_of_mem List.nodup_range (List.mem_range.mpr (hid.trans_le h.closed))
  have hcan' : s.cancelled.count id = 0 := List.count_eq_zero.mpr hcan
  have hpend : s.pending.count id = 0 := by
    rw [List.count_eq_zero]
    intro hmem
    exact absurd (h.fresh id hmem) (Nat.not_le.mpr hid)
  omega

theorem DiesOwing.once {s t : Rpc} (h : s.Accounted) (hd : DiesOwing s t)
    (hcan : t.cancelled = s.cancelled) (hcl : t.closedAt = s.closedAt) : t.Once := by
  rcases hd with he | ⟨id,hid,he⟩
  · intro x
    rw [he,hcan,hcl]
    exact h.once x
  · intro x
    have hx := h.once x
    rw [he,hcan,hcl,List.count_append]
    rcases eq_or_ne x id with rfl | hne
    · have hc := h.ledger.count_eq x
      have hle : (List.range s.nextId).count x ≤ 1 :=
        List.nodup_iff_count_le_one.mp List.nodup_range x
      have hpos : 0 < s.pending.count x := List.count_pos_iff.mpr hid
      simp only [List.count_append,List.count_cons_self,List.count_nil] at hc ⊢
      have hfresh := h.fresh x hid
      exact ⟨by omega,fun h => absurd h (by omega)⟩
    · rw [List.count_cons_of_ne hne.symm,List.count_nil,Nat.add_zero]
      exact hx

theorem act_accounted {P : Pdu → Prop} {s : Rpc} (hok : s.Ok P) (h : s.Accounted) {e : Event}
    (hP : Queues P e) (ho : s.Orderly e) :
    ((s.act e).crashed = false → (s.act e).Accounted) ∧ (s.act e).Once := by
  have hdone : ∀ {t : Rpc}, t.Accounted → (t.crashed = false → t.Accounted) ∧ t.Once :=
    fun ht => ⟨fun _ => ht,ht.once⟩
  have hsame : ∀ {t : Rpc}, Moves s t → (t.crashed = false → t.Accounted) ∧ t.Once :=
    fun m => hdone (h.moves m)
  cases e with
  | tick => exact hsame (.queues rfl rfl rfl (List.Perm.refl _) rfl rfl)
  | memory => exact hsame (.queues rfl rfl rfl (List.Perm.refl _) rfl rfl)
  | setResiliency => exact hsame (.queues rfl rfl rfl (List.Perm.refl _) rfl rfl)
  | disableSocket => exact hsame (.queues rfl rfl rfl (List.Perm.refl _) rfl rfl)
  | setProgram => exact hsame (.queues rfl rfl rfl (List.Perm.refl _) rfl rfl)
  | queuePdu c ws =>
    simp only [act,rpcQueuePdu]
    split
    · have hq := enqueueCall_accounted h c
      split
      · exact hdone (hq.moves (rpcWriteToSocket_moves (enqueueCall_ok hok (hP _ _)).toQueueOk ws))
      · exact hdone hq
    · exact hdone h
  | cancelPdu x => exact hsame (rpcCancelPdu_moves hok.hashes x)
  | timeoutScan conn =>
    obtain ⟨hr,ha⟩ := rpcTimeoutScan_frame s
    exact hsame (orRequeue_moves (rpcTimeoutScan_moves s) (fun hf => (ho hf).congr hr (congrArg Prod.fst ha)) conn)
  | pollError conn =>
    simp only [act,pollError]
    split
    · rename_i h0
      exact hsame (rpcReconnectRequeue_moves (ho (.inl h0)) conn)
    · exact hsame (maybeCallConnectCb_moves (fun _ hc => ho (.inr hc)) conn)
  | pollConnect soError conn =>
    simp only [act,pollConnect]
    split
    · split
      · rename_i hso
        exact hsame (maybeCallConnectCb_moves (fun _ hc => ho hso hc) conn)
      · have h0 : Moves s { s with isConnected := true } :=
          .queues rfl rfl rfl (List.Perm.refl _) rfl rfl
        exact hsame (h0.trans (maybeCallConnectCb_moves (fun hst => absurd rfl hst) conn))
    · exact hdone h
  | recv r conn =>
    obtain ⟨hrej,hcan⟩ := ho
    obtain ⟨hm,hf⟩ := recvStep_moves hok hrej
    have hb := recvStep_booked hok r
    simp only [act]
    cases hc : s.recvStep r with
    | more t =>
      rw [hc] at hm
      exact hsame hm
    | fail t =>
      rw [hc] at hm hb
      have ht := recvStep_canRequeue hok hc (hcan ⟨t,hc⟩) (congrArg Prod.fst hb)
      exact hsame (Moves.trans hm (rpcReconnectRequeue_moves ht conn))
    | fault t =>
      rw [hc] at hb
      simp only [Ctl.rpc,booked,Prod.mk.injEq] at hb
      have ho := (hf t hc).once h hb.2.1 hb.2.2.1
      exact ⟨fun hcr => by simp [afterRead] at hcr,ho⟩
  | write ws conn =>
    simp only [act,pollWrite]
    split
    · exact hdone h
    · refine hsame (orRequeue_moves (rpcWriteToSocket_moves hok.toQueueOk ws) (fun hr => ?_) conn)
      obtain ⟨q,w,n,b,he⟩ := rpcWriteToSocket_frame s ws
      rw [he]
      exact ho hr
  | disconnect error => exact hsame (rpcDisconnect_moves ho.1 ho.2 error)
  | connectAsync conn =>
    simp only [act,rpcConnectAsync]
    split
    · exact hdone h
    · have h0 : Moves s { s with autoReconnect := 0 } :=
        .queues rfl rfl rfl (List.Perm.refl _) rfl rfl
      cases conn with
      | none => exact hsame h0
      | some conn =>
        have h1 : Moves s { s with autoReconnect := 0, connectCb := .user } :=
          .queues rfl rfl rfl (List.Perm.refl _) rfl rfl
        exact hsame (h1.trans (rpcConnectSockaddrAsync_moves _ conn))
  | destroy => exact hsame (rpcDestroyContext_moves ho)

/-- A disconnect, a destroy and a reconnect that gives up close the books on every PDU so far. -/
theorem closedAt_closing (s : Rpc) :
    (∀ error, (s.rpcDisconnect error).closedAt = s.nextId) ∧ s.rpcDestroyContext.closedAt = s.nextId ∧
      ∀ conn, (s.rpcReconnectRequeue conn).2 = false →
        (s.rpcReconnectRequeue conn).1.closedAt = s.nextId := by
  refine ⟨fun error => ?_,rfl,fun conn hr => ?_⟩
  · unfold rpcDisconnect
    dsimp only
    split
    · rfl
    · unfold maybeCallConnectCb reconnectCb
      split
      · rfl
      · rfl
      · split
        · rw [rpcReconnectRequeue_disabled rfl]
          rfl
        · rfl
  · have hn : ∀ u : Rpc, u.nextId = s.nextId → ∀ error, (u.rpcErrorAllPdus error).closedAt = s.nextId :=
      fun u hu error => hu
    unfold rpcReconnectRequeue at hr ⊢
    split
    · exact hn s rfl _
    · rename_i h0
      have hq : s.requeueAll.nextId = s.nextId := by
        rw [requeueAll_eq]
        rfl
      simp only [if_neg h0] at hr
      dsimp only
      split
      · rename_i hmore
        simp only [if_pos hmore] at hr
        split
        · rename_i hok
          simp [hok] at hr
        · obtain ⟨b,l,he⟩ := rpcConnectSockaddrAsync_eq s.requeueAll.retrying conn
          refine hn _ ?_ _
          rw [he]
          exact hq
      · exact hn _ hq _

/-- Exactly-once completion in every orderly run: each PDU is called back at most once, and
exactly once if it was there, and not cancelled, when the context was last closed. -/
theorem exactly_once (cfg : Config) (es : List Event) (hg : Guarded step Orderly (init cfg) es) :
    (∀ id, (after cfg es).called.count id ≤ 1 ∧
      (id < (after cfg es).closedAt → id ∉ (after cfg es).cancelled →
        (after cfg es).called.count id = 1)) ∧
    (∀ error, ((after cfg es).rpcDisconnect error).closedAt = (after cfg es).nextId) ∧
    (after cfg es).rpcDestroyContext.closedAt = (after cfg es).nextId ∧
    ∀ conn, ((after cfg es).rpcReconnectRequeue conn).2 = false →
      ((after cfg es).rpcReconnectRequeue conn).1.closedAt = (after cfg es).nextId := by
  refine ⟨?_,closedAt_closing _⟩
  have hq : Guarded step (fun _ e => Queues (fun _ => True) e) (init cfg) es :=
    guarded_of_forall step (fun e _ _ => by cases e <;> simp [Queues]) _
  have hinv := guarded_induction
    (P := fun s => (s.crashed = false → s.Ok (fun _ => True) ∧ s.Accounted) ∧ s.Once) step
    (guarded_and step hg hq) ⟨fun _ => ⟨init_ok cfg,?_⟩,?_⟩ ?_
  · exact hinv.2
  · have hp : (init cfg).pending = [] := by simp [pending,pool,held,init]
    exact ⟨by rw [hp]; exact List.Perm.refl _,le_refl _,by simp [hp]⟩
  · intro id
    exact ⟨by simp [called,calledIn,init],fun h => by simp [init] at h⟩
  · rintro u e ⟨hu,hs⟩ ⟨ho,hP⟩
    unfold step
    split
    · exact ⟨hu,hs⟩
    · rename_i hlive
      have hc : u.crashed = false := by simp only [not_or,Bool.not_eq_true] at hlive; exact hlive.2
      obtain ⟨h1,h2⟩ := act_accounted (hu hc).1 (hu hc).2 hP ho
      exact ⟨fun hcr => ⟨act_ok (hu hc).1 e hP hcr,h1 hcr⟩,h2⟩

/-- A reply without a result, and then the end. -/
def demoAnswered : List Event :=
  demoHalfRead ++ [.recv (.data (beBytes 1 ++ List.replicate 16 0)) .started,.disconnect ""]

theorem exactly_once_demo :
    (∀ id, (after demoConfig demoAnswered).called.count id ≤ 1 ∧
      (id < (after demoConfig demoAnswered).closedAt → id ∉ (after demoConfig demoAnswered).cancelled →
        (after demoConfig demoAnswered).called.count id = 1)) ∧
    (after demoConfig demoAnswered).closedAt = 1 ∧ (after demoConfig demoAnswered).called = [0] := by
  refine ⟨(exactly_once demoConfig demoAnswered ?_).1,by decide,by decide⟩
  refine ⟨trivial,fun h => by simp at h,trivial,⟨?_,?_⟩,⟨?_,?_⟩,⟨rfl,fun h => ?_⟩,trivial⟩
  · intro p hp
    have hnone : rejected (after demoConfig (demoConnect ++ [.queuePdu demoNull [.wrote 44]]))
      (.data [0x80,0,0,24,0,0,0,1]) = none := rfl
    cases hnone.symm.trans hp
  · rintro -
    exact ⟨fun _ => rfl,fun h => absurd rfl h⟩
  · intro p hp
    have hnone : rejected (after demoConfig demoHalfRead)
      (.data (beBytes 1 ++ List.replicate 16 0)) = none := rfl
    cases hnone.symm.trans hp
  · rintro ⟨t,ht⟩
    have hmore : ∃ u, recvStep (after demoConfig demoHalfRead)
      (.data (beBytes 1 ++ List.replicate 16 0)) = .more u := ⟨_,rfl⟩
    obtain ⟨u,hu⟩ := hmore
    cases hu.symm.trans ht
  · rfl

/-- A reply is half read when the application disconnects: its PDU is never called back. -/
theorem lost_half_read :
    0 < (after demoConfig (demoHalfRead ++ [.disconnect ""])).closedAt ∧
      0 ∉ (after demoConfig (demoHalfRead ++ [.disconnect ""])).cancelled ∧
      (after demoConfig (demoHalfRead ++ [.disconnect ""])).called.count 0 = 0 :=
  ⟨by decide,by decide,by decide⟩

end Rpc
end Libnfs
