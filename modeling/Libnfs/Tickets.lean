import Libnfs.ExactlyOnce
import Libnfs.Reading

/-! The xids of the requests. A PDU is a ticket, its number and its xid: no ticket is there twice, the xid is the number counted from
the first xid, and a PDU that waits for its reply is in the chain of its xid. So a record finds the PDU with its xid if there is one. -/
namespace Libnfs

open ByteWords Scatter Zdr Transition

variable {P : Pdu → Prop}

def Pdu.ticket (p : Pdu) : ℕ × ℕ := (p.id,p.xid)

namespace Rpc

def tickets (s : Rpc) : List (ℕ × ℕ) := s.outstanding.map Pdu.ticket

/-- The chain of a PDU that waits is that of its xid. -/
def Hashed (s : Rpc) : Prop := ∀ i, ∀ p ∈ s.waitpdu.getD i [], s.rpcHashXid p.xid = i

/-- From `s` to `t` some PDUs go, and none comes. -/
structure Keeps (s t : Rpc) : Prop where
  tickets : ∀ x, t.tickets.count x ≤ s.tickets.count x
  nextId : t.nextId = s.nextId
  xid : t.xid = s.xid
  hashes : t.waitpdu.length = s.waitpdu.length
  hashed : s.Hashed → t.Hashed

/-- The first PDU had the xid `x0`. -/
structure Ticketed (x0 : ℕ) (s : Rpc) : Prop where
  once : ∀ x, s.tickets.count x ≤ 1
  issued : ∀ p ∈ s.outstanding, p.id < s.nextId ∧ p.xid = (x0+p.id) % 2^32
  next : s.xid = (x0+s.nextId) % 2^32
  hashed : s.Hashed

section Queues

variable {s t u : Rpc}

theorem Keeps.refl (s : Rpc) : Keeps s s := ⟨fun _ => le_refl _,rfl,rfl,rfl,id⟩

theorem Keeps.trans (h : Keeps s t) (k : Keeps t u) : Keeps s u where
  tickets x := (k.tickets x).trans (h.tickets x)
  nextId := k.nextId.trans h.nextId
  xid := k.xid.trans h.xid
  hashes := k.hashes.trans h.hashes
  hashed hs := k.hashed (h.hashed hs)

theorem Keeps.of_eq (ho : t.outqueue = s.outqueue) (hw : t.waitpdu = s.waitpdu) (hp : t.pdu = s.pdu) (hn : t.nextId = s.nextId)
    (hx : t.xid = s.xid) : Keeps s t := by
  refine ⟨fun x => ?_,hn,hx,by rw [hw],fun h => ?_⟩
  · rw [Rpc.tickets,Rpc.tickets,outstanding,outstanding,ho,hw,hp]
  · unfold Hashed rpcHashXid at h ⊢
    rw [hw]
    exact h

theorem Ticketed.keeps {x0 : ℕ} (h : s.Ticketed x0) (k : Keeps s t) : t.Ticketed x0 where
  once x := (k.tickets x).trans (h.once x)
  issued p hp := by
    have hpos : 0 < t.tickets.count p.ticket := List.count_pos_iff.2 (List.mem_map_of_mem hp)
    have hmem : p.ticket ∈ s.tickets := List.count_pos_iff.1 (hpos.trans_le (k.tickets _))
    obtain ⟨q,hq,he⟩ := List.mem_map.1 hmem
    have hi := h.issued q hq
    obtain ⟨hid,hxid⟩ : q.id = p.id ∧ q.xid = p.xid := ⟨congrArg Prod.fst he,congrArg Prod.snd he⟩
    rw [hid,hxid] at hi
    rw [k.nextId]
    exact hi
  next := by rw [k.xid,k.nextId,h.next]
  hashed := k.hashed h.hashed

theorem tickets_eq (s : Rpc) : s.tickets = s.pool.map Pdu.ticket ++ s.pdu.toList.map Pdu.ticket := by
  rw [tickets,outstanding,List.map_append]
  rfl

/-- Only the queues change. -/
theorem Keeps.queues (hp : t.pdu = s.pdu) (ht : ∀ x, (t.pool.map Pdu.ticket).count x ≤ (s.pool.map Pdu.ticket).count x)
    (hn : t.nextId = s.nextId) (hx : t.xid = s.xid) (hl : t.waitpdu.length = s.waitpdu.length) (hh : s.Hashed → t.Hashed) :
    Keeps s t := by
  refine ⟨fun x => ?_,hn,hx,hl,hh⟩
  rw [tickets_eq,tickets_eq,hp,List.count_append,List.count_append]
  exact Nat.add_le_add_right (ht x) _

theorem mem_getD_map_filter {f : Pdu → Bool} {w : List (List Pdu)} {i : ℕ} {p : Pdu}
    (h : p ∈ (w.map fun q => q.filter f).getD i []) : p ∈ w.getD i [] := by
  rw [List.getD_eq_getElem?_getD,List.getElem?_map] at h
  rw [List.getD_eq_getElem?_getD]
  cases hw : w[i]? with
  | none => simp [hw] at h
  | some q =>
    rw [hw] at h
    exact List.mem_of_mem_filter h

theorem mem_getD_set {w : List (List Pdu)} {i j : ℕ} {q : List Pdu} {p : Pdu} (h : p ∈ (w.set j q).getD i []) :
    p ∈ w.getD i [] ∨ i = j ∧ p ∈ q := by
  rw [List.getD_eq_getElem?_getD,List.getElem?_set] at h
  by_cases hij : j = i
  · rw [if_pos hij] at h
    split at h
    · exact .inr ⟨hij.symm,h⟩
    · simp at h
  · rw [if_neg hij] at h
    rw [List.getD_eq_getElem?_getD]
    exact .inl h

theorem mem_getD_modify {w : List (List Pdu)} {i j : ℕ} {a p : Pdu} (h : p ∈ (w.modify j (· ++ [a])).getD i []) :
    p ∈ w.getD i [] ∨ i = j ∧ p = a := by
  rw [List.getD_eq_getElem?_getD,List.getElem?_modify] at h
  rw [List.getD_eq_getElem?_getD]
  cases hw : w[i]? with
  | none => simp [hw] at h
  | some q =>
    rw [hw] at h
    by_cases hij : j = i
    · simp only [hij,if_true,Option.map_eq_map,Option.map_some,Option.getD_some,List.mem_append,List.mem_singleton] at h
      exact h.imp id fun ha => ⟨hij.symm,ha⟩
    · simp only [hij,if_false,Option.map_eq_map,Option.map_some,Option.getD_some] at h
      exact .inl h

/-- A PDU that waits in a chain -/
theorem exists_chain {w : List (List Pdu)} {p : Pdu} (h : p ∈ w.flatten) : ∃ i, p ∈ w.getD i [] := by
  obtain ⟨q,hq,hp⟩ := List.mem_flatten.1 h
  obtain ⟨i,hi,rfl⟩ := List.mem_iff_getElem.1 hq
  refine ⟨i,?_⟩
  rw [List.getD_eq_getElem?_getD,List.getElem?_eq_getElem hi]
  exact hp

theorem hashed_empty (h : ∀ q ∈ t.waitpdu, q = []) : t.Hashed := by
  intro i p hp
  rw [List.getD_eq_getElem?_getD] at hp
  cases hw : t.waitpdu[i]? with
  | none => simp [hw] at hp
  | some q =>
    rw [hw,Option.getD_some,h q (List.mem_of_getElem? hw)] at hp
    simp at hp

theorem Hashed.enqueueWait (h : s.Hashed) (p : Pdu) : (s.enqueueWait p).Hashed := by
  intro i q hq
  have hhash : (s.enqueueWait p).rpcHashXid q.xid = s.rpcHashXid q.xid := by rw [rpcHashXid,rpcHashXid,enqueueWait_length]
  rw [hhash]
  rcases mem_getD_modify hq with hq | ⟨rfl,rfl⟩
  · exact h i q hq
  · rfl

/-- The accounting loop moves PDUs from the out queue to the chains, or drops them. -/
theorem account_keeps (count : ℕ) (q : List Pdu) (hw : 0 < s.waitpdu.length) :
    (∀ x, ((s.account count q).1.pool.map Pdu.ticket).count x ≤ (q.map Pdu.ticket ++ s.waitpdu.flatten.map Pdu.ticket).count x) ∧
      (s.account count q).1.waitpdu.length = s.waitpdu.length ∧ (s.Hashed → (s.account count q).1.Hashed) := by
  have hsame : ∀ r, (∀ x, ((({ s with outqueue := r } : Rpc)).pool.map Pdu.ticket).count x ≤
      (r.map Pdu.ticket ++ s.waitpdu.flatten.map Pdu.ticket).count x) ∧
      ({ s with outqueue := r } : Rpc).waitpdu.length = s.waitpdu.length ∧ (s.Hashed → ({ s with outqueue := r } : Rpc).Hashed) := by
    intro r
    refine ⟨fun x => ?_,rfl,id⟩
    rw [pool,List.map_append]
  induction q generalizing s count with
  | nil => exact hsame []
  | cons p q ih =>
    cases count with
    | zero => exact hsame (p::q)
    | succ count =>
      simp only [account]
      split
      · split
        · obtain ⟨h1,h2,h3⟩ := hsame q
          refine ⟨fun x => (h1 x).trans ?_,h2,h3⟩
          rw [List.map_cons,List.cons_append]
          exact List.count_le_count_cons
        · obtain ⟨h1,h2,h3⟩ := @ih (s.enqueueWait { p with numDone := p.totalSize }) (count+1-(p.totalSize-p.numDone))
            (by rw [enqueueWait_length]; exact hw) (fun r => ⟨fun x => by rw [pool,List.map_append],rfl,id⟩)
          refine ⟨fun x => (h1 x).trans ?_,h2.trans (enqueueWait_length _ _),fun h => h3 (h.enqueueWait _)⟩
          have hperm := ((enqueueWait_perm hw { p with numDone := p.totalSize }).map Pdu.ticket).count_eq x
          simp only [List.map_cons,List.cons_append,List.count_cons,List.count_append] at hperm ⊢
          have hticket : ({ p with numDone := p.totalSize } : Pdu).ticket = p.ticket := rfl
          rw [hticket] at hperm
          omega
      · exact hsame ({ p with numDone := p.numDone+(count+1) }::q)

theorem writeLoop_keeps (cap : ℕ) (ws : List Writev) (hw : 0 < s.waitpdu.length) : Keeps s (s.writeLoop cap ws).1 := by
  induction ws generalizing s cap with
  | nil => exact .refl s
  | cons v ws ih =>
    unfold writeLoop
    split
    · split
      · exact .refl s
      · rename_i p ps hps
        cases v with
        | again => exact .refl s
        | error => exact .refl s
        | wrote count =>
          dsimp only
          have hacc : ∀ b n, Keeps s (({ s with sent := b } : Rpc).account n (p::ps)).1 := by
            intro b n
            obtain ⟨h1,h2,h3⟩ := @account_keeps { s with sent := b } n (p::ps) hw
            obtain ⟨q,w,m,hf⟩ := account_frame { s with sent := b } n (p::ps)
            have hpool : s.pool.map Pdu.ticket = (p::ps).map Pdu.ticket ++ s.waitpdu.flatten.map Pdu.ticket := by
              rw [pool,hps,List.map_append]
            refine .queues (by rw [hf]; rfl) (fun x => by rw [hpool]; exact h1 x) (by rw [hf]; rfl) (by rw [hf]; rfl) h2 h3
          split
          · exact hacc _ _
          · exact (hacc _ _).trans (ih _ (by rw [(hacc _ _).hashes]; exact hw))
    · exact .refl s

theorem rpcWriteToSocket_keeps (ws : List Writev) (hw : 0 < s.waitpdu.length) : Keeps s (s.rpcWriteToSocket ws).1 := by
  unfold rpcWriteToSocket
  split
  · exact .refl s
  · split
    · exact .refl s
    · exact writeLoop_keeps _ ws hw

/-- `rpc_find_pdu` takes a PDU out of the queues. -/
theorem rpcFindPdu_keeps {x : ℕ} {p : Pdu} (hw : 0 < s.waitpdu.length) (h : s.rpcFindPdu x = (some p,t)) :
    (∀ y, (p.ticket::t.pool.map Pdu.ticket).count y = (s.pool.map Pdu.ticket).count y) ∧ t.pdu = s.pdu ∧ t.nextId = s.nextId ∧
      t.xid = s.xid ∧ t.waitpdu.length = s.waitpdu.length ∧ (s.Hashed → t.Hashed) := by
  obtain ⟨-,q,w,n,ht,-,hl,hp⟩ := rpcFindPdu_some hw h
  have hcount : ∀ y, (p.ticket::t.pool.map Pdu.ticket).count y = (s.pool.map Pdu.ticket).count y := by
    intro y
    rw [ht]
    exact ((hp.map Pdu.ticket).count_eq y).symm
  refine ⟨hcount,by rw [ht]; rfl,by rw [ht]; rfl,by rw [ht]; rfl,by rw [ht]; exact hl,?_⟩
  intro hh i a ha
  have hhash : t.rpcHashXid a.xid = s.rpcHashXid a.xid := by
    rw [ht]
    unfold rpcHashXid withQueues
    dsimp only
    rw [hl]
  rw [hhash]
  unfold rpcFindPdu at h
  split at h
  · simp only [Prod.mk.injEq,Option.some.injEq] at h
    rw [← h.2] at ha
    exact hh i a ha
  · split at h
    · rename_i b r hf
      simp only [Prod.mk.injEq,Option.some.injEq] at h
      rw [← h.2] at ha
      rcases mem_getD_set ha with hin | ⟨rfl,hin⟩
      · exact hh i a hin
      · obtain ⟨-,l,m,hlm,hr,-⟩ := findXid_some hf
        refine hh _ a ?_
        rw [hlm]
        rw [hr,List.mem_append] at hin
        rw [List.mem_append,List.mem_cons]
        exact hin.imp id .inr
    · simp at h

theorem rpcCancelPdu_keeps (x : ℕ) (hw : 0 < s.waitpdu.length) : Keeps s (s.rpcCancelPdu x) := by
  unfold rpcCancelPdu
  split
  · rename_i p t hf
    obtain ⟨h1,h2,h3,h4,h5,h6⟩ := rpcFindPdu_keeps hw hf
    refine .queues h2 (fun y => ?_) h3 h4 h5 h6
    rw [← h1 y]
    exact List.count_le_count_cons
  · rename_i t hf
    exact rpcFindPdu_none hf ▸ .refl s

theorem ticket_reset (p : Pdu) : p.reset.ticket = p.ticket := rfl

theorem scanOutqueue_keeps (s : Rpc) (t : ℕ) : Keeps s (s.scanOutqueue t) := by
  refine .queues rfl (fun x => ?_) rfl rfl rfl id
  have hq : ∀ q : List Pdu, ((q.filterMap (s.scanOutPdu t)).map Pdu.ticket).count x ≤ (q.map Pdu.ticket).count x := by
    intro q
    induction q with
    | nil => exact le_refl _
    | cons p q ih =>
      cases hs : s.scanOutPdu t p with
      | none =>
        rw [List.filterMap_cons_none hs,List.map_cons]
        exact ih.trans List.count_le_count_cons
      | some r =>
        obtain ⟨a,b,rfl⟩ := scanOutPdu_some hs
        rw [List.filterMap_cons_some hs,List.map_cons,List.map_cons,List.count_cons,List.count_cons]
        exact Nat.add_le_add_right ih _
  have ho := hq s.outqueue
  simp only [pool,scanOutqueue,List.map_append,List.count_append]
  omega

/-- A PDU that has timed out on a chain goes back, or goes. -/
theorem foldl_waitTimedOut_keeps (t : ℕ) (l : List Pdu) (u : Rpc) :
    (∀ x, ((l.foldl (fun r p => r.waitTimedOut t p) u).pool.map Pdu.ticket).count x ≤
      (u.pool.map Pdu.ticket ++ l.map Pdu.ticket).count x) ∧
      (l.foldl (fun r p => r.waitTimedOut t p) u).waitpdu = u.waitpdu ∧
      (l.foldl (fun r p => r.waitTimedOut t p) u).xid = u.xid := by
  induction l generalizing u with
  | nil => exact ⟨fun x => by simp,rfl,rfl⟩
  | cons p l ih =>
    obtain ⟨h1,h2,h3⟩ := ih (u.waitTimedOut t p)
    rw [List.foldl_cons]
    rcases waitTimedOut_eq u t p with ⟨a,b,he⟩ | he
    · rw [he] at h1 h2 h3 ⊢
      refine ⟨fun x => (h1 x).trans ?_,h2,h3⟩
      have hi := ((insertAfterHead_perm (Pdu.reset { p with timeout := a, majorTimeout := b }) u.outqueue).map Pdu.ticket).count_eq x
      have hticket : (Pdu.reset { p with timeout := a, majorTimeout := b }).ticket = p.ticket := rfl
      simp only [pool,rpcReturnToOutqueue,List.map_append,List.map_cons,List.count_append,List.count_cons,hticket] at hi ⊢
      omega
    · rw [he] at h1 h2 h3 ⊢
      refine ⟨fun x => (h1 x).trans ?_,h2,h3⟩
      simp only [pool,callback,List.map_append,List.map_cons,List.count_append,List.count_cons]
      omega

theorem scanWaitpdu_keeps (s : Rpc) (t : ℕ) : Keeps s (s.scanWaitpdu t) := by
  obtain ⟨h1,h2,h3⟩ := foldl_waitTimedOut_keeps t (s.waitpdu.flatten.filter fun p => !waiting t p)
    { s with waitpdu := s.waitpdu.map fun q => q.filter (waiting t) }
  obtain ⟨done,-,-,h4,-,h5,-⟩ := foldl_waitTimedOut t (s.waitpdu.flatten.filter fun p => !waiting t p)
    { s with waitpdu := s.waitpdu.map fun q => q.filter (waiting t) }
  have hpdu : (s.scanWaitpdu t).pdu = s.pdu := by
    simp only [readerPart,Prod.mk.injEq] at h4
    exact h4.2.2.2.1
  refine .queues hpdu (fun x => (h1 x).trans ?_) h5 h3 ((congrArg List.length h2).trans (by simp)) ?_
  · have hf := ((List.filter_append_perm (waiting t) s.waitpdu.flatten).map Pdu.ticket).count_eq x
    simp only [pool,List.map_append,List.count_append,← List.filter_flatten] at hf ⊢
    omega
  · intro h i p hp
    have hw : (s.scanWaitpdu t).waitpdu = s.waitpdu.map fun q => q.filter (waiting t) := h2
    have hhash : (s.scanWaitpdu t).rpcHashXid p.xid = s.rpcHashXid p.xid := by
      unfold rpcHashXid
      rw [hw,List.length_map]
    rw [hhash]
    rw [hw] at hp
    exact h i p (mem_getD_map_filter hp)

theorem rpcTimeoutScan_keeps (s : Rpc) : Keeps s s.rpcTimeoutScan.1 := by
  unfold rpcTimeoutScan
  split
  · exact .refl s
  · have h0 : Keeps s { s with lastTimeoutScan := s.clock } := .of_eq rfl rfl rfl rfl rfl
    exact h0.trans ((scanOutqueue_keeps _ _).trans (scanWaitpdu_keeps _ _))

end Queues

section Connection

variable {s t u : Rpc}

theorem rpcPurgeAllPdus_keeps (s : Rpc) (status : Status) (data : CbData) : Keeps s (s.rpcPurgeAllPdus status data) := by
  refine .queues rfl (fun x => ?_) rfl rfl (by simp [rpcPurgeAllPdus]) fun _ => hashed_empty ?_
  · rw [purged_pool]
    exact Nat.zero_le _
  · intro q hq
    obtain ⟨-,-,rfl⟩ := List.mem_map.1 hq
    rfl

theorem rpcErrorAllPdus_keeps (s : Rpc) (error : String) : Keeps s (s.rpcErrorAllPdus error) :=
  (rpcPurgeAllPdus_keeps s .error (.text error)).trans (.of_eq rfl rfl rfl rfl rfl)

theorem restartHead_tickets (q : List Pdu) : (restartHead q).map Pdu.ticket = q.map Pdu.ticket := by
  cases q with
  | nil => rfl
  | cons p q => rfl

theorem requeueAll_keeps (s : Rpc) : Keeps s s.requeueAll := by
  rw [requeueAll_eq]
  refine ⟨fun x => ?_,rfl,rfl,by simp,fun _ => hashed_empty ?_⟩
  · have hr := ((returned_perm (restartHead s.outqueue) (s.waitpdu.flatten ++ s.pdu.toList)).map Pdu.ticket).count_eq x
    have hreset : Pdu.ticket ∘ Pdu.reset = Pdu.ticket := rfl
    rw [List.map_append,restartHead_tickets,List.map_map,hreset] at hr
    simp only [tickets,outstanding,List.map_append,List.count_append] at hr ⊢
    have hnil : ((s.waitpdu.map fun _ => ([] : List Pdu)).flatten.map Pdu.ticket).count x = 0 := by simp
    rw [hnil]
    simp only [Option.toList_none,List.map_nil,List.count_nil]
    omega
  · intro q hq
    obtain ⟨-,-,rfl⟩ := List.mem_map.1 hq
    rfl

theorem rpcConnectSockaddrAsync_keeps (s : Rpc) (conn : Connect) : Keeps s (s.rpcConnectSockaddrAsync conn).1 := by
  obtain ⟨b,l,he⟩ := rpcConnectSockaddrAsync_eq s conn
  rw [he]
  exact .of_eq rfl rfl rfl rfl rfl

theorem rpcReconnectRequeue_keeps (s : Rpc) (conn : Connect) : Keeps s (s.rpcReconnectRequeue conn).1 := by
  unfold rpcReconnectRequeue
  split
  · exact rpcErrorAllPdus_keeps s _
  · have hr := requeueAll_keeps s
    have hc : Keeps s (s.requeueAll.retrying.rpcConnectSockaddrAsync conn).1 := by
      have hq : Keeps s.requeueAll s.requeueAll.retrying := .of_eq rfl rfl rfl rfl rfl
      exact hr.trans (hq.trans (rpcConnectSockaddrAsync_keeps _ conn))
    dsimp only
    split
    · split
      · exact hc
      · exact hc.trans (rpcErrorAllPdus_keeps _ _)
    · exact hr.trans (rpcErrorAllPdus_keeps _ _)

theorem maybeCallConnectCb_keeps (s : Rpc) (status : Status) (conn : Connect) : Keeps s (s.maybeCallConnectCb status conn) := by
  unfold maybeCallConnectCb reconnectCb
  split
  · exact .refl s
  · exact .of_eq rfl rfl rfl rfl rfl
  · have h0 : Keeps s { s with connectCb := .none } := .of_eq rfl rfl rfl rfl rfl
    split
    · exact h0.trans (rpcReconnectRequeue_keeps _ conn)
    · exact h0.trans (.of_eq rfl rfl rfl rfl rfl)

theorem rpcDisconnect_keeps (s : Rpc) (error : String) : Keeps s (s.rpcDisconnect error) := by
  unfold rpcDisconnect
  dsimp only
  split
  · exact .of_eq rfl rfl rfl rfl rfl
  · have h0 : Keeps s { rpcSetResiliency { s with fd := false, closedAt := s.nextId } 0 s.timeout 0 with isConnected := false } :=
      .of_eq rfl rfl rfl rfl rfl
    exact h0.trans ((rpcErrorAllPdus_keeps _ error).trans (maybeCallConnectCb_keeps _ _ _))

theorem rpcConnectAsync_keeps (s : Rpc) (conn : Option Connect) : Keeps s (s.rpcConnectAsync conn).1 := by
  unfold rpcConnectAsync
  split
  · exact .refl s
  · cases conn with
    | none => exact .of_eq rfl rfl rfl rfl rfl
    | some conn =>
      have h0 : Keeps s { s with autoReconnect := 0, connectCb := .user } := .of_eq rfl rfl rfl rfl rfl
      exact h0.trans (rpcConnectSockaddrAsync_keeps _ conn)

theorem rpcDestroyContext_keeps (s : Rpc) : Keeps s s.rpcDestroyContext :=
  (rpcPurgeAllPdus_keeps s .cancel .null).trans (.of_eq rfl rfl rfl rfl rfl)

theorem orRequeue_keeps {r : Rpc × Bool} (h : Keeps s r.1) (conn : Connect) : Keeps s (orRequeue conn r) := by
  unfold orRequeue
  split
  · exact h
  · exact h.trans (rpcReconnectRequeue_keeps _ conn)

end Connection

section Reader

variable {s t u v : Rpc} {p q : Pdu}

/-- The queues stay, and the PDU that is held is the one that was. -/
theorem Keeps.reader (hsh : t.shared = s.shared) (hp : ∀ q, t.pdu = some q → ∃ p, s.pdu = some p ∧ q.ticket = p.ticket) :
    Keeps s t := by
  have hpool : t.pool = s.pool := show t.shared.pool = s.shared.pool by rw [hsh]
  have hw : t.waitpdu = s.waitpdu := show t.shared.waitpdu = s.shared.waitpdu by rw [hsh]
  refine ⟨fun x => ?_,show t.shared.nextId = s.shared.nextId by rw [hsh],show t.shared.xid = s.shared.xid by rw [hsh],by rw [hw],?_⟩
  · rw [tickets_eq,tickets_eq,hpool]
    cases ht : t.pdu with
    | none => simp
    | some q =>
      obtain ⟨p,hs,hq⟩ := hp q ht
      rw [hs,Option.toList_some,Option.toList_some,List.map_singleton,List.map_singleton,hq]
  · intro h
    unfold Hashed rpcHashXid at h ⊢
    rw [hw]
    exact h

/-- What the reader holds afterwards is `p`. -/
def StillHolds (p : Pdu) (c : Ctl) : Prop := ∀ q, c.rpc.pdu = some q → q.ticket = p.ticket

theorem finished_stillHolds (p : Pdu) (s : Rpc) : StillHolds p (.more s.rpcFinishedPdu) := by
  intro q hq
  simp [Ctl.rpc,rpcFinishedPdu] at hq

theorem placeData_stillHolds (hp : ∀ r, u.pdu = some r → r.ticket = p.ticket) (hq : q.ticket = p.ticket) (c : Cursor) (n pos : ℕ) :
    StillHolds p (u.placeData q c n pos) := by
  unfold placeData
  dsimp only
  split
  · exact hp
  · split
    · exact hp
    · split
      · exact finished_stillHolds p _
      · intro r hr
        simp only [Ctl.rpc,setRm0,Option.some.injEq] at hr
        rw [← hr]
        exact hq

theorem zeroCopyPayload_stillHolds (hp : u.pdu = some q) (hq : q.ticket = p.ticket) (c : Cursor) (pos : ℤ) :
    StillHolds p (u.zeroCopyPayload q c pos) := by
  have hu : ∀ r, u.pdu = some r → r.ticket = p.ticket := by
    intro r hr
    rw [hp,Option.some.injEq] at hr
    rw [← hr]
    exact hq
  unfold zeroCopyPayload
  split
  · exact hu
  · split
    · exact finished_stillHolds p _
    · split
      · exact hu
      · exact hu
      · exact placeData_stillHolds hu hq c _ _

theorem payloadDone_stillHolds (hp : s.pdu = some p) : StillHolds p s.payloadDone := by
  cases hr : (s.logRecord (s.inbuf.take s.pduSize)).rpcProcessReply p (s.inbuf.take s.pduSize) with
  | none =>
    rw [payloadDone_none hp hr]
    intro q hq
    rw [Ctl.rpc,hp,Option.some.injEq] at hq
    rw [hq]
  | some r =>
    obtain ⟨t,q,pos⟩ := r
    have hq : q.ticket = p.ticket := by
      rcases rpcProcessReply_some hr with ⟨-,b,d,rfl,-⟩ | ⟨-,-,b,d,rfl,-⟩
      · rfl
      · rfl
    cases hc : q.cursor with
    | none =>
      rw [payloadDone_plain hp hr hc]
      exact finished_stillHolds p _
    | some c =>
      rw [payloadDone_zeroCopy hp hr hc]
      have hk : (q.keepZdr (s.inbuf.take s.pduSize).length).ticket = p.ticket := hq
      exact zeroCopyPayload_stillHolds rfl hk c pos

theorem iovecDone_stillHolds (hp : s.pdu = some p) : StillHolds p s.iovecDone := by
  unfold iovecDone
  rw [hp]
  dsimp only
  split
  · exact finished_stillHolds p _
  · intro q hq
    simp only [Ctl.rpc,setRm0,Option.some.injEq] at hq
    rw [← hq]
    rfl

/-- Bytes that are stored are for the PDU that is held. -/
theorem readStore_ticket {bs : List UInt8} (h : t.readStore bs = some v) :
    ∀ q, v.pdu = some q → ∃ p, t.pdu = some p ∧ q.ticket = p.ticket := by
  have hsame : ∀ q, t.pdu = some q → ∃ p, t.pdu = some p ∧ q.ticket = p.ticket := fun q hq => ⟨q,hq,rfl⟩
  unfold readStore at h
  split at h
  · exact Option.some.inj h ▸ hsame
  · exact Option.some.inj h ▸ hsame
  · exact Option.some.inj h ▸ hsame
  · exact Option.some.inj h ▸ hsame
  · exact Option.some.inj h ▸ hsame
  · split at h
    · simp at h
    · rename_i p hp
      split at h
      · simp at h
      · obtain ⟨d,-,rfl⟩ := Option.map_eq_some_iff.mp h
        intro q hq
        exact ⟨p,hp,by rw [← Option.some.inj hq]; rfl⟩

/-- A lookup takes a PDU from the queues, and holds it or puts it back. -/
theorem lookedUp_keeps {x : ℕ} (hw : 0 < s.waitpdu.length) (h : LookedUp s x u) : Keeps s u := by
  have hkept : ∀ {v t : Rpc} {p : Pdu}, v.shared = s.shared → v.rpcFindPdu x = (some p,t) →
      (∀ y, (p.ticket::t.pool.map Pdu.ticket).count y = (s.pool.map Pdu.ticket).count y) ∧ t.nextId = s.nextId ∧ t.xid = s.xid ∧
        t.waitpdu.length = s.waitpdu.length ∧ (s.Hashed → t.Hashed) := by
    intro v t p hv hf
    have hvw : v.waitpdu = s.waitpdu := show v.shared.waitpdu = s.shared.waitpdu by rw [hv]
    have hvp : v.pool = s.pool := show v.shared.pool = s.shared.pool by rw [hv]
    obtain ⟨h1,-,h3,h4,h5,h6⟩ := rpcFindPdu_keeps (by rw [hvw]; exact hw) hf
    rw [hvp] at h1
    rw [hvw] at h5
    refine ⟨h1,h3.trans ?_,h4.trans ?_,h5,fun hh => h6 ?_⟩
    · exact show v.shared.nextId = s.shared.nextId by rw [hv]
    · exact show v.shared.xid = s.shared.xid by rw [hv]
    · unfold Hashed rpcHashXid at hh ⊢
      rw [hvw]
      exact hh
  have hshared : ∀ {w : Rpc}, u.shared = w.shared →
      u.pool = w.pool ∧ u.nextId = w.nextId ∧ u.xid = w.xid ∧ u.waitpdu = w.waitpdu ∧ (w.Hashed → u.Hashed) := by
    intro w hu
    have hw : u.waitpdu = w.waitpdu := show u.shared.waitpdu = w.shared.waitpdu by rw [hu]
    refine ⟨show u.shared.pool = w.shared.pool by rw [hu],show u.shared.nextId = w.shared.nextId by rw [hu],
      show u.shared.xid = w.shared.xid by rw [hu],hw,?_⟩
    intro hh
    unfold Hashed rpcHashXid at hh ⊢
    rw [hw]
    exact hh
  cases h with
  | found v t p hv hf hu hup hus hl =>
    obtain ⟨h1,h2,h3,h4,h5⟩ := hkept hv hf
    obtain ⟨k1,k2,k3,k4,k5⟩ := hshared hu
    refine ⟨fun y => ?_,k2.trans h2,k3.trans h3,by rw [k4,h4],fun hh => k5 (h5 hh)⟩
    have hy := h1 y
    rw [tickets_eq,tickets_eq,k1,hup]
    simp only [Option.toList_some,List.map_cons,List.map_nil,List.count_append,List.count_cons,List.count_nil] at hy ⊢
    omega
  | back v t p hv hf hu hup hl =>
    obtain ⟨h1,h2,h3,h4,h5⟩ := hkept hv hf
    obtain ⟨k1,k2,k3,k4,k5⟩ := hshared hu
    refine ⟨fun y => ?_,k2.trans h2,k3.trans h3,by rw [k4]; exact h4,fun hh => k5 (h5 hh)⟩
    have hy := h1 y
    have hi := ((insertAfterHead_perm p.reset t.outqueue).map Pdu.ticket).count_eq y
    rw [tickets_eq,tickets_eq,k1,hup]
    simp only [pool,rpcReturnToOutqueue,Option.toList_none,List.map_append,List.map_cons,List.map_nil,List.count_append,
      List.count_cons,List.count_nil,ticket_reset] at hy hi ⊢
    omega
  | unknown hu hup hl => exact .reader hu fun q hq => by simp [hup] at hq

theorem readDone_keeps {bs : List UInt8} (h : s.Ok P) (ht : s.readPrep = some t) (hp : Prepared P t) (hbs : 0 < bs.length)
    (hle : t.inpos+bs.length ≤ t.pduSize) (hv : t.readStore bs = some v) : Keeps s v.readDone.rpc := by
  obtain ⟨hts,htst⟩ := readPrep_shared ht
  obtain ⟨hvs,hvst⟩ := readStore_shared hv
  have hst : Keeps s t := by
    obtain ⟨i,n,rfl⟩ := h.readPrep_eq ht
    exact .of_eq rfl rfl rfl rfl rfl
  have hsv : Keeps s v := hst.trans (.reader hvs (readStore_ticket hv))
  have hgo : ∀ {p : Pdu} {c : Ctl}, v.pdu = some p → c.rpc.shared = v.shared → StillHolds p c → Keeps s c.rpc :=
    fun hvp hsh hc => hsv.trans (.reader hsh fun q hq => ⟨_,hvp,hc q hq⟩)
  cases hp with
  | marker hs hpn hsz =>
    have hstate := htst.symm.trans hs
    obtain ⟨-,-,htl,htw⟩ := readPrep_marker hstate ht
    obtain ⟨-,-,hvl,hvw,-⟩ := readStore_marker hs hv
    have hlook := rmDone_lookedUp (by rw [hvw,htw]; exact h.hashes) (hvs.trans hts) (hvl.trans htl)
    rw [readDone_marker (hvst.trans hs)]
    split at hlook
    · exact lookedUp_keeps h.hashes hlook
    · obtain ⟨u,hu,hus,hup,-⟩ := hlook
      rw [hu]
      refine .reader hus fun q hq => ?_
      have hvq : v.pdu = some q := hup.symm.trans hq
      obtain ⟨p,hp,-⟩ := readStore_ticket hv q hvq
      rw [hpn] at hp
      simp at hp
  | payload p hs hpp =>
    obtain ⟨-,-,-,hvp⟩ := readStore_payload hs hv
    rw [readDone_payload (hvst.trans hs)]
    exact hgo (hvp.trans hpp) (payloadDone_shared v) (payloadDone_stillHolds (hvp.trans hpp))
  | unknown hs hpn =>
    rw [readDone_unknown (hvst.trans hs)]
    exact hsv.trans (.of_eq rfl rfl rfl rfl rfl)
  | iovec p c hs hpp =>
    obtain ⟨d,hq⟩ := readStore_iovec hs hpp hv
    rw [readDone_iovec (hvst.trans hs)]
    exact hgo hq (iovecDone_shared v) (iovecDone_stillHolds hq)
  | padding p hs hpp =>
    rw [readStore_eq_padding hs,Option.some.injEq] at hv
    have hvp : v.pdu = some p := by
      rw [← hv]
      exact hpp
    rw [readDone_padding (hvst.trans hs)]
    exact hgo hvp (finished_shared v) (finished_stillHolds p v)
  | stuck hs hi hsz => omega

/-- A turn of the read loop -/
theorem recvStep_keeps (h : s.Ok P) (r : Recv) : Keeps s (s.recvStep r).rpc := by
  have hturn := recvStep_turn h r
  have hprep : ∀ t, s.readPrep = some t → Keeps s t := by
    intro t ht
    obtain ⟨i,n,rfl⟩ := h.readPrep_eq ht
    exact .of_eq rfl rfl rfl rfl rfl
  generalize s.recvStep r = c at hturn ⊢
  cases hturn with
  | none => exact .refl s
  | idle t ht => exact hprep t ht
  | lost t ht => exact hprep t ht
  | abort t bs hr ht => exact hprep t ht
  | part t v bs hr ht hp hv => exact (hprep t ht).trans (.reader (readStore_shared hv).1 (readStore_ticket hv))
  | full t v bs hr ht hp hbs hle hv heq => exact readDone_keeps h ht hp hbs hle hv

end Reader

section Runs

variable {s : Rpc} {x0 : ℕ}

/-- A new PDU has the next number and the next xid. -/
theorem enqueueCall_ticketed (h : s.Ticketed x0) (c : Call) : (s.enqueueCall c).Ticketed x0 := by
  obtain ⟨a,b,hnew⟩ := newPdu_eq s c
  have hid : (s.newPdu c).id = s.nextId := by
    rw [hnew]
    rfl
  have hxid : (s.newPdu c).xid = s.xid := by
    rw [hnew]
    rfl
  have hperm : (s.enqueueCall c).outstanding.Perm (s.newPdu c::s.outstanding) := by
    show (s.outqueue ++ [s.newPdu c] ++ s.waitpdu.flatten ++ s.pdu.toList).Perm _
    rw [List.append_assoc,List.append_assoc,List.singleton_append,outstanding,List.append_assoc]
    exact List.perm_middle
  have hissued : ∀ p ∈ s.newPdu c::s.outstanding, p.id < s.nextId+1 ∧ p.xid = (x0+p.id) % 2^32 := by
    intro p hp
    rcases List.mem_cons.1 hp with rfl | hp
    · rw [hid,hxid,h.next]
      exact ⟨Nat.lt_succ_self _,rfl⟩
    · obtain ⟨hlt,hx⟩ := h.issued p hp
      exact ⟨by omega,hx⟩
  refine ⟨fun x => ?_,fun p hp => hissued p (hperm.subset hp),?_,h.hashed⟩
  · have hcount := (hperm.map Pdu.ticket).count_eq x
    have honce := h.once x
    rw [tickets,hcount,List.map_cons,List.count_cons]
    by_cases hx : x = (s.newPdu c).ticket
    · -- its number is larger than all others
      have hfresh : (s.outstanding.map Pdu.ticket).count x = 0 := by
        rw [List.count_eq_zero]
        intro hmem
        obtain ⟨p,hp,he⟩ := List.mem_map.1 hmem
        have hlt := (h.issued p hp).1
        have hpid : p.id = s.nextId := by
          rw [hx] at he
          exact (congrArg Prod.fst he).trans hid
        omega
      rw [hfresh]
      split <;> omega
    · rw [if_neg (by simpa using Ne.symm hx)]
      exact honce
  · show (s.xid+1) % 2^32 = (x0+(s.nextId+1)) % 2^32
    rw [h.next]
    omega

theorem act_ticketed (hok : s.Ok P) (h : s.Ticketed x0) {e : Event} (hP : Queues P e) : (s.act e).Ticketed x0 := by
  have hsame : ∀ {t : Rpc}, Keeps s t → t.Ticketed x0 := fun k => h.keeps k
  cases e with
  | tick => exact hsame (.of_eq rfl rfl rfl rfl rfl)
  | memory => exact hsame (.of_eq rfl rfl rfl rfl rfl)
  | setResiliency => exact hsame (.of_eq rfl rfl rfl rfl rfl)
  | disableSocket => exact hsame (.of_eq rfl rfl rfl rfl rfl)
  | setProgram => exact hsame (.of_eq rfl rfl rfl rfl rfl)
  | queuePdu c ws =>
    simp only [act,rpcQueuePdu]
    split
    · have hq := enqueueCall_ticketed h c
      split
      · exact hq.keeps (rpcWriteToSocket_keeps ws hok.hashes)
      · exact hq
    · exact h
  | cancelPdu x => exact hsame (rpcCancelPdu_keeps x hok.hashes)
  | timeoutScan conn => exact hsame (orRequeue_keeps (rpcTimeoutScan_keeps s) conn)
  | pollError conn =>
    simp only [act,pollError]
    split
    · exact hsame (rpcReconnectRequeue_keeps s conn)
    · exact hsame (maybeCallConnectCb_keeps s _ conn)
  | pollConnect soError conn =>
    simp only [act,pollConnect]
    split
    · split
      · exact hsame (maybeCallConnectCb_keeps s _ conn)
      · have h0 : Keeps s { s with isConnected := true } := .of_eq rfl rfl rfl rfl rfl
        exact hsame (h0.trans (maybeCallConnectCb_keeps _ _ conn))
    · exact h
  | recv r conn =>
    have hk := recvStep_keeps hok r
    simp only [act]
    generalize s.recvStep r = c at hk ⊢
    cases c with
    | more t => exact hsame hk
    | fail t => exact hsame (hk.trans (rpcReconnectRequeue_keeps t conn))
    | fault t => exact hsame (hk.trans (.of_eq rfl rfl rfl rfl rfl))
  | write ws conn =>
    simp only [act,pollWrite]
    split
    · exact h
    · exact hsame (orRequeue_keeps (rpcWriteToSocket_keeps ws hok.hashes) conn)
  | disconnect error => exact hsame (rpcDisconnect_keeps s error)
  | connectAsync conn => exact hsame (rpcConnectAsync_keeps s conn)
  | destroy => exact hsame (rpcDestroyContext_keeps s)

theorem init_ticketed (cfg : Config) : (init cfg).Ticketed cfg.xid := by
  have hnil : (init cfg).outstanding = [] := by simp [outstanding,init]
  refine ⟨fun x => by simp [tickets,hnil],by simp [hnil],?_,?_⟩
  · show cfg.xid = (cfg.xid+0) % 2^32
    rw [Nat.add_zero,Nat.mod_eq_of_lt cfg.xid_lt]
  · refine hashed_empty fun q hq => ?_
    exact List.eq_of_mem_replicate hq

/-- In every run the tickets are in order, as long as the process lives. -/
theorem after_ticketed (cfg : Config) (es : List Event) : (after cfg es).crashed = false → (after cfg es).Ticketed cfg.xid := by
  have hq : Guarded step (fun _ e => Queues (fun _ => True) e) (init cfg) es :=
    guarded_of_forall step (fun e _ _ => by cases e <;> simp [Queues]) _
  have hinv := guarded_induction (P := fun s : Rpc => s.crashed = false → s.Ok (fun _ => True) ∧ s.Ticketed cfg.xid) step hq
    (fun _ => ⟨init_ok cfg,init_ticketed cfg⟩) ?_
  · exact fun hc => (hinv hc).2
  · intro u e hu hP hc
    unfold step at hc ⊢
    split at hc
    · rename_i hdead
      rw [if_pos hdead]
      exact hu hc
    · rename_i hlive
      rw [if_neg hlive]
      have hcr : u.crashed = false := by
        simp only [not_or,Bool.not_eq_true] at hlive
        exact hlive.2
      exact ⟨act_ok (hu hcr).1 e hP hc,act_ticketed (hu hcr).1 (hu hcr).2 hP⟩

end Runs

section Lookup

variable {s u : Rpc} {x0 x : ℕ} {p q : Pdu}

/-- Two PDUs with the same number are one. -/
theorem Ticketed.eq_of_id (h : s.Ticketed x0) (hp : p ∈ s.outstanding) (hq : q ∈ s.outstanding) (hid : p.id = q.id) : p = q := by
  have hnd : (s.outstanding.map Pdu.ticket).Nodup := List.nodup_iff_count_le_one.2 h.once
  refine List.inj_on_of_nodup_map hnd hp hq ?_
  unfold Pdu.ticket
  rw [(h.issued p hp).2,(h.issued q hq).2,hid]

/-- So are two with the same xid, where fewer than 2^32 PDUs have been made. -/
theorem Ticketed.eq_of_xid (h : s.Ticketed x0) (hn : s.nextId ≤ 2^32) (hp : p ∈ s.outstanding) (hq : q ∈ s.outstanding)
    (hx : p.xid = q.xid) : p = q := by
  obtain ⟨hp1,hp2⟩ := h.issued p hp
  obtain ⟨hq1,hq2⟩ := h.issued q hq
  refine h.eq_of_id hp hq ?_
  rw [hp2,hq2] at hx
  omega

theorem pool_subset_outstanding (hp : p ∈ s.pool) : p ∈ s.outstanding := List.mem_append_left _ hp

theorem rpcFindPdu_notFound (h : (s.rpcFindPdu x).1 = none) :
    findXid x s.outqueue = none ∧ findXid x (s.waitpdu.getD (s.rpcHashXid s.rm1) []) = none := by
  unfold rpcFindPdu at h
  split at h
  · simp at h
  · split at h
    · simp at h
    · exact ⟨‹_›,‹_›⟩

/-- A record finds the PDU with its xid that is in a queue. -/
theorem Ticketed.lookup_iff (h : s.Ticketed x0) (hn : s.nextId ≤ 2^32) (hrm : s.rmXid.length = 8) (hw : 0 < s.waitpdu.length)
    (hx : x < 2^32) : (s.lookup x).1 = some p ↔ p ∈ s.pool ∧ p.xid = x := by
  have hsome : ∀ {q : Pdu}, (s.lookup x).1 = some q → q ∈ s.pool ∧ q.xid = x := by
    intro q hq
    have hf : (s.setRm1 x).rpcFindPdu x = (some q,(s.lookup x).2) := Prod.ext hq rfl
    obtain ⟨hxid,q',w,n,-,-,-,hperm⟩ := rpcFindPdu_some (show 0 < (s.setRm1 x).waitpdu.length from hw) hf
    exact ⟨hperm.symm.subset List.mem_cons_self,hxid⟩
  refine ⟨hsome,?_⟩
  rintro ⟨hp,hpx⟩
  have hfound : ∃ q, (s.lookup x).1 = some q := by
    by_contra hnone
    obtain ⟨hout,hwait⟩ := rpcFindPdu_notFound (Option.eq_none_iff_forall_not_mem.2 fun q hq => hnone ⟨q,hq⟩)
    rw [rm1_setRm1 s x hrm hx] at hwait
    rcases List.mem_append.1 hp with hpo | hpw
    · exact findXid_none hout p hpo hpx
    · obtain ⟨i,hi⟩ := exists_chain hpw
      have hchain : (s.setRm1 x).rpcHashXid x = i := by
        rw [← hpx]
        exact h.hashed i p hi
      rw [hchain] at hwait
      exact findXid_none hwait p hi hpx
  obtain ⟨q,hq⟩ := hfound
  obtain ⟨hqp,hqx⟩ := hsome hq
  rw [hq,h.eq_of_xid hn (pool_subset_outstanding hqp) (pool_subset_outstanding hp) (hqx.trans hpx.symm)]

end Lookup

end Rpc
end Libnfs
