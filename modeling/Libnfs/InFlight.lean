import Libnfs.Stream

/-! The limit on the requests in flight. `rpc_write_to_socket` never looks at the limit when it
moves a PDU to a wait chain; it gathers no more PDUs than there is room for, and what the kernel
takes completes no others. -/
namespace Libnfs

open ByteWords Scatter Zdr Transition

namespace Gather

theorem gatherIov_length (cap : ℕ) (g : Gather) (p : Pdu) (hg : g.Good) :
    (gatherIov cap g p.numDone p.out).bytes.length ≤ g.bytes.length+p.unsent.length := by
  obtain ⟨pre,h1,h2,-⟩ := gatherIov_bytes cap g p.numDone p.out hg
  have hle := h2.length_le
  rw [h1,List.length_append]
  exact Nat.add_le_add_left hle _

/-- What is gathered lies in as many PDUs as the limit leaves room for. -/
theorem gather_room (cap limit len : ℕ) (g : Gather) (n : ℕ) (q : List Pdu) (hg : g.Good)
    (hn : len+n < limit) :
    (gather cap limit len g n q).bytes.length ≤
      g.bytes.length+((q.take (limit-(len+n))).flatMap Pdu.unsent).length := by
  induction q generalizing g n with
  | nil => simp [gather]
  | cons p q ih =>
    obtain ⟨k,hk⟩ : ∃ k, limit-(len+n) = k+1 := ⟨limit-(len+n)-1,by omega⟩
    have hp := gatherIov_length cap g p hg
    obtain ⟨-,-,-,hgood,-⟩ := gatherIov_bytes cap g p.numDone p.out hg
    rw [hk]
    simp only [gather,List.take_succ_cons,List.flatMap_cons,List.length_append]
    split
    · rename_i hgo
      have hroom : len+(n+1) < limit := by omega
      have hih := ih (gatherIov cap g p.numDone p.out) (n+1) hgood hroom
      have hk' : limit-(len+(n+1)) = k := by omega
      rw [hk'] at hih
      omega
    · omega

end Gather

namespace Rpc

variable {P : Pdu → Prop}

theorem enqueueWait_count {s : Rpc} (h : 0 < s.waitpdu.length) (p : Pdu) :
    (s.enqueueWait p).waitpdu.flatten.length = s.waitpdu.flatten.length+1 := by
  have hp := (enqueueWait_perm h p).length_eq
  rwa [List.length_cons] at hp

/-- Bytes of the first `k` PDUs complete at most `k` of them. -/
theorem account_room {s : Rpc} (count k : ℕ) {q : List Pdu} (hw : 0 < s.waitpdu.length)
    (hq : ∀ p ∈ q, p.numDone < p.totalSize)
    (hc : count ≤ ((q.take k).flatMap Pdu.unsent).length) :
    ∃ m ≤ k, (s.account count q).1.waitpduLen = s.waitpduLen+m ∧
      (s.account count q).1.waitpdu.flatten.length ≤ s.waitpdu.flatten.length+m := by
  induction q generalizing s count k with
  | nil => exact ⟨0,Nat.zero_le k,rfl,le_refl _⟩
  | cons p q ih =>
    cases count with
    | zero => exact ⟨0,Nat.zero_le k,rfl,le_refl _⟩
    | succ count =>
      cases k with
      | zero => simp at hc
      | succ k =>
        have hlen : p.unsent.length = p.totalSize-p.numDone := by
          rw [Pdu.unsent,List.length_drop,Pdu.record_length]
        simp only [List.take_succ_cons,List.flatMap_cons,List.length_append] at hc
        simp only [account]
        split
        · split
          · exact ⟨0,Nat.zero_le _,rfl,le_refl _⟩
          · have hcount := enqueueWait_count hw { p with numDone := p.totalSize }
            obtain ⟨m,hm,h1,h2⟩ := ih (s := s.enqueueWait { p with numDone := p.totalSize })
              (count+1-(p.totalSize-p.numDone)) k (by simpa using hw)
              (fun a ha => hq a (List.mem_cons_of_mem p ha)) (by omega)
            refine ⟨m+1,by omega,?_,by omega⟩
            rw [h1]
            show s.waitpduLen+1+m = s.waitpduLen+(m+1)
            omega
        · exact ⟨0,Nat.zero_le _,rfl,le_refl _⟩

/-- The chains hold no more PDUs than `waitpdu_len` says, which is within the limit `L`. -/
structure Limited (L : ℕ) (s : Rpc) : Prop where
  chains : s.waitpdu.flatten.length ≤ s.waitpduLen
  counter : s.waitpduLen ≤ L
  limit : s.maxWaitpduLen = L

variable {L : ℕ}

/-- The fields that the limit is about. -/
def chained (s : Rpc) := (s.waitpdu,s.waitpduLen,s.maxWaitpduLen)

theorem Limited.congr {s t : Rpc} (h : s.Limited L) (he : t.chained = s.chained) : t.Limited L := by
  simp only [chained,Prod.mk.injEq] at he
  obtain ⟨hw,hn,hm⟩ := he
  exact ⟨by rw [hw,hn]; exact h.chains,hn ▸ h.counter,hm ▸ h.limit⟩

theorem Limited.shared {s t : Rpc} (h : s.Limited L) (he : t.shared = s.shared) : t.Limited L :=
  h.congr (show t.shared.chained = s.shared.chained by rw [he])

/-- Fewer PDUs on the chains, with the counter left as it is. -/
theorem Limited.drop {s : Rpc} (h : s.Limited L) {w : List (List Pdu)}
    (hw : w.flatten.length ≤ s.waitpdu.flatten.length) : ({ s with waitpdu := w } : Rpc).Limited L :=
  ⟨hw.trans h.chains,h.counter,h.limit⟩

theorem account_limited {s : Rpc} (h : s.Limited L) (hw : 0 < s.waitpdu.length) {q : List Pdu}
    (hq : ∀ p ∈ q, p.numDone < p.totalSize) {count : ℕ}
    (hc : count ≤ ((q.take (L-s.waitpduLen)).flatMap Pdu.unsent).length) :
    (s.account count q).1.Limited L := by
  obtain ⟨m,hm,h1,h2⟩ := account_room count _ hw hq hc
  obtain ⟨q',w,n,hf⟩ := account_frame s count q
  have hcounter := h.counter
  have hchains := h.chains
  refine ⟨by omega,by omega,?_⟩
  rw [hf]
  exact h.limit

theorem writeLoop_limited {s : Rpc} (hL : 0 < L) (hok : s.QueueOk P) (h : s.Limited L) (cap : ℕ)
    (ws : List Writev) : (s.writeLoop cap ws).1.Limited L := by
  induction ws generalizing s cap with
  | nil => exact h
  | cons v ws ih =>
    unfold writeLoop
    split
    · rename_i hroom
      have hlt : s.waitpduLen < L := by
        have := h.limit
        omega
      split
      · exact h
      · rename_i p ps hps
        cases v with
        | again => exact h
        | error => exact h
        | wrote count =>
          dsimp only
          generalize hb : (Gather.gather (s.growVectors cap p) s.maxWaitpduLen s.waitpduLen {} 0
            (p::ps)).bytes = bytes
          generalize hn : min count bytes.length = n
          have hbytes : n ≤ (((p::ps).take (L-s.waitpduLen)).flatMap Pdu.unsent).length := by
            have hroom := Gather.gather_room (s.growVectors cap p) s.maxWaitpduLen s.waitpduLen {} 0
              (p::ps) (fun h => absurd rfl h) (by rw [h.limit]; exact hlt)
            rw [hb,h.limit] at hroom
            have hzero : (({} : Gather).bytes).length = 0 := rfl
            rw [hzero,Nat.zero_add,Nat.add_zero] at hroom
            omega
          have hout : OutOk (p::ps) := hps ▸ hok.out
          have hacc : (({ s with sent := s.sent ++ bytes.take n } : Rpc).account n (p::ps)).1.Limited
              L := by
            apply account_limited
            · exact h.congr rfl
            · exact hok.hashes
            · exact hout.unsent
            · exact hbytes
          have hqok : (({ s with sent := s.sent ++ bytes.take n } : Rpc).account n (p::ps)).1.QueueOk
              P := by
            refine account_queueOk n hok.hashes ?_ ?_ hout
            · exact fun a ha => hok.queued a (List.mem_append_right _ ha)
            · exact fun a ha => hok.queued a (List.mem_append_left _ (hps ▸ ha))
          split
          · exact hacc
          · exact ih hqok hacc _
    · exact h

theorem rpcWriteToSocket_limited {s : Rpc} (hL : 0 < L) (hok : s.QueueOk P) (h : s.Limited L)
    (ws : List Writev) : (s.rpcWriteToSocket ws).1.Limited L := by
  unfold rpcWriteToSocket
  split
  · exact h
  · split
    · exact h
    · exact writeLoop_limited hL hok h _ ws

theorem rpcFindPdu_limited {s t : Rpc} {x : ℕ} {o : Option Pdu} (hw : 0 < s.waitpdu.length)
    (h : s.Limited L) (hf : s.rpcFindPdu x = (o,t)) : t.Limited L := by
  unfold rpcFindPdu at hf
  split at hf
  · obtain ⟨-,rfl⟩ := Prod.mk.inj hf
    exact h.congr rfl
  · split at hf
    · rename_i p q hfind
      obtain ⟨-,rfl⟩ := Prod.mk.inj hf
      obtain ⟨-,l,m,hq,rfl,-⟩ := findXid_some hfind
      have hlen := (flatten_set_perm s.waitpdu _ (rpcHashXid_lt hw _) l m p hq).length_eq
      rw [List.length_cons] at hlen
      have hchains := h.chains
      have hcounter := h.counter
      refine ⟨?_,?_,h.limit⟩
      · show (s.waitpdu.set _ (l++m)).flatten.length ≤ s.waitpduLen-1
        omega
      · show s.waitpduLen-1 ≤ L
        omega
    · obtain ⟨-,rfl⟩ := Prod.mk.inj hf
      exact h

theorem rpcCancelPdu_limited {s : Rpc} (hw : 0 < s.waitpdu.length) (h : s.Limited L) (x : ℕ) :
    (s.rpcCancelPdu x).Limited L := by
  unfold rpcCancelPdu
  split
  · rename_i p t hf
    exact (rpcFindPdu_limited hw h hf).congr rfl
  · rename_i t hf
    exact rpcFindPdu_limited hw h hf

/-- Each PDU that times out on a chain is counted down once. -/
theorem foldl_waitTimedOut_chained (t : ℕ) (l : List Pdu) (s : Rpc) :
    (l.foldl (fun r p => r.waitTimedOut t p) s).chained =
      (s.waitpdu,s.waitpduLen-l.length,s.maxWaitpduLen) := by
  induction l generalizing s with
  | nil => rfl
  | cons p l ih =>
    have hone : (s.waitTimedOut t p).chained = (s.waitpdu,s.waitpduLen-1,s.maxWaitpduLen) := by
      rcases waitTimedOut_eq s t p with ⟨a,b,he⟩ | he <;> rw [he] <;> rfl
    simp only [chained,Prod.mk.injEq] at hone
    rw [List.foldl_cons,ih,hone.1,hone.2.1,hone.2.2,List.length_cons,Nat.sub_sub,Nat.add_comm 1]

theorem rpcTimeoutScan_limited {s : Rpc} (h : s.Limited L) : s.rpcTimeoutScan.1.Limited L := by
  unfold rpcTimeoutScan
  split
  · exact h
  · unfold scanWaitpdu
    have hc := foldl_waitTimedOut_chained s.clock
      (s.waitpdu.flatten.filter fun p => !waiting s.clock p)
      { ({ s with lastTimeoutScan := s.clock } : Rpc).scanOutqueue s.clock with
        waitpdu := s.waitpdu.map fun q => q.filter (waiting s.clock) }
    simp only [chained,Prod.mk.injEq] at hc
    obtain ⟨hw,hn,hm⟩ := hc
    -- the chains keep the PDUs that are passed over and lose the others
    have hsplit : (s.waitpdu.map fun q => q.filter (waiting s.clock)).flatten.length+
        (s.waitpdu.flatten.filter fun p => !waiting s.clock p).length = s.waitpdu.flatten.length := by
      rw [← List.filter_flatten]
      have hp := (List.filter_append_perm (waiting s.clock) s.waitpdu.flatten).length_eq
      rwa [List.length_append] at hp
    have hchains := h.chains
    have hcounter := h.counter
    refine ⟨?_,?_,hm.trans h.limit⟩
    · refine (congrArg (fun w => w.flatten.length) hw).le.trans (le_of_le_of_eq ?_ hn.symm)
      show _ ≤ s.waitpduLen-_
      omega
    · refine hn.le.trans ?_
      show s.waitpduLen-_ ≤ L
      omega

theorem flatten_cleared (w : List (List Pdu)) : (w.map fun _ => ([] : List Pdu)).flatten = [] := by
  simp

theorem rpcPurgeAllPdus_limited {s : Rpc} (h : s.Limited L) (status : Status) (data : CbData) :
    (s.rpcPurgeAllPdus status data).Limited L :=
  (h.drop (w := s.waitpdu.map fun _ => []) (by rw [flatten_cleared]; simp)).congr rfl

theorem rpcErrorAllPdus_limited {s : Rpc} (h : s.Limited L) (error : String) :
    (s.rpcErrorAllPdus error).Limited L :=
  (rpcPurgeAllPdus_limited h .error (.text error)).congr rfl

theorem requeueAll_limited {s : Rpc} (h : s.Limited L) : s.requeueAll.Limited L := by
  rw [requeueAll_eq]
  exact ⟨by simp,Nat.zero_le L,h.limit⟩

theorem rpcConnectSockaddrAsync_limited {s : Rpc} (h : s.Limited L) (conn : Connect) :
    (s.rpcConnectSockaddrAsync conn).1.Limited L := by
  obtain ⟨b,l,he⟩ := rpcConnectSockaddrAsync_eq s conn
  rw [he]
  exact h.congr rfl

theorem rpcReconnectRequeue_limited {s : Rpc} (h : s.Limited L) (conn : Connect) :
    (s.rpcReconnectRequeue conn).1.Limited L := by
  unfold rpcReconnectRequeue
  split
  · exact rpcErrorAllPdus_limited h _
  · have hr : s.requeueAll.retrying.Limited L := (requeueAll_limited h).congr rfl
    have hc := rpcConnectSockaddrAsync_limited hr conn
    dsimp only
    split
    · split
      · exact hc
      · exact rpcErrorAllPdus_limited hc _
    · exact rpcErrorAllPdus_limited (requeueAll_limited h) _

theorem maybeCallConnectCb_limited {s : Rpc} (h : s.Limited L) (status : Status) (conn : Connect) :
    (s.maybeCallConnectCb status conn).Limited L := by
  unfold maybeCallConnectCb reconnectCb
  split
  · exact h
  · exact h.congr rfl
  · split
    · apply rpcReconnectRequeue_limited
      exact h.congr rfl
    · exact h.congr rfl

theorem orRequeue_limited {r : Rpc × Bool} (h : r.1.Limited L) (conn : Connect) :
    (orRequeue conn r).Limited L := by
  unfold orRequeue
  split
  · exact h
  · exact rpcReconnectRequeue_limited h conn

theorem recvStep_limited {s : Rpc} (hok : s.Ok P) (h : s.Limited L) (r : Recv) :
    (s.recvStep r).rpc.Limited L := by
  rcases recvStep_shared hok r with he | ⟨x,-,hup⟩
  · exact h.shared he
  · have hfind : ∀ (v t : Rpc) (p : Pdu), v.shared = s.shared → v.rpcFindPdu x = (some p,t) →
        t.Limited L := by
      intro v t p hv hf
      have hw : v.waitpdu = s.waitpdu := show v.shared.waitpdu = s.shared.waitpdu by rw [hv]
      exact rpcFindPdu_limited (hw ▸ hok.hashes) (h.shared hv) hf
    cases hup with
    | found v t p hv hf hu => exact (hfind v t p hv hf).shared hu
    | back v t p hv hf hu =>
      have hret : (t.rpcReturnToOutqueue p).Limited L := (hfind v t p hv hf).congr rfl
      exact hret.shared hu
    | unknown hu => exact h.shared hu

theorem act_limited {s : Rpc} (hL : 0 < L) (hok : s.Ok P) (h : s.Limited L) {e : Event}
    (hP : Queues P e) : (s.act e).Limited L := by
  cases e with
  | tick n => exact h.congr rfl
  | memory ok => exact h.congr rfl
  | setResiliency n t r => exact h.congr rfl
  | disableSocket v => exact h.congr rfl
  | setProgram v => exact h.congr rfl
  | queuePdu c ws =>
    simp only [act,rpcQueuePdu]
    split
    · split
      · exact rpcWriteToSocket_limited hL (enqueueCall_ok hok (hP _ _)).toQueueOk (h.congr rfl) ws
      · exact h.congr rfl
    · exact h
  | cancelPdu x => exact rpcCancelPdu_limited hok.hashes h x
  | timeoutScan conn => exact orRequeue_limited (rpcTimeoutScan_limited h) conn
  | pollError conn =>
    simp only [act,pollError]
    split
    · exact rpcReconnectRequeue_limited h conn
    · exact maybeCallConnectCb_limited h _ conn
  | pollConnect soError conn =>
    simp only [act,pollConnect]
    split
    · split
      · exact maybeCallConnectCb_limited h _ conn
      · apply maybeCallConnectCb_limited
        exact h.congr rfl
    · exact h
  | recv r conn =>
    have hr := recvStep_limited hok h r
    simp only [act]
    cases hs : s.recvStep r with
    | more t =>
      rw [hs] at hr
      exact hr
    | fail t =>
      rw [hs] at hr
      exact rpcReconnectRequeue_limited hr conn
    | fault t =>
      rw [hs] at hr
      exact hr.congr rfl
  | write ws conn =>
    simp only [act,pollWrite]
    split
    · exact h
    · exact orRequeue_limited (rpcWriteToSocket_limited hL hok.toQueueOk h ws) conn
  | disconnect error =>
    simp only [act,rpcDisconnect]
    split
    · exact h.congr rfl
    · apply maybeCallConnectCb_limited
      apply rpcErrorAllPdus_limited
      exact h.congr rfl
  | connectAsync conn =>
    simp only [act,rpcConnectAsync]
    split
    · exact h
    · split
      · exact h.congr rfl
      · apply rpcConnectSockaddrAsync_limited
        exact h.congr rfl
  | destroy => exact (rpcPurgeAllPdus_limited h .cancel .null).congr rfl

/-- The limit in every run: whatever is queued, written in part, answered, timed out, sent again
or lost, the wait chains hold at most as many PDUs as `rpc_set_awaiting_limit` allows. -/
theorem waiting_within_limit (cfg : Config) (es : List Event) (hL : 0 < cfg.maxWaitpduLen) :
    (after cfg es).waitpdu.flatten.length ≤ cfg.maxWaitpduLen := by
  have hg : Guarded step (fun _ e => Queues (fun _ => True) e) (init cfg) es := by
    refine guarded_of_forall step (fun e _ _ => ?_) _
    cases e <;> simp [Queues]
  have hinv := guarded_induction
    (P := fun s => (s.crashed = false → s.Ok fun _ => True) ∧ s.Limited cfg.maxWaitpduLen) step hg
    ⟨fun _ => init_ok cfg,⟨by simp [init],Nat.zero_le _,rfl⟩⟩ ?_
  · exact hinv.2.chains.trans hinv.2.counter
  · rintro u e ⟨hu,hl⟩ hP
    refine ⟨step_ok hu e hP,?_⟩
    unfold step
    split
    · exact hl
    · rename_i hlive
      have hc : u.crashed = false := by simp only [not_or,Bool.not_eq_true] at hlive; exact hlive.2
      exact act_limited hL (hu hc) hl hP

/-- Two requests where one may be in flight. -/
theorem waiting_within_limit_demo :
    (after { demoConfig with maxWaitpduLen := 1 } (demoConnect ++
      [.queuePdu demoNull [.again],.queuePdu demoNull [],.write [.wrote 88] .started])).waitpdu.flatten.length ≤ 1 :=
  waiting_within_limit { demoConfig with maxWaitpduLen := 1 } _ Nat.zero_lt_one

end Rpc
end Libnfs
