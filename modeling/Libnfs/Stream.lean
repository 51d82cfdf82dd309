import Libnfs.ReaderFrame
import Libnfs.Reconnect

/-! The bytes on the wire. As long as no step takes a half-sent PDU off the head of the out
queue, what was written on a connection is a sequence of whole records and the part of the
head that was sent. -/
namespace Libnfs

open ByteWords Scatter Zdr Transition

namespace Gather

/-- There is a last vector to lengthen. -/
def Good (g : Gather) : Prop := g.lastBuf ≠ none → g.vecs ≠ []

theorem bytes_extend {vs : List OutVec} (h : vs ≠ []) (bs : List UInt8) :
    (extend vs bs).flatMap OutVec.data = vs.flatMap OutVec.data ++ bs ∧ extend vs bs ≠ [] ∧
      (extend vs bs).length = vs.length := by
  induction vs with
  | nil => simp at h
  | cons v vs ih =>
    cases vs with
    | nil => simp [extend]
    | cons w vs =>
      obtain ⟨h1,-,h3⟩ := ih (by simp)
      refine ⟨?_,by simp [extend],by simp [extend,h3]⟩
      simp only [extend,List.flatMap_cons,h1,List.append_assoc]

/-- One PDU's vectors add a stretch of its unsent bytes, and all of them unless the vectors
run out. -/
theorem gatherIov_bytes (cap : ℕ) (g : Gather) (numDone : ℕ) (vs : List OutVec) (hg : g.Good) :
    ∃ pre, (gatherIov cap g numDone vs).bytes = g.bytes ++ pre ∧
      pre <+: (vs.flatMap OutVec.data).drop numDone ∧ (gatherIov cap g numDone vs).Good ∧
      ((gatherIov cap g numDone vs).vecs.length < cap →
        pre = (vs.flatMap OutVec.data).drop numDone) := by
  induction vs generalizing g numDone with
  | nil => exact ⟨[],by simp [gatherIov],by simp,hg,by simp⟩
  | cons v vs ih =>
    simp only [gatherIov,List.flatMap_cons]
    split
    · rename_i hle
      obtain ⟨pre,h1,h2,h3,h4⟩ := ih g (numDone-v.data.length) hg
      have hd : (v.data ++ vs.flatMap OutVec.data).drop numDone =
          (vs.flatMap OutVec.data).drop (numDone-v.data.length) := by
        rw [List.drop_append,List.drop_of_length_le hle,List.nil_append]
      exact ⟨pre,h1,by rw [hd]; exact h2,h3,by rw [hd]; exact h4⟩
    · rename_i hlt
      have hd : (v.data ++ vs.flatMap OutVec.data).drop numDone =
          v.data.drop numDone ++ vs.flatMap OutVec.data := by
        rw [List.drop_append_of_le_length (by omega)]
      rw [hd]
      split
      · split
        · refine ⟨v.data.drop numDone,by simp [bytes],List.prefix_append _ _,?_,?_⟩
          · intro _
            simp
          · intro hcap
            simp only [List.length_append,List.length_singleton] at hcap
            omega
        · obtain ⟨pre,h1,h2,h3,h4⟩ := ih
            ⟨g.vecs ++ [⟨v.buf+numDone,v.data.drop numDone⟩],
              some (v.buf+numDone+(v.data.drop numDone).length)⟩ 0 (by intro _; simp)
          refine ⟨v.data.drop numDone ++ pre,?_,?_,h3,?_⟩
          · rw [h1]
            simp [bytes]
          · exact (List.prefix_append_right_inj _).mpr (by simpa using h2)
          · intro hcap
            rw [h4 hcap]
            simp
      · rename_i hlast
        have hne : g.vecs ≠ [] := hg (by simp only [ne_eq,not_not] at hlast; rw [hlast]; simp)
        obtain ⟨hb,hne',-⟩ := bytes_extend hne (v.data.drop numDone)
        obtain ⟨pre,h1,h2,h3,h4⟩ := ih
          ⟨extend g.vecs (v.data.drop numDone),some (v.buf+numDone+(v.data.drop numDone).length)⟩ 0
          (fun _ => hne')
        refine ⟨v.data.drop numDone ++ pre,?_,?_,h3,?_⟩
        · rw [h1]
          simp only [bytes]
          rw [hb,List.append_assoc]
        · exact (List.prefix_append_right_inj _).mpr (by simpa using h2)
        · intro hcap
          rw [h4 hcap]
          simp

theorem gather_bytes (cap limit len : ℕ) (g : Gather) (n : ℕ) (q : List Pdu) (hg : g.Good) :
    ∃ pre, (gather cap limit len g n q).bytes = g.bytes ++ pre ∧ pre <+: q.flatMap Pdu.unsent := by
  induction q generalizing g n with
  | nil => exact ⟨[],by simp [gather],by simp⟩
  | cons p q ih =>
    obtain ⟨pre,h1,h2,h3,h4⟩ := gatherIov_bytes cap g p.numDone p.out hg
    simp only [gather,List.flatMap_cons]
    split
    · rename_i hgo
      obtain ⟨pre',h1',h2'⟩ := ih (gatherIov cap g p.numDone p.out) (n+1) h3
      refine ⟨pre ++ pre',by rw [h1',h1,List.append_assoc],?_⟩
      rw [h4 hgo.2]
      exact (List.prefix_append_right_inj _).mpr h2'
    · exact ⟨pre,h1,h2.trans (List.prefix_append _ _)⟩

/-- What is offered to `writev` is the start of all that is still to be sent. -/
theorem gather_prefix (cap limit len : ℕ) (q : List Pdu) :
    (gather cap limit len {} 0 q).bytes <+: q.flatMap Pdu.unsent := by
  obtain ⟨pre,h1,h2⟩ := gather_bytes cap limit len {} 0 q (fun h => absurd rfl h)
  rw [h1]
  exact h2

end Gather

/-- The bytes of the head that are on the wire. -/
def sentPart : List Pdu → List UInt8
  | [] => []
  | p::_ => p.record.take p.numDone

theorem sentPart_cons (p : Pdu) (q : List Pdu) : sentPart (p::q) = p.record.take p.numDone := rfl

theorem request_record (p : Pdu) : p.request.record = p.record := rfl

theorem sentPart_of_zero {q : List Pdu} (h : ∀ p ∈ q, p.numDone = 0) : sentPart q = [] := by
  cases q with
  | nil => rfl
  | cons p q => simp [sentPart,h p List.mem_cons_self]

theorem sentPart_insertAfterHead {p : Pdu} (hp : p.numDone = 0) (q : List Pdu) :
    sentPart (insertAfterHead p q) = sentPart q := by
  cases q with
  | nil => simp [insertAfterHead,sentPart,hp]
  | cons x xs => rfl

theorem sentPart_append {p : Pdu} (hp : p.numDone = 0) (q : List Pdu) :
    sentPart (q ++ [p]) = sentPart q := by
  cases q with
  | nil => simp [sentPart,hp]
  | cons x xs => rfl

/-- Some, but not all, bytes of `p` are on the wire. -/
def HalfSent (q : List Pdu) (p : Pdu) : Prop := q.head? = some p ∧ 0 < p.numDone

theorem sentPart_of_none {q : List Pdu} (h : ∀ p, ¬ HalfSent q p) : sentPart q = [] := by
  cases q with
  | nil => rfl
  | cons p q =>
    have hp : p.numDone = 0 := by
      by_contra hne
      exact h p ⟨rfl,by omega⟩
    simp [sentPart,hp]

/-- Taking a PDU out of the queue leaves the half-sent one alone if it has another xid. -/
theorem sentPart_findXid {x : ℕ} {q r : List Pdu} {p : Pdu} (hq : OutOk q)
    (hx : ∀ a, HalfSent q a → a.xid ≠ x) (h : findXid x q = some (p,r)) :
    sentPart r = sentPart q := by
  obtain ⟨hpx,l,m,rfl,rfl,-⟩ := findXid_some h
  cases l with
  | cons a l => rfl
  | nil =>
    have hp : p.numDone = 0 := by
      by_contra hne
      exact hx p ⟨rfl,by omega⟩ hpx
    have hm : sentPart m = [] := sentPart_of_zero hq.tail
    simp only [List.nil_append,hm,sentPart_cons,hp,List.take_zero]

namespace Rpc

variable {P : Pdu → Prop}

/-- What is on the wire: whole records of requests that were made, and the part of the head. -/
def StreamOk (P : Pdu → Prop) (s : Rpc) : Prop :=
  s.fd = true → ∃ ps : List Pdu, (∀ p ∈ ps, P p) ∧
    s.sent = ps.flatMap Pdu.record ++ sentPart s.outqueue

theorem StreamOk.congr {s t : Rpc} (h : s.StreamOk P) (hfd : t.fd = true → s.fd = true)
    (hs : t.sent = s.sent) (hq : sentPart t.outqueue = sentPart s.outqueue) : t.StreamOk P := by
  intro ht
  rw [hs,hq]
  exact h (hfd ht)

theorem StreamOk.shared {s t : Rpc} (h : s.StreamOk P) (he : t.shared = s.shared) : t.StreamOk P := by
  have hfd : t.fd = s.fd := show t.shared.fd = s.shared.fd by rw [he]
  have hs : t.sent = s.sent := show t.shared.sent = s.shared.sent by rw [he]
  have hq : t.outqueue = s.outqueue := show t.shared.outqueue = s.shared.outqueue by rw [he]
  exact h.congr (fun ht => hfd ▸ ht) hs (by rw [hq])

theorem streamOk_closed {s : Rpc} (h : s.fd = false) : s.StreamOk P := by
  intro hfd
  simp [h] at hfd

theorem streamOk_new {s : Rpc} (hs : s.sent = []) (hq : sentPart s.outqueue = []) :
    s.StreamOk P := by
  intro _
  exact ⟨[],by simp,by simp [hs,hq]⟩

/-- The accounting of `count` bytes moves the boundary by `count` bytes. -/
theorem account_stream {s : Rpc} {q : List Pdu} (count : ℕ) (hok : ∀ p ∈ q, PduOk P p) (hq : OutOk q)
    (hc : count ≤ (q.flatMap Pdu.unsent).length) {ps : List Pdu} (hps : ∀ p ∈ ps, P p)
    {sent : List UInt8} (hsent : sent = ps.flatMap Pdu.record ++ sentPart q) :
    ∃ ps' : List Pdu, (∀ p ∈ ps', P p) ∧
      sent ++ (q.flatMap Pdu.unsent).take count =
        ps'.flatMap Pdu.record ++ sentPart (s.account count q).1.outqueue := by
  induction q generalizing s count ps sent with
  | nil => exact ⟨ps,hps,by simp [hsent,account]⟩
  | cons p q ih =>
    cases count with
    | zero => exact ⟨ps,hps,by simp [hsent,account]⟩
    | succ count =>
      have hlen : p.unsent.length = p.totalSize-p.numDone := by
        rw [Pdu.unsent,List.length_drop,Pdu.record_length]
      have hlt := hq.unsent p List.mem_cons_self
      have htail : OutOk q := outOk_sublist hq (List.sublist_cons_self p q)
      simp only [account,List.flatMap_cons] at hc ⊢
      split
      · rename_i hle
        have hkept := (hok p List.mem_cons_self).kept
        rw [if_neg (by simp [hkept])]
        have hzero : sentPart q = [] := sentPart_of_zero hq.tail
        have hdone : sent ++ p.unsent = (ps ++ [p.request]).flatMap Pdu.record ++ sentPart q := by
          simp only [hsent,hzero,sentPart_cons,Pdu.unsent,List.flatMap_append,List.append_assoc,
            List.take_append_drop,List.flatMap_cons,List.flatMap_nil,List.append_nil,request_record]
        have hps' : ∀ a ∈ ps ++ [p.request], P a := by
          intro a ha
          rcases List.mem_append.mp ha with ha | ha
          · exact hps a ha
          · rw [List.mem_singleton.mp ha]
            exact (hok p List.mem_cons_self).origin
        simp only [List.length_append] at hc
        obtain ⟨ps',h1,h2⟩ := ih (s := s.enqueueWait { p with numDone := p.totalSize })
          (count+1-(p.totalSize-p.numDone)) (fun a ha => hok a (List.mem_cons_of_mem p ha)) htail
          (by omega) hps' hdone
        refine ⟨ps',h1,?_⟩
        rw [← h2,List.take_append,List.take_of_length_le (by omega),hlen,List.append_assoc]
      · rename_i hgt
        refine ⟨ps,hps,?_⟩
        rw [List.take_append_of_le_length (by omega),hsent]
        simp only [sentPart,Pdu.unsent,List.append_assoc]
        congr 1
        exact List.take_add.symm

theorem writeLoop_stream {s : Rpc} (hq : s.QueueOk P) (h : s.StreamOk P) (cap : ℕ)
    (ws : List Writev) : (s.writeLoop cap ws).1.StreamOk P := by
  induction ws generalizing s cap with
  | nil => exact h
  | cons v ws ih =>
    unfold writeLoop
    split
    · split
      · exact h
      · rename_i p ps hps
        cases v with
        | again => exact h
        | error => exact h
        | wrote count =>
          dsimp only
          generalize hb : (Gather.gather (s.growVectors cap p) s.maxWaitpduLen s.waitpduLen {} 0
            (p::ps)).bytes = bytes
          have hpre : bytes <+: (p::ps).flatMap Pdu.unsent := hb ▸ Gather.gather_prefix _ _ _ _
          have hok : ∀ a ∈ p::ps, PduOk P a := fun a ha =>
            hq.queued a (List.mem_append_left _ (hps ▸ ha))
          have hout : OutOk (p::ps) := hps ▸ hq.out
          generalize hn : min count bytes.length = n
          have htake : bytes.take n = ((p::ps).flatMap Pdu.unsent).take n := by
            obtain ⟨rest,hrest⟩ := hpre
            rw [← hrest,List.take_append_of_le_length (by omega)]
          have hacc : (({ s with sent := s.sent ++ bytes.take n } : Rpc).account n (p::ps)).1.StreamOk
              P := by
            obtain ⟨q',w,m,hf⟩ := account_frame { s with sent := s.sent ++ bytes.take n } n (p::ps)
            intro hfd
            have hfd' : s.fd = true := by
              rw [hf] at hfd
              exact hfd
            obtain ⟨rs,h1,h2⟩ := h hfd'
            obtain ⟨rs',h1',h2'⟩ := account_stream (s := { s with sent := s.sent ++ bytes.take n }) n
              hok hout (by have := hpre.length_le; omega) h1 (hps ▸ h2)
            refine ⟨rs',h1',?_⟩
            rw [← h2',← htake,hf]
            rfl
          have hqok : (({ s with sent := s.sent ++ bytes.take n } : Rpc).account n (p::ps)).1.QueueOk P :=
            account_queueOk n hq.hashes (fun a ha => hq.queued a (List.mem_append_right _ ha)) hok hout
          split
          · exact hacc
          · exact ih hqok hacc _
    · exact h

theorem rpcWriteToSocket_stream {s : Rpc} (hq : s.QueueOk P) (h : s.StreamOk P) (ws : List Writev) :
    (s.rpcWriteToSocket ws).1.StreamOk P := by
  unfold rpcWriteToSocket
  split
  · exact h
  · split
    · exact h
    · exact writeLoop_stream hq h _ ws

theorem rpcFindPdu_stream {s t : Rpc} {x : ℕ} {o : Option Pdu} (hq : s.QueueOk P)
    (h : s.StreamOk P) (hx : ∀ a, HalfSent s.outqueue a → a.xid ≠ x)
    (hf : s.rpcFindPdu x = (o,t)) : t.StreamOk P := by
  unfold rpcFindPdu at hf
  split at hf
  · rename_i p r hfind
    obtain ⟨-,rfl⟩ := Prod.mk.inj hf
    exact h.congr id rfl (sentPart_findXid hq.out hx hfind)
  · split at hf
    · obtain ⟨-,rfl⟩ := Prod.mk.inj hf
      exact h.congr id rfl rfl
    · obtain ⟨-,rfl⟩ := Prod.mk.inj hf
      exact h

theorem waitTimedOut_stream {s : Rpc} (h : s.StreamOk P) (t : ℕ) (p : Pdu) :
    (s.waitTimedOut t p).StreamOk P := by
  rcases waitTimedOut_eq s t p with ⟨a,b,he⟩ | he
  · rw [he]
    exact h.congr id rfl (sentPart_insertAfterHead rfl _)
  · rw [he]
    exact h.congr id rfl rfl

/-- The scan of the out queue keeps the half-sent PDU where it is, if it keeps it. -/
theorem sentPart_scan {s : Rpc} {q : List Pdu} (t : ℕ) (hq : OutOk q)
    (hx : ∀ p, HalfSent q p → s.scanOutPdu t p ≠ none) :
    sentPart (q.filterMap (s.scanOutPdu t)) = sentPart q := by
  cases q with
  | nil => rfl
  | cons p q =>
    rw [List.filterMap_cons]
    split
    · rename_i hnone
      have hp : p.numDone = 0 := by
        by_contra hne
        exact hx p ⟨rfl,by omega⟩ hnone
      rw [sentPart_cons,hp,List.take_zero]
      apply sentPart_of_zero
      intro a ha
      obtain ⟨b,hb,hs⟩ := List.mem_filterMap.mp ha
      obtain ⟨y,z,rfl⟩ := scanOutPdu_some hs
      exact hq.tail b hb
    · rename_i r hsome
      obtain ⟨y,z,rfl⟩ := scanOutPdu_some hsome
      rfl

/-- Time for a scan: `t > rpc->last_timeout_scan + 1000`. -/
def scanDue (s : Rpc) : Bool := decide (s.lastTimeoutScan+1000 < s.clock)

theorem rpcTimeoutScan_stream {s : Rpc} (hq : s.QueueOk P) (h : s.StreamOk P)
    (hx : s.fd = true → s.scanDue → ∀ p, HalfSent s.outqueue p → s.scanOutPdu s.clock p ≠ none) :
    s.rpcTimeoutScan.1.StreamOk P := by
  have hfold : ∀ (l : List Pdu) (u : Rpc), u.StreamOk P →
      (l.foldl (fun r p => r.waitTimedOut s.clock p) u).StreamOk P := by
    intro l
    induction l with
    | nil => exact fun u hu => hu
    | cons p l ih => exact fun u hu => ih _ (waitTimedOut_stream hu _ p)
  unfold rpcTimeoutScan
  split
  · exact h
  · rename_i hdue
    apply hfold
    intro hfd
    have hkeep := hx hfd (by simp only [scanDue,decide_eq_true_eq]; omega)
    have hpart := sentPart_scan (s := { s with lastTimeoutScan := s.clock }) s.clock hq.out hkeep
    exact h.congr id rfl hpart hfd

/-- Giving up while the socket stays open: nothing may be half sent. -/
def CanGiveUp (s : Rpc) : Prop :=
  s.autoReconnect = 0 → s.fd = true → ∀ p, ¬ HalfSent s.outqueue p

theorem rpcErrorAllPdus_stream {s : Rpc} (h : s.StreamOk P)
    (hx : s.fd = true → ∀ p, ¬ HalfSent s.outqueue p) (error : String) :
    (s.rpcErrorAllPdus error).StreamOk P := by
  intro hfd
  obtain ⟨ps,h1,h2⟩ := h hfd
  refine ⟨ps,h1,?_⟩
  rw [sentPart_of_none (hx hfd)] at h2
  exact h2

theorem rpcReconnectRequeue_stream {s : Rpc} (hok : s.Ok P) (h : s.StreamOk P) (hx : s.CanGiveUp)
    (conn : Connect) : (s.rpcReconnectRequeue conn).1.StreamOk P := by
  unfold rpcReconnectRequeue
  split
  · rename_i h0
    exact rpcErrorAllPdus_stream h (hx h0) _
  · have hzero : sentPart s.requeueAll.outqueue = [] :=
      sentPart_of_zero fun p hp => ((requeueAll_fresh hok).2 p hp).2
    have hnone : ∀ p, ¬ HalfSent s.requeueAll.outqueue p := by
      intro p hp
      have := ((requeueAll_fresh hok).2 p (List.mem_of_mem_head? hp.1)).2
      have := hp.2
      omega
    have hfd : s.requeueAll.fd = false := by
      rw [requeueAll_eq]
      rfl
    dsimp only
    split
    · cases conn with
      | started => exact streamOk_new rfl hzero
      | noSocket =>
        apply rpcErrorAllPdus_stream
        · exact streamOk_closed rfl
        · exact fun _ => hnone
      | failed =>
        apply rpcErrorAllPdus_stream
        · exact streamOk_new rfl hzero
        · exact fun _ => hnone
    · exact streamOk_closed hfd

theorem maybeCallConnectCb_stream {s : Rpc} (hok : s.Ok P) (h : s.StreamOk P)
    {status : Status} (hx : status ≠ .success → s.connectCb = .reconnect → s.CanGiveUp)
    (conn : Connect) : (s.maybeCallConnectCb status conn).StreamOk P := by
  unfold maybeCallConnectCb reconnectCb
  split
  · exact h
  · exact h
  · rename_i hcb
    split
    · rename_i hst
      apply rpcReconnectRequeue_stream
      · exact hok.congr rfl rfl rfl
      · exact h
      · exact hx hst hcb
    · exact h

/-- The condition on a step: it does not take a half-sent PDU off the out queue while its
connection stays open, and no new connection is opened with one left over from the last. A PDU
is taken off by `rpc_cancel_pdu`, by the timeout scan when it is not retried, by a reply that
carries its xid, and by `rpc_reconnect_requeue` when reconnecting is disabled. -/
def KeepsHalfSent (s : Rpc) : Event → Prop
  | .cancelPdu x => s.fd = true → ∀ p, HalfSent s.outqueue p → p.xid ≠ x
  | .timeoutScan _ =>
    (s.fd = true → s.scanDue → ∀ p, HalfSent s.outqueue p → s.scanOutPdu s.clock p ≠ none) ∧
      ∀ t, s.rpcTimeoutScan = (t,false) → t.CanGiveUp
  | .pollError _ => s.connectCb = .reconnect → s.CanGiveUp
  | .pollConnect soError _ => soError = true → s.connectCb = .reconnect → s.CanGiveUp
  | .recv r _ =>
    (s.fd = true → ∀ p, HalfSent s.outqueue p → s.looksUp r ≠ some p.xid) ∧
      ∀ t, s.recvStep r = .fail t → t.CanGiveUp
  | .write ws _ => ∀ t, s.rpcWriteToSocket ws = (t,false) → t.CanGiveUp
  | .connectAsync _ => s.fd = false → ∀ p, ¬ HalfSent s.outqueue p
  | _ => True

theorem rpcFindPdu_fd (s : Rpc) (x : ℕ) : (s.rpcFindPdu x).2.fd = s.fd := by
  unfold rpcFindPdu
  split
  · rfl
  · split <;> rfl

theorem rpcCancelPdu_stream {s : Rpc} (hq : s.QueueOk P) (h : s.StreamOk P) {x : ℕ}
    (hx : s.fd = true → ∀ p, HalfSent s.outqueue p → p.xid ≠ x) : (s.rpcCancelPdu x).StreamOk P := by
  have hfd := rpcFindPdu_fd s x
  unfold rpcCancelPdu
  split
  · rename_i p t hf
    rw [hf] at hfd
    intro ht
    have hts := rpcFindPdu_stream hq h (hx (hfd ▸ ht)) hf
    exact hts ht
  · rename_i t hf
    exact rpcFindPdu_none hf ▸ h

theorem recvStep_stream {s : Rpc} (hok : s.Ok P) (h : s.StreamOk P) {r : Recv}
    (hx : s.fd = true → ∀ p, HalfSent s.outqueue p → s.looksUp r ≠ some p.xid) :
    (s.recvStep r).rpc.StreamOk P := by
  rcases recvStep_shared hok r with he | ⟨x,hlook,hup⟩
  · exact h.shared he
  · have hfind : ∀ (v t : Rpc) (p : Pdu), v.shared = s.shared → v.rpcFindPdu x = (some p,t) → t.StreamOk P := by
      intro v t p hv hf
      have hw : v.waitpdu = s.waitpdu := show v.shared.waitpdu = s.shared.waitpdu by rw [hv]
      have ho : v.outqueue = s.outqueue := show v.shared.outqueue = s.shared.outqueue by rw [hv]
      have hfd : v.fd = s.fd := show v.shared.fd = s.shared.fd by rw [hv]
      have hvq : v.QueueOk P := ⟨hw ▸ hok.hashes,by rw [pool,ho,hw]; exact hok.queued,ho ▸ hok.out⟩
      intro ht
      have hvfd := rpcFindPdu_fd v x
      rw [hf] at hvfd
      refine rpcFindPdu_stream hvq (h.shared hv) ?_ hf ht
      intro a ha hax
      rw [ho] at ha
      exact hx (by rw [← hfd,← hvfd]; exact ht) a ha (hax ▸ hlook)
    cases hup with
    | found v t p hv hf hu => exact (hfind v t p hv hf).shared hu
    | back v t p hv hf hu =>
      have hret : (t.rpcReturnToOutqueue p).StreamOk P :=
        (hfind v t p hv hf).congr id rfl (sentPart_insertAfterHead rfl _)
      exact hret.shared hu
    | unknown hu => exact h.shared hu

theorem orRequeue_stream {r : Rpc × Bool} (hok : r.1.Ok P) (h : r.1.StreamOk P)
    (hx : ∀ t, r = (t,false) → t.CanGiveUp) (conn : Connect) : (orRequeue conn r).StreamOk P := by
  unfold orRequeue
  split
  · exact h
  · rename_i hf
    refine rpcReconnectRequeue_stream hok h (hx r.1 ?_) conn
    exact Prod.ext rfl (by simpa using hf)

theorem rpcDisconnect_fd (s : Rpc) (error : String) : (s.rpcDisconnect error).fd = false := by
  unfold rpcDisconnect
  dsimp only
  split
  · rfl
  · unfold maybeCallConnectCb reconnectCb
    split
    · rfl
    · rfl
    · split
      · rw [rpcReconnectRequeue_disabled rfl]
        rfl
      · rfl

theorem act_stream {s : Rpc} (hok : s.Ok P) (h : s.StreamOk P) {e : Event} (hP : Queues P e)
    (hx : s.KeepsHalfSent e) : (s.act e).StreamOk P := by
  cases e with
  | tick n => exact h
  | memory ok => exact h
  | setResiliency n t r => exact h
  | disableSocket v => exact h
  | setProgram v => exact h
  | queuePdu c ws =>
    simp only [act,rpcQueuePdu]
    have henq : (s.enqueueCall c).StreamOk P := by
      have hn : (s.newPdu c).numDone = 0 := by
        obtain ⟨a,b,he⟩ := newPdu_eq s c
        rw [he]
        rfl
      exact h.congr id rfl (sentPart_append hn _)
    split
    · split
      · exact rpcWriteToSocket_stream (enqueueCall_ok hok (hP _ _)).toQueueOk henq ws
      · exact henq
    · exact h
  | cancelPdu x => exact rpcCancelPdu_stream hok.toQueueOk h hx
  | timeoutScan conn =>
    exact orRequeue_stream (rpcTimeoutScan_ok hok) (rpcTimeoutScan_stream hok.toQueueOk h hx.1)
      hx.2 conn
  | pollError conn =>
    simp only [act,pollError]
    split
    · rename_i hne
      exact rpcReconnectRequeue_stream hok h (fun h0 => absurd h0 hne) conn
    · exact maybeCallConnectCb_stream hok h (fun _ => hx) conn
  | pollConnect soError conn =>
    simp only [act,pollConnect]
    split
    · split
      · rename_i hso
        exact maybeCallConnectCb_stream hok h (fun _ => hx hso) conn
      · apply maybeCallConnectCb_stream
        · exact hok.congr rfl rfl rfl
        · exact h
        · exact fun hne => absurd rfl hne
    · exact h
  | recv r conn =>
    have hr := recvStep_stream hok h hx.1
    have hrok := recvStep_ok hok r
    have hgive := hx.2
    simp only [act]
    cases hs : s.recvStep r with
    | more t =>
      rw [hs] at hr
      exact hr
    | fail t =>
      rw [hs] at hr hrok
      exact rpcReconnectRequeue_stream hrok hr (hgive t hs) conn
    | fault t =>
      rw [hs] at hr
      exact hr
  | write ws conn =>
    simp only [act,pollWrite]
    split
    · exact h
    · exact orRequeue_stream (rpcWriteToSocket_ok hok ws)
        (rpcWriteToSocket_stream hok.toQueueOk h ws) hx conn
  | disconnect error => exact streamOk_closed (rpcDisconnect_fd s error)
  | connectAsync conn =>
    simp only [act,rpcConnectAsync]
    split
    · exact h
    · rename_i hfd
      have hfd' : s.fd = false := by simpa using hfd
      have hnone : sentPart s.outqueue = [] := sentPart_of_none (hx hfd')
      cases conn with
      | none => exact streamOk_closed hfd'
      | some conn =>
        cases conn with
        | started => exact streamOk_new rfl hnone
        | noSocket => exact streamOk_closed rfl
        | failed => exact streamOk_new rfl hnone
  | destroy => exact streamOk_closed rfl

/-- Output stream integrity of every run that keeps its half-sent PDUs: what was written on the
connection that is open are whole records of requests, in some order, and then the part of the
PDU at the head of the out queue. -/
theorem output_stream_whole (cfg : Config) (es : List Event)
    (hg : Guarded step KeepsHalfSent (init cfg) es) (hfd : (after cfg es).fd = true) :
    ∃ ps : List Pdu, (∀ p ∈ ps, Issued es p) ∧
      (after cfg es).sent = ps.flatMap Pdu.record ++ sentPart (after cfg es).outqueue := by
  have hq : Guarded step (fun _ e => Queues (Issued es) e) (init cfg) es :=
    guarded_of_forall step (fun e he _ => queues_issued he) _
  have hinv := guarded_induction
    (P := fun s => (s.crashed = false → s.Ok (Issued es)) ∧ s.StreamOk (Issued es)) step
    (guarded_and step hg hq) ⟨fun _ => init_ok cfg,streamOk_closed rfl⟩ ?_
  · exact hinv.2 hfd
  · rintro u e ⟨hu,hs⟩ ⟨hk,hP⟩
    refine ⟨step_ok hu e hP,?_⟩
    unfold step
    split
    · exact hs
    · rename_i hlive
      have hc : u.crashed = false := by simp only [not_or,Bool.not_eq_true] at hlive; exact hlive.2
      exact act_stream (hu hc) hs hP hk

/-- The kernel takes ten bytes of a record. -/
def demoPartial : List Event := demoConnect ++ [.queuePdu demoNull [.wrote 10,.again]]

theorem output_stream_whole_demo :
    ∃ ps : List Pdu, (∀ p ∈ ps, Issued demoPartial p) ∧ (after demoConfig demoPartial).sent =
      ps.flatMap Pdu.record ++ sentPart (after demoConfig demoPartial).outqueue := by
  refine output_stream_whole demoConfig demoPartial ⟨?_,?_,trivial,trivial⟩ rfl
  · rintro - p ⟨hp,-⟩
    simp [init] at hp
  · intro h
    simp at h

/-- The half-sent PDU times out, and another takes its place on the same connection. -/
def demoReplaced : List Event :=
  demoPartial ++ [.tick 70000,.timeoutScan .started,.queuePdu demoNull [.wrote 44]]

theorem issued_replaced {p : Pdu} (h : Issued demoReplaced p) :
    p.record = (demoNull.pdu 0 0).record := by
  obtain ⟨c,ws,id,xid,hmem,rfl⟩ := h
  have hc : c = demoNull := by
    simp only [demoReplaced,demoPartial,demoConnect,List.cons_append,List.nil_append,List.mem_cons,
      List.not_mem_nil,or_false,reduceCtorEq,false_or,Event.queuePdu.injEq] at hmem
    rcases hmem with h | h <;> exact h.1
  rw [hc]
  rfl

theorem output_stream_broken :
    (after demoConfig demoReplaced).fd = true ∧
    ¬ ∃ ps : List Pdu, ∃ p k, (∀ q ∈ ps, Issued demoReplaced q) ∧ Issued demoReplaced p ∧
      (after demoConfig demoReplaced).sent = ps.flatMap Pdu.record ++ p.record.take k := by
  refine ⟨rfl,?_⟩
  rintro ⟨ps,p,k,hps,hp,he⟩
  have hsent : (after demoConfig demoReplaced).sent =
      (demoNull.pdu 0 0).record.take 10 ++ (demoNull.pdu 0 0).record := rfl
  rw [hsent,issued_replaced hp] at he
  cases ps with
  | nil =>
    have hlen := congrArg List.length he
    have hle : ((demoNull.pdu 0 0).record.take k).length ≤ 44 := List.length_take_le' _ _
    simp only [List.flatMap_nil,List.nil_append] at hlen
    have h54 : ((demoNull.pdu 0 0).record.take 10 ++ (demoNull.pdu 0 0).record).length = 54 := rfl
    omega
  | cons q ps =>
    rw [List.flatMap_cons,issued_replaced (hps q List.mem_cons_self),List.append_assoc] at he
    have h10 := congrArg (fun l => l.take 11) he
    have h11 : 11 ≤ (demoNull.pdu 0 0).record.length := by decide
    rw [List.take_append_of_le_length h11] at h10
    exact absurd h10 (by decide)

end Rpc
end Libnfs
