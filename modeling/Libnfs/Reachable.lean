import Libnfs.ReaderInvariant

/-! Every operation keeps the invariant, so it holds of every context a client can reach. -/
namespace Libnfs

open ByteWords Scatter Zdr Transition

variable {P : Pdu → Prop}

namespace Rpc

/-- The fields of the reader. -/
def readerPart (s : Rpc) :=
  (s.state,s.inpos,s.pduSize,s.pdu,s.rmXid,s.inbuf,s.inbufSize)

theorem readPrep_congr {s t : Rpc} (he : t.readerPart = s.readerPart) {i n : ℕ}
    (h : s.readPrep = some { s with inpos := i, pduSize := n }) :
    t.readPrep = some { t with inpos := i, pduSize := n } := by
  simp only [readerPart,Prod.mk.injEq] at he
  obtain ⟨hs,hi,hz,hp,hr,-,hb⟩ := he
  have hrm : t.rm0 = s.rm0 := congrArg le32 hr
  unfold readPrep at h ⊢
  simp only [hs,hi,hp,hb,hrm] at h ⊢
  by_cases h0 : s.inpos = 0
  · simp only [h0,if_true] at h ⊢
    cases hst : s.state with
    | readRm => simp_all
    | readPayload => simp_all
    | readFragment =>
      simp_all
      omega
    | readUnknown =>
      simp_all
      omega
    | readIovec =>
      simp only [hst] at h ⊢
      split at h <;> simp_all
    | readPadding => simp_all
  · simp only [h0,if_false,Option.some.injEq] at h ⊢
    have h1 := congrArg Rpc.inpos h
    have h2 := congrArg Rpc.pduSize h
    dsimp only at h1 h2
    subst h1 h2
    clear hrm h
    cases t
    simp_all

theorem ReaderOk.congr {s t : Rpc} (h : s.ReaderOk P) (he : t.readerPart = s.readerPart) :
    t.ReaderOk P := by
  obtain ⟨u,hu,hprep⟩ := h.prepared
  obtain ⟨i,n,rfl⟩ := h.readPrep_eq hu
  have ht := readPrep_congr he hu
  simp only [readerPart,Prod.mk.injEq] at he
  obtain ⟨hst,hi,hz,hpdu,hr,hb,hbs⟩ := he
  have hrm0 : t.rm0 = s.rm0 := congrArg le32 hr
  refine ⟨hr ▸ h.rmXid,fun hs => hpdu ▸ h.idle (hst ▸ hs),_,ht,?_⟩
  cases hprep with
  | marker hs hp hsz hi => exact .marker (hst.trans hs) (hpdu.trans hp) hsz hi
  | payload p hs hp ok hrm hsz hi hb' hroom =>
    exact .payload p (hst.trans hs) (hpdu.trans hp) ok (hrm0 ▸ hrm)
      (hsz.trans (by rw [show ({ t with inpos := i, pduSize := n } : Rpc).rm0 = s.rm0 from hrm0]; rfl)) hi
      (hb ▸ hb') (hbs ▸ hroom)
  | unknown hs hp hsz hi hb' =>
    exact .unknown (hst.trans hs) (hpdu.trans hp) (hsz.trans hrm0.symm) hi (hb ▸ hb')
  | iovec p c hs hp ok hc hr hi hcount hroom =>
    exact .iovec p c (hst.trans hs) (hpdu.trans hp) ok hc hr hi hcount (hbs ▸ hroom)
  | padding p hs hp ok hsz hi hroom =>
    exact .padding p (hst.trans hs) (hpdu.trans hp) ok (hsz.trans hrm0.symm) hi (hbs ▸ hroom)
  | stuck hs hi hsz hp => exact .stuck (hst ▸ hs) hi hsz (fun p hp' => hp p (hpdu ▸ hp'))

/-- Only the queues and the reader count. -/
theorem Ok.congr {s t : Rpc} (h : s.Ok P) (ho : t.outqueue = s.outqueue) (hw : t.waitpdu = s.waitpdu)
    (hr : t.readerPart = s.readerPart) : t.Ok P :=
  ⟨⟨hw ▸ h.hashes,by rw [pool,ho,hw]; exact h.queued,ho ▸ h.out⟩,h.toReaderOk.congr hr⟩

theorem flatten_modify_perm {α : Type*} (w : List (List α)) (i : ℕ) (hi : i < w.length) (a : α) :
    (w.modify i (· ++ [a])).flatten.Perm (a::w.flatten) := by
  induction w generalizing i with
  | nil => simp at hi
  | cons v w ih =>
    cases i with
    | zero =>
      simp only [List.modify_zero_cons,List.flatten_cons,List.append_assoc,List.cons_append,
        List.nil_append]
      exact List.perm_middle
    | succ i =>
      simp only [List.length_cons] at hi
      simp only [List.modify_succ_cons,List.flatten_cons]
      exact ((ih i (by omega)).append_left v).trans List.perm_middle

theorem enqueueWait_perm {s : Rpc} (h : 0 < s.waitpdu.length) (p : Pdu) :
    (s.enqueueWait p).waitpdu.flatten.Perm (p::s.waitpdu.flatten) :=
  flatten_modify_perm _ _ (rpcHashXid_lt h _) _

@[simp] theorem enqueueWait_length (s : Rpc) (p : Pdu) :
    (s.enqueueWait p).waitpdu.length = s.waitpdu.length := by simp [enqueueWait]

theorem account_frame (s : Rpc) (count : ℕ) (q : List Pdu) :
    ∃ q' w n, (s.account count q).1 = s.withQueues q' w n := by
  induction q generalizing s count with
  | nil => exact ⟨_,_,_,rfl⟩
  | cons p q ih =>
    cases count with
    | zero => exact ⟨_,_,_,rfl⟩
    | succ count =>
      simp only [account]
      split
      · split
        · exact ⟨_,_,_,rfl⟩
        · obtain ⟨q',w,n,h⟩ := ih (s.enqueueWait { p with numDone := p.totalSize })
            (count+1-(p.totalSize-p.numDone))
          exact ⟨q',w,n,h⟩
      · exact ⟨_,_,_,rfl⟩

theorem account_queueOk {s : Rpc} {q : List Pdu} (count : ℕ) (hw : 0 < s.waitpdu.length)
    (hwait : ∀ p ∈ s.waitpdu.flatten, PduOk P p) (hq : ∀ p ∈ q, PduOk P p) (hout : OutOk q) :
    (s.account count q).1.QueueOk P := by
  induction q generalizing s count with
  | nil => exact ⟨hw,by simpa [pool,account] using hwait,outOk_nil⟩
  | cons p q ih =>
    have htail : OutOk q := outOk_sublist hout (List.sublist_cons_self p q)
    have hall : ∀ a ∈ (p::q) ++ s.waitpdu.flatten, PduOk P a := by
      intro a ha
      rcases List.mem_append.mp ha with ha | ha
      · exact hq a ha
      · exact hwait a ha
    cases count with
    | zero => exact ⟨hw,hall,hout⟩
    | succ count =>
      simp only [account]
      split
      · split
        · exact ⟨hw,fun a ha => hall a (List.mem_cons_of_mem p ha),htail⟩
        · refine ih _ ?_ ?_ (fun a ha => hq a (List.mem_cons_of_mem p ha)) htail
          · simpa using hw
          · intro a ha
            rcases List.mem_cons.mp ((enqueueWait_perm hw _).subset ha) with rfl | ha
            · exact pduOk_numDone (hq p List.mem_cons_self) _
            · exact hwait a ha
      · rename_i hlt
        refine ⟨hw,?_,?_,?_⟩
        · intro a ha
          rcases List.mem_cons.mp ha with rfl | ha
          · exact pduOk_numDone (hq p List.mem_cons_self) _
          · exact hall a (List.mem_cons_of_mem p ha)
        · intro a ha
          rcases List.mem_cons.mp ha with rfl | ha
          · show p.numDone+(count+1) < p.totalSize
            omega
          · exact htail.unsent a ha
        · exact hout.tail

theorem writeLoop_frame (s : Rpc) (cap : ℕ) (ws : List Writev) :
    ∃ q w n b, (s.writeLoop cap ws).1 = { s.withQueues q w n with sent := b } := by
  induction ws generalizing s cap with
  | nil => exact ⟨_,_,_,_,rfl⟩
  | cons v ws ih =>
    unfold writeLoop
    split
    · split
      · exact ⟨_,_,_,_,rfl⟩
      · rename_i p ps hq
        cases v with
        | again => exact ⟨_,_,_,_,rfl⟩
        | error => exact ⟨_,_,_,_,rfl⟩
        | wrote count =>
          dsimp only
          split
          · obtain ⟨q,w,n,h⟩ := account_frame { s with sent := _ } _ (p::ps)
            exact ⟨q,w,n,_,h⟩
          · obtain ⟨q,w,n,h⟩ := account_frame { s with sent := _ } _ (p::ps)
            rw [h]
            obtain ⟨q',w',n',b,h'⟩ := ih _ _
            exact ⟨q',w',n',b,h'⟩
    · exact ⟨_,_,_,_,rfl⟩

theorem writeLoop_queueOk {s : Rpc} (h : s.QueueOk P) (cap : ℕ) (ws : List Writev) :
    (s.writeLoop cap ws).1.QueueOk P := by
  induction ws generalizing s cap with
  | nil => exact h
  | cons v ws ih =>
    unfold writeLoop
    split
    · split
      · exact h
      · rename_i p ps hq
        cases v with
        | again => exact h
        | error => exact h
        | wrote count =>
          dsimp only
          have hacc : ∀ b k, (({ s with sent := b } : Rpc).account k (p::ps)).1.QueueOk P := by
            intro b k
            refine account_queueOk k h.hashes ?_ ?_ (hq ▸ h.out)
            · exact fun a ha => h.queued a (List.mem_append_right _ ha)
            · exact fun a ha => h.queued a (List.mem_append_left _ (hq ▸ ha))
          split
          · exact hacc _ _
          · exact ih (hacc _ _) _
    · exact h

theorem rpcWriteToSocket_frame (s : Rpc) (ws : List Writev) :
    ∃ q w n b, (s.rpcWriteToSocket ws).1 = { s.withQueues q w n with sent := b } := by
  unfold rpcWriteToSocket
  split
  · exact ⟨_,_,_,_,rfl⟩
  · split
    · exact ⟨_,_,_,_,rfl⟩
    · exact writeLoop_frame s _ ws

theorem rpcWriteToSocket_ok {s : Rpc} (h : s.Ok P) (ws : List Writev) :
    (s.rpcWriteToSocket ws).1.Ok P := by
  have hr : (s.rpcWriteToSocket ws).1.readerPart = s.readerPart := by
    obtain ⟨q,w,n,b,he⟩ := rpcWriteToSocket_frame s ws
    rw [he]
    rfl
  refine ⟨?_,h.toReaderOk.congr hr⟩
  unfold rpcWriteToSocket
  split
  · exact h.toQueueOk
  · split
    · exact h.toQueueOk
    · exact writeLoop_queueOk h.toQueueOk _ _

theorem call_request (c : Call) (id xid : ℕ) : (c.pdu id xid).request = c.pdu id xid := by
  unfold Call.pdu Pdu.request
  dsimp only
  split <;> rfl

theorem call_pduOk {c : Call} {id xid : ℕ} (h : P (c.pdu id xid)) : PduOk P (c.pdu id xid) := by
  have hc : ∀ d, (c.pdu id xid).cursor = some d → d = Cursor.fresh c.iov := by
    intro d hd
    simp only [Call.pdu] at hd
    split at hd
    · simp at hd
    · exact (Option.some.inj hd).symm
  refine ⟨⟨rfl,?_,?_,?_,fun _ => rfl,(call_request c id xid).symm ▸ h⟩,?_⟩
  · simp [Call.pdu,Pdu.totalSize]
  · intro d hd
    rw [hc d hd]
    exact Cursor.fresh_sized _
  · intro d hd
    rw [hc d hd]
    exact Nat.mod_le _ _
  · intro d hd
    rw [hc d hd]
    rfl

theorem newPdu_eq (s : Rpc) (c : Call) :
    ∃ a b, s.newPdu c = { c.pdu s.nextId s.xid with timeout := a, majorTimeout := b } :=
  pduSetTimeout_eq s _ 0

theorem enqueueCall_ok {s : Rpc} (h : s.Ok P) {c : Call} (hP : P (c.pdu s.nextId s.xid)) :
    (s.enqueueCall c).Ok P := by
  have hp : PduOk P (s.newPdu c) ∧ (s.newPdu c).numDone = 0 := by
    obtain ⟨a,b,he⟩ := newPdu_eq s c
    rw [he]
    exact ⟨pduOk_times (call_pduOk hP) a b,rfl⟩
  refine ⟨⟨h.hashes,?_,outOk_append h.out hp.1.sized hp.2⟩,h.toReaderOk.congr rfl⟩
  intro a ha
  simp only [pool,enqueueCall,List.mem_append,List.mem_singleton] at ha
  rcases ha with (ha | rfl) | ha
  · exact h.queued a (List.mem_append_left _ ha)
  · exact hp.1
  · exact h.queued a (List.mem_append_right _ ha)

theorem rpcQueuePdu_ok {s : Rpc} (h : s.Ok P) {c : Call} (hP : P (c.pdu s.nextId s.xid))
    (ws : List Writev) : (s.rpcQueuePdu c ws).Ok P := by
  unfold rpcQueuePdu
  split
  · split
    · exact rpcWriteToSocket_ok (enqueueCall_ok h hP) ws
    · exact enqueueCall_ok h hP
  · exact h

theorem rpcCancelPdu_ok {s : Rpc} (h : s.Ok P) (x : ℕ) : (s.rpcCancelPdu x).Ok P := by
  unfold rpcCancelPdu
  split
  · rename_i p t hf
    have ht := (h.toQueueOk.withQueues hf).1
    obtain ⟨-,q,w,n,rfl,-⟩ := rpcFindPdu_some h.hashes hf
    exact ⟨⟨ht.hashes,ht.queued,ht.out⟩,h.toReaderOk.congr rfl⟩
  · rename_i t hf
    exact rpcFindPdu_none hf ▸ h

/-- The scan keeps a PDU on the out queue as it is, but for its times. -/
theorem scanOutPdu_some {s : Rpc} {t : ℕ} {p q : Pdu} (h : s.scanOutPdu t p = some q) :
    ∃ a b, q = { p with timeout := a, majorTimeout := b } := by
  unfold scanOutPdu at h
  split at h
  · exact ⟨p.timeout,p.majorTimeout,(Option.some.inj h).symm⟩
  · split at h
    · obtain ⟨a,b,he⟩ := pduSetTimeout_eq s { p with timeout := 0, majorTimeout := 0 } t
      exact ⟨a,b,(Option.some.inj h).symm.trans he⟩
    · simp at h

theorem filterMap_tail_subset {α β : Type*} (f : α → Option β) (l : List α) :
    (l.filterMap f).tail ⊆ l.tail.filterMap f := by
  cases l with
  | nil => simp
  | cons a l =>
    rw [List.filterMap_cons]
    split
    · exact List.tail_subset _
    · exact List.Subset.refl _

theorem scanOutqueue_queueOk {s : Rpc} (h : s.QueueOk P) (t : ℕ) : (s.scanOutqueue t).QueueOk P := by
  refine ⟨h.hashes,?_,?_,?_⟩
  · intro a ha
    rcases List.mem_append.mp ha with ha | ha
    · obtain ⟨p,hp,hs⟩ := List.mem_filterMap.mp ha
      obtain ⟨x,y,rfl⟩ := scanOutPdu_some hs
      exact pduOk_times (h.queued p (List.mem_append_left _ hp)) x y
    · exact h.queued a (List.mem_append_right _ ha)
  · intro a ha
    obtain ⟨p,hp,hs⟩ := List.mem_filterMap.mp ha
    obtain ⟨x,y,rfl⟩ := scanOutPdu_some hs
    exact h.out.unsent p hp
  · intro a ha
    obtain ⟨p,hp,hs⟩ := List.mem_filterMap.mp (filterMap_tail_subset _ _ ha)
    obtain ⟨x,y,rfl⟩ := scanOutPdu_some hs
    exact h.out.tail p hp

/-- A PDU that timed out on a wait chain is put back on the out queue or given up. -/
theorem waitTimedOut_eq (s : Rpc) (t : ℕ) (p : Pdu) :
    (∃ a b, s.waitTimedOut t p = { s.rpcReturnToOutqueue { p with timeout := a, majorTimeout := b } with
      waitpduLen := s.waitpduLen-1 }) ∨
    s.waitTimedOut t p = { s.callback p .timeout .null with waitpduLen := s.waitpduLen-1 } := by
  unfold waitTimedOut
  dsimp only
  split
  · left
    obtain ⟨a,b,he⟩ := pduSetTimeout_eq { s with waitpduLen := s.waitpduLen-1 }
      { p with timeout := 0, majorTimeout := if p.majorTimeout ≤ t then 0 else p.majorTimeout } t
    exact ⟨a,b,by rw [he]; rfl⟩
  · right
    rfl

theorem waitTimedOut_queueOk {s : Rpc} (h : s.QueueOk P) (t : ℕ) {p : Pdu} (hp : HeldOk P p) :
    (s.waitTimedOut t p).QueueOk P := by
  rcases waitTimedOut_eq s t p with ⟨a,b,he⟩ | he
  · have hr := h.return (p := { p with timeout := a, majorTimeout := b })
      ⟨hp.kept,hp.sized,hp.cursor,hp.room,hp.plain,hp.origin⟩
    rw [he]
    exact ⟨hr.hashes,hr.queued,hr.out⟩
  · rw [he]
    exact ⟨h.hashes,h.queued,h.out⟩

theorem waitTimedOut_readerPart (s : Rpc) (t : ℕ) (p : Pdu) :
    (s.waitTimedOut t p).readerPart = s.readerPart := by
  rcases waitTimedOut_eq s t p with ⟨a,b,he⟩ | he <;> rw [he] <;> rfl

theorem mem_map_filter_flatten {α : Type*} {f : α → Bool} {w : List (List α)} {a : α}
    (h : a ∈ (w.map fun q => q.filter f).flatten) : a ∈ w.flatten := by
  rw [← List.filter_flatten] at h
  exact List.mem_of_mem_filter h

theorem rpcTimeoutScan_ok {s : Rpc} (h : s.Ok P) : s.rpcTimeoutScan.1.Ok P := by
  have hscan : ∀ (l : List Pdu) (u : Rpc), (∀ p ∈ l, HeldOk P p) → u.Ok P →
      (l.foldl (fun r p => r.waitTimedOut s.clock p) u).Ok P := by
    intro l
    induction l with
    | nil => exact fun u _ hu => hu
    | cons p l ih =>
      intro u hl hu
      refine ih _ (fun a ha => hl a (List.mem_cons_of_mem p ha)) ⟨?_,?_⟩
      · exact waitTimedOut_queueOk hu.toQueueOk _ (hl p List.mem_cons_self)
      · exact hu.toReaderOk.congr (waitTimedOut_readerPart u _ p)
  unfold rpcTimeoutScan
  split
  · exact h
  · dsimp only
    have ho := scanOutqueue_queueOk (s := { s with lastTimeoutScan := s.clock })
      ⟨h.hashes,h.queued,h.out⟩ s.clock
    unfold scanWaitpdu
    refine hscan _ _ ?_ ⟨⟨?_,?_,ho.out⟩,h.toReaderOk.congr rfl⟩
    · intro p hp
      exact (ho.queued p (List.mem_append_right _ (List.mem_of_mem_filter hp))).toHeldOk
    · simpa using ho.hashes
    · intro a ha
      rcases List.mem_append.mp ha with ha | ha
      · exact ho.queued a (List.mem_append_left _ ha)
      · exact ho.queued a (List.mem_append_right _ (mem_map_filter_flatten ha))

theorem rpcPurgeAllPdus_ok {s : Rpc} (h : s.Ok P) (status : Status) (data : CbData) :
    (s.rpcPurgeAllPdus status data).Ok P := by
  refine ⟨⟨by simpa [rpcPurgeAllPdus] using h.hashes,?_,outOk_nil⟩,h.toReaderOk.congr rfl⟩
  intro a ha
  simp [pool,rpcPurgeAllPdus] at ha

theorem rpcErrorAllPdus_ok {s : Rpc} (h : s.Ok P) (error : String) : (s.rpcErrorAllPdus error).Ok P :=
  (rpcPurgeAllPdus_ok h .error (.text error)).congr rfl rfl rfl

/-- Put PDUs back on the out queue one after the other. -/
def returned (q : List Pdu) (ps : List Pdu) : List Pdu :=
  ps.foldl (fun q p => insertAfterHead p.reset q) q

theorem foldl_return (s : Rpc) (ps : List Pdu) :
    ps.foldl rpcReturnToOutqueue s = { s with outqueue := returned s.outqueue ps } := by
  induction ps generalizing s with
  | nil => rfl
  | cons p ps ih =>
    rw [List.foldl_cons,ih]
    rfl

theorem returnWaiting_eq (s : Rpc) :
    s.returnWaiting = { s with
      outqueue := returned s.outqueue s.waitpdu.flatten
      waitpdu := s.waitpdu.map fun _ => []
      waitpduLen := 0 } := by
  rw [returnWaiting,foldl_return]

theorem returnHeld_eq (s : Rpc) :
    s.returnHeld = { s with outqueue := returned s.outqueue s.pdu.toList, pdu := none } := by
  unfold returnHeld
  cases hp : s.pdu with
  | none =>
    simp only [Option.toList_none,returned,List.foldl_nil]
    rw [← hp]
  | some p => rfl

/-- After the requeue everything outstanding is on the out queue. -/
theorem requeueAll_eq (s : Rpc) :
    s.requeueAll = { s.hungUp with
      outqueue := returned (restartHead s.outqueue) (s.waitpdu.flatten ++ s.pdu.toList)
      waitpdu := s.waitpdu.map fun _ => []
      waitpduLen := 0
      pdu := none } := by
  rw [requeueAll,returnWaiting_eq,returnHeld_eq]
  simp only [returned,List.foldl_append]
  rfl

theorem returned_perm (q ps : List Pdu) : (returned q ps).Perm (q ++ ps.map Pdu.reset) := by
  induction ps generalizing q with
  | nil => simp [returned]
  | cons p ps ih =>
    have hi := (insertAfterHead_perm p.reset q).append_right (ps.map Pdu.reset)
    exact (ih (insertAfterHead p.reset q)).trans (hi.trans List.perm_middle.symm)

theorem returned_outOk {q ps : List Pdu} (h : OutOk q) (hps : ∀ p ∈ ps, HeldOk P p) :
    OutOk (returned q ps) := by
  induction ps generalizing q with
  | nil => exact h
  | cons p ps ih =>
    refine ih ?_ (fun a ha => hps a (List.mem_cons_of_mem p ha))
    exact outOk_insertAfterHead h (hps p List.mem_cons_self).sized rfl

theorem restartHead_outOk {q : List Pdu} (h : OutOk q) (hq : ∀ p ∈ q, PduOk P p) :
    OutOk (restartHead q) ∧ ∀ p ∈ restartHead q, PduOk P p ∧ p.numDone = 0 := by
  cases q with
  | nil => exact ⟨outOk_nil,by simp [restartHead]⟩
  | cons x xs =>
    have hx := hq x List.mem_cons_self
    refine ⟨⟨?_,h.tail⟩,?_⟩
    · intro a ha
      rcases List.mem_cons.mp ha with rfl | ha
      · exact hx.sized
      · exact h.unsent a (List.mem_cons_of_mem x ha)
    · intro a ha
      rcases List.mem_cons.mp ha with rfl | ha
      · exact ⟨pduOk_numDone hx 0,rfl⟩
      · exact ⟨hq a (List.mem_cons_of_mem x ha),h.tail a ha⟩

/-- All that is on the out queue after the requeue is as it was queued. -/
theorem requeueAll_fresh {s : Rpc} (h : s.Ok P) :
    OutOk s.requeueAll.outqueue ∧ ∀ p ∈ s.requeueAll.outqueue, PduOk P p ∧ p.numDone = 0 := by
  rw [requeueAll_eq]
  dsimp only
  have hout := restartHead_outOk h.out fun p hp => h.queued p (List.mem_append_left _ hp)
  have hheld : ∀ p ∈ s.waitpdu.flatten ++ s.pdu.toList, HeldOk P p := by
    intro p hp
    rcases List.mem_append.mp hp with hp | hp
    · exact (h.queued p (List.mem_append_right _ hp)).toHeldOk
    · exact h.toReaderOk.held p (Option.mem_toList.mp hp)
  refine ⟨returned_outOk hout.1 hheld,?_⟩
  intro p hp
  rcases List.mem_append.mp ((returned_perm _ _).subset hp) with hp | hp
  · exact hout.2 p hp
  · obtain ⟨a,ha,rfl⟩ := List.mem_map.mp hp
    exact ⟨reset_pduOk (hheld a ha),rfl⟩

theorem requeueAll_ok {s : Rpc} (h : s.Ok P) : s.requeueAll.Ok P := by
  obtain ⟨hout,hall⟩ := requeueAll_fresh h
  rw [requeueAll_eq] at hout hall ⊢
  refine ⟨⟨by simpa using h.hashes,?_,hout⟩,restart_readerOk _ h.rmXid rfl rfl rfl⟩
  intro p hp
  rcases List.mem_append.mp hp with hp | hp
  · exact (hall p hp).1
  · simp at hp

theorem rpcConnectSockaddrAsync_eq (s : Rpc) (conn : Connect) :
    ∃ b l, (s.rpcConnectSockaddrAsync conn).1 = { s with fd := b, sent := l } := by
  cases conn with
  | started => exact ⟨_,_,rfl⟩
  | noSocket => exact ⟨_,_,rfl⟩
  | failed => exact ⟨_,_,rfl⟩

theorem rpcConnectSockaddrAsync_ok {s : Rpc} (h : s.Ok P) (conn : Connect) :
    (s.rpcConnectSockaddrAsync conn).1.Ok P := by
  obtain ⟨b,l,he⟩ := rpcConnectSockaddrAsync_eq s conn
  rw [he]
  exact h.congr rfl rfl rfl

theorem rpcReconnectRequeue_ok {s : Rpc} (h : s.Ok P) (conn : Connect) :
    (s.rpcReconnectRequeue conn).1.Ok P := by
  unfold rpcReconnectRequeue
  split
  · exact rpcErrorAllPdus_ok h _
  · have hr : s.requeueAll.retrying.Ok P := (requeueAll_ok h).congr rfl rfl rfl
    have hc := rpcConnectSockaddrAsync_ok hr conn
    dsimp only
    split
    · split
      · exact hc
      · exact rpcErrorAllPdus_ok hc _
    · exact rpcErrorAllPdus_ok (requeueAll_ok h) _

theorem maybeCallConnectCb_ok {s : Rpc} (h : s.Ok P) (status : Status) (conn : Connect) :
    (s.maybeCallConnectCb status conn).Ok P := by
  unfold maybeCallConnectCb reconnectCb
  split
  · exact h
  · exact h.congr rfl rfl rfl
  · split
    · apply rpcReconnectRequeue_ok
      exact h.congr rfl rfl rfl
    · exact h.congr rfl rfl rfl

theorem rpcDisconnect_ok {s : Rpc} (h : s.Ok P) (error : String) : (s.rpcDisconnect error).Ok P := by
  unfold rpcDisconnect
  dsimp only
  split
  · exact h.congr rfl rfl rfl
  · apply maybeCallConnectCb_ok
    apply rpcErrorAllPdus_ok
    exact h.congr rfl rfl rfl

theorem rpcConnectAsync_ok {s : Rpc} (h : s.Ok P) (conn : Option Connect) :
    (s.rpcConnectAsync conn).1.Ok P := by
  unfold rpcConnectAsync
  split
  · exact h
  · split
    · exact h.congr rfl rfl rfl
    · apply rpcConnectSockaddrAsync_ok
      exact h.congr rfl rfl rfl

theorem orRequeue_ok {r : Rpc × Bool} (h : r.1.Ok P) (conn : Connect) : (orRequeue conn r).Ok P := by
  unfold orRequeue
  split
  · exact h
  · exact rpcReconnectRequeue_ok h conn

/-- Whatever is queued by this event meets `P`. -/
def Queues (P : Pdu → Prop) : Event → Prop
  | .queuePdu c _ => ∀ id xid, P (c.pdu id xid)
  | _ => True

/-- One event keeps the invariant, unless it ends the process. -/
theorem act_ok {s : Rpc} (h : s.Ok P) (e : Event) (hP : Queues P e) (hc : (s.act e).crashed = false) :
    (s.act e).Ok P := by
  cases e with
  | tick n => exact h.congr rfl rfl rfl
  | memory ok => exact h.congr rfl rfl rfl
  | setResiliency n t r => exact h.congr rfl rfl rfl
  | disableSocket v => exact h.congr rfl rfl rfl
  | setProgram v => exact h.congr rfl rfl rfl
  | queuePdu c ws => exact rpcQueuePdu_ok h (hP _ _) ws
  | cancelPdu x => exact rpcCancelPdu_ok h x
  | timeoutScan conn => exact orRequeue_ok (rpcTimeoutScan_ok h) conn
  | pollError conn =>
    simp only [act,pollError]
    split
    · exact rpcReconnectRequeue_ok h conn
    · exact maybeCallConnectCb_ok h _ conn
  | pollConnect soError conn =>
    simp only [act,pollConnect]
    split
    · split
      · exact maybeCallConnectCb_ok h _ conn
      · apply maybeCallConnectCb_ok
        exact h.congr rfl rfl rfl
    · exact h
  | recv r conn =>
    have hr := recvStep_ok h r
    simp only [act] at hc ⊢
    cases hs : s.recvStep r with
    | more t =>
      rw [hs] at hr
      exact hr
    | fail t =>
      rw [hs] at hr
      exact rpcReconnectRequeue_ok hr conn
    | fault t => simp [hs,afterRead] at hc
  | write ws conn =>
    simp only [act,pollWrite]
    split
    · exact h
    · exact orRequeue_ok (rpcWriteToSocket_ok h ws) conn
  | disconnect error => exact rpcDisconnect_ok h error
  | connectAsync conn => exact rpcConnectAsync_ok h conn
  | destroy => exact (rpcPurgeAllPdus_ok h .cancel .null).congr rfl rfl rfl

theorem step_ok {s : Rpc} (h : s.crashed = false → s.Ok P) (e : Event) (hP : Queues P e)
    (hc : (s.step e).crashed = false) : (s.step e).Ok P := by
  unfold step at hc ⊢
  split at hc
  · rename_i hd
    rw [if_pos hd]
    exact h hc
  · rename_i hd
    rw [if_neg hd]
    have hlive : s.crashed = false := by simp only [not_or,Bool.not_eq_true] at hd; exact hd.2
    exact act_ok (h hlive) e hP hc

theorem init_ok (cfg : Config) : (init cfg).Ok P := by
  refine ⟨⟨by simpa [init] using cfg.numHashes_pos,?_,outOk_nil⟩,restart_readerOk _ rfl rfl rfl rfl⟩
  intro p hp
  simp [pool,init] at hp

/-- The invariant holds whatever happens, as long as the process lives. -/
theorem after_ok (cfg : Config) (es : List Event) (hP : ∀ e ∈ es, Queues P e)
    (h : (after cfg es).crashed = false) : (after cfg es).Ok P :=
  guarded_induction (P := fun s => s.crashed = false → s.Ok P) step
    (guarded_of_forall step (G := fun _ e => Queues P e) (fun e he _ => hP e he) (init cfg))
    (fun _ => init_ok cfg) (fun _ e hu he => step_ok hu e he) h

end Rpc
end Libnfs
