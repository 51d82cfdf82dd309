import Libnfs.Conversation

/-! No call is lost. When a client and a server have written and read all that there is, and the server has answered every call,
no PDU of the client waits any more. -/
namespace Libnfs

open ByteWords Zdr Dispatch RecordMark Transition
open Rpc (marking validMarker Progress)

section Posted

variable {P : Pdu → Prop} {p : Pdu} {bs cs : List UInt8}

/-- The whole record of a PDU is in what was written on the connection. -/
def Posted (P : Pdu → Prop) (bs : List UInt8) (p : Pdu) : Prop :=
  ∃ ps : List Pdu, (∀ q ∈ ps, P q) ∧ ps.flatMap Pdu.record ++ p.record <+: bs

theorem Posted.mono (h : Posted P bs p) (hbs : bs <+: cs) : Posted P cs p := by
  obtain ⟨ps,hps,hpre⟩ := h
  exact ⟨ps,hps,hpre.trans hbs⟩

namespace Rpc

variable {s t u v : Rpc}

/-- Every PDU that waits for its reply was sent in full. -/
def WaitsPosted (P : Pdu → Prop) (s : Rpc) : Prop := ∀ p ∈ s.waitpdu.flatten, Posted P s.sent p

/-- Nothing is written, and no PDU is put on a wait chain. -/
def Fewer (s t : Rpc) : Prop := t.sent = s.sent ∧ t.waitpdu.flatten ⊆ s.waitpdu.flatten

theorem Fewer.posted (h : Fewer s t) (hs : s.WaitsPosted P) : t.WaitsPosted P := fun p hp => by
  rw [h.1]
  exact hs p (h.2 hp)

theorem Fewer.trans (h : Fewer s t) (k : Fewer t u) : Fewer s u := ⟨k.1.trans h.1,fun _ hp => h.2 (k.2 hp)⟩

theorem fewer_shared (h : t.shared = s.shared) : Fewer s t := by
  have hs : t.sent = s.sent := show t.shared.sent = s.shared.sent by rw [h]
  have hw : t.waitpdu = s.waitpdu := show t.shared.waitpdu = s.shared.waitpdu by rw [h]
  exact ⟨hs,by rw [hw]; exact List.Subset.refl _⟩

theorem rpcFindPdu_fewer {x : ℕ} (hw : 0 < s.waitpdu.length) (h : s.rpcFindPdu x = (some p,t)) : Fewer s t := by
  rcases rpcFindPdu_place hw h with ⟨l,m,-,rfl⟩ | ⟨i,l,m,hi,hq,rfl⟩
  · exact ⟨rfl,List.Subset.refl _⟩
  · refine ⟨rfl,fun q hq' => ?_⟩
    exact (flatten_set_perm s.waitpdu i hi l m p hq).symm.subset (List.mem_cons_of_mem p hq')

/-- The PDUs that the kernel has taken whole go on the wait chains. -/
theorem account_posted {q : List Pdu} (count : ℕ) (hw : 0 < s.waitpdu.length) (hok : ∀ p ∈ q, PduOk P p) (hq : OutOk q)
    {ps : List Pdu} (hps : ∀ p ∈ ps, P p) {sent : List UInt8} (hsent : sent = ps.flatMap Pdu.record ++ sentPart q)
    (hc : count ≤ (q.flatMap Pdu.unsent).length) (hall : sent ++ (q.flatMap Pdu.unsent).take count <+: bs)
    (hwait : ∀ p ∈ s.waitpdu.flatten, Posted P bs p) : ∀ p ∈ (s.account count q).1.waitpdu.flatten, Posted P bs p := by
  induction q generalizing s count ps sent with
  | nil => exact hwait
  | cons p q ih =>
    cases count with
    | zero => exact hwait
    | succ count =>
      have hlen : p.unsent.length = p.totalSize-p.numDone := by
        rw [Pdu.unsent,List.length_drop,Pdu.record_length]
      have hlt := hq.unsent p List.mem_cons_self
      have htail : OutOk q := outOk_sublist hq (List.sublist_cons_self p q)
      simp only [account,List.flatMap_cons] at hc hall ⊢
      split
      · rename_i hle
        have hkept := (hok p List.mem_cons_self).kept
        rw [if_neg (by simp [hkept])]
        have hdone : sent ++ p.unsent = ps.flatMap Pdu.record ++ p.record := by
          rw [hsent,sentPart_cons,Pdu.unsent,List.append_assoc,List.take_append_drop]
        have hzero : sentPart q = [] := sentPart_of_zero hq.tail
        have hnext : sent ++ p.unsent = (ps ++ [p.request]).flatMap Pdu.record ++ sentPart q := by
          rw [hdone,hzero,List.append_nil,List.flatMap_append,List.flatMap_singleton,request_record]
        have hps' : ∀ a ∈ ps ++ [p.request], P a := by
          intro a ha
          rcases List.mem_append.1 ha with ha | ha
          · exact hps a ha
          · exact List.mem_singleton.1 ha ▸ (hok p List.mem_cons_self).origin
        have hsplit : sent ++ (p.unsent ++ q.flatMap Pdu.unsent).take (count+1) =
            (sent ++ p.unsent) ++ (q.flatMap Pdu.unsent).take (count+1-(p.totalSize-p.numDone)) := by
          rw [List.take_append,List.take_of_length_le (by omega),hlen,List.append_assoc]
        rw [hsplit] at hall
        rw [List.length_append] at hc
        refine ih _ ?_ (fun a ha => hok a (List.mem_cons_of_mem p ha)) htail hps' hnext (by omega) hall fun a ha => ?_
        · rw [enqueueWait_length]
          exact hw
        · rcases List.mem_cons.1 ((enqueueWait_perm hw _).subset ha) with rfl | ha
          · exact ⟨ps,hps,hdone ▸ (List.prefix_append _ _).trans hall⟩
          · exact hwait a ha
      · exact hwait

theorem writeLoop_posted (hq : s.QueueOk P) (h : s.StreamOk P) (hfd : s.fd = true) (hp : s.WaitsPosted P) (cap : ℕ)
    (ws : List Writev) : (s.writeLoop cap ws).1.WaitsPosted P := by
  induction ws generalizing s cap with
  | nil => exact hp
  | cons v ws ih =>
    unfold writeLoop
    split
    · split
      · exact hp
      · rename_i p ps hps
        cases v with
        | again => exact hp
        | error => exact hp
        | wrote count =>
          dsimp only
          generalize hb : (Gather.gather (s.growVectors cap p) s.maxWaitpduLen s.waitpduLen {} 0 (p::ps)).bytes = bytes
          have hpre : bytes <+: (p::ps).flatMap Pdu.unsent := hb ▸ Gather.gather_prefix _ _ _ _
          have hok : ∀ a ∈ p::ps, PduOk P a := fun a ha => hq.queued a (List.mem_append_left _ (hps ▸ ha))
          have hout : OutOk (p::ps) := hps ▸ hq.out
          generalize hn : min count bytes.length = n
          have hle := hpre.length_le
          have htake : bytes.take n = ((p::ps).flatMap Pdu.unsent).take n := by
            obtain ⟨rest,hrest⟩ := hpre
            rw [← hrest,List.take_append_of_le_length (by omega)]
          obtain ⟨rs,h1,h2⟩ := h hfd
          rw [hps] at h2
          have hwait : ∀ a ∈ s.waitpdu.flatten, Posted P (s.sent ++ bytes.take n) a := fun a ha =>
            (hp a ha).mono (List.prefix_append _ _)
          have hnew := @account_posted P (s.sent ++ bytes.take n) { s with sent := s.sent ++ bytes.take n } (p::ps) n
            hq.hashes hok hout rs h1 s.sent h2 (by omega) (by rw [htake]) hwait
          obtain ⟨rs',h1',h2'⟩ := account_stream (s := { s with sent := s.sent ++ bytes.take n }) n hok hout (by omega) h1 h2
          have hqok : (({ s with sent := s.sent ++ bytes.take n } : Rpc).account n (p::ps)).1.QueueOk P :=
            account_queueOk n hq.hashes (fun a ha => hq.queued a (List.mem_append_right _ ha)) hok hout
          obtain ⟨q',w,m,hf⟩ := account_frame { s with sent := s.sent ++ bytes.take n } n (p::ps)
          rw [hf] at hnew h2' hqok ⊢
          split
          · exact hnew
          · exact ih hqok (fun _ => ⟨rs',h1',by rw [← h2',← htake]; rfl⟩) hfd hnew _
    · exact hp

theorem rpcWriteToSocket_posted (hq : s.QueueOk P) (h : s.StreamOk P) (hfd : s.fd = true) (hp : s.WaitsPosted P)
    (ws : List Writev) : (s.rpcWriteToSocket ws).1.WaitsPosted P := by
  unfold rpcWriteToSocket
  split
  · exact hp
  · split
    · exact hp
    · exact writeLoop_posted hq h hfd hp _ ws

theorem rpcTimeoutScan_fewer (s : Rpc) : Fewer s s.rpcTimeoutScan.1 := by
  have hfold : ∀ (l : List Pdu) (u : Rpc), Fewer u (l.foldl (fun r p => r.waitTimedOut s.clock p) u) := by
    intro l
    induction l with
    | nil => exact fun u => ⟨rfl,List.Subset.refl _⟩
    | cons p l ih =>
      refine fun u => Fewer.trans ?_ (ih (u.waitTimedOut s.clock p))
      rcases waitTimedOut_eq u s.clock p with ⟨a,b,he⟩ | he
      · rw [he]
        exact ⟨rfl,List.Subset.refl _⟩
      · rw [he]
        exact ⟨rfl,List.Subset.refl _⟩
  unfold rpcTimeoutScan
  split
  · exact ⟨rfl,List.Subset.refl _⟩
  · refine Fewer.trans ?_ (hfold _ _)
    exact ⟨rfl,fun p hp => mem_map_filter_flatten hp⟩

theorem recvStep_fewer (hok : s.Ok P) (r : Recv) : Fewer s (s.recvStep r).rpc := by
  rcases recvStep_shared hok r with he | ⟨x,-,hup⟩
  · exact fewer_shared he
  · have hfind : ∀ (v t : Rpc) (p : Pdu), v.shared = s.shared → v.rpcFindPdu x = (some p,t) → Fewer s t := by
      intro v t p hv hf
      have hw : v.waitpdu = s.waitpdu := show v.shared.waitpdu = s.shared.waitpdu by rw [hv]
      exact (fewer_shared hv).trans (rpcFindPdu_fewer (hw ▸ hok.hashes) hf)
    cases hup with
    | found v t p hv hf hu => exact (hfind v t p hv hf).trans (fewer_shared hu)
    | back v t p hv hf hu =>
      have hback : Fewer t (t.rpcReturnToOutqueue p) := ⟨rfl,List.Subset.refl _⟩
      exact ((hfind v t p hv hf).trans hback).trans (fewer_shared hu)
    | unknown hu => exact fewer_shared hu

/-- What the application and the scan for timeouts do -/
theorem act_posted (hok : s.Ok P) (h : s.StreamOk P) (hfd : s.fd = true) (hp : s.WaitsPosted P) {e : Event} (hP : Queues P e)
    (hl : s.Lasts e) (hr : ∀ r c, e ≠ .recv r c) : (s.act e).WaitsPosted P := by
  cases e with
  | tick n => exact hp
  | memory ok => exact hp
  | setResiliency n t r => exact hp
  | disableSocket v => exact hp
  | setProgram v => exact hp
  | queuePdu c ws =>
    simp only [act,rpcQueuePdu]
    split
    · split
      · have hn : (s.newPdu c).numDone = 0 := by
          obtain ⟨a,b,he⟩ := newPdu_eq s c
          rw [he]
          rfl
        have hst : (s.enqueueCall c).StreamOk P := h.congr id rfl (sentPart_append hn _)
        exact rpcWriteToSocket_posted (enqueueCall_ok hok (hP _ _)).toQueueOk hst hfd hp ws
      · exact hp
    · exact hp
  | cancelPdu x =>
    simp only [act,rpcCancelPdu]
    split
    · rename_i p t hf
      exact (rpcFindPdu_fewer hok.hashes hf).posted hp
    · rename_i t hf
      exact rpcFindPdu_none hf ▸ hp
  | timeoutScan conn =>
    have hs : s.rpcTimeoutScan.2 = true := hl
    simp only [act,orRequeue,hs,if_true]
    exact (rpcTimeoutScan_fewer s).posted hp
  | write ws conn =>
    simp only [act,pollWrite]
    split
    · exact hp
    · rename_i hne
      rcases hl with hl | hl
      · simp [hl] at hne
      · rw [orRequeue,if_pos hl]
        exact rpcWriteToSocket_posted hok.toQueueOk h hfd hp ws
  | recv r c => exact absurd rfl (hr r c)
  | _ => exact hl.elim

end Rpc

end Posted

end Libnfs
