import Libnfs.Quiet
import Libnfs.Records
import Libnfs.Stream

/-! Which call a PDU and a record on the wire stand for: in a run every xid belongs to one call. -/
namespace Libnfs

open ByteWords Transition RecordMark

namespace Call

/-- The message behind the record marker -/
def message (c : Call) : List UInt8 := c.payload.flatMap OutVec.data

theorem message_length (c : Call) : c.message.length = c.size := by simp [message,size,List.length_flatMap]

theorem pdu_record (c : Call) (id xid : ℕ) : (c.pdu id xid).record = beBytes (2^31+c.message.length) ++ c.message := by
  rw [message_length]
  rfl

end Call

namespace Rpc

variable {P : Pdu → Prop} {cfg : Config} {es fs pre : List Event} {s : Rpc} {e : Event} {p q : Pdu}

/-- The message of a call starts with the xid that `rpc_allocate_pdu2` gives it, and its size fits the record marker. -/
def Numbered (s : Rpc) : Event → Prop
  | .queuePdu c _ => c.message.take 4 = beBytes s.xid ∧ c.message.length < 2^31
  | _ => True

/-- The PDU is as it was made for a call of the run. -/
def Made (cfg : Config) (es : List Event) (p : Pdu) : Prop :=
  ∃ pre c ws post, es = pre ++ .queuePdu c ws :: post ∧ (after cfg pre).Live ∧ (after cfg pre).memOk = true ∧
    p = c.pdu (after cfg pre).nextId (after cfg pre).xid

theorem Made.append (h : Made cfg es p) (fs : List Event) : Made cfg (es++fs) p := by
  obtain ⟨pre,c,ws,post,rfl,h⟩ := h
  exact ⟨pre,c,ws,post++fs,by simp,h⟩

/-- One event keeps the invariant if a PDU that is made meets `P`. -/
theorem act_ok_of (h : s.Ok P) (hP : ∀ c ws, e = .queuePdu c ws → s.memOk = true → P (c.pdu s.nextId s.xid))
    (hc : (s.act e).crashed = false) : (s.act e).Ok P := by
  cases e with
  | queuePdu c ws =>
    by_cases hm : s.memOk = true
    · exact rpcQueuePdu_ok h (hP c ws rfl hm) ws
    · show (s.rpcQueuePdu c ws).Ok P
      rw [rpcQueuePdu,if_neg hm]
      exact h
  | _ => exact act_ok h _ trivial hc

theorem act_stream_of (hok : s.Ok P) (h : s.StreamOk P)
    (hP : ∀ c ws, e = .queuePdu c ws → s.memOk = true → P (c.pdu s.nextId s.xid)) (hx : s.KeepsHalfSent e) : (s.act e).StreamOk P := by
  cases e with
  | queuePdu c ws =>
    show (s.rpcQueuePdu c ws).StreamOk P
    have henq : (s.enqueueCall c).StreamOk P := by
      have hn : (s.newPdu c).numDone = 0 := by
        obtain ⟨a,b,he⟩ := newPdu_eq s c
        rw [he]
        rfl
      exact h.congr id rfl (sentPart_append hn _)
    unfold rpcQueuePdu
    split
    · rename_i hm
      split
      · exact rpcWriteToSocket_stream (enqueueCall_ok hok (hP c ws rfl hm)).toQueueOk henq ws
      · exact henq
    · exact h
  | _ => exact act_stream hok h trivial hx

theorem after_concat (cfg : Config) (es : List Event) (e : Event) : after cfg (es++[e]) = (after cfg es).step e := by
  rw [after,run_append]
  rfl

/-- The PDUs of a context, and those on the wire, were made for calls of the run. -/
theorem after_made (cfg : Config) (es : List Event) (hg : Guarded step KeepsHalfSent (init cfg) es)
    (hc : (after cfg es).crashed = false) : (after cfg es).Ok (Made cfg es) ∧ (after cfg es).StreamOk (Made cfg es) := by
  suffices h : ∀ pre post, es = pre++post → (after cfg pre).crashed = false →
      (after cfg pre).Ok (Made cfg es) ∧ (after cfg pre).StreamOk (Made cfg es) from h es [] (by simp) hc
  intro pre
  induction pre using List.reverseRecOn with
  | nil => exact fun _ _ _ => ⟨init_ok cfg,streamOk_closed rfl⟩
  | append_singleton pre e ih =>
    intro post hes hc
    rw [after_concat] at hc ⊢
    have hes' : es = pre ++ e::post := by rw [hes]; simp
    by_cases hdead : (after cfg pre).destroyed ∨ (after cfg pre).crashed
    · rw [step,if_pos hdead] at hc ⊢
      exact ih (e::post) hes' hc
    · have hlive : (after cfg pre).Live := by simpa [Live] using hdead
      rw [step_live hlive] at hc ⊢
      obtain ⟨hok,hst⟩ := ih (e::post) hes' hlive.2
      have hP : ∀ c ws, e = .queuePdu c ws → (after cfg pre).memOk = true →
          Made cfg es (c.pdu (after cfg pre).nextId (after cfg pre).xid) := by
        rintro c ws rfl hm
        exact ⟨pre,c,ws,post,hes',hlive,hm,rfl⟩
      have hk : (after cfg pre).KeepsHalfSent e := by
        rw [hes',guarded_append] at hg
        exact hg.2.1
      exact ⟨act_ok_of hok hP hc,act_stream_of hok hst hP hk⟩

/-- No PDU comes but by a call. -/
theorem act_keeps (hok : s.Ok P) (he : ∀ c ws, e ≠ .queuePdu c ws) : Keeps s (s.act e) := by
  cases e with
  | tick => exact .of_eq rfl rfl rfl rfl rfl
  | memory => exact .of_eq rfl rfl rfl rfl rfl
  | setResiliency => exact .of_eq rfl rfl rfl rfl rfl
  | disableSocket => exact .of_eq rfl rfl rfl rfl rfl
  | setProgram => exact .of_eq rfl rfl rfl rfl rfl
  | queuePdu c ws => exact absurd rfl (he c ws)
  | cancelPdu x => exact rpcCancelPdu_keeps x hok.hashes
  | timeoutScan conn => exact orRequeue_keeps (rpcTimeoutScan_keeps s) conn
  | pollError conn =>
    simp only [act,pollError]
    split
    · exact rpcReconnectRequeue_keeps s conn
    · exact maybeCallConnectCb_keeps s _ conn
  | pollConnect soError conn =>
    simp only [act,pollConnect]
    split
    · split
      · exact maybeCallConnectCb_keeps s _ conn
      · have h0 : Keeps s { s with isConnected := true } := .of_eq rfl rfl rfl rfl rfl
        exact h0.trans (maybeCallConnectCb_keeps _ _ conn)
    · exact .refl s
  | recv r conn =>
    have hk := recvStep_keeps hok r
    simp only [act]
    generalize s.recvStep r = c at hk ⊢
    cases c with
    | more t => exact hk
    | fail t => exact hk.trans (rpcReconnectRequeue_keeps t conn)
    | fault t => exact hk.trans (.of_eq rfl rfl rfl rfl rfl)
  | write ws conn =>
    simp only [act,pollWrite]
    split
    · exact .refl s
    · exact orRequeue_keeps (rpcWriteToSocket_keeps ws hok.hashes) conn
  | disconnect error => exact rpcDisconnect_keeps s error
  | connectAsync conn => exact rpcConnectAsync_keeps s conn
  | destroy => exact rpcDestroyContext_keeps s

theorem rpcQueuePdu_nextId (s : Rpc) (c : Call) (ws : List Writev) :
    (s.rpcQueuePdu c ws).nextId = if s.memOk then s.nextId+1 else s.nextId := by
  unfold rpcQueuePdu
  split
  · split
    · obtain ⟨q,w,n,b,he⟩ := rpcWriteToSocket_frame (s.enqueueCall c) ws
      rw [he]
      rfl
    · rfl
  · rfl

/-- PDUs are numbered in the order in which they are made. -/
theorem nextId_mono (cfg : Config) (pre post : List Event) (hc : (after cfg (pre++post)).crashed = false) :
    (after cfg pre).crashed = false ∧ (after cfg pre).nextId ≤ (after cfg (pre++post)).nextId := by
  induction post using List.reverseRecOn with
  | nil =>
    rw [List.append_nil] at hc ⊢
    exact ⟨hc,le_refl _⟩
  | append_singleton post e ih =>
    rw [← List.append_assoc,after_concat] at hc ⊢
    by_cases hdead : (after cfg (pre++post)).destroyed ∨ (after cfg (pre++post)).crashed
    · rw [step,if_pos hdead] at hc ⊢
      exact ih hc
    · have hlive : (after cfg (pre++post)).Live := by simpa [Live] using hdead
      rw [step_live hlive] at hc ⊢
      obtain ⟨hcr,hle⟩ := ih hlive.2
      refine ⟨hcr,hle.trans ?_⟩
      have hok : (after cfg (pre++post)).Ok fun _ => True := after_ok cfg _ (fun e _ => by cases e <;> simp [Queues]) hlive.2
      by_cases hq : ∃ c ws, e = .queuePdu c ws
      · obtain ⟨c,ws,rfl⟩ := hq
        show _ ≤ ((after cfg (pre++post)).rpcQueuePdu c ws).nextId
        rw [rpcQueuePdu_nextId]
        split <;> omega
      · exact (act_keeps hok fun c ws h => hq ⟨c,ws,h⟩).nextId.ge

/-- An xid belongs to one call of a run in which fewer than 2^32 are made. -/
theorem Made.eq_of_xid (hp : Made cfg es p) (hq : Made cfg es q) (hc : (after cfg es).crashed = false)
    (hn : (after cfg es).nextId ≤ 2^32) (hx : p.xid = q.xid) : p = q := by
  -- the earlier of two calls has a smaller number
  have hlt : ∀ pre c ws mid d us post, es = pre ++ .queuePdu c ws :: (mid ++ .queuePdu d us :: post) →
      (after cfg pre).Live → (after cfg pre).memOk = true → (after cfg (pre ++ .queuePdu c ws :: mid)).memOk = true →
      (after cfg (pre ++ .queuePdu c ws :: mid)).Live → (after cfg pre).nextId < (after cfg (pre ++ .queuePdu c ws :: mid)).nextId ∧
      (after cfg (pre ++ .queuePdu c ws :: mid)).nextId < 2^32 := by
    intro pre c ws mid d us post hes hl hm hm' hl'
    have hmid : pre ++ .queuePdu c ws :: mid = (pre++[.queuePdu c ws])++mid := by simp
    have h1 : (after cfg (pre++[.queuePdu c ws])).nextId = (after cfg pre).nextId+1 := by
      rw [after_concat,step_live hl]
      show ((after cfg pre).rpcQueuePdu c ws).nextId = _
      rw [rpcQueuePdu_nextId,if_pos hm]
    have h2 := (nextId_mono cfg (pre++[.queuePdu c ws]) mid (hmid ▸ hl'.2)).2
    have h3 : (after cfg ((pre ++ .queuePdu c ws :: mid)++[.queuePdu d us])).nextId =
        (after cfg (pre ++ .queuePdu c ws :: mid)).nextId+1 := by
      rw [after_concat,step_live hl']
      show ((after cfg (pre ++ .queuePdu c ws :: mid)).rpcQueuePdu d us).nextId = _
      rw [rpcQueuePdu_nextId,if_pos hm']
    have hes' : es = ((pre ++ .queuePdu c ws :: mid)++[.queuePdu d us])++post := by rw [hes]; simp
    have h4 := (nextId_mono cfg ((pre ++ .queuePdu c ws :: mid)++[.queuePdu d us]) post (hes' ▸ hc)).2
    rw [← hes'] at h4
    rw [← hmid] at h2
    omega
  have hxid : ∀ pre, (after cfg pre).Live → (after cfg pre).xid = (cfg.xid+(after cfg pre).nextId) % 2^32 := fun pre hl =>
    (after_ticketed cfg pre hl.2).next
  obtain ⟨pre,c,ws,post,he,hl,hm,rfl⟩ := hp
  obtain ⟨pre',c',ws',post',he',hl',hm',rfl⟩ := hq
  have hx : (after cfg pre).xid = (after cfg pre').xid := hx
  rw [hxid pre hl,hxid pre' hl'] at hx
  rcases List.append_eq_append_iff.1 (he.symm.trans he') with ⟨mid,hpre,hpost⟩ | ⟨mid,hpre,hpost⟩
  · cases mid with
    | nil =>
      obtain ⟨hev,-⟩ := List.cons.inj hpost
      rw [List.append_nil] at hpre
      subst hpre
      rw [(Event.queuePdu.inj hev).1]
    | cons x mid =>
      obtain ⟨rfl,rfl⟩ := List.cons.inj hpost
      rw [hpre] at hx hl' hm'
      have hb := hlt pre c ws mid c' ws' post' he hl hm hm' hl'
      omega
  · cases mid with
    | nil =>
      obtain ⟨hev,-⟩ := List.cons.inj hpost
      rw [List.append_nil] at hpre
      subst hpre
      rw [(Event.queuePdu.inj hev).1]
    | cons x mid =>
      obtain ⟨rfl,rfl⟩ := List.cons.inj hpost
      rw [hpre] at hx hl hm
      have hb := hlt pre' c' ws' mid c ws post he' hl' hm' hm hl
      omega

end Rpc
end Libnfs
