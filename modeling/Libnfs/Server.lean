import Libnfs.Stream

/-! The sending side of a server `rpc_context`: replies are queued by `rpc_send_reply` and
`rpc_send_error_reply`, written by `rpc_write_to_socket` and freed once they are sent. -/
namespace Libnfs

open ByteWords Scatter Zdr Transition

/-- What `rpc_allocate_reply_pdu` encodes, and the address of `outdata.data`. -/
structure ReplyMsg where
  buf : ℕ
  body : List UInt8

namespace ReplyMsg

/-- The PDU of `rpc_allocate_reply_pdu`, with the record marker of `rpc_queue_pdu`. -/
def pdu (m : ReplyMsg) (id : ℕ) : Pdu :=
  { id := id
    xid := 0
    out := [⟨m.buf,beBytes (2^31+m.body.length)⟩,⟨m.buf+4,m.body⟩]
    zdrDecodeFn := pure ()
    zdrDecodeBufsize := 0
    discardAfterSending := true
    doNotRetry := false }

end ReplyMsg

/-- A server context on a TCP socket. `replies` is a ghost: all the PDUs that were queued. -/
structure Server where
  rpc : Rpc
  replies : List Pdu

inductive ServerEvent
  | memory (ok : Bool)
  | disableSocket (val : Bool)
  | sendReply (m : ReplyMsg) (ws : List Writev)
  | write (ws : List Writev)

namespace Server

/-- `rpc_init_server_context`: there are no hash chains, no timeouts and no limit. -/
def init : Server where
  rpc :=
    { fd := true
      isConnected := true
      socketDisabled := false
      connectCb := .none
      autoReconnect := 0
      numRetries := 0
      timeout := 0
      retrans := 0
      lastTimeoutScan := 0
      lastSuccessfulRpcResponse := 0
      nfsV3 := false
      xid := 0
      outqueue := []
      waitpdu := []
      waitpduLen := 0
      maxWaitpduLen := 0
      state := .readRm
      inpos := 0
      inbufSize := 0
      inbuf := []
      rmXid := List.replicate 8 0
      pduSize := 0
      pdu := none
      clock := 0
      memOk := true
      mem := fun _ => 0
      destroyed := false
      crashed := false
      log := []
      nextId := 0
      cancelled := []
      closedAt := 0
      sent := [] }
  replies := []

/-- The PDU that `rpc_queue_pdu` puts on the out queue. -/
def newReply (s : Server) (m : ReplyMsg) : Pdu := s.rpc.pduSetTimeout (m.pdu s.rpc.nextId) 0

/-- `rpc_queue_pdu` of a reply up to the write. -/
def enqueueReply (s : Server) (m : ReplyMsg) : Server where
  rpc := { s.rpc with nextId := s.rpc.nextId+1, outqueue := s.rpc.outqueue ++ [s.newReply m] }
  replies := s.replies ++ [s.newReply m]

/-- `rpc_send_reply` or `rpc_send_error_reply` on TCP; `ws` is what `writev` returns when the
reply is alone on the queue and written at once. -/
def rpcSendReply (s : Server) (m : ReplyMsg) (ws : List Writev) : Server :=
  if s.rpc.memOk then
    if s.rpc.outqueue.isEmpty then
      { s.enqueueReply m with rpc := ((s.enqueueReply m).rpc.rpcWriteToSocket ws).1 }
    else s.enqueueReply m
  else s

/-- One event. A failed write makes `rpc_service` return -1 and changes nothing else. -/
def step (s : Server) : ServerEvent → Server
  | .memory ok => { s with rpc := { s.rpc with memOk := ok } }
  | .disableSocket val => { s with rpc := { s.rpc with socketDisabled := val } }
  | .sendReply m ws => s.rpcSendReply m ws
  | .write ws =>
    if s.rpc.outqueue.isEmpty then s else { s with rpc := (s.rpc.rpcWriteToSocket ws).1 }

def after (es : List ServerEvent) : Server := run step init es

end Server

/-- The PDU as it was queued. -/
def Pdu.unstarted (p : Pdu) : Pdu := { p with numDone := 0 }

namespace Server

/-- What is on the wire: every reply that was freed, whole and in the order they were queued, and
the part of the next one that was sent; the others are still queued. -/
def Wire (s : Server) : Prop :=
  ∃ freed, s.replies = freed ++ s.rpc.outqueue.map Pdu.unstarted ∧
    s.rpc.sent = freed.flatMap Pdu.record ++ sentPart s.rpc.outqueue

/-- No `writev` takes more than the `rem` bytes that are left of the reply at the head. -/
def EndsWithin : ℕ → List Writev → Prop
  | rem, .wrote count::ws => count ≤ rem ∧ (count < rem → EndsWithin (rem-count) ws)
  | _, _ => True

/-- The condition on the writes of one call: they end within the reply at the head of the queue,
if there is another behind it. -/
def HeadOnly (rpc : Rpc) (ws : List Writev) : Prop :=
  ∀ p q ps, rpc.outqueue = p::q::ps → rpc.socketDisabled = false →
    EndsWithin p.unsent.length ws

def WritesHeadOnly (s : Server) : ServerEvent → Prop
  | .write ws => HeadOnly s.rpc ws
  | _ => True

end Server

/-- A reply on the out queue. -/
structure IsReply (p : Pdu) : Prop where
  discard : p.discardAfterSending = true
  vectors : p.out.length = 2
  sized : 0 < p.totalSize

namespace Gather

theorem gatherIov_vecs (cap : ℕ) (g : Gather) (numDone : ℕ) (vs : List OutVec) (hg : g.Good) :
    (gatherIov cap g numDone vs).vecs.length ≤ g.vecs.length+vs.length := by
  induction vs generalizing g numDone with
  | nil => simp [gatherIov]
  | cons v vs ih =>
    simp only [gatherIov,List.length_cons]
    split
    · exact (ih g _ hg).trans (by omega)
    · split
      · split
        · simp only [List.length_append,List.length_singleton]
          omega
        · refine (ih _ 0 (by intro _; simp)).trans ?_
          simp only [List.length_append,List.length_singleton]
          omega
      · rename_i hlast
        have hne : g.vecs ≠ [] := hg (by simp only [ne_eq,not_not] at hlast; rw [hlast]; simp)
        obtain ⟨-,hne',hlen⟩ := bytes_extend hne (v.data.drop numDone)
        refine (ih _ 0 (fun _ => hne')).trans ?_
        simp only [hlen]
        omega

/-- There are vectors enough for two replies, so two are offered when they are there. -/
theorem gather_two {p q : Pdu} (hp : p.out.length = 2) (hq : q.out.length = 2) (len : ℕ)
    (ps : List Pdu) :
    p.unsent ++ q.unsent <+: (gather fastVectors 0 len {} 0 (p::q::ps)).bytes := by
  have hgood : ({} : Gather).Good := fun h => absurd rfl h
  have hcap : fastVectors = 8 := rfl
  obtain ⟨pre,h1,-,h3,h4⟩ := gatherIov_bytes fastVectors {} p.numDone p.out hgood
  have hv := gatherIov_vecs fastVectors {} p.numDone p.out hgood
  have hzero : (({} : Gather).vecs).length = 0 := rfl
  simp only [gather,true_or,true_and]
  generalize gatherIov fastVectors {} p.numDone p.out = g at h1 h3 h4 hv
  have hlt : g.vecs.length < fastVectors := by omega
  obtain ⟨pre',h1',-,h3',h4'⟩ := gatherIov_bytes fastVectors g q.numDone q.out h3
  have hv' := gatherIov_vecs fastVectors g q.numDone q.out h3
  rw [if_pos hlt]
  generalize gatherIov fastVectors g q.numDone q.out = g' at h1' h3' h4' hv'
  have hlt' : g'.vecs.length < fastVectors := by omega
  rw [if_pos hlt']
  obtain ⟨rest,h5,-⟩ := gather_bytes fastVectors 0 len g' (0+1+1) ps h3'
  refine ⟨rest,?_⟩
  have hnil : ({} : Gather).bytes = [] := rfl
  rw [h5,h1',h1,h4 hlt,h4' hlt',hnil,List.nil_append]
  rfl

theorem gather_one {p : Pdu} (hp : p.out.length = 2) (len : ℕ) :
    (gather fastVectors 0 len {} 0 [p]).bytes = p.unsent := by
  have hgood : ({} : Gather).Good := fun h => absurd rfl h
  have hcap : fastVectors = 8 := rfl
  obtain ⟨pre,h1,-,h3,h4⟩ := gatherIov_bytes fastVectors {} p.numDone p.out hgood
  have hv := gatherIov_vecs fastVectors {} p.numDone p.out hgood
  have hzero : (({} : Gather).vecs).length = 0 := rfl
  simp only [gather,true_or,true_and]
  have hlt : (gatherIov fastVectors {} p.numDone p.out).vecs.length < fastVectors := by omega
  rw [if_pos hlt,h1,h4 hlt]
  rfl

end Gather

namespace Server

theorem unsent_length (p : Pdu) : p.unsent.length = p.totalSize-p.numDone := by
  rw [Pdu.unsent,List.length_drop,Pdu.record_length]

/-- The out queue of a server. -/
structure RepliesOk (rpc : Rpc) : Prop extends OutOk rpc.outqueue where
  replies : ∀ p ∈ rpc.outqueue, IsReply p
  unlimited : rpc.maxWaitpduLen = 0

/-- The replies in `d` were freed, and what was sent is theirs and the head's part. -/
def Through (d : List UInt8) (rpc : Rpc) : Prop := rpc.sent = d ++ sentPart rpc.outqueue

/-- More was sent than that. -/
def Beyond (d : List UInt8) (rpc : Rpc) : Prop :=
  (d ++ sentPart rpc.outqueue).length < rpc.sent.length

/-- The writes of a call that is made, whatever the state of the socket. -/
def QueueEndsWithin (rpc : Rpc) (ws : List Writev) : Prop :=
  ∀ p q ps, rpc.outqueue = p::q::ps → EndsWithin p.unsent.length ws

theorem queueEndsWithin_iff {rpc : Rpc} {p : Pdu} {ps : List Pdu} (hq : rpc.outqueue = p::ps)
    (ws : List Writev) : QueueEndsWithin rpc ws ↔ ps = [] ∨ EndsWithin p.unsent.length ws := by
  constructor
  · intro h
    cases ps with
    | nil => exact .inl rfl
    | cons q ps => exact .inr (h p q ps hq)
  · rintro h a b c habc
    rw [hq] at habc
    obtain ⟨rfl,rfl⟩ := List.cons.inj habc
    simpa using h

/-- The accounting of replies: the head is longer than what was taken, or it is freed and the
rest of the count is forgotten. -/
theorem account_reply {rpc : Rpc} {p : Pdu} {ps : List Pdu} (hp : IsReply p)
    (hlt : p.numDone < p.totalSize) (n : ℕ) :
    rpc.account n (p::ps) =
      if p.unsent.length ≤ n then ({ rpc with outqueue := ps },true)
      else ({ rpc with outqueue := { p with numDone := p.numDone+n }::ps },false) := by
  rw [unsent_length]
  cases n with
  | zero =>
    have hne : ¬ p.totalSize-p.numDone ≤ 0 := by omega
    rw [if_neg hne]
    rfl
  | succ n => simp [Rpc.account,hp.discard]

/-- What is offered of the queue: the head, and more when there is more. -/
theorem offered {p : Pdu} {ps : List Pdu} (hr : ∀ a ∈ p::ps, IsReply a) (ho : OutOk (p::ps))
    (len : ℕ) :
    ∃ more, (Gather.gather fastVectors 0 len {} 0 (p::ps)).bytes = p.unsent ++ more ∧
      (more = [] ↔ ps = []) := by
  have hp := hr p List.mem_cons_self
  cases ps with
  | nil => exact ⟨[],by rw [Gather.gather_one hp.vectors,List.append_nil],by simp⟩
  | cons q ps =>
    have hq := hr q (by simp)
    obtain ⟨rest,hrest⟩ := Gather.gather_two hp.vectors hq.vectors len ps
    have hlt := ho.unsent q (by simp)
    have hlen := unsent_length q
    refine ⟨q.unsent ++ rest,by rw [← hrest,List.append_assoc],?_⟩
    constructor
    · intro hnil
      have hzero := congrArg List.length hnil
      rw [List.length_append,List.length_nil] at hzero
      omega
    · intro hnil
      simp at hnil

/-- One turn of the loop that takes `n` bytes. -/
theorem turn_replies {rpc : Rpc} (h : RepliesOk rpc) {p : Pdu} {ps : List Pdu}
    (hq : rpc.outqueue = p::ps) {n : ℕ} (hn : n < p.unsent.length) (bytes : List UInt8)
    (hb : p.unsent <+: bytes) :
    let t := { rpc with
      sent := rpc.sent ++ bytes.take n
      outqueue := { p with numDone := p.numDone+n }::ps }
    RepliesOk t ∧ t.outqueue.map Pdu.unstarted = rpc.outqueue.map Pdu.unstarted ∧
      ∀ d, (Through d rpc → Through d t) ∧ (Beyond d rpc → Beyond d t) := by
  have hlen := unsent_length p
  have hout : OutOk (p::ps) := hq ▸ h.toOutOk
  have hreply : ∀ a ∈ p::ps, IsReply a := hq ▸ h.replies
  have htake : bytes.take n = p.unsent.take n := by
    obtain ⟨rest,rfl⟩ := hb
    rw [List.take_append_of_le_length (by omega)]
  have hpart : p.record.take (p.numDone+n) = p.record.take p.numDone ++ p.unsent.take n :=
    List.take_add
  refine ⟨⟨⟨?_,hout.tail⟩,?_,h.unlimited⟩,?_,?_⟩
  · intro a ha
    rcases List.mem_cons.mp ha with rfl | ha
    · show p.numDone+n < p.totalSize
      omega
    · exact hout.unsent a (List.mem_cons_of_mem p ha)
  · intro a ha
    rcases List.mem_cons.mp ha with rfl | ha
    · have hp := hreply p List.mem_cons_self
      exact ⟨hp.discard,hp.vectors,hp.sized⟩
    · exact hreply a (List.mem_cons_of_mem p ha)
  · rw [hq]
    rfl
  · intro d
    constructor
    · intro hd
      rw [Through,hq,sentPart_cons] at hd
      show rpc.sent ++ bytes.take n = d ++ p.record.take (p.numDone+n)
      rw [hd,htake,hpart,List.append_assoc]
    · intro hd
      rw [Beyond,hq,sentPart_cons] at hd
      show (d ++ p.record.take (p.numDone+n)).length < (rpc.sent ++ bytes.take n).length
      rw [hpart,htake]
      simp only [List.length_append] at hd ⊢
      omega

/-- The turn of the loop that takes all that is left of the head. -/
theorem turn_freed {rpc : Rpc} (h : RepliesOk rpc) {p : Pdu} {ps : List Pdu}
    (hq : rpc.outqueue = p::ps) {n : ℕ} (hn : p.unsent.length ≤ n) (more : List UInt8)
    (hle : n ≤ (p.unsent ++ more).length) :
    let t := { rpc with sent := rpc.sent ++ (p.unsent ++ more).take n, outqueue := ps }
    RepliesOk t ∧ ∀ d,
      (Through d rpc → p.unsent.length = n → Through (d ++ p.record) t) ∧
      (Through d rpc → p.unsent.length < n → Beyond (d ++ p.record) t) ∧
      (Beyond d rpc → Beyond (d ++ p.record) t) := by
  have hout : OutOk (p::ps) := hq ▸ h.toOutOk
  have hreply : ∀ a ∈ p::ps, IsReply a := hq ▸ h.replies
  have hzero : sentPart ps = [] := sentPart_of_zero hout.tail
  have hrec : p.record = p.record.take p.numDone ++ p.unsent := (List.take_append_drop _ _).symm
  have hlen : ((p.unsent ++ more).take n).length = n := List.length_take_of_le hle
  have hrlen : p.record.length = (p.record.take p.numDone).length+p.unsent.length := by
    rw [← List.length_append,← hrec]
  refine ⟨⟨outOk_sublist hout (List.sublist_cons_self p ps),
    fun a ha => hreply a (List.mem_cons_of_mem p ha),h.unlimited⟩,?_⟩
  intro d
  refine ⟨?_,?_,?_⟩
  · intro hd heq
    rw [Through,hq,sentPart_cons] at hd
    show rpc.sent ++ (p.unsent ++ more).take n = d ++ p.record ++ sentPart ps
    rw [hzero,hd,← heq,List.take_left,List.append_nil,List.append_assoc,← hrec]
  · intro hd hgt
    rw [Through,hq,sentPart_cons] at hd
    show (d ++ p.record ++ sentPart ps).length < (rpc.sent ++ (p.unsent ++ more).take n).length
    rw [hzero,hd]
    simp only [List.length_append,List.length_nil,hlen,hrlen]
    omega
  · intro hd
    rw [Beyond,hq,sentPart_cons] at hd
    show (d ++ p.record ++ sentPart ps).length < (rpc.sent ++ (p.unsent ++ more).take n).length
    rw [hzero]
    simp only [List.length_append,List.length_nil,hlen,hrlen] at hd ⊢
    omega

/-- What a call of `rpc_write_to_socket` does: some replies are freed, and what was sent is in step
with that if `W` holds, and ahead of it otherwise. -/
structure Wrote (W : Prop) (rpc t : Rpc) : Prop where
  ok : RepliesOk t
  sent : ∃ freed, rpc.outqueue.map Pdu.unstarted = freed ++ t.outqueue.map Pdu.unstarted ∧ ∀ d,
    (Through d rpc → W → Through (d ++ freed.flatMap Pdu.record) t) ∧
    (Through d rpc → ¬ W → Beyond (d ++ freed.flatMap Pdu.record) t) ∧
    (Beyond d rpc → Beyond (d ++ freed.flatMap Pdu.record) t)

theorem wrote_nothing {rpc : Rpc} (h : RepliesOk rpc) {W : Prop} (hw : W) : Wrote W rpc rpc := by
  refine ⟨h,[],rfl,?_⟩
  intro d
  simp only [List.flatMap_nil,List.append_nil]
  exact ⟨fun hd _ => hd,fun _ hn => absurd hw hn,id⟩

theorem writeLoop_replies {rpc : Rpc} (h : RepliesOk rpc) (ws : List Writev) :
    Wrote (QueueEndsWithin rpc ws) rpc (rpc.writeLoop fastVectors ws).1 := by
  induction ws generalizing rpc with
  | nil => exact wrote_nothing h fun _ _ _ _ => trivial
  | cons w ws ih =>
    unfold Rpc.writeLoop
    rw [if_pos (.inl h.unlimited)]
    split
    · rename_i hnil
      refine wrote_nothing h fun p q ps hq => ?_
      simp [hnil] at hq
    · rename_i p ps hq
      cases w with
      | again => exact wrote_nothing h fun _ _ _ _ => trivial
      | error => exact wrote_nothing h fun _ _ _ _ => trivial
      | wrote count =>
        have hout : OutOk (p::ps) := hq ▸ h.toOutOk
        have hreply : ∀ a ∈ p::ps, IsReply a := hq ▸ h.replies
        have hp := hreply p List.mem_cons_self
        have hcap : rpc.growVectors fastVectors p = fastVectors := by
          have hv : ¬ fastVectors < p.out.length := by rw [hp.vectors]; decide
          rw [Rpc.growVectors,if_neg fun hg => hv hg.1]
        obtain ⟨more,hb,hmore⟩ := offered hreply hout rpc.waitpduLen
        have hbytes : (Gather.gather fastVectors rpc.maxWaitpduLen rpc.waitpduLen {} 0 (p::ps)).bytes =
            p.unsent ++ more := by rw [h.unlimited,hb]
        simp only [hcap,hbytes]
        rw [account_reply hp (hout.unsent p List.mem_cons_self)]
        have hends := queueEndsWithin_iff hq (.wrote count::ws)
        -- with another reply behind the head, more than the head is offered
        have hoffer : ps ≠ [] → p.unsent.length < (p.unsent ++ more).length := by
          intro hne
          have hpos := List.length_pos_iff.mpr fun hnil => hne (hmore.mp hnil)
          rw [List.length_append]
          omega
        have hone : ps = [] → (p.unsent ++ more).length = p.unsent.length := by
          intro hnil
          rw [hmore.mpr hnil,List.append_nil]
        generalize hn : min count (p.unsent ++ more).length = n
        by_cases hfree : p.unsent.length ≤ n
        · rw [if_pos hfree]
          obtain ⟨hok,hsent⟩ := turn_freed h hq hfree more (by omega)
          rw [if_pos rfl]
          refine ⟨hok,[p.unstarted],by rw [hq]; rfl,?_⟩
          intro d
          obtain ⟨h1,h2,h3⟩ := hsent d
          have hrec : [p.unstarted].flatMap Pdu.record = p.record := by simp [Pdu.unstarted,Pdu.record]
          rw [hrec]
          refine ⟨fun hd hw => h1 hd ?_,fun hd hw => h2 hd ?_,h3⟩
          · rcases hends.mp hw with hnil | hw
            · have := hone hnil
              omega
            · have := hw.1
              omega
          · rw [hends,not_or] at hw
            have hlt := hoffer hw.1
            by_contra hge
            apply hw.2
            have hc : count = p.unsent.length := by omega
            exact ⟨by omega,fun hlt => absurd hlt (by omega)⟩
        · rw [if_neg hfree,if_neg Bool.false_ne_true]
          obtain ⟨hok,hmap,hsent⟩ := turn_replies h hq (n := n) (by omega)
            (p.unsent ++ more) (List.prefix_append _ _)
          obtain ⟨hok',freed,hfreed,hrest⟩ := ih hok
          refine ⟨hok',freed,hmap.symm.trans hfreed,?_⟩
          intro d
          obtain ⟨h1,h2⟩ := hsent d
          obtain ⟨h3,h4,h5⟩ := hrest d
          have hleft : ({ p with numDone := p.numDone+n } : Pdu).unsent.length = p.unsent.length-n := by
            simp only [unsent_length]
            show p.totalSize-(p.numDone+n) = _
            omega
          have hnext : QueueEndsWithin rpc (.wrote count::ws) ↔ QueueEndsWithin { rpc with
              sent := rpc.sent ++ (p.unsent ++ more).take n
              outqueue := { p with numDone := p.numDone+n }::ps } ws := by
            rw [hends,queueEndsWithin_iff rfl,hleft]
            by_cases hnil : ps = []
            · simp [hnil]
            · have hlt := hoffer hnil
              have hc : count = n := by omega
              simp only [hnil,false_or,EndsWithin,hc]
              constructor
              · exact fun hw => hw.2 (by omega)
              · exact fun hw => ⟨by omega,fun _ => hw⟩
          rw [hnext]
          exact ⟨fun hd => h3 (h1 hd),fun hd => h4 (h1 hd),fun hd => h5 (h2 hd)⟩

theorem rpcWriteToSocket_replies {rpc : Rpc} (h : RepliesOk rpc) (hfd : rpc.fd = true)
    (ws : List Writev) : Wrote (HeadOnly rpc ws) rpc (rpc.rpcWriteToSocket ws).1 := by
  unfold Rpc.rpcWriteToSocket
  split
  · rename_i hdis
    exact wrote_nothing h fun _ _ _ _ hen => absurd hdis (by simp [hen])
  · rename_i hen
    rw [if_neg (by simp [hfd])]
    have hiff : HeadOnly rpc ws ↔ QueueEndsWithin rpc ws :=
      ⟨fun hw p q ps hq => hw p q ps hq (by simpa using hen),fun hw p q ps hq _ => hw p q ps hq⟩
    rw [hiff]
    exact writeLoop_replies h ws

/-- A server whose first replies, `freed`, are gone and whose others are queued. -/
structure Freed (s : Server) (freed : List Pdu) : Prop extends RepliesOk s.rpc where
  fd : s.rpc.fd = true
  split : s.replies = freed ++ s.rpc.outqueue.map Pdu.unstarted

/-- What was sent compares by `R` with what was freed and the part of the head. -/
def Sends (R : List UInt8 → Rpc → Prop) (s : Server) : Prop :=
  ∃ freed, Freed s freed ∧ R (freed.flatMap Pdu.record) s.rpc

def InStep (s : Server) : Prop := s.Sends Through
def Ahead (s : Server) : Prop := s.Sends Beyond

theorem InStep.wire {s : Server} (h : s.InStep) : s.Wire := by
  obtain ⟨freed,hf,hs⟩ := h
  exact ⟨freed,hf.split,hs⟩

theorem Ahead.not_wire {s : Server} (h : s.Ahead) : ¬ s.Wire := by
  rintro ⟨freed',hsplit,hsent⟩
  obtain ⟨freed,hf,hs⟩ := h
  have hsame : freed = freed' := List.append_cancel_right (hf.split.symm.trans hsplit)
  rw [Beyond,hsame,hsent] at hs
  exact lt_irrefl _ hs

/-- A call of `rpc_write_to_socket` by a server. -/
theorem write_step (s : Server) (ws : List Writev) :
    let t : Server := { s with rpc := (s.rpc.rpcWriteToSocket ws).1 }
    (s.InStep → HeadOnly s.rpc ws → t.InStep) ∧ (s.InStep → ¬ HeadOnly s.rpc ws → t.Ahead) ∧
      (s.Ahead → t.Ahead) := by
  have hkeep : ∀ freed, Freed s freed → ∃ more,
      Freed { s with rpc := (s.rpc.rpcWriteToSocket ws).1 } (freed ++ more) ∧ ∀ d,
        (Through d s.rpc → HeadOnly s.rpc ws → Through (d ++ more.flatMap Pdu.record)
          (s.rpc.rpcWriteToSocket ws).1) ∧
        (Through d s.rpc → ¬ HeadOnly s.rpc ws → Beyond (d ++ more.flatMap Pdu.record)
          (s.rpc.rpcWriteToSocket ws).1) ∧
        (Beyond d s.rpc → Beyond (d ++ more.flatMap Pdu.record) (s.rpc.rpcWriteToSocket ws).1) := by
    intro freed hf
    obtain ⟨hok,more,hmore,hsent⟩ := rpcWriteToSocket_replies hf.toRepliesOk hf.fd ws
    refine ⟨more,⟨hok,?_,?_⟩,hsent⟩
    · obtain ⟨q,w,n,b,he⟩ := Rpc.rpcWriteToSocket_frame s.rpc ws
      rw [he]
      exact hf.fd
    · rw [List.append_assoc,← hmore]
      exact hf.split
  refine ⟨?_,?_,?_⟩
  · rintro ⟨freed,hf,hs⟩ hw
    obtain ⟨more,hf',hsent⟩ := hkeep freed hf
    refine ⟨freed ++ more,hf',?_⟩
    rw [List.flatMap_append]
    exact (hsent _).1 hs hw
  · rintro ⟨freed,hf,hs⟩ hw
    obtain ⟨more,hf',hsent⟩ := hkeep freed hf
    refine ⟨freed ++ more,hf',?_⟩
    rw [List.flatMap_append]
    exact (hsent _).2.1 hs hw
  · rintro ⟨freed,hf,hs⟩
    obtain ⟨more,hf',hsent⟩ := hkeep freed hf
    refine ⟨freed ++ more,hf',?_⟩
    rw [List.flatMap_append]
    exact (hsent _).2.2 hs

theorem newReply_eq (s : Server) (m : ReplyMsg) :
    ∃ a b, s.newReply m = { m.pdu s.rpc.nextId with timeout := a, majorTimeout := b } :=
  pduSetTimeout_eq s.rpc _ 0

/-- A reply is queued behind the others. -/
theorem enqueueReply_freed {s : Server} {freed : List Pdu} (h : Freed s freed) (m : ReplyMsg) :
    Freed (s.enqueueReply m) freed ∧
      sentPart (s.enqueueReply m).rpc.outqueue = sentPart s.rpc.outqueue := by
  have hnew : IsReply (s.newReply m) ∧ (s.newReply m).numDone = 0 ∧
      (s.newReply m).unstarted = s.newReply m := by
    obtain ⟨a,b,he⟩ := newReply_eq s m
    rw [he]
    exact ⟨⟨rfl,rfl,by simp [ReplyMsg.pdu,Pdu.totalSize]⟩,rfl,rfl⟩
  obtain ⟨hreply,hzero,hun⟩ := hnew
  refine ⟨⟨⟨outOk_append h.toOutOk hreply.sized hzero,?_,h.unlimited⟩,h.fd,?_⟩,
    sentPart_append hzero _⟩
  · intro a ha
    rcases List.mem_append.mp ha with ha | ha
    · exact h.replies a ha
    · rw [List.mem_singleton.mp ha]
      exact hreply
  · simp only [enqueueReply,List.map_append,List.map_cons,List.map_nil,hun,h.split,List.append_assoc]

/-- A reply that is written as it is queued is alone on the queue. -/
theorem enqueueReply_headOnly {s : Server} (h : s.rpc.outqueue = []) (m : ReplyMsg)
    (ws : List Writev) : HeadOnly (s.enqueueReply m).rpc ws := by
  intro p q ps hq
  simp [enqueueReply,h] at hq

/-- `Through` and `Beyond` look at the part of the head and at what was sent. -/
def Local (R : List UInt8 → Rpc → Prop) : Prop :=
  ∀ d s t, sentPart t.outqueue = sentPart s.outqueue → t.sent = s.sent → R d s → R d t

theorem through_local : Local Through := by
  intro d s t hq hs h
  rw [Through,hq,hs]
  exact h

theorem beyond_local : Local Beyond := by
  intro d s t hq hs h
  rw [Beyond,hq,hs]
  exact h

variable {R : List UInt8 → Rpc → Prop}

theorem enqueueReply_sends (hR : Local R) {s : Server} (h : s.Sends R) (m : ReplyMsg) :
    (s.enqueueReply m).Sends R := by
  obtain ⟨freed,hf,hs⟩ := h
  obtain ⟨hf',hpart⟩ := enqueueReply_freed hf m
  exact ⟨freed,hf',hR _ s.rpc _ hpart rfl hs⟩

theorem Sends.congr (hR : Local R) {s : Server} (h : s.Sends R) {rpc : Rpc}
    (he : (rpc.outqueue,rpc.maxWaitpduLen,rpc.fd,rpc.sent) =
      (s.rpc.outqueue,s.rpc.maxWaitpduLen,s.rpc.fd,s.rpc.sent)) :
    Sends R { s with rpc := rpc } := by
  simp only [Prod.mk.injEq] at he
  obtain ⟨hq,hm,hfd,hs⟩ := he
  obtain ⟨freed,hf,hr⟩ := h
  refine ⟨freed,⟨⟨hq ▸ hf.toOutOk,hq ▸ hf.replies,hm.trans hf.unlimited⟩,hfd.trans hf.fd,?_⟩,?_⟩
  · rw [hq]
    exact hf.split
  · exact hR _ s.rpc _ (by rw [hq]) hs hr

/-- One event keeps a server in step exactly if its writes keep to the head of the queue, and a
server that is ahead stays ahead. -/
theorem step_inStep {s : Server} (e : ServerEvent) :
    (s.InStep → s.WritesHeadOnly e → (s.step e).InStep) ∧
      (s.InStep → ¬ s.WritesHeadOnly e → (s.step e).Ahead) ∧ (s.Ahead → (s.step e).Ahead) := by
  cases e with
  | memory ok =>
    exact ⟨fun h _ => h.congr through_local rfl,fun _ hn => absurd trivial hn,
      fun h => h.congr beyond_local rfl⟩
  | disableSocket val =>
    exact ⟨fun h _ => h.congr through_local rfl,fun _ hn => absurd trivial hn,
      fun h => h.congr beyond_local rfl⟩
  | sendReply m ws =>
    simp only [step,rpcSendReply]
    split
    · split
      · rename_i hempty
        have halone := enqueueReply_headOnly (List.isEmpty_iff.mp hempty) m ws
        obtain ⟨h1,-,h3⟩ := write_step (s.enqueueReply m) ws
        exact ⟨fun h _ => h1 (enqueueReply_sends through_local h m) halone,
          fun _ hn => absurd trivial hn,fun h => h3 (enqueueReply_sends beyond_local h m)⟩
      · exact ⟨fun h _ => enqueueReply_sends through_local h m,fun _ hn => absurd trivial hn,
          fun h => enqueueReply_sends beyond_local h m⟩
    · exact ⟨fun h _ => h,fun _ hn => absurd trivial hn,id⟩
  | write ws =>
    simp only [step,WritesHeadOnly]
    split
    · rename_i hempty
      refine ⟨fun h _ => h,fun _ hn => absurd ?_ hn,id⟩
      intro p q ps hq
      simp [hq] at hempty
    · exact write_step _ _

theorem init_inStep : init.InStep :=
  ⟨[],⟨⟨outOk_nil,by simp [init],rfl⟩,rfl,rfl⟩,rfl⟩

theorem run_ahead {s : Server} (h : s.Ahead) (es : List ServerEvent) : (run step s es).Ahead := by
  induction es generalizing s with
  | nil => exact h
  | cons e es ih => exact ih ((step_inStep e).2.2 h)

theorem run_inStep {s : Server} (h : s.InStep) (es : List ServerEvent) :
    (run step s es).Wire ↔ Guarded step WritesHeadOnly s es := by
  induction es generalizing s with
  | nil => exact ⟨fun _ => trivial,fun _ => h.wire⟩
  | cons e es ih =>
    obtain ⟨h1,h2,-⟩ := step_inStep (s := s) e
    by_cases hw : s.WritesHeadOnly e
    · rw [run_cons,ih (h1 h hw)]
      exact ⟨fun hg => ⟨hw,hg⟩,fun hg => hg.2⟩
    · have ha := run_ahead (h2 h hw) es
      exact ⟨fun hwire => absurd hwire ha.not_wire,fun hg => absurd hg.1 hw⟩

/-- Replies go on the wire once, in order and whole, in exactly those runs in which no `writev`
takes more than what is left of the reply at the head while another is queued behind it. -/
theorem replies_sent_iff (es : List ServerEvent) :
    (after es).Wire ↔ Guarded step WritesHeadOnly init es := run_inStep init_inStep es

/-- Two replies of twelve bytes with their markers; the first finds the socket full. -/
def demoQueued : List ServerEvent :=
  [.sendReply ⟨0,List.replicate 8 1⟩ [.again],.sendReply ⟨100,List.replicate 8 2⟩ []]

/-- One `writev` takes both replies: the first is freed and the second is sent a second time. -/
theorem replies_repeated : ¬ (after (demoQueued ++ [.write [.wrote 24],.write [.wrote 12]])).Wire := by
  rintro ⟨freed,hsplit,hsent⟩
  have hfreed : (freed.flatMap Pdu.record).length = 24 := by
    rw [← show (after (demoQueued ++ [.write [.wrote 24],.write [.wrote 12]])).replies = freed from
      hsplit.trans (List.append_nil freed)]
    rfl
  have hlen := congrArg List.length hsent
  rw [List.length_append,hfreed] at hlen
  exact absurd hlen (by decide +kernel)

end Server
end Libnfs
