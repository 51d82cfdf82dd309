import Libnfs.ReaderFrame

/-! What the reader makes of a reply once its first bytes are in the buffer, as a function of the
PDU and of those bytes alone. -/
namespace Libnfs

open ByteWords Scatter Zdr

variable {P : Pdu → Prop}

/-- A bad load or a NULL pointer, -1, a record that is dealt with, or `count` bytes of READ data
from offset `pos` of the record on. -/
inductive Verdict
  | crash | lost | done | data (count pos : ℕ)
  deriving DecidableEq, Repr

namespace Rpc

/-- The length word of a READ, clamped to what was asked for. -/
def lengthWord (p : Pdu) (buf : List UInt8) (z : Zdr.State) : Verdict :=
  match zdrUInt buf z with
  | (.fault,_) => .crash
  | (.fail,_) => .lost
  | (.ok n,z) => .data (min n p.requestedReadCount) z.pos.toNat

/-- What follows the reply in `buf`. On NFSv3 the status behind `zdr_decode_buf` is looked at,
which is NULL when the message did not decode. -/
def verdict (v3 : Bool) (p : Pdu) (buf : List UInt8) : Verdict :=
  match zdrReplymsg p.zdrDecodeFn p.zdrDecodeBufsize buf ⟨0,p.decodeMem⟩ with
  | (.fault,_) => .crash
  | (.fail,z) =>
    if p.cursor = none then .done
    else if v3 then .crash
    else lengthWord p buf z
  | (.ok _,z) =>
    if p.cursor = none then .done
    else if v3 ∧ p.zdrDecodeBuf = false ∧ p.zdrDecodeBufsize = 0 then .crash
    else if v3 ∧ z.store.status ≠ 0 then .done
    else lengthWord p buf z

theorem lengthWord_data {p : Pdu} {buf : List UInt8} {z : Zdr.State} {count pos : ℕ}
    (h : lengthWord p buf z = .data count pos) : pos ≤ buf.length ∧ count ≤ p.requestedReadCount := by
  unfold lengthWord at h
  split at h
  · simp at h
  · simp at h
  · rename_i n z' hz
    obtain ⟨h0,h4,-,rfl⟩ := zdrUInt_ok hz
    simp only [Verdict.data.injEq] at h
    omega

theorem verdict_data {v3 : Bool} {p : Pdu} {buf : List UInt8} {count pos : ℕ}
    (h : verdict v3 p buf = .data count pos) : pos ≤ buf.length ∧ count ≤ p.requestedReadCount := by
  unfold verdict at h
  repeat' split at h
  all_goals first | exact lengthWord_data h | simp at h

/-- What the callback of `p` is given for the reply in `buf`. -/
def answer (p : Pdu) (buf : List UInt8) : Status × CbData :=
  match zdrReplymsg p.zdrDecodeFn p.zdrDecodeBufsize buf ⟨0,p.decodeMem⟩ with
  | (.ok msg,z) =>
    if msg.stat ≠ msgAccepted then (.error,.text "RPC Packet not accepted by the server")
    else if msg.astat = acceptSuccess then
      (.success,decoded { p with
        zdrDecodeBuf := p.zdrDecodeBuf || decide (0 < p.zdrDecodeBufsize)
        decodeMem := z.store } buf)
    else (.error,.text (acceptStatText msg.astat))
  | _ => (.error,.text "Message rejected by server")

/-- The entries of the log that the reply in `buf` makes at once. -/
def replyLog (p : Pdu) (buf : List UInt8) : List LogEntry :=
  .record buf::if p.cursor.isSome ∧ rejects p buf = false then []
    else [.callback p.id (answer p buf).1 (answer p buf).2]

/-- The PDU after `rpc_process_reply`. -/
def afterReply (p : Pdu) (buf : List UInt8) (set : Bool) (mem : DecodeBuf) : Pdu :=
  { p with
    zdrDecodeBuf := set
    decodeMem := mem
    freePdu := p.freePdu || (p.cursor.isSome && !rejects p buf) }

/-- Context and PDU after `rpc_process_reply`. -/
structure Replied (s : Rpc) (p : Pdu) (buf : List UInt8) (t : Rpc) (q : Pdu) : Prop where
  context : ∃ last, t = { s with lastSuccessfulRpcResponse := last, log := s.log ++ replyLog p buf }
  pdu : ∃ set mem, q = afterReply p buf set mem
  result : rejects p buf = false → (.success,decoded q buf) = answer p buf

/-- The verdict on a READ, by what `rpc_process_reply` left. -/
def readVerdict (v3 : Bool) (q : Pdu) (buf : List UInt8) (pos : ℤ) : Verdict :=
  if v3 ∧ q.zdrDecodeBuf = false then .crash
  else if v3 ∧ q.decodeMem.status ≠ 0 then .done
  else lengthWord q buf ⟨pos,q.decodeMem⟩

/-- The PDU that is ready to be decoded into. -/
theorem zdrDecodeBuf_eq (p : Pdu) :
    (if 0 < p.zdrDecodeBufsize then { p with zdrDecodeBuf := true } else p) =
      { p with zdrDecodeBuf := p.zdrDecodeBuf || decide (0 < p.zdrDecodeBufsize) } := by
  split
  · simp [*]
  · simp [*]

/-- `rpc_process_reply`, by the reply alone. -/
theorem rpcProcessReply_spec (s : Rpc) (p : Pdu) (buf : List UInt8) :
    ((s.logRecord buf).rpcProcessReply p buf = none ∧ ∀ v3, verdict v3 p buf = .crash) ∨
    ∃ t q pos, (s.logRecord buf).rpcProcessReply p buf = some (t,q,pos) ∧ Replied s p buf t q ∧
      ∀ v3, verdict v3 p buf = if p.cursor = none then .done else readVerdict v3 q buf pos := by
  unfold rpcProcessReply verdict
  rw [zdrDecodeBuf_eq]
  dsimp only
  cases hz : zdrReplymsg p.zdrDecodeFn p.zdrDecodeBufsize buf ⟨0,p.decodeMem⟩ with
  | mk r z =>
    cases r with
    | fault => exact .inl ⟨rfl,fun _ => rfl⟩
    | fail =>
      have hrej : rejects p buf = true := by simp [rejects,hz]
      refine .inr ⟨_,_,_,rfl,⟨⟨s.lastSuccessfulRpcResponse,?_⟩,⟨false,z.store,?_⟩,?_⟩,?_⟩
      · simp [callback,logRecord,replyLog,hrej,answer,hz]
      · simp [afterReply,hrej]
      · simp [hrej]
      · intro v3
        cases v3 <;> rfl
    | ok msg =>
      generalize hset : (p.zdrDecodeBuf || decide (0 < p.zdrDecodeBufsize)) = set
      have hverdict : ∀ (v3 : Bool) (q : Pdu), q.requestedReadCount = p.requestedReadCount →
          q.zdrDecodeBuf = set →
          q.decodeMem = z.store →
          (if p.cursor = none then Verdict.done
            else if v3 ∧ p.zdrDecodeBuf = false ∧ p.zdrDecodeBufsize = 0 then .crash
            else if v3 ∧ z.store.status ≠ 0 then .done
            else lengthWord p buf z) =
          if p.cursor = none then .done else readVerdict v3 q buf z.pos := by
        intro v3 q hq1 hq2 hq3
        simp only [readVerdict,lengthWord,hq1,hq2,hq3,← hset,Bool.or_eq_false_iff,decide_eq_false_iff_not,
          Nat.not_lt,Nat.le_zero]
      dsimp only
      by_cases hst : msg.stat = msgAccepted
      · rw [if_neg (not_not.mpr hst)]
        by_cases hast : msg.astat = acceptSuccess
        · rw [if_pos hast]
          have hrej : rejects p buf = false := by simp [rejects,hz,hst,hast]
          have hans : answer p buf = (.success,decoded { p with
              zdrDecodeBuf := set
              decodeMem := z.store } buf) := by simp [answer,hz,hst,hast,hset]
          split
          · rename_i hc
            refine .inr ⟨_,_,_,rfl,⟨⟨s.clock,?_⟩,⟨set,z.store,?_⟩,fun _ => hans.symm⟩,
              fun v3 => hverdict v3 _ rfl rfl rfl⟩
            · simp only [logRecord,replyLog,hc,hrej,and_self,if_true]
            · simp [afterReply,hc,hrej]
          · rename_i hc
            refine .inr ⟨_,_,_,rfl,⟨⟨s.clock,?_⟩,⟨set,z.store,?_⟩,fun _ => hans.symm⟩,
              fun v3 => hverdict v3 _ rfl rfl rfl⟩
            · simp [callback,logRecord,replyLog,hc,hans]
            · simp [afterReply,hc]
        · rw [if_neg hast]
          have hrej : rejects p buf = true := by simp [rejects,hz,hast]
          refine .inr ⟨_,_,_,rfl,⟨⟨s.lastSuccessfulRpcResponse,?_⟩,⟨set,z.store,?_⟩,?_⟩,
            fun v3 => hverdict v3 _ rfl rfl rfl⟩
          · simp [callback,logRecord,replyLog,hrej,answer,hz,hst,hast]
          · simp [afterReply,hrej]
          · simp [hrej]
      · rw [if_pos hst]
        have hrej : rejects p buf = true := by simp [rejects,hz,hst]
        refine .inr ⟨_,_,_,rfl,⟨⟨s.lastSuccessfulRpcResponse,?_⟩,⟨set,z.store,?_⟩,?_⟩,
          fun v3 => hverdict v3 _ rfl rfl rfl⟩
        · simp [callback,logRecord,replyLog,hrej,answer,hz,hst]
        · simp [afterReply,hrej]
        · simp [hrej]

/-- What the reader does with a READ that holds the user's vectors `ref`. -/
def follow (s : Rpc) (p : Pdu) (ref : List Vec) : Verdict → Ctl
  | .crash => .fault s
  | .lost => .fail s
  | .done => .more s.rpcFinishedPdu
  | .data count pos =>
    if count ≤ s.inpos-pos then
      if Overrun ref count then .fault s
      else .more (s.allPlaced p ref count pos).rpcFinishedPdu
    else .more (s.toIovec p ref count pos)

theorem zeroCopyPayload_follow {s : Rpc} {q : Pdu} {ref : List Vec} (pos : ℤ)
    (hroom : q.requestedReadCount ≤ total ref)
    (hi : s.inpos = s.pduSize) (hlen : s.inpos ≤ s.inbuf.length) :
    s.zeroCopyPayload q (Cursor.fresh ref) pos =
      s.follow q ref (readVerdict s.nfsV3 q (s.inbuf.take s.pduSize) pos) := by
  unfold zeroCopyPayload readVerdict lengthWord
  split
  · rfl
  · split
    · rfl
    · rcases hz : zdrUInt (s.inbuf.take s.pduSize) ⟨pos,q.decodeMem⟩ with ⟨r,z⟩
      cases r with
      | fault => rfl
      | fail => rfl
      | ok n =>
        obtain ⟨h0,h4,-,rfl⟩ := zdrUInt_ok hz
        rw [List.length_take] at h4
        dsimp only at h0 h4 ⊢
        exact placeData_eq s q ref n _ hroom (by omega) hlen

/-- READ_PAYLOAD complete, by the reply alone: that of a READ. -/
theorem payloadDone_follow {s : Rpc} {p : Pdu} {c : Cursor} (hp : s.pdu = some p) (ok : PduOk P p)
    (hc : p.cursor = some c) (hi : s.inpos = s.pduSize) (hlen : s.inpos ≤ s.inbuf.length) :
    ((∃ t, s.payloadDone = .fault t) ∧ verdict s.nfsV3 p (s.inbuf.take s.pduSize) = .crash) ∨
    ∃ t q, Replied s p (s.inbuf.take s.pduSize) t q ∧
      s.payloadDone = (t.holding (q.keepZdr s.pduSize)).follow (q.keepZdr s.pduSize) c.ref
        (verdict s.nfsV3 p (s.inbuf.take s.pduSize)) := by
  have hbuf : (s.inbuf.take s.pduSize).length = s.pduSize := by
    rw [List.length_take]
    omega
  rcases rpcProcessReply_spec s p (s.inbuf.take s.pduSize) with ⟨hr,hv⟩ | ⟨t,q,pos,hr,hrep,hv⟩
  · exact .inl ⟨⟨s,payloadDone_none hp hr⟩,hv _⟩
  · refine .inr ⟨t,q,hrep,?_⟩
    obtain ⟨last,ht⟩ := hrep.context
    obtain ⟨set,mem,hq⟩ := hrep.pdu
    have hqc : q.cursor = some c := by
      rw [hq]
      exact hc
    have hqr : q.requestedReadCount = p.requestedReadCount := by
      rw [hq]
      rfl
    have htf : t.inpos = s.inpos ∧ t.pduSize = s.pduSize ∧ t.inbuf = s.inbuf ∧ t.nfsV3 = s.nfsV3 := by
      rw [ht]
      exact ⟨rfl,rfl,rfl,rfl⟩
    rw [payloadDone_zeroCopy hp hr hqc,hbuf,hv,if_neg (by simp [hc])]
    have hfresh := ok.fresh c hc
    have hroom : (q.keepZdr s.pduSize).requestedReadCount ≤ total c.ref :=
      hqr.le.trans (ok.room c hc)
    have hfollow := zeroCopyPayload_follow (s := t.holding (q.keepZdr s.pduSize)) pos hroom (by rw [holding,htf.1,htf.2.1]; exact hi) (by rw [holding,htf.1,htf.2.2.1]; exact hlen)
    rw [← hfresh] at hfollow
    rw [hfollow]
    simp only [holding,htf.2.1,htf.2.2.1,htf.2.2.2]
    rfl

/-- READ_PAYLOAD complete, by the reply alone: that of any other request. -/
theorem payloadDone_done {s : Rpc} {p : Pdu} (hp : s.pdu = some p) (hc : p.cursor = none) :
    ((∃ t, s.payloadDone = .fault t) ∧ verdict s.nfsV3 p (s.inbuf.take s.pduSize) = .crash) ∨
    ∃ t q, Replied s p (s.inbuf.take s.pduSize) t q ∧
      s.payloadDone = .more (t.holding q).rpcFinishedPdu ∧
      verdict s.nfsV3 p (s.inbuf.take s.pduSize) = .done := by
  rcases rpcProcessReply_spec s p (s.inbuf.take s.pduSize) with ⟨hr,hv⟩ | ⟨t,q,pos,hr,hrep,hv⟩
  · exact .inl ⟨⟨s,payloadDone_none hp hr⟩,hv _⟩
  · obtain ⟨set,mem,hq⟩ := hrep.pdu
    have hqc : q.cursor = none := by
      rw [hq]
      exact hc
    exact .inr ⟨t,q,hrep,payloadDone_plain hp hr hqc,by rw [hv,if_pos hc]⟩

end Rpc
end Libnfs
