import Libnfs.Reading

/-! The reader in the middle of a record, over other queues: it does the same, and makes the same entries in the log. So calls
of the application while a record is half read do not matter to it. -/
namespace Libnfs

open ByteWords Scatter Zdr

variable {P : Pdu → Prop}

namespace Rpc

/-- The reader of `s`, and the application's memory, in the context `t` -/
def onto (s t : Rpc) : Rpc :=
  { t with
    state := s.state
    inpos := s.inpos
    inbufSize := s.inbufSize
    inbuf := s.inbuf
    rmXid := s.rmXid
    pduSize := s.pduSize
    pdu := s.pdu
    mem := s.mem }

/-- The context with more entries in its log -/
def noted (t : Rpc) (l : List LogEntry) (last : ℕ) : Rpc :=
  { t with log := t.log ++ l, lastSuccessfulRpcResponse := last }

end Rpc

/-- The two ways a turn goes, from `s` and from the reader of `s` in `t` -/
inductive Ctl.Along (s t : Rpc) : Ctl → Ctl → Prop
  | more (u : Rpc) (l : List LogEntry) (last : ℕ) (hu : u.log = s.log ++ l) : Along s t (.more u) (.more (u.onto (t.noted l last)))
  | fail (u v : Rpc) : Along s t (.fail u) (.fail v)
  | fault (u v : Rpc) : Along s t (.fault u) (.fault v)

theorem Ctl.Along.after {s t u : Rpc} {c d : Ctl} {l : List LogEntry} {last : ℕ} (h : Ctl.Along u (t.noted l last) c d)
    (hu : u.log = s.log ++ l) : Ctl.Along s t c d := by
  cases h with
  | more v m last' hv =>
    have hnoted : (t.noted l last).noted m last' = t.noted (l++m) last' := by
      unfold Rpc.noted
      rw [List.append_assoc]
    rw [hnoted]
    exact .more v (l++m) last' (by rw [hv,hu,List.append_assoc])
  | fail => exact .fail _ _
  | fault => exact .fault _ _

/-- Where the log is the same -/
theorem Ctl.Along.base {s t u : Rpc} {c d : Ctl} (h : Ctl.Along u t c d) (hu : u.log = s.log) : Ctl.Along s t c d := by
  cases h with
  | more v l last hv => exact .more v l last (by rw [hv,hu])
  | fail => exact .fail _ _
  | fault => exact .fault _ _

namespace Rpc

variable {s t u : Rpc}

/-- A turn that makes no entry -/
theorem along_same (hu : u.log = s.log) : Ctl.Along s t (.more u) (.more (u.onto t)) := by
  have hnoted : t.noted [] t.lastSuccessfulRpcResponse = t := by
    unfold noted
    rw [List.append_nil]
  have h := Ctl.Along.more (s := s) (t := t) u [] t.lastSuccessfulRpcResponse (by rw [hu,List.append_nil])
  rwa [hnoted] at h

theorem finished_onto (s t : Rpc) : Ctl.Along s t (.more s.rpcFinishedPdu) (.more (s.onto t).rpcFinishedPdu) := by
  have hlog : ∀ p, s.pdu = some p → p.freePdu = true → Ctl.Along s t (.more s.rpcFinishedPdu) (.more (s.onto t).rpcFinishedPdu) := by
    intro p hp hf
    have hs : s.rpcFinishedPdu = { s.callback p .success (decoded p (s.inbuf.take p.zdrSize)) with
        state := .readRm, inpos := 0, pdu := none } := by
      simp only [rpcFinishedPdu,hp,hf,if_true]
    have ht : (s.onto t).rpcFinishedPdu = { (s.onto t).callback p .success (decoded p (s.inbuf.take p.zdrSize)) with
        state := .readRm, inpos := 0, pdu := none } := by
      simp only [rpcFinishedPdu,onto,hp,hf,if_true]
    rw [hs,ht]
    exact .more _ [.callback p.id .success (decoded p (s.inbuf.take p.zdrSize))] t.lastSuccessfulRpcResponse rfl
  cases hp : s.pdu with
  | none =>
    have hs : s.rpcFinishedPdu = { s with state := .readRm, inpos := 0, pdu := none } := by simp only [rpcFinishedPdu,hp]
    have ht : (s.onto t).rpcFinishedPdu = { s.onto t with state := .readRm, inpos := 0, pdu := none } := by
      simp only [rpcFinishedPdu,onto,hp]
    rw [hs,ht]
    exact along_same (u := { s with state := .readRm, inpos := 0, pdu := none }) rfl
  | some p =>
    cases hf : p.freePdu with
    | true => exact hlog p hp hf
    | false =>
      have hs : s.rpcFinishedPdu = { s with state := .readRm, inpos := 0, pdu := none } := by
        simp only [rpcFinishedPdu,hp,hf,Bool.false_eq_true,if_false]
      have ht : (s.onto t).rpcFinishedPdu = { s.onto t with state := .readRm, inpos := 0, pdu := none } := by
        simp only [rpcFinishedPdu,onto,hp,hf,Bool.false_eq_true,if_false]
      rw [hs,ht]
      exact along_same (u := { s with state := .readRm, inpos := 0, pdu := none }) rfl

theorem placeData_onto (s t : Rpc) (p : Pdu) (c : Cursor) (n pos : ℕ) :
    Ctl.Along s t (s.placeData p c n pos) ((s.onto t).placeData p c n pos) := by
  have hi : (s.onto t).inpos = s.inpos := rfl
  have hb : (s.onto t).inbuf = s.inbuf := rfl
  have hm : (s.onto t).mem = s.mem := rfl
  unfold placeData
  dsimp only
  rw [hi,hb,hm]
  cases (if min n p.requestedReadCount < c.remaining then c.rpcShrinkCursor (min n p.requestedReadCount) else some c) with
  | none => exact .fault _ _
  | some d =>
    dsimp only
    cases d.rpcMemcpyCursor s.mem ((s.inbuf.drop pos).take
        (min (min (s.inpos-pos) (min n p.requestedReadCount)) d.remaining)) with
    | none => exact .fault _ _
    | some r =>
      obtain ⟨mem,e⟩ := r
      dsimp only
      split
      · have h := finished_onto { s with mem := mem, pdu := some { p with cursor := some e, readCount := min n p.requestedReadCount } } t
        exact h.base rfl
      · exact along_same rfl

theorem zeroCopyPayload_onto (hv : t.nfsV3 = s.nfsV3) (p : Pdu) (c : Cursor) (pos : ℤ) :
    Ctl.Along s t (s.zeroCopyPayload p c pos) ((s.onto t).zeroCopyPayload p c pos) := by
  have hv3 : (s.onto t).nfsV3 = s.nfsV3 := hv
  have hb : (s.onto t).inbuf = s.inbuf := rfl
  have hz : (s.onto t).pduSize = s.pduSize := rfl
  unfold zeroCopyPayload
  rw [hv3,hb,hz]
  split
  · exact .fault _ _
  · split
    · exact finished_onto s t
    · rcases zdrUInt (s.inbuf.take s.pduSize) ⟨pos,p.decodeMem⟩ with ⟨r,z⟩
      cases r with
      | fault => exact .fault _ _
      | fail => exact .fail _ _
      | ok k => exact placeData_onto s t p c _ _

theorem rpcProcessReply_onto (s t : Rpc) (p : Pdu) (buf : List UInt8) :
    s.rpcProcessReply p buf = none ∧ (s.onto t).rpcProcessReply p buf = none ∨
    ∃ u q pos l last, s.rpcProcessReply p buf = some (u,q,pos) ∧ u.log = s.log ++ l ∧ u.nfsV3 = s.nfsV3 ∧
      (s.onto t).rpcProcessReply p buf = some (u.onto (t.noted l last),q,pos) := by
  have hcalled : ∀ (q : Pdu) (status : Status) (data : CbData) (r : Pdu) (pos : ℤ),
      ∃ u q' pos' l last, some (s.callback q status data,r,pos) = some (u,q',pos') ∧ u.log = s.log ++ l ∧ u.nfsV3 = s.nfsV3 ∧
        some ((s.onto t).callback q status data,r,pos) = some (u.onto (t.noted l last),q',pos') := by
    intro q status data r pos
    exact ⟨_,r,pos,[.callback q.id status data],t.lastSuccessfulRpcResponse,rfl,rfl,rfl,rfl⟩
  unfold rpcProcessReply
  dsimp only
  generalize (if 0 < p.zdrDecodeBufsize then { p with zdrDecodeBuf := true } else p) = q
  split
  · exact .inl ⟨rfl,rfl⟩
  · exact .inr (hcalled ..)
  · split
    · exact .inr (hcalled ..)
    · split
      · split
        · refine .inr ⟨_,_,_,[],t.clock,rfl,(List.append_nil _).symm,rfl,?_⟩
          have hnoted : t.noted [] t.clock = { t with lastSuccessfulRpcResponse := t.clock } := by
            unfold noted
            rw [List.append_nil]
          rw [hnoted]
          rfl
        · exact .inr ⟨_,_,_,[.callback q.id .success _],t.clock,rfl,rfl,rfl,rfl⟩
      · exact .inr (hcalled ..)

theorem payloadDone_onto (hv : t.nfsV3 = s.nfsV3) : Ctl.Along s t s.payloadDone (s.onto t).payloadDone := by
  cases hp : s.pdu with
  | none =>
    have hp' : (s.onto t).pdu = none := hp
    simp only [payloadDone,hp,hp']
    exact .fault _ _
  | some p =>
    have hp' : (s.onto t).pdu = some p := hp
    have hrec : (s.onto t).logRecord (s.inbuf.take s.pduSize) = (s.logRecord (s.inbuf.take s.pduSize)).onto
        (t.noted [.record (s.inbuf.take s.pduSize)] t.lastSuccessfulRpcResponse) := rfl
    have hrep := rpcProcessReply_onto (s.logRecord (s.inbuf.take s.pduSize))
      (t.noted [.record (s.inbuf.take s.pduSize)] t.lastSuccessfulRpcResponse) p (s.inbuf.take s.pduSize)
    rw [← hrec] at hrep
    rcases hrep with ⟨h1,h2⟩ | ⟨u,q,pos,l,last,h1,hl,hu3,h2⟩
    · rw [payloadDone_none hp h1,payloadDone_none (s := s.onto t) hp' h2]
      exact .fault _ _
    · -- the record's entry in the log, then those of `rpc_process_reply`
      suffices h : Ctl.Along u ((t.noted [.record (s.inbuf.take s.pduSize)] t.lastSuccessfulRpcResponse).noted l last)
          s.payloadDone (s.onto t).payloadDone from
        Ctl.Along.after (h.after hl) rfl
      cases hc : q.cursor with
      | none =>
        rw [payloadDone_plain hp h1 hc,@payloadDone_plain (s.onto t) _ _ _ _ hp' h2 hc]
        exact (finished_onto (u.holding q) _).base rfl
      | some c =>
        have hb : ((s.onto t).inbuf.take (s.onto t).pduSize).length = (s.inbuf.take s.pduSize).length := rfl
        rw [payloadDone_zeroCopy hp h1 hc,@payloadDone_zeroCopy (s.onto t) _ _ _ _ _ hp' h2 hc,hb]
        generalize (s.inbuf.take s.pduSize).length = n
        have hgo := @zeroCopyPayload_onto (u.holding (q.keepZdr n))
          ((t.noted [.record (s.inbuf.take s.pduSize)] t.lastSuccessfulRpcResponse).noted l last) (hv.trans hu3.symm)
          (q.keepZdr n) c pos
        exact hgo.base rfl

theorem iovecDone_onto (s t : Rpc) : Ctl.Along s t s.iovecDone (s.onto t).iovecDone := by
  have hp' : (s.onto t).pdu = s.pdu := rfl
  have hr : (s.onto t).rm0 = s.rm0 := rfl
  have hz : (s.onto t).pduSize = s.pduSize := rfl
  unfold iovecDone
  rw [hp',hr,hz]
  cases hp : s.pdu with
  | none => exact .fault _ _
  | some p =>
    dsimp only
    split
    · exact (finished_onto (setRm0 { s with pdu := some { p with readCount := p.readCount-s.pduSize } } _) t).base rfl
    · exact along_same rfl

/-- The bytes that are asked for are all there. -/
theorem readDone_onto (hs : s.state ≠ .readRm) (hv : t.nfsV3 = s.nfsV3) : Ctl.Along s t s.readDone (s.onto t).readDone := by
  have hst : (s.onto t).state = s.state := rfl
  unfold readDone
  rw [hst]
  cases hstate : s.state with
  | readRm => exact absurd hstate hs
  | readPayload => exact payloadDone_onto hv
  | readFragment => exact along_same rfl
  | readIovec => exact iovecDone_onto s t
  | readPadding => exact finished_onto s t
  | readUnknown => exact along_same rfl

theorem readPrep_onto (s t : Rpc) : (s.onto t).readPrep = s.readPrep.map (·.onto t) := by
  have hi : (s.onto t).inpos = s.inpos := rfl
  have hst : (s.onto t).state = s.state := rfl
  have hp : (s.onto t).pdu = s.pdu := rfl
  have hr : (s.onto t).rm0 = s.rm0 := rfl
  have hn : (s.onto t).inbufSize = s.inbufSize := rfl
  unfold readPrep
  rw [hi,hst,hp,hr,hn]
  by_cases h0 : s.inpos = 0
  · rw [if_pos h0,if_pos h0]
    cases hstate : s.state with
    | readRm => rfl
    | readPayload => rfl
    | readFragment =>
      dsimp only
      split <;> rfl
    | readUnknown =>
      dsimp only
      split <;> rfl
    | readIovec =>
      dsimp only
      cases s.pdu <;> rfl
    | readPadding => rfl
  · rw [if_neg h0,if_neg h0]
    rfl

theorem readStore_onto (s t : Rpc) (bs : List UInt8) : (s.onto t).readStore bs = (s.readStore bs).map (·.onto t) := by
  have hst : (s.onto t).state = s.state := rfl
  have hp : (s.onto t).pdu = s.pdu := rfl
  unfold readStore
  rw [hst,hp]
  cases hstate : s.state with
  | readIovec =>
    dsimp only
    cases s.pdu with
    | none => rfl
    | some p =>
      dsimp only
      cases p.cursor with
      | none => rfl
      | some c =>
        dsimp only
        cases c.rpcAdvanceCursor bs.length <;> rfl
  | readRm => rfl
  | readPayload => rfl
  | readFragment => rfl
  | readUnknown => rfl
  | readPadding => rfl

theorem readBytes_onto (hs : s.state ≠ .readRm) (hv : t.nfsV3 = s.nfsV3) (bs : List UInt8) :
    Ctl.Along s t (s.readBytes bs) ((s.onto t).readBytes bs) := by
  unfold readBytes
  rw [readStore_onto]
  cases hst : s.readStore bs with
  | none => exact .fault _ _
  | some u =>
    have hlog := readStore_log hst
    obtain ⟨hsh,hstate⟩ := readStore_shared hst
    have hu3 : t.nfsV3 = u.nfsV3 := by
      rw [hv]
      exact show s.shared.nfsV3 = u.shared.nfsV3 by rw [hsh]
    have hi : (u.onto t).inpos = u.inpos := rfl
    have hz : (u.onto t).pduSize = u.pduSize := rfl
    rw [Option.map_some]
    dsimp only
    rw [hi,hz]
    split
    · exact (readDone_onto (by rw [hstate]; exact hs) hu3).base hlog
    · exact along_same hlog

/-- The reader takes as many bytes in its own context. -/
theorem accepts_of_onto {n : ℕ} (hfd : s.fd = true) (hdis : s.socketDisabled = false) (h : (s.onto t).Accepts n) : s.Accepts n := by
  obtain ⟨-,-,hpos,v,want,hv,hwant,hle⟩ := h
  rw [readPrep_onto] at hv
  obtain ⟨u,hu,rfl⟩ := Option.map_eq_some_iff.1 hv
  exact ⟨hfd,hdis,hpos,u,want,hu,hwant,hle⟩

/-- Bytes in the middle of a record -/
theorem recvStep_onto {bs : List UInt8} (hs : s.state ≠ .readRm) (hv : t.nfsV3 = s.nfsV3) (hfd : s.fd = true)
    (hdis : s.socketDisabled = false) (hacc : (s.onto t).Accepts bs.length) :
    Ctl.Along s t (s.recvStep (.data bs)) ((s.onto t).recvStep (.data bs)) := by
  have hacc' := accepts_of_onto hfd hdis hacc
  obtain ⟨-,-,-,u,want,hu,-,-⟩ := hacc'
  have hu' : (s.onto t).readPrep = some (u.onto t) := by
    rw [readPrep_onto,hu]
    rfl
  obtain ⟨hsh,hstate⟩ := readPrep_shared hu
  rw [recvStep_data (accepts_of_onto hfd hdis hacc) hu,recvStep_data hacc hu']
  have hu3 : t.nfsV3 = u.nfsV3 := by
    rw [hv]
    exact show s.shared.nfsV3 = u.shared.nfsV3 by rw [hsh]
  exact (readBytes_onto (by rw [hstate]; exact hs) hu3 bs).base (readPrep_log hu)

end Rpc
end Libnfs
