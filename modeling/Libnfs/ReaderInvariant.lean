import Libnfs.ReaderSpec

/-! The states the reader can be in between two turns of its loop, and that every turn keeps
to them. -/
namespace Libnfs

open ByteWords Scatter Zdr

variable {P : Pdu → Prop}

namespace Rpc

/-- A reader that is about to ask the kernel for bytes. In the last case a read has failed with
no reconnect to follow: the record is complete but not dealt with, and no byte is asked for. -/
inductive Prepared (P : Pdu → Prop) (s : Rpc) : Prop
  | marker (hs : s.state = .readRm) (hp : s.pdu = none) (hsz : s.pduSize = 8) (hi : s.inpos < 8)
  | payload (p : Pdu) (hs : s.state = .readPayload) (hp : s.pdu = some p) (ok : PduOk P p)
      (hrm : 8 ≤ s.rm0 ∧ s.rm0 ≤ maxFragmentSize)
      (hsz : s.pduSize = if p.cursor.isSome then min s.rm0 zcrp else s.rm0)
      (hi : 4 ≤ s.inpos ∧ s.inpos < s.pduSize) (hb : s.inpos ≤ s.inbuf.length)
      (hroom : 0 < s.inbufSize)
  | unknown (hs : s.state = .readUnknown) (hp : s.pdu = none) (hsz : s.pduSize = s.rm0)
      (hi : 4 ≤ s.inpos ∧ s.inpos < s.pduSize) (hb : s.inpos ≤ s.inbuf.length)
  | iovec (p : Pdu) (c : Cursor) (hs : s.state = .readIovec) (hp : s.pdu = some p) (ok : HeldOk P p)
      (hc : p.cursor = some c) (hr : c.remaining+s.inpos = s.pduSize) (hi : s.inpos < s.pduSize)
      (hcount : p.readCount = s.pduSize) (hroom : 0 < s.inbufSize)
  | padding (p : Pdu) (hs : s.state = .readPadding) (hp : s.pdu = some p) (ok : HeldOk P p)
      (hsz : s.pduSize = s.rm0) (hi : s.inpos < s.pduSize) (hroom : 0 < s.inbufSize)
  | stuck (hs : s.state = .readPayload ∨ s.state = .readFragment) (hi : 0 < s.inpos)
      (hsz : s.inpos = s.pduSize) (hp : ∀ p, s.pdu = some p → HeldOk P p)

structure ReaderOk (P : Pdu → Prop) (s : Rpc) : Prop where
  rmXid : s.rmXid.length = 8
  idle : s.state = .readRm → s.pdu = none
  prepared : ∃ t, s.readPrep = some t ∧ Prepared P t

structure QueueOk (P : Pdu → Prop) (s : Rpc) : Prop where
  hashes : 0 < s.waitpdu.length
  queued : ∀ p ∈ s.pool, PduOk P p
  out : OutOk s.outqueue

/-- The invariant of every client context. -/
structure Ok (P : Pdu → Prop) (s : Rpc) : Prop extends QueueOk P s, ReaderOk P s

theorem Prepared.readPrep {s : Rpc} (h : Prepared P s) : s.readPrep = some s := by
  unfold Rpc.readPrep
  split
  · rename_i h0
    cases h with
    | marker hs hp hsz hi =>
      cases s
      simp_all
    | payload p hs hp ok hrm hsz hi => omega
    | unknown hs hp hsz hi => omega
    | iovec p c hs hp ok hc hr hi hcount =>
      cases s
      simp_all
    | padding p hs hp ok hsz hi =>
      rw [← hsz]
      clear hsz
      cases s
      simp_all
    | stuck hs hi => omega
  · rfl

theorem Prepared.idle {s : Rpc} (h : Prepared P s) (hs : s.state = .readRm) : s.pdu = none := by
  cases h with
  | marker _ hp => exact hp
  | unknown _ hp => exact hp
  | stuck h => simp [hs] at h
  | _ => simp_all

theorem Prepared.readerOk {s : Rpc} (h : Prepared P s) (hrm : s.rmXid.length = 8) : s.ReaderOk P :=
  ⟨hrm,h.idle,s,h.readPrep,h⟩

/-- The PDU the reader holds can be put back. -/
theorem Prepared.held {s : Rpc} (h : Prepared P s) (p : Pdu) (hp : s.pdu = some p) : HeldOk P p := by
  cases h with
  | marker _ h => simp [h] at hp
  | payload q _ h ok =>
    rw [h,Option.some.injEq] at hp
    exact hp ▸ ok.toHeldOk
  | unknown _ h => simp [h] at hp
  | iovec q _ _ h ok =>
    rw [h,Option.some.injEq] at hp
    exact hp ▸ ok
  | padding q _ h ok =>
    rw [h,Option.some.injEq] at hp
    exact hp ▸ ok
  | stuck _ _ _ h => exact h p hp

theorem readPrep_frame {s t : Rpc} (h : s.readPrep = some t) :
    ∃ i n q, t = { s with inpos := i, pduSize := n, pdu := q } ∧
      (q = s.pdu ∨ s.state = .readRm ∧ q = none) := by
  unfold Rpc.readPrep at h
  split at h
  · split at h
    · rename_i hs
      simp only [Option.some.injEq] at h
      subst h
      exact ⟨_,_,_,rfl,.inr ⟨hs,rfl⟩⟩
    · simp only [Option.some.injEq] at h
      subst h
      exact ⟨_,_,_,rfl,.inl rfl⟩
    · split at h
      · simp only [Option.some.injEq] at h
        subst h
        exact ⟨_,_,_,rfl,.inl rfl⟩
      · simp at h
    · split at h
      · simp only [Option.some.injEq] at h
        subst h
        exact ⟨_,_,_,rfl,.inl rfl⟩
      · simp at h
    · split at h
      · simp only [Option.some.injEq] at h
        subst h
        exact ⟨_,_,_,rfl,.inl rfl⟩
      · simp at h
    · simp only [Option.some.injEq] at h
      subst h
      exact ⟨_,_,_,rfl,.inl rfl⟩
  · simp only [Option.some.injEq] at h
    subst h
    exact ⟨_,_,_,rfl,.inl rfl⟩

/-- Preparing a reader that is in order only sets `inpos` and `pdu_size`. -/
theorem ReaderOk.readPrep_eq {s t : Rpc} (h : s.ReaderOk P) (ht : s.readPrep = some t) :
    ∃ i n, t = { s with inpos := i, pduSize := n } := by
  obtain ⟨i,n,q,rfl,hq⟩ := readPrep_frame ht
  rcases hq with rfl | ⟨hs,rfl⟩
  · exact ⟨i,n,rfl⟩
  · exact ⟨i,n,by rw [← h.idle hs]⟩

theorem ReaderOk.held {s : Rpc} (h : s.ReaderOk P) (p : Pdu) (hp : s.pdu = some p) : HeldOk P p := by
  obtain ⟨t,ht,hprep⟩ := h.prepared
  obtain ⟨i,n,rfl⟩ := h.readPrep_eq ht
  exact hprep.held p hp

@[simp] theorem setRm0_rmXid_length (s : Rpc) (n : ℕ) (h : s.rmXid.length = 8) :
    (s.setRm0 n).rmXid.length = 8 := by simp [setRm0,h]

@[simp] theorem setRm1_rmXid_length (s : Rpc) (n : ℕ) (h : s.rmXid.length = 8) :
    (s.setRm1 n).rmXid.length = 8 := by simp [setRm1,h]

theorem rm0_setRm0 (s : Rpc) (n : ℕ) (h : n < 2^32) : (s.setRm0 n).rm0 = n :=
  le32_leBytes n h _

theorem rm0_setRm1 (s : Rpc) (n : ℕ) (h : s.rmXid.length = 8) : (s.setRm1 n).rm0 = s.rm0 := by
  match hr : s.rmXid,h with
  | [a,b,c,d,e,f,g,i],_ => simp [rm0,setRm1,hr,le32]

/-- A finished record leaves the reader at the next marker. -/
theorem finished_readerOk (s : Rpc) (h : s.rmXid.length = 8) : s.rpcFinishedPdu.ReaderOk P := by
  have hr : s.rpcFinishedPdu.rmXid = s.rmXid := by
    unfold rpcFinishedPdu
    dsimp only
    repeat' split
    all_goals rfl
  refine ⟨by rw [hr]; exact h,fun _ => rfl,_,rfl,.marker rfl rfl rfl (show 0 < 8 by decide)⟩

theorem restart_readerOk (s : Rpc) (h : s.rmXid.length = 8) (hs : s.state = .readRm)
    (hi : s.inpos = 0) (hp : s.pdu = none) : s.ReaderOk P :=
  ⟨h,fun _ => hp,{ s with pduSize := 8, pdu := none },by simp [readPrep,hi,hs],
    .marker hs rfl rfl (show s.inpos < 8 by omega)⟩

end Rpc

/-- `P` of the context a turn leaves behind, if the process is still alive. -/
def Ctl.All (P : Rpc → Prop) : Ctl → Prop
  | .more t => P t
  | .fail t => P t
  | .fault _ => True

namespace Rpc

theorem QueueOk.withQueues {s : Rpc} (h : s.QueueOk P) {x : ℕ} {p : Pdu} {t : Rpc}
    (hf : s.rpcFindPdu x = (some p,t)) : t.QueueOk P ∧ PduOk P p := by
  obtain ⟨-,q,w,n,rfl,hq,hw,hp⟩ := rpcFindPdu_some h.hashes hf
  refine ⟨⟨?_,?_,outOk_sublist h.out hq⟩,?_⟩
  · exact hw ▸ h.hashes
  · intro a ha
    exact h.queued a (hp.symm.subset (List.mem_cons_of_mem p ha))
  · exact h.queued p (hp.symm.subset List.mem_cons_self)

theorem QueueOk.return {s : Rpc} (h : s.QueueOk P) {p : Pdu} (hp : HeldOk P p) :
    (s.rpcReturnToOutqueue p).QueueOk P := by
  refine ⟨h.hashes,?_,outOk_insertAfterHead h.out hp.sized rfl⟩
  intro a ha
  simp only [pool,rpcReturnToOutqueue,List.mem_append,mem_insertAfterHead] at ha
  rcases ha with (rfl | ha) | ha
  · exact reset_pduOk hp
  · exact h.queued a (List.mem_append_left _ ha)
  · exact h.queued a (List.mem_append_right _ ha)

theorem adjustInbuf_some {s t : Rpc} {n : ℕ} (h : s.adjustInbuf n = some t) :
    ∃ m, t = { s with inbufSize := m } ∧ n ≤ m := by
  unfold adjustInbuf at h
  split at h
  · split at h
    · simp at h
    · split at h
      · simp only [Option.some.injEq] at h
        subst h
        exact ⟨n,rfl,le_refl _⟩
      · simp at h
  · rename_i hn
    simp only [Option.some.injEq] at h
    subst h
    exact ⟨s.inbufSize,rfl,by omega⟩

theorem startRecord_length (s : Rpc) (x : ℕ) : 4 ≤ (s.startRecord x).inbuf.length := by
  simp [startRecord,overwrite]

/-- A record that is matched by a PDU is read into the buffer. -/
theorem payload_readerOk {s : Rpc} {p : Pdu} (hrm : s.rmXid.length = 8) (hs : s.state = .readPayload)
    (hp : s.pdu = some p) (ok : PduOk P p) (hsize : 8 ≤ s.rm0 ∧ s.rm0 ≤ maxFragmentSize)
    (hi : s.inpos = 0) (hb : 4 ≤ s.inbuf.length) (hroom : 0 < s.inbufSize) : s.ReaderOk P := by
  refine ⟨hrm,fun h => by simp [hs] at h,
    { s with inpos := 4, pduSize := if p.cursor.isSome then min s.rm0 zcrp else s.rm0 },?_,?_⟩
  · simp only [readPrep,hi,if_true]
    split <;> simp_all
  · refine .payload p hs hp ok hsize rfl ⟨le_refl 4,?_⟩ hb hroom
    dsimp only
    split
    · exact lt_min (by omega) (by decide)
    · omega

theorem unknown_readerOk {s : Rpc} (hrm : s.rmXid.length = 8) (hs : s.state = .readUnknown)
    (hp : s.pdu = none) (hsize : 8 ≤ s.rm0) (hi : s.inpos = 0) (hb : 4 ≤ s.inbuf.length)
    (hroom : s.rm0 ≤ s.inbufSize) : s.ReaderOk P := by
  refine ⟨hrm,fun h => by simp [hs] at h,{ s with inpos := 4, pduSize := s.rm0 },?_,?_⟩
  · simp only [readPrep,hi,if_true]
    split <;> simp_all
  · exact .unknown hs hp rfl ⟨le_refl 4,show 4 < s.rm0 by omega⟩ hb

theorem matchRecord_ok {s : Rpc} {size xid : ℕ} (h : s.QueueOk P) (hrm : s.rmXid.length = 8)
    (hs : s.state = .readPayload) (hi : 0 < s.inpos) (hsz : s.inpos = s.pduSize)
    (hrm0 : s.rm0 = size) (hsize : 8 ≤ size ∧ size ≤ maxFragmentSize) :
    (s.matchRecord size xid).All (Ok P) := by
  unfold matchRecord
  split
  · rename_i p t hf
    obtain ⟨ht,hp⟩ := h.withQueues hf
    obtain ⟨-,q,w,n,rfl,-⟩ := rpcFindPdu_some h.hashes hf
    split
    · have hr := ht.return hp.toHeldOk
      refine ⟨⟨hr.hashes,hr.queued,hr.out⟩,Prepared.readerOk ?_ hrm⟩
      exact .stuck (.inl hs) hi hsz (fun p hp' => by simp at hp')
    · rename_i u hu
      obtain ⟨m,rfl,hm⟩ := adjustInbuf_some hu
      refine ⟨⟨ht.hashes,ht.queued,ht.out⟩,?_⟩
      refine payload_readerOk (p := p) hrm hs rfl hp ?_ rfl (startRecord_length _ _) ?_
      · exact hrm0.symm ▸ hsize
      · refine lt_of_lt_of_le ?_ hm
        split
        · decide
        · omega
  · rename_i t hf
    obtain rfl := rpcFindPdu_none hf
    split
    · refine ⟨⟨h.hashes,h.queued,h.out⟩,Prepared.readerOk ?_ hrm⟩
      exact .stuck (.inl hs) hi hsz (fun p hp' => by simp at hp')
    · rename_i u hu
      obtain ⟨m,rfl,hm⟩ := adjustInbuf_some hu
      refine ⟨⟨h.hashes,h.queued,h.out⟩,?_⟩
      refine unknown_readerOk hrm rfl rfl ?_ rfl (startRecord_length _ _) ?_
      · exact hrm0.symm ▸ hsize.1
      · exact hrm0.symm ▸ hm

theorem rmDone_ok {s : Rpc} (h : s.QueueOk P) (hrm : s.rmXid.length = 8) (hp : s.pdu = none)
    (hi : 0 < s.inpos) (hsz : s.inpos = s.pduSize) : s.rmDone.All (Ok P) := by
  have hnone : ∀ p, s.pdu = some p → HeldOk P p := fun p hp' => by simp [hp] at hp'
  unfold rmDone
  dsimp only
  split
  · refine ⟨⟨h.hashes,h.queued,h.out⟩,Prepared.readerOk ?_ (setRm0_rmXid_length s _ hrm)⟩
    exact .stuck (.inr rfl) hi hsz hnone
  · have hlt : be32 s.rmXid-2^31 < 2^32 := lt_of_le_of_lt (Nat.sub_le _ _) (be32_lt _)
    generalize be32 s.rmXid-2^31 = size at hlt ⊢
    have hrm8 := setRm0_rmXid_length s size hrm
    split
    · refine ⟨⟨h.hashes,h.queued,h.out⟩,Prepared.readerOk ?_ hrm8⟩
      exact .stuck (.inl rfl) hi hsz hnone
    · rename_i hsize
      refine matchRecord_ok ⟨h.hashes,h.queued,h.out⟩ (setRm1_rmXid_length _ _ hrm8) rfl hi hsz ?_
        (by omega)
      exact (rm0_setRm1 _ _ hrm8).trans (rm0_setRm0 s size hlt)

theorem finished_queueOk {s : Rpc} (h : s.QueueOk P) : s.rpcFinishedPdu.QueueOk P := by
  have hq : s.rpcFinishedPdu.outqueue = s.outqueue ∧ s.rpcFinishedPdu.waitpdu = s.waitpdu := by
    unfold rpcFinishedPdu
    dsimp only
    repeat' split
    all_goals exact ⟨rfl,rfl⟩
  exact ⟨hq.2 ▸ h.hashes,by rw [pool,hq.1,hq.2]; exact h.queued,hq.1 ▸ h.out⟩

theorem finished_ok {s : Rpc} (h : s.QueueOk P) (hrm : s.rmXid.length = 8) : s.rpcFinishedPdu.Ok P :=
  ⟨finished_queueOk h,finished_readerOk s hrm⟩

theorem iovec_readerOk {s : Rpc} {p : Pdu} {c : Cursor} (hrm : s.rmXid.length = 8)
    (hs : s.state = .readIovec) (hp : s.pdu = some p) (ok : HeldOk P p) (hc : p.cursor = some c)
    (hr : c.remaining = p.readCount) (hpos : 0 < p.readCount) (hi : s.inpos = 0)
    (hroom : 0 < s.inbufSize) : s.ReaderOk P := by
  refine ⟨hrm,fun h => by simp [hs] at h,{ s with pduSize := p.readCount },?_,?_⟩
  · simp only [readPrep,hi,if_true]
    split <;> simp_all
  · refine .iovec p c hs hp ok hc ?_ ?_ rfl hroom
    · show c.remaining+s.inpos = p.readCount
      omega
    · show s.inpos < p.readCount
      omega

theorem padding_readerOk {s : Rpc} {p : Pdu} (hrm : s.rmXid.length = 8)
    (hs : s.state = .readPadding) (hp : s.pdu = some p) (ok : HeldOk P p) (hpos : 0 < s.rm0)
    (hi : s.inpos = 0) (hroom : 0 < s.inbufSize) : s.ReaderOk P := by
  refine ⟨hrm,fun h => by simp [hs] at h,{ s with pduSize := s.rm0 },?_,?_⟩
  · simp only [readPrep,hi,if_true]
    split <;> simp_all
  · refine .padding p hs hp ok rfl ?_ hroom
    show s.inpos < s.rm0
    omega

/-- The first bytes of READ data leave the reader in order. -/
theorem placeData_ok {s : Rpc} {p : Pdu} {c : Cursor} {n pos : ℕ} (h : s.QueueOk P)
    (hrm : s.rmXid.length = 8) (ok : PduOk P p) (hc : p.cursor = some c) (hpos : pos ≤ s.inpos)
    (hlen : s.inpos ≤ s.inbuf.length) (hroom : 0 < s.inbufSize) :
    (s.placeData p c n pos).All (Ok P) := by
  rw [ok.fresh c hc,placeData_eq s p c.ref n pos (ok.room c hc) hpos hlen]
  generalize hrc : min n p.requestedReadCount = rc
  have hle : rc ≤ total c.ref := (by omega : rc ≤ p.requestedReadCount).trans (ok.room c hc)
  split
  · split
    · trivial
    · exact finished_ok ⟨h.hashes,h.queued,h.out⟩ hrm
  · rename_i hlt
    refine ⟨⟨h.hashes,h.queued,h.out⟩,?_⟩
    refine iovec_readerOk (setRm0_rmXid_length _ _ hrm) rfl rfl ?_ rfl rfl (by dsimp only; omega) rfl
      hroom
    refine HeldOk.moved ok.toHeldOk hc ?_ ?_ _
    · refine ⟨?_,(Cursor.length_skip_le _ _).trans (length_placed_le _ _)⟩
      rw [total_skip,total_placed _ _ hle]
    · rfl

theorem zeroCopyPayload_ok {s : Rpc} {p : Pdu} {c : Cursor} {pos : ℤ} (h : s.QueueOk P)
    (hrm : s.rmXid.length = 8) (hs : s.state = .readPayload) (hp : s.pdu = some p) (ok : PduOk P p)
    (hc : p.cursor = some c) (hi : 0 < s.inpos) (hsz : s.inpos = s.pduSize)
    (hlen : s.inpos ≤ s.inbuf.length) (hroom : 0 < s.inbufSize) :
    (s.zeroCopyPayload p c pos).All (Ok P) := by
  unfold zeroCopyPayload
  split
  · trivial
  · split
    · exact finished_ok h hrm
    · split
      · trivial
      · refine ⟨h,Prepared.readerOk ?_ hrm⟩
        refine .stuck (.inl hs) hi hsz ?_
        intro q hq
        rw [hp,Option.some.injEq] at hq
        exact hq ▸ ok.toHeldOk
      · rename_i n z hz
        obtain ⟨h0,h4,-,rfl⟩ := zdrUInt_ok hz
        have hbuf : (s.inbuf.take s.pduSize).length = s.inpos := by
          rw [List.length_take]
          omega
        refine placeData_ok h hrm ok hc ?_ hlen hroom
        rw [hbuf] at h4
        dsimp only at h0 h4 ⊢
        omega

theorem payloadDone_ok {s : Rpc} {p : Pdu} (h : s.QueueOk P) (hrm : s.rmXid.length = 8)
    (hs : s.state = .readPayload) (hp : s.pdu = some p) (ok : PduOk P p)
    (hi : 0 < s.inpos) (hsz : s.inpos = s.pduSize) (hlen : s.inpos ≤ s.inbuf.length)
    (hroom : 0 < s.inbufSize) : s.payloadDone.All (Ok P) := by
  unfold payloadDone
  simp only [hp]
  split
  · trivial
  · rename_i t q pos hr
    have hspec : ∃ last log, t = { s with lastSuccessfulRpcResponse := last, log := log } := by
      rcases rpcProcessReply_some hr with ⟨-,b,d,-,last,st,da,rfl⟩ | ⟨-,-,b,d,-,rfl⟩
      · exact ⟨_,_,rfl⟩
      · exact ⟨_,_,rfl⟩
    have hq : PduOk P q := by
      rcases rpcProcessReply_some hr with ⟨-,b,d,rfl,-⟩ | ⟨hsome,-,b,d,rfl,-⟩
      · exact ⟨⟨ok.kept,ok.sized,ok.cursor,ok.room,ok.plain,ok.origin⟩,ok.fresh⟩
      · refine ⟨⟨ok.kept,ok.sized,ok.cursor,ok.room,fun hnone => ?_,ok.origin⟩,ok.fresh⟩
        rw [show p.cursor = none from hnone] at hsome
        simp at hsome
    clear hr
    obtain ⟨last,log,rfl⟩ := hspec
    split
    · exact finished_ok ⟨h.hashes,h.queued,h.out⟩ hrm
    · rename_i c hc
      exact zeroCopyPayload_ok ⟨h.hashes,h.queued,h.out⟩ hrm hs rfl
        ⟨⟨hq.kept,hq.sized,hq.cursor,hq.room,hq.plain,hq.origin⟩,hq.fresh⟩ hc hi hsz hlen hroom

theorem iovecDone_ok {s : Rpc} {p : Pdu} (h : s.QueueOk P) (hrm : s.rmXid.length = 8)
    (hp : s.pdu = some p) (ok : HeldOk P p) (hroom : 0 < s.inbufSize) : s.iovecDone.All (Ok P) := by
  unfold iovecDone
  rw [hp]
  dsimp only
  have hrm8 := setRm0_rmXid_length s ((s.rm0+2^32-s.pduSize) % 2^32) hrm
  split
  · exact finished_ok ⟨h.hashes,h.queued,h.out⟩ hrm8
  · rename_i hne
    refine ⟨⟨h.hashes,h.queued,h.out⟩,?_⟩
    refine padding_readerOk (p := { p with readCount := p.readCount-s.pduSize }) hrm8 rfl rfl
      ⟨ok.kept,ok.sized,ok.cursor,ok.room,ok.plain,ok.origin⟩ ?_ rfl hroom
    have hlt : (s.rm0+2^32-s.pduSize) % 2^32 < 2^32 := Nat.mod_lt _ (by decide)
    exact (rm0_setRm0 s _ hlt).symm ▸ Nat.pos_of_ne_zero hne

theorem readWant_pos {s : Rpc} (h : Prepared P s) {n : ℕ} (hn : s.readWant = some n) (h0 : n ≠ 0) :
    s.inpos < s.pduSize ∧ s.inpos+n ≤ s.pduSize := by
  unfold readWant at hn
  cases h with
  | marker hs hp hsz hi =>
    simp only [hs,Option.some.injEq] at hn
    omega
  | payload p hs hp ok hrm hsz hi =>
    simp only [hs,Option.some.injEq] at hn
    omega
  | unknown hs hp hsz hi =>
    simp only [hs,Option.some.injEq] at hn
    omega
  | iovec p c hs hp ok hc hr hi =>
    simp only [hs,hp,Option.bind_some,hc] at hn
    split at hn
    · simp only [Option.some.injEq] at hn
      have := (ok.cursor c hc).1
      omega
    · simp at hn
  | padding p hs hp ok hsz hi =>
    simp only [hs,Option.some.injEq] at hn
    omega
  | stuck hs hi hsz =>
    rcases hs with hs | hs <;> simp only [hs,Option.some.injEq] at hn <;> omega

/-- Bytes that were asked for leave the reader in order. -/
theorem readBytes_ok {s : Rpc} (h : s.QueueOk P) (hrm : s.rmXid.length = 8) (hprep : Prepared P s)
    {bs : List UInt8} (hpos : 0 < bs.length) (hle : s.inpos+bs.length ≤ s.pduSize) :
    (s.readBytes bs).All (Ok P) := by
  unfold readBytes readStore
  cases hprep with
  | marker hs hp hsz hi =>
    have hlen : (overwrite s.rmXid s.inpos bs).length = 8 := by
      rw [length_overwrite _ _ _ (by omega)]
      omega
    simp only [hs]
    split
    · rename_i he
      simp only [readDone]
      exact rmDone_ok ⟨h.hashes,h.queued,h.out⟩ hlen hp (show 0 < s.inpos+bs.length by omega) he
    · rename_i hne
      refine ⟨⟨h.hashes,h.queued,h.out⟩,Prepared.readerOk ?_ hlen⟩
      exact .marker rfl hp hsz (show s.inpos+bs.length < 8 by omega)
  | payload p hs hp ok hsize hsz hi hb hroom =>
    have hlen : s.inpos+bs.length ≤ (overwrite s.inbuf s.inpos bs).length := by
      rw [length_overwrite _ _ _ hb]
      omega
    simp only [hs]
    split
    · rename_i he
      simp only [readDone]
      exact payloadDone_ok ⟨h.hashes,h.queued,h.out⟩ hrm rfl hp ok
        (show 0 < s.inpos+bs.length by omega) he hlen hroom
    · rename_i hne
      refine ⟨⟨h.hashes,h.queued,h.out⟩,Prepared.readerOk ?_ hrm⟩
      exact .payload p rfl hp ok hsize hsz ⟨show 4 ≤ s.inpos+bs.length by omega,
        show s.inpos+bs.length < s.pduSize by omega⟩ hlen hroom
  | unknown hs hp hsz hi hb =>
    have hlen : s.inpos+bs.length ≤ (overwrite s.inbuf s.inpos bs).length := by
      rw [length_overwrite _ _ _ hb]
      omega
    simp only [hs]
    split
    · simp only [readDone]
      exact ⟨⟨h.hashes,h.queued,h.out⟩,restart_readerOk _ hrm rfl rfl hp⟩
    · rename_i hne
      refine ⟨⟨h.hashes,h.queued,h.out⟩,Prepared.readerOk ?_ hrm⟩
      exact .unknown rfl hp hsz ⟨show 4 ≤ s.inpos+bs.length by omega,
        show s.inpos+bs.length < s.pduSize by omega⟩ hlen
  | iovec p c hs hp ok hc hr hi hcount hroom =>
    simp only [hs,hp,hc]
    split
    · trivial
    · rename_i t ht
      obtain ⟨d,hd,rfl⟩ := Option.map_eq_some_iff.mp ht
      obtain rfl := Cursor.rpcAdvanceCursor_some (ok.cursor c hc) (by omega) hd
      have ok' := ok.moved hc (Cursor.advanced_sized (ok.cursor c hc) bs.length) rfl p.readCount
      split
      · simp only [readDone]
        exact iovecDone_ok ⟨h.hashes,h.queued,h.out⟩ hrm rfl ok' hroom
      · rename_i hne
        dsimp only at hne
        have hr' : c.remaining-bs.length+(s.inpos+bs.length) = s.pduSize := by omega
        refine ⟨⟨h.hashes,h.queued,h.out⟩,Prepared.readerOk ?_ hrm⟩
        exact .iovec _ _ rfl rfl ok' rfl hr' (show s.inpos+bs.length < s.pduSize by omega) hcount
          hroom
  | padding p hs hp ok hsz hi hroom =>
    simp only [hs]
    split
    · simp only [readDone]
      exact finished_ok ⟨h.hashes,h.queued,h.out⟩ hrm
    · rename_i hne
      refine ⟨⟨h.hashes,h.queued,h.out⟩,Prepared.readerOk ?_ hrm⟩
      exact .padding p rfl hp ok hsz (show s.inpos+bs.length < s.pduSize by omega) hroom
  | stuck hs hi hsz => omega

/-- Every turn of the read loop keeps the invariant. -/
theorem recvStep_ok {s : Rpc} (h : s.Ok P) (r : Recv) : (s.recvStep r).All (Ok P) := by
  unfold recvStep
  split
  · exact h
  · obtain ⟨t,ht,hprep⟩ := h.prepared
    obtain ⟨i,n,rfl⟩ := h.readPrep_eq ht
    have hok : Ok P { s with inpos := i, pduSize := n } :=
      ⟨⟨h.hashes,h.queued,h.out⟩,hprep.readerOk h.rmXid⟩
    rw [ht]
    dsimp only
    split
    · trivial
    · rename_i want hwant
      split
      · exact hok
      · rename_i h0
        split
        · split
          · rename_i hbs
            have hw := readWant_pos hprep hwant h0
            exact readBytes_ok hok.toQueueOk h.rmXid hprep hbs.1
              ((Nat.add_le_add_left hbs.2 _).trans hw.2)
          · exact hok
        · exact hok
        · exact hok
        · exact hok

end Rpc
end Libnfs
