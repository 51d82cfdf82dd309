import Libnfs.ReaderFrame

/-! The receive buffer between two turns of the read loop. A context is compared with itself with
other bytes in the buffer: what the reader has stored of the current record has to agree, and what
the result of a READ points at. The rest is of no account. -/
namespace Libnfs

open ByteWords Scatter Zdr

/-- Byte `i` of the receive buffer is part of the data of the callback. -/
def Pdu.Shows (p : Pdu) (i : ℕ) : Prop :=
  p.zdrDecodeBuf = true ∧ i < p.zdrSize ∧
    ∃ r ∈ p.decodeMem.refs, r.off.toNat ≤ i ∧ i < r.off.toNat+r.len

namespace Rpc

def withInbuf (s : Rpc) (b : List UInt8) : Rpc := { s with inbuf := b }

/-- The data of a callback is what it shows of the receive buffer. -/
theorem decoded_eq_iff (p : Pdu) (b b' : List UInt8) :
    decoded p (b.take p.zdrSize) = decoded p (b'.take p.zdrSize) ↔
      ∀ i, p.Shows i → b[i]? = b'[i]? := by
  unfold decoded
  cases hz : p.zdrDecodeBuf with
  | false => simp [Pdu.Shows,hz]
  | true =>
    simp only [if_true,CbData.result.injEq,true_and,List.map_inj_left]
    constructor
    · rintro h i ⟨-,hi,r,hr,hoff,hlen⟩
      have hk := congrArg (fun l => l[i-r.off.toNat]?) (h r hr)
      have hadd : r.off.toNat+(i-r.off.toNat) = i := by omega
      have hlt : i-r.off.toNat < r.len := by omega
      simpa only [List.getElem?_take,hlt,if_true,List.getElem?_drop,hadd,hi] using hk
    · intro h r hr
      apply List.ext_getElem?
      intro k
      simp only [List.getElem?_take,List.getElem?_drop]
      split
      · rename_i hk
        split
        · rename_i hi
          exact h _ ⟨hz,hi,r,hr,by omega,by omega⟩
        · rfl
      · rfl

/-- Byte `i` of the receive buffer will be shown to a callback. -/
def Shown (s : Rpc) (i : ℕ) : Prop := ∃ p, s.pdu = some p ∧ p.freePdu = true ∧ p.Shows i

/-- `b` may be in the receive buffer in place of what is there. The first byte of the buffer is
always overwritten by padding, and padding does not matter if it ends after `n` more bytes. -/
def Agree (s : Rpc) (n : ℕ) (b : List UInt8) : Prop :=
  match s.state with
  | .readPayload => s.inbuf.take (max 4 s.inpos) = b.take (max 4 s.inpos)
  | .readIovec => ∀ i, s.Shown i → s.inbuf[i]? = b[i]?
  | .readPadding => s.rm0-s.inpos ≤ n → ∀ i, 0 < i → s.Shown i → s.inbuf[i]? = b[i]?
  | _ => True

/-- What is left of a process that dies while it reads. -/
def left (s : Rpc) : Rpc := { s.shared with log := s.log }

theorem finished_withInbuf {s : Rpc} {b : List UInt8} (h : ∀ i, s.Shown i → s.inbuf[i]? = b[i]?) :
    (s.withInbuf b).rpcFinishedPdu = s.rpcFinishedPdu.withInbuf b := by
  unfold rpcFinishedPdu
  cases hp : s.pdu with
  | none => simp only [withInbuf,hp]
  | some p =>
    cases hf : p.freePdu with
    | false => simp only [withInbuf,hp,hf,Bool.false_eq_true,if_false]
    | true =>
      have hd := (decoded_eq_iff p s.inbuf b).mpr fun i hi => h i ⟨p,hp,hf,hi⟩
      simp only [withInbuf,hp,hf,if_true,callback,hd]

end Rpc

/-- How two turns compare. -/
inductive Ctl.Sim (n : ℕ) : Ctl → Ctl → Prop
  | more (u : Rpc) (b : List UInt8) (h : u.Agree n b) : Sim n (.more u) (.more (u.withInbuf b))
  | fail (u : Rpc) (b : List UInt8) : Sim n (.fail u) (.fail (u.withInbuf b))
  | fault {u v : Rpc} (h : v.left = u.left) : Sim n (.fault u) (.fault v)

namespace Rpc

variable {P : Pdu → Prop}

theorem finished_sim {s : Rpc} {b : List UInt8} (n : ℕ)
    (h : ∀ i, s.Shown i → s.inbuf[i]? = b[i]?) :
    Ctl.Sim n (.more s.rpcFinishedPdu) (.more (s.withInbuf b).rpcFinishedPdu) := by
  rw [finished_withInbuf h]
  exact .more _ b trivial

theorem readPrep_withInbuf (s : Rpc) (b : List UInt8) :
    (s.withInbuf b).readPrep = s.readPrep.map (·.withInbuf b) := by
  have hw : s.withInbuf b = { s with inbuf := b } := rfl
  unfold readPrep
  rw [hw]
  dsimp only
  split
  · split
    · rfl
    · rfl
    · change (if s.rm0 ≤ s.inbufSize then _ else _) = Option.map _ (if s.rm0 ≤ s.inbufSize then _ else _)
      split <;> rfl
    · change (if s.rm0 ≤ s.inbufSize then _ else _) = Option.map _ (if s.rm0 ≤ s.inbufSize then _ else _)
      split <;> rfl
    · split <;> rfl
    · rfl
  · rfl

theorem rpcFindPdu_withInbuf (s : Rpc) (b : List UInt8) (x : ℕ) :
    (s.withInbuf b).rpcFindPdu x = ((s.rpcFindPdu x).1,(s.rpcFindPdu x).2.withInbuf b) := by
  have hw : s.withInbuf b = { s with inbuf := b } := rfl
  unfold rpcFindPdu
  rw [hw]
  dsimp only
  split
  · rfl
  · have hx : rpcHashXid { s with inbuf := b } (rm1 { s with inbuf := b }) = s.rpcHashXid s.rm1 := rfl
    rw [hx]
    split <;> rfl

theorem adjustInbuf_withInbuf (s : Rpc) (b : List UInt8) (n : ℕ) :
    (s.withInbuf b).adjustInbuf n = (s.adjustInbuf n).map (·.withInbuf b) := by
  unfold adjustInbuf
  change (if s.inbufSize < n then _ else _) = Option.map _ (if s.inbufSize < n then _ else _)
  split
  · split
    · rfl
    · change (if s.memOk then _ else _) = Option.map _ (if s.memOk then _ else _)
      split <;> rfl
  · rfl

theorem matchRecord_sim {s : Rpc} (hw : 0 < s.waitpdu.length) (hs : s.state = .readPayload)
    (b : List UInt8) (n size x : ℕ) :
    Ctl.Sim n (s.matchRecord size x) ((s.withInbuf b).matchRecord size x) := by
  unfold matchRecord
  rw [rpcFindPdu_withInbuf]
  rcases hf : s.rpcFindPdu x with ⟨q,t⟩
  cases q with
  | some p =>
    dsimp only
    rw [show (t.withInbuf b).holding p = (t.holding p).withInbuf b from rfl,adjustInbuf_withInbuf]
    cases hj : (t.holding p).adjustInbuf (if p.cursor.isSome then zcrp else size) with
    | none => exact .fail _ b
    | some u =>
      have hus : u.state = .readPayload := by
        obtain ⟨-,q,w,k,rfl,-⟩ := rpcFindPdu_some hw hf
        obtain ⟨m,rfl,-⟩ := adjustInbuf_some hj
        exact hs
      refine .more (u.startRecord x) (overwrite b 0 (beBytes x)) ?_
      simp only [Agree,startRecord,hus]
      rfl
  | none =>
    dsimp only
    rw [show ({ t.withInbuf b with pdu := none } : Rpc) =
      ({ t with pdu := none } : Rpc).withInbuf b from rfl,adjustInbuf_withInbuf]
    cases hj : ({ t with pdu := none } : Rpc).adjustInbuf size with
    | none => exact .fail _ b
    | some u => exact .more { u.startRecord x with state := .readUnknown } _ trivial

theorem rmDone_sim {s : Rpc} (hw : 0 < s.waitpdu.length) (b : List UInt8) (n : ℕ) :
    Ctl.Sim n s.rmDone (s.withInbuf b).rmDone := by
  unfold rmDone
  rw [show (s.withInbuf b).rmXid = s.rmXid from rfl]
  dsimp only
  generalize be32 s.rmXid-2^31 = size
  by_cases hm : be32 s.rmXid < 2^31
  · rw [if_pos hm,if_pos hm]
    exact .fail _ b
  · rw [if_neg hm,if_neg hm]
    split
    · exact .fail _ b
    · exact matchRecord_sim (s := setRm1 { s.setRm0 size with state := .readPayload } _) hw rfl b n size _

theorem rpcProcessReply_withInbuf (s : Rpc) (b : List UInt8) (p : Pdu) (buf : List UInt8) :
    (s.withInbuf b).rpcProcessReply p buf =
      (s.rpcProcessReply p buf).map fun r => (r.1.withInbuf b,r.2) := by
  unfold rpcProcessReply
  dsimp only
  generalize (if 0 < p.zdrDecodeBufsize then { p with zdrDecodeBuf := true } else p) = q
  split
  · rfl
  · rfl
  · split
    · rfl
    · split
      · split <;> rfl
      · rfl

/-- The bytes of a reply that the reader has are the same in both buffers. -/
theorem placeData_sim {s : Rpc} {b : List UInt8} (n : ℕ) (p : Pdu) (c : Cursor) (k pos : ℕ)
    (hz : p.zdrSize ≤ s.inpos) (hb : s.inbuf.take s.inpos = b.take s.inpos) :
    Ctl.Sim n (s.placeData p c k pos) ((s.withInbuf b).placeData p c k pos) := by
  have hdata : ∀ m, m ≤ s.inpos-pos → (s.inbuf.drop pos).take m = (b.drop pos).take m := by
    intro m hm
    have hd := congrArg (fun l => (l.drop pos).take m) hb
    simpa only [List.drop_take,List.take_take,Nat.min_eq_left hm] using hd
  have hshow : ∀ q : Pdu, q.zdrSize = p.zdrSize → ∀ i, q.Shows i → s.inbuf[i]? = b[i]? := by
    rintro q hq i ⟨-,hi,-⟩
    have hd := congrArg (fun l => l[i]?) hb
    simpa only [List.getElem?_take,show i < s.inpos by omega,if_true] using hd
  unfold placeData
  dsimp only
  cases (if min k p.requestedReadCount < c.remaining then
      c.rpcShrinkCursor (min k p.requestedReadCount) else some c) with
  | none => exact .fault rfl
  | some d =>
    dsimp only
    rw [show (s.withInbuf b).mem = s.mem from rfl,show (s.withInbuf b).inbuf = b from rfl,
      show (s.withInbuf b).inpos = s.inpos from rfl,← hdata _ (by omega)]
    cases d.rpcMemcpyCursor s.mem ((s.inbuf.drop pos).take
        (min (min (s.inpos-pos) (min k p.requestedReadCount)) d.remaining)) with
    | none => exact .fault rfl
    | some r =>
      obtain ⟨mem,e⟩ := r
      dsimp only
      split
      · refine finished_sim (s := { s with
          mem := mem
          pdu := some { p with cursor := some e, readCount := min k p.requestedReadCount } }) n ?_
        rintro i ⟨q,hq,-,hi⟩
        exact hshow q (by rw [← Option.some.inj hq]) i hi
      · refine .more _ b ?_
        rintro i ⟨q,hq,-,hi⟩
        exact hshow q (by rw [← Option.some.inj hq]) i hi

theorem zeroCopyPayload_sim {s : Rpc} {b : List UInt8} (n : ℕ) {p : Pdu} (c : Cursor) (pos : ℤ)
    (hp : s.pdu = some p) (hz : p.zdrSize ≤ s.inpos) (hsz : s.inpos = s.pduSize)
    (hb : s.inbuf.take s.inpos = b.take s.inpos) :
    Ctl.Sim n (s.zeroCopyPayload p c pos) ((s.withInbuf b).zeroCopyPayload p c pos) := by
  unfold zeroCopyPayload
  simp only [show (s.withInbuf b).nfsV3 = s.nfsV3 from rfl,show (s.withInbuf b).inbuf = b from rfl,
    show (s.withInbuf b).pduSize = s.pduSize from rfl]
  rw [← hsz,← hb]
  split
  · exact .fault rfl
  · split
    · refine finished_sim n ?_
      rintro i ⟨q,hq,-,-,hi,-⟩
      rw [hp,Option.some.injEq] at hq
      subst hq
      have hd := congrArg (fun l => l[i]?) hb
      simpa only [List.getElem?_take,show i < s.inpos by omega,if_true] using hd
    · rcases zdrUInt (s.inbuf.take s.inpos) ⟨pos,p.decodeMem⟩ with ⟨r,z⟩
      cases r with
      | fault => exact .fault rfl
      | fail => exact .fail s b
      | ok k => exact placeData_sim n p c _ _ hz hb

theorem payloadDone_sim {s : Rpc} {b : List UInt8} (n : ℕ) (hplain : ∀ p, s.pdu = some p →
      p.cursor = none → p.freePdu = false) (hsz : s.inpos = s.pduSize)
    (hb : s.inbuf.take s.inpos = b.take s.inpos) :
    Ctl.Sim n s.payloadDone (s.withInbuf b).payloadDone := by
  cases hp : s.pdu with
  | none =>
    simp only [payloadDone,hp,show (s.withInbuf b).pdu = s.pdu from rfl]
    exact .fault rfl
  | some p =>
    have hbuf : (s.withInbuf b).inbuf.take (s.withInbuf b).pduSize = s.inbuf.take s.pduSize := by
      rw [← hsz,hb]
      exact congrArg (fun n => b.take n) hsz.symm
    have hrep := rpcProcessReply_withInbuf (s.logRecord (s.inbuf.take s.pduSize)) b p
      (s.inbuf.take s.pduSize)
    cases hr : (s.logRecord (s.inbuf.take s.pduSize)).rpcProcessReply p (s.inbuf.take s.pduSize) with
    | none =>
      rw [hr] at hrep
      rw [payloadDone_none hp hr,payloadDone_none (s := s.withInbuf b) hp (by rw [hbuf]; exact hrep)]
      exact .fault rfl
    | some r =>
      obtain ⟨t,q,pos⟩ := r
      rw [hr] at hrep
      have hrep' : ((s.withInbuf b).logRecord ((s.withInbuf b).inbuf.take (s.withInbuf b).pduSize)).rpcProcessReply
          p ((s.withInbuf b).inbuf.take (s.withInbuf b).pduSize) = some (t.withInbuf b,q,pos) := by
        rw [hbuf]
        exact hrep
      have ht : t.inpos = s.inpos ∧ t.inbuf = s.inbuf ∧ t.pduSize = s.pduSize := by
        rcases rpcProcessReply_some hr with ⟨-,k,d,-,last,st,da,rfl⟩ | ⟨-,-,k,d,-,rfl⟩
        · exact ⟨rfl,rfl,rfl⟩
        · exact ⟨rfl,rfl,rfl⟩
      obtain ⟨hti,htb,htsz⟩ := ht
      cases hc : q.cursor with
      | none =>
        have hfree : q.freePdu = false := by
          rcases rpcProcessReply_some hr with ⟨-,k,d,rfl,-⟩ | ⟨hsome,-,k,d,rfl,-⟩
          · exact hplain p hp hc
          · rw [show p.cursor = none from hc] at hsome
            simp at hsome
        rw [payloadDone_plain hp hr hc,payloadDone_plain (s := s.withInbuf b) hp hrep' hc]
        refine finished_sim (s := t.holding q) n ?_
        rintro i ⟨q',hq',hf,-⟩
        rw [← Option.some.inj hq',hfree] at hf
        simp at hf
      | some c =>
        rw [payloadDone_zeroCopy hp hr hc,payloadDone_zeroCopy (s := s.withInbuf b) hp hrep' hc,hbuf]
        refine zeroCopyPayload_sim (s := t.holding (q.keepZdr (s.inbuf.take s.pduSize).length)) n c pos
          rfl ?_ ?_ ?_
        · have hlen := List.length_take_le s.pduSize s.inbuf
          exact hlen.trans (by rw [← hsz]; exact hti.ge)
        · exact hti.trans (hsz.trans htsz.symm)
        · rw [show (t.holding (q.keepZdr (s.inbuf.take s.pduSize).length)).inbuf = s.inbuf from htb,
            show (t.holding (q.keepZdr (s.inbuf.take s.pduSize).length)).inpos = s.inpos from hti]
          exact hb

theorem iovecDone_sim {s : Rpc} {b : List UInt8} (n : ℕ)
    (hb : ∀ i, s.Shown i → s.inbuf[i]? = b[i]?) : Ctl.Sim n s.iovecDone (s.withInbuf b).iovecDone := by
  unfold iovecDone
  rw [show (s.withInbuf b).pdu = s.pdu from rfl]
  cases hp : s.pdu with
  | none => exact .fault rfl
  | some p =>
    dsimp only
    change Ctl.Sim n _ (if (s.rm0+2^32-s.pduSize) % 2^32 = 0 then _ else _)
    have hshow : ∀ i, Pdu.Shows { p with readCount := p.readCount-s.pduSize } i → p.freePdu = true →
        s.inbuf[i]? = b[i]? := fun i hi hf => hb i ⟨p,hp,hf,hi⟩
    split
    · refine finished_sim (s := setRm0 { s with
        pdu := some { p with readCount := p.readCount-s.pduSize } } _) n ?_
      rintro i ⟨q,hq,hf,hi⟩
      obtain rfl := Option.some.inj hq
      exact hshow i hi hf
    · refine .more _ b ?_
      rintro - i - ⟨q,hq,hf,hi⟩
      obtain rfl := Option.some.inj hq
      exact hshow i hi hf

theorem readBytes_of_store {s u : Rpc} {bs : List UInt8} (h : s.readStore bs = some u) :
    s.readBytes bs = if u.inpos = u.pduSize then u.readDone else .more u := by
  simp only [readBytes,h]

theorem readBytes_sim_of_store {s u : Rpc} {b c bs : List UInt8} {n : ℕ}
    (h : s.readStore bs = some u) (h' : (s.withInbuf b).readStore bs = some (u.withInbuf c))
    (hdone : u.inpos = u.pduSize → Ctl.Sim n u.readDone (u.withInbuf c).readDone)
    (hpart : u.Agree n c) : Ctl.Sim n (s.readBytes bs) ((s.withInbuf b).readBytes bs) := by
  rw [readBytes_of_store h,readBytes_of_store h']
  change Ctl.Sim n _ (if u.inpos = u.pduSize then _ else _)
  split
  · rename_i he
    exact hdone he
  · exact .more u c hpart

/-- What is stored in each state. -/
def storedMarker (s : Rpc) (bs : List UInt8) : Rpc :=
  { s with rmXid := overwrite s.rmXid s.inpos bs, inpos := s.inpos+bs.length }

def storedPayload (s : Rpc) (bs : List UInt8) : Rpc :=
  { s with inbuf := overwrite s.inbuf s.inpos bs, inpos := s.inpos+bs.length }

def storedPadding (s : Rpc) (bs : List UInt8) : Rpc :=
  { s with inbuf := overwrite s.inbuf 0 bs, inpos := s.inpos+bs.length }

def storedIovec (s : Rpc) (p : Pdu) (c d : Cursor) (bs : List UInt8) : Rpc :=
  { s with
    mem := scatter s.mem c.iov bs
    pdu := some { p with cursor := some d }
    inpos := s.inpos+bs.length }

theorem readStore_eq_marker {s : Rpc} (hs : s.state = .readRm) (bs : List UInt8) :
    s.readStore bs = some (s.storedMarker bs) := by
  simp only [readStore,hs]
  rw [← hs]
  rfl

theorem readStore_eq_payload {s : Rpc} (hs : s.state = .readPayload ∨ s.state = .readUnknown)
    (bs : List UInt8) : s.readStore bs = some (s.storedPayload bs) := by
  rcases hs with hs | hs
  · simp only [readStore,hs]
    rw [← hs]
    rfl
  · simp only [readStore,hs]
    rw [← hs]
    rfl

theorem readStore_eq_padding {s : Rpc} (hs : s.state = .readPadding) (bs : List UInt8) :
    s.readStore bs = some (s.storedPadding bs) := by
  simp only [readStore,hs]
  rw [← hs]
  rfl

theorem readStore_eq_iovec {s : Rpc} {p : Pdu} {c : Cursor} (hs : s.state = .readIovec)
    (hp : s.pdu = some p) (hc : p.cursor = some c) (bs : List UInt8) :
    s.readStore bs = (c.rpcAdvanceCursor bs.length).map fun d => s.storedIovec p c d bs := by
  simp only [readStore,hs,hp,hc]
  rw [← hs]
  rfl

theorem agree_of_state {s : Rpc} (hs : s.state = .readRm ∨ s.state = .readUnknown) (n : ℕ)
    (b : List UInt8) : s.Agree n b := by
  rcases hs with hs | hs <;> simp only [Agree,hs]

/-- The same bytes arrive in both contexts. -/
theorem readBytes_sim {s : Rpc} {b bs : List UInt8} {n : ℕ} (hw : 0 < s.waitpdu.length)
    (hprep : Prepared P s) (hpos : 0 < bs.length) (hle : s.inpos+bs.length ≤ s.pduSize)
    (ha : s.Agree (n+bs.length) b) : Ctl.Sim n (s.readBytes bs) ((s.withInbuf b).readBytes bs) := by
  cases hprep with
  | marker hs hp hsz hi =>
    refine readBytes_sim_of_store (c := b) (readStore_eq_marker hs bs)
      (readStore_eq_marker (s := s.withInbuf b) hs bs) (fun _ => ?_)
      (agree_of_state (s := s.storedMarker bs) (.inl hs) n b)
    rw [readDone_marker (v := s.storedMarker bs) hs,
      readDone_marker (v := (s.storedMarker bs).withInbuf b) hs]
    exact rmDone_sim (s := s.storedMarker bs) hw b n
  | payload p hs hp ok hrm hsz hi hb hroom =>
    simp only [Agree,hs,Nat.max_eq_right hi.1] at ha
    have hlen : s.inpos ≤ b.length := by
      have hl := congrArg List.length ha
      simp only [List.length_take] at hl
      omega
    have htake : (overwrite s.inbuf s.inpos bs).take (s.inpos+bs.length) =
        (overwrite b s.inpos bs).take (s.inpos+bs.length) := by
      rw [take_overwrite _ _ _ hb,take_overwrite _ _ _ hlen,ha]
    refine readBytes_sim_of_store (c := overwrite b s.inpos bs) (readStore_eq_payload (.inl hs) bs)
      (readStore_eq_payload (s := s.withInbuf b) (.inl hs) bs) (fun he => ?_) ?_
    · rw [readDone_payload (v := s.storedPayload bs) hs,
        readDone_payload (v := (s.storedPayload bs).withInbuf _) hs]
      refine payloadDone_sim n ?_ he htake
      intro q hq hc
      have hpq : p = q := Option.some.inj (hp.symm.trans hq)
      exact hpq ▸ ok.plain (hpq ▸ hc)
    · have hst : (s.storedPayload bs).state = .readPayload := hs
      simp only [Agree,hst]
      rw [Nat.max_eq_right (show 4 ≤ (s.storedPayload bs).inpos from hi.1.trans (Nat.le_add_right _ _))]
      exact htake
  | unknown hs hp hsz hi hb =>
    refine readBytes_sim_of_store (c := overwrite b s.inpos bs) (readStore_eq_payload (.inr hs) bs)
      (readStore_eq_payload (s := s.withInbuf b) (.inr hs) bs) (fun _ => ?_)
      (agree_of_state (s := s.storedPayload bs) (.inr hs) n _)
    rw [readDone_unknown (v := s.storedPayload bs) hs,
      readDone_unknown (v := (s.storedPayload bs).withInbuf _) hs]
    exact .more { s.storedPayload bs with state := .readRm, inpos := 0 } _ trivial
  | iovec p c hs hp ok hc hr hi hcount hroom =>
    simp only [Agree,hs] at ha
    have h1 := readStore_eq_iovec hs hp hc bs
    have h2 := readStore_eq_iovec (s := s.withInbuf b) hs hp hc bs
    cases hd : c.rpcAdvanceCursor bs.length with
    | none =>
      rw [hd] at h1 h2
      simp only [readBytes,h1,h2,Option.map_none]
      exact .fault rfl
    | some d =>
      rw [hd] at h1 h2
      have hshow : ∀ i, (s.storedIovec p c d bs).Shown i → s.inbuf[i]? = b[i]? := by
        rintro i ⟨q,hq,hf,hi⟩
        obtain rfl := Option.some.inj hq
        exact ha i ⟨p,hp,hf,hi⟩
      refine readBytes_sim_of_store (u := s.storedIovec p c d bs) (c := b) h1 h2 (fun _ => ?_) ?_
      · rw [readDone_iovec (v := s.storedIovec p c d bs) hs,
          readDone_iovec (v := (s.storedIovec p c d bs).withInbuf b) hs]
        exact iovecDone_sim n hshow
      · have hst : (s.storedIovec p c d bs).state = .readIovec := hs
        simp only [Agree,hst]
        exact hshow
  | padding p hs hp ok hsz hi hroom =>
    simp only [Agree,hs] at ha
    have hshow : s.rm0-s.inpos ≤ n+bs.length → ∀ i, s.Shown i →
        (overwrite s.inbuf 0 bs)[i]? = (overwrite b 0 bs)[i]? := by
      intro hn i hi
      simp only [getElem?_overwrite_zero]
      split
      · rfl
      · exact ha hn i (by omega) hi
    refine readBytes_sim_of_store (c := overwrite b 0 bs) (readStore_eq_padding hs bs)
      (readStore_eq_padding (s := s.withInbuf b) hs bs) (fun he => ?_) ?_
    · rw [readDone_padding (v := s.storedPadding bs) hs,
        readDone_padding (v := (s.storedPadding bs).withInbuf _) hs]
      refine finished_sim n (hshow ?_)
      have he' : s.inpos+bs.length = s.pduSize := he
      omega
    · have hst : (s.storedPadding bs).state = .readPadding := hs
      simp only [Agree,hst]
      intro hn i _ hi
      refine hshow ?_ i hi
      have hn' : s.rm0-(s.inpos+bs.length) ≤ n := hn
      omega
  | stuck hs hi hsz => omega

theorem Agree.prep {s t : Rpc} {n : ℕ} {b : List UInt8} (ha : s.Agree n b)
    (ht : s.readPrep = some t) : t.Agree n b := by
  unfold readPrep at ht
  split at ht
  · rename_i h0
    cases hs : s.state with
    | readRm =>
      simp only [hs,Option.some.injEq] at ht
      subst ht
      trivial
    | readPayload =>
      simp only [hs,Option.some.injEq] at ht
      simp only [Agree,hs,h0] at ha
      subst ht
      exact ha
    | readFragment =>
      simp only [hs] at ht
      split at ht
      · obtain rfl := Option.some.inj ht
        trivial
      · simp at ht
    | readIovec =>
      simp only [hs] at ht
      simp only [Agree,hs] at ha
      split at ht
      · obtain rfl := Option.some.inj ht
        exact ha
      · simp at ht
    | readPadding =>
      simp only [hs,Option.some.injEq] at ht
      simp only [Agree,hs] at ha
      subst ht
      exact ha
    | readUnknown =>
      simp only [hs] at ht
      split at ht
      · obtain rfl := Option.some.inj ht
        trivial
      · simp at ht
  · exact Option.some.inj ht ▸ ha

/-- The kernel can return `n` bytes now. -/
def Accepts (s : Rpc) (n : ℕ) : Prop :=
  s.fd = true ∧ s.socketDisabled = false ∧ 0 < n ∧
    ∃ t want, s.readPrep = some t ∧ t.readWant = some want ∧ n ≤ want

instance (s : Rpc) (n : ℕ) : Decidable (s.Accepts n) :=
  decidable_of_iff (s.fd = true ∧ s.socketDisabled = false ∧ 0 < n ∧
    ∃ want ∈ s.readPrep.bind readWant, n ≤ want) (by
      simp only [Accepts,Option.mem_def,Option.bind_eq_some_iff]
      constructor
      · rintro ⟨h1,h2,h3,want,⟨t,ht,hw⟩,hle⟩
        exact ⟨h1,h2,h3,t,want,ht,hw,hle⟩
      · rintro ⟨h1,h2,h3,t,want,ht,hw,hle⟩
        exact ⟨h1,h2,h3,want,⟨t,ht,hw⟩,hle⟩)

theorem recvStep_data {s t : Rpc} {bs : List UInt8} (ha : s.Accepts bs.length)
    (ht : s.readPrep = some t) : s.recvStep (.data bs) = t.readBytes bs := by
  obtain ⟨hfd,hdis,hpos,t',want,ht',hwant,hle⟩ := ha
  obtain rfl := Option.some.inj (ht.symm.trans ht')
  have htfd : t.fd = true := show t.shared.fd = true by rw [(readPrep_shared ht).1]; exact hfd
  have h0 : want ≠ 0 := by omega
  simp only [recvStep,hdis,Bool.false_eq_true,if_false,ht,hwant,h0,htfd,if_true,hpos,hle,and_self]

theorem Accepts.withInbuf {s : Rpc} {k : ℕ} (h : s.Accepts k) (b : List UInt8) :
    (s.withInbuf b).Accepts k := by
  obtain ⟨hfd,hdis,hpos,t,want,ht,hwant,hle⟩ := h
  exact ⟨hfd,hdis,hpos,t.withInbuf b,want,by rw [readPrep_withInbuf,ht]; rfl,hwant,hle⟩

theorem Accepts.le {s t : Rpc} {k : ℕ} (h : s.Accepts k) (hp : Prepared P t)
    (ht : s.readPrep = some t) : t.inpos+k ≤ t.pduSize := by
  obtain ⟨-,-,hpos,t',want,ht',hwant,hle⟩ := h
  obtain rfl := Option.some.inj (ht.symm.trans ht')
  exact (Nat.add_le_add_left hle _).trans (readWant_pos hp hwant (by omega)).2

/-- The same chunk arrives in both contexts. -/
theorem recvStep_sim {s : Rpc} {b bs : List UInt8} {n : ℕ} (h : s.Ok P)
    (ha : s.Agree (n+bs.length) b) (hacc : s.Accepts bs.length) :
    Ctl.Sim n (s.recvStep (.data bs)) ((s.withInbuf b).recvStep (.data bs)) := by
  obtain ⟨t,ht,hp⟩ := h.prepared
  have ht' : (s.withInbuf b).readPrep = some (t.withInbuf b) := by
    rw [readPrep_withInbuf,ht]
    rfl
  rw [recvStep_data hacc ht,recvStep_data (hacc.withInbuf b) ht']
  have hw : 0 < t.waitpdu.length := by
    rw [show t.waitpdu = s.waitpdu from
      show t.shared.waitpdu = s.shared.waitpdu by rw [(readPrep_shared ht).1]]
    exact h.hashes
  exact readBytes_sim hw hp hacc.2.2.1 (hacc.le hp ht) (ha.prep ht)

theorem again_sim {s : Rpc} {b : List UInt8} {n : ℕ} (h : s.Ok P) (ha : s.Agree n b) :
    Ctl.Sim n (s.recvStep .again) ((s.withInbuf b).recvStep .again) := by
  obtain ⟨t,ht,hp⟩ := h.prepared
  obtain ⟨want,hwant⟩ := readWant_some hp
  have ht' : (s.withInbuf b).readPrep = some (t.withInbuf b) := by
    rw [readPrep_withInbuf,ht]
    rfl
  have hwant' : (t.withInbuf b).readWant = some want := hwant
  have hag := ha.prep ht
  unfold recvStep
  simp only [ht,ht',hwant,hwant',show (s.withInbuf b).socketDisabled = s.socketDisabled from rfl,
    show (t.withInbuf b).fd = t.fd from rfl]
  split
  · exact .more s b ha
  · split
    · exact .fail t b
    · cases t.fd with
      | true => exact .more t b hag
      | false => exact .fail t b

end Rpc
end Libnfs
