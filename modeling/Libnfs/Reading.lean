import Libnfs.Framing

/-! How one record is read, whatever the chunks: what the reader asks for in one of its states
arrives as if in one piece. -/
namespace Libnfs

open ByteWords Scatter Zdr RecordMark

variable {P : Pdu → Prop}

namespace Rpc

theorem overwrite_nil {α : Type} (l : List α) (o : ℕ) : overwrite l o [] = l := by
  simp [overwrite]

/-- No bytes are stored without an effect. -/
theorem readStore_nil {e : Rpc} (hp : Prepared P e) (hlt : e.inpos < e.pduSize) :
    e.readStore [] = some e := by
  cases hp with
  | marker hs => rw [readStore_eq_marker hs,storedMarker,overwrite_nil]; rfl
  | payload p hs => rw [readStore_eq_payload (.inl hs),storedPayload,overwrite_nil]; rfl
  | unknown hs => rw [readStore_eq_payload (.inr hs),storedPayload,overwrite_nil]; rfl
  | iovec p c hs hpp ok hc hr =>
    rw [readStore_eq_iovec hs hpp hc,Cursor.rpcAdvanceCursor_of_lt c (ok.cursor c hc) _
      (by simp only [List.length_nil]; omega)]
    have hq : ({ p with cursor := some c } : Pdu) = p := by rw [← hc]
    have hadv : c.advanced ([] : List UInt8).length = c := by simp [Cursor.advanced]
    rw [Option.map_some,hadv,storedIovec,hq,← hpp,scatter_nil_bytes]
    rfl
  | padding p hs => rw [readStore_eq_padding hs,storedPadding,overwrite_nil]; rfl
  | stuck hs hi hsz => omega

/-- `t` has got the bytes `a` of what `e` asks for, and not all of it. -/
structure Phase (P : Pdu → Prop) (e : Rpc) (a : List UInt8) (t : Rpc) : Prop where
  ok : t.Ok P
  prep : t.readPrep = e.readStore a
  short : e.inpos+a.length < e.pduSize

theorem Phase.start {s e : Rpc} (hok : s.Ok P) (hs : s.readPrep = some e) (hp : Prepared P e)
    (hlt : e.inpos < e.pduSize) : Phase P e [] s :=
  ⟨hok,by rw [hs,readStore_nil hp hlt],hlt⟩

/-- Nothing has arrived. -/
theorem Phase.again {e t u : Rpc} {a : List UInt8} (h : Phase P e a t)
    (hu : t.recvStep .again = .more u) : Phase P e a u := by
  have hok := recvStep_ok h.ok .again
  have hturn := recvStep_turn h.ok .again
  rw [hu] at hok
  refine ⟨hok,?_,h.short⟩
  generalize t.recvStep .again = c at hturn hu
  cases hturn with
  | none =>
    rw [← Ctl.more.inj hu]
    exact h.prep
  | idle v hv hp => rw [← Ctl.more.inj hu,hp.readPrep,← hv,h.prep]
  | lost v => simp at hu
  | abort v bs hr => simp at hr
  | part v w bs hr => simp at hr
  | full v w bs hr => simp at hr

/-- A chunk: it is not yet all, or it makes up all with what was there before. -/
theorem Phase.chunk {e t : Rpc} {a b : List UInt8} (h : Phase P e a t) (hp : Prepared P e)
    (hs : e.state ≠ .readPadding) (hrm : e.rmXid.length = 8) (hacc : t.Accepts b.length) :
    (∃ u, t.recvStep (.data b) = .more u ∧ Phase P e (a++b) u) ∨
    e.inpos+(a++b).length = e.pduSize ∧
      ((∃ v, e.readStore (a++b) = some v ∧ t.recvStep (.data b) = v.readDone) ∨
      (e.readStore (a++b) = none ∧ ∃ w, t.recvStep (.data b) = .fault w)) := by
  obtain ⟨t0,ht0,hp0⟩ := h.ok.prepared
  have hstore : e.readStore a = some t0 := h.prep.symm.trans ht0
  obtain ⟨hi,hsz⟩ := readStore_frame hstore
  have hle := hacc.le hp0 ht0
  have happ : t0.readStore b = e.readStore (a++b) := by
    rcases Nat.eq_zero_or_pos a.length with h0 | hpos
    · have ha := List.length_eq_zero_iff.mp h0
      rw [ha,readStore_nil hp (by have := h.short; omega),Option.some.injEq] at hstore
      rw [ha,← hstore,List.nil_append]
    · exact readStore_append hp hs hpos (by omega) hrm hstore
  rw [List.length_append]
  rcases Nat.lt_or_eq_of_le hle with hlt | heq
  · obtain ⟨u,hu,hstep,hok,huu,-⟩ := recvStep_part h.ok ht0 hp0 hacc hlt
    exact .inl ⟨u,hstep,hok,by rw [huu,← happ,hu],by rw [List.length_append]; omega⟩
  · refine .inr ⟨by omega,?_⟩
    rw [recvStep_data hacc ht0]
    cases hv : e.readStore (a++b) with
    | none => exact .inr ⟨rfl,_,by rw [readBytes,happ,hv]⟩
    | some v => exact .inl ⟨v,rfl,readBytes_done (happ.trans hv) heq⟩

/-- The bytes of one record arrive, in chunks: up to the point where the reader is at a marker
again, or where the function has returned. -/
inductive Reads (s : Rpc) : List UInt8 → Ctl → Prop
  | start : Reads s [] (.more s)
  | chunk {bs a : List UInt8} {t : Rpc} (h : Reads s bs (.more t)) (hm : bs = [] ∨ ¬ t.AtMarker)
      (ha : t.Accepts a.length) : Reads s (bs++a) (t.recvStep (.data a))
  | again {bs : List UInt8} {t : Rpc} (h : Reads s bs (.more t)) : Reads s bs (t.recvStep .again)

/-- The search for the PDU of a record with the xid `x`. -/
def lookup (s : Rpc) (x : ℕ) : Option Pdu × Rpc := (s.setRm1 x).rpcFindPdu x

/-- The search reads nothing but the queues and `rm_xid[1]`. -/
theorem rpcFindPdu_congr {a b : Rpc} (hs : a.shared = b.shared) (hr : a.rm1 = b.rm1) (x : ℕ) :
    ∃ o q w n, a.rpcFindPdu x = (o,a.withQueues q w n) ∧ b.rpcFindPdu x = (o,b.withQueues q w n) := by
  have ho : a.outqueue = b.outqueue := show a.shared.outqueue = b.shared.outqueue by rw [hs]
  have hw : a.waitpdu = b.waitpdu := show a.shared.waitpdu = b.shared.waitpdu by rw [hs]
  have hn : a.waitpduLen = b.waitpduLen := show a.shared.waitpduLen = b.shared.waitpduLen by rw [hs]
  unfold rpcFindPdu
  rw [ho,hw,hn,hr,rpcHashXid,rpcHashXid,hw]
  cases findXid x b.outqueue with
  | some r => exact ⟨some r.1,r.2,b.waitpdu,b.waitpduLen,rfl,rfl⟩
  | none =>
    dsimp only
    cases findXid x (b.waitpdu.getD ((b.rm1*7919) % 2^32 % b.waitpdu.length) []) with
    | some r => exact ⟨some r.1,b.outqueue,_,_,rfl,rfl⟩
    | none =>
      refine ⟨none,b.outqueue,b.waitpdu,b.waitpduLen,?_,rfl⟩
      rw [← ho,← hw,← hn]
      rfl

theorem rm1_setRm1 (s : Rpc) (n : ℕ) (h : s.rmXid.length = 8) (hn : n < 2^32) :
    (s.setRm1 n).rm1 = n := by
  have h4 : (s.rmXid.take 4).length = 4 := by
    rw [List.length_take]
    omega
  show le32 ((s.rmXid.take 4 ++ leBytes n).drop 4) = n
  rw [List.drop_append_of_le_length (by omega),List.drop_of_length_le (by omega),List.nil_append,
    ← List.append_nil (leBytes n)]
  exact le32_leBytes n hn []

/-- The PDU of a record is found and its reply is about to be read. `u` is the context without
the PDU. -/
structure Matched (s u : Rpc) (p : Pdu) (body : List UInt8) (f : Rpc) : Prop where
  state : f.state = .readPayload
  pdu : f.pdu = some p
  inpos : f.inpos = 0
  size : f.rm0 = body.length
  front : f.inbuf.take 4 = body.take 4
  shared : f.shared = u.shared
  log : f.log = s.log
  mem : f.mem = s.mem

/-- No PDU waits for the record. -/
structure Unmatched (s : Rpc) (body : List UInt8) (f : Rpc) : Prop where
  state : f.state = .readUnknown
  inpos : f.inpos = 0
  size : f.rm0 = body.length
  shared : f.shared = s.shared
  log : f.log = s.log
  mem : f.mem = s.mem

/-- There is room for `n` bytes in the receive buffer, or it can be made. -/
def Room (s : Rpc) (n : ℕ) : Prop := n ≤ s.inbufSize ∨ (s.memOk = true ∧ n ≤ maxPduSize)

instance (s : Rpc) (n : ℕ) : Decidable (s.Room n) :=
  inferInstanceAs (Decidable (n ≤ s.inbufSize ∨ (s.memOk = true ∧ n ≤ maxPduSize)))

theorem adjustInbuf_iff (s : Rpc) (n : ℕ) : (∃ t, s.adjustInbuf n = some t) ↔ s.Room n := by
  unfold adjustInbuf Room
  split
  · split
    · simp
      omega
    · split
      · simp [*]
        omega
      · simp [*]
  · simp
    omega

/-- What `p` needs of the receive buffer for a record of `n` bytes. -/
def roomFor (p : Pdu) (n : ℕ) : ℕ := if p.cursor.isSome then zcrp else n

/-- `M` is `s` with the marker and the xid of a record of `size` bytes read. -/
structure Marked (s : Rpc) (size x : ℕ) (M : Rpc) : Prop where
  shared : M.shared = s.shared
  rm1 : M.rm1 = x
  rm0 : M.rm0 = size
  state : M.state = .readPayload
  log : M.log = s.log
  mem : M.mem = s.mem
  inbufSize : M.inbufSize = s.inbufSize

theorem matchRecord_found {s M u : Rpc} {p : Pdu} {body : List UInt8}
    (hrm8 : s.rmXid.length = 8) (h4 : 4 ≤ body.length) (hM : Marked s body.length (be32 body) M)
    (hf : s.lookup (be32 body) = (some p,u)) :
    (s.Room (roomFor p body.length) →
      ∃ f, M.matchRecord body.length (be32 body) = .more f ∧ Matched s u p body f) ∧
    (¬ s.Room (roomFor p body.length) → ∃ f, M.matchRecord body.length (be32 body) = .fail f) := by
  obtain ⟨hsh,hr1,hr0,hst,hlog,hmem,hsz⟩ := hM
  obtain ⟨o,q,w,n,ha,hb⟩ := rpcFindPdu_congr (a := M) (b := s.setRm1 (be32 body)) hsh
    (hr1.trans (rm1_setRm1 s _ hrm8 (be32_lt _)).symm) (be32 body)
  have hb' : s.lookup (be32 body) = (o,(s.setRm1 (be32 body)).withQueues q w n) := hb
  rw [hf,Prod.mk.injEq] at hb'
  obtain ⟨rfl,hu⟩ := hb'
  have hroom : ((M.withQueues q w n).holding p).Room (roomFor p body.length) ↔
      s.Room (roomFor p body.length) := by
    have hmo : M.memOk = s.memOk := show M.shared.memOk = s.shared.memOk by rw [hsh]
    show (_ ≤ M.inbufSize ∨ M.memOk = true ∧ _) ↔ _
    rw [hsz,hmo]
    rfl
  have husz : (M.withQueues q w n).shared = u.shared := by
    rw [hu]
    show ({ M.shared with outqueue := q, waitpdu := w, waitpduLen := n } : Rpc) =
      { s.shared with outqueue := q, waitpdu := w, waitpduLen := n }
    rw [hsh]
  rw [← hroom,← adjustInbuf_iff]
  unfold matchRecord
  rw [ha]
  dsimp only
  rw [← roomFor]
  refine ⟨?_,fun hnone => ?_⟩
  · rintro ⟨t,ht⟩
    rw [ht]
    refine ⟨_,rfl,?_⟩
    obtain ⟨m,rfl,-⟩ := adjustInbuf_some ht
    refine ⟨hst,rfl,rfl,hr0,?_,husz,hlog,hmem⟩
    show (overwrite M.inbuf 0 (beBytes (be32 body))).take 4 = _
    have htake := take_overwrite M.inbuf 0 (beBytes (be32 body)) (Nat.zero_le _)
    simp only [beBytes_length,Nat.zero_add,List.take_zero,List.nil_append] at htake
    have hb4 : (body.take 4).length = 4 := by
      rw [List.length_take]
      omega
    rw [htake,← beBytes_be32 _ hb4,← be32_append (body.take 4) (body.drop 4) hb4,
      List.take_append_drop]
  · cases ht : ((M.withQueues q w n).holding p).adjustInbuf (roomFor p body.length) with
    | some t => exact absurd ⟨t,ht⟩ hnone
    | none => exact ⟨_,rfl⟩

theorem matchRecord_unknown {s M u : Rpc} {body : List UInt8}
    (hrm8 : s.rmXid.length = 8) (hM : Marked s body.length (be32 body) M)
    (hf : s.lookup (be32 body) = (none,u)) (hroom : s.Room body.length) :
    ∃ f, M.matchRecord body.length (be32 body) = .more f ∧ Unmatched s body f := by
  obtain ⟨hsh,hr1,hr0,-,hlog,hmem,hsz⟩ := hM
  obtain ⟨o,q,w,n,ha,hb⟩ := rpcFindPdu_congr (a := M) (b := s.setRm1 (be32 body)) hsh
    (hr1.trans (rm1_setRm1 s _ hrm8 (be32_lt _)).symm) (be32 body)
  have hb' : s.lookup (be32 body) = (o,(s.setRm1 (be32 body)).withQueues q w n) := hb
  rw [hf,Prod.mk.injEq] at hb'
  obtain ⟨rfl,-⟩ := hb'
  have hsame := rpcFindPdu_none ha
  have hroom' : ({ M with pdu := none } : Rpc).Room body.length := by
    have hmo : M.memOk = s.memOk := show M.shared.memOk = s.shared.memOk by rw [hsh]
    show _ ≤ M.inbufSize ∨ M.memOk = true ∧ _
    rw [hsz,hmo]
    exact hroom
  obtain ⟨t,ht⟩ := (adjustInbuf_iff _ _).mpr hroom'
  obtain ⟨m,rfl,-⟩ := adjustInbuf_some ht
  refine ⟨({ M with pdu := none, inbufSize := m } : Rpc).startRecord (be32 body) |> fun f =>
    { f with state := .readUnknown },?_,⟨rfl,rfl,hr0,hsh,hlog,hmem⟩⟩
  unfold matchRecord
  rw [ha,hsame]
  dsimp only
  rw [ht]

/-- A record: its marker, and a body that starts with the xid. -/
structure Record (hd body : List UInt8) : Prop where
  header : hd.length = 4
  xid : 4 ≤ body.length
  size : body.length = be32 hd % 2^31

theorem Record.valid_size {hd body : List UInt8} (h : Record hd body)
    (hv : validMarker (be32 hd) = true) : be32 hd-2^31 = body.length := by
  have hlt := be32_lt hd
  simp only [validMarker,decide_eq_true_eq] at hv
  have hmod : be32 hd % 2^31 = be32 hd-2^31 := by
    rw [Nat.mod_eq_sub_mod hv.1,Nat.mod_eq_of_lt (by omega)]
  rw [h.size,hmod]

/-- A reader at a marker, about to ask for it. -/
def atRm (s : Rpc) : Rpc := { s with pduSize := 8, pdu := none }

theorem AtMarker.readPrep {s : Rpc} (h : s.AtMarker) : s.readPrep = some s.atRm := by
  simp [Rpc.readPrep,atRm,h.1,h.2]

theorem AtMarker.prepared {s : Rpc} (h : s.AtMarker) : Prepared P s.atRm :=
  .marker h.1 rfl rfl (show s.inpos < 8 by rw [h.2]; decide)

/-- The first eight bytes of a record are there. -/
theorem AtMarker.store {s : Rpc} (h : s.AtMarker) (hok : s.Ok P) {a : List UInt8}
    (ha : a.length = 8) :
    ∃ v, s.atRm.readStore a = some v ∧ v.readDone = v.rmDone ∧ v.rmXid = a ∧ v.shared = s.shared ∧
      v.log = s.log ∧ v.mem = s.mem ∧ v.inbufSize = s.inbufSize := by
  have hst : (s.atRm.storedMarker a).state = .readRm := h.1
  refine ⟨_,readStore_eq_marker (s := s.atRm) h.1 a,readDone_marker hst,?_,rfl,rfl,rfl,rfl⟩
  show overwrite s.rmXid s.inpos a = a
  rw [h.2,overwrite,List.take_zero,List.nil_append,Nat.zero_add,
    List.drop_of_length_le (by rw [hok.rmXid]; omega),List.append_nil]

/-- The context in which the PDU of a record is looked up. -/
def marked (v : Rpc) (size x : ℕ) : Rpc :=
  ({ v.setRm0 size with state := .readPayload } : Rpc).setRm1 x

theorem rmDone_eq (v : Rpc) :
    (validMarker (be32 v.rmXid) = true → v.rmDone =
      (v.marked (be32 v.rmXid-2^31) (be32 (v.rmXid.drop 4))).matchRecord (be32 v.rmXid-2^31)
        (be32 (v.rmXid.drop 4))) ∧
    (validMarker (be32 v.rmXid) = false → ∃ t, v.rmDone = .fail t) := by
  unfold rmDone marked
  dsimp only
  simp only [validMarker,decide_eq_true_eq,decide_eq_false_iff_not]
  generalize be32 v.rmXid = m
  refine ⟨fun hv => ?_,fun hv => ?_⟩
  · rw [if_neg (by omega),if_neg (by omega)]
  · by_cases hm : m < 2^31
    · exact ⟨_,if_pos hm⟩
    · rw [if_neg hm,if_pos (by omega)]
      exact ⟨_,rfl⟩

/-- The marker is complete. -/
theorem marker_done {s v : Rpc} {hd body : List UInt8} (hm : s.AtMarker) (hok : s.Ok P)
    (hr : Record hd body) (hv : s.atRm.readStore (hd ++ body.take 4) = some v) :
    (validMarker (be32 hd) = true → ∃ M, Marked s body.length (be32 body) M ∧
      v.readDone = M.matchRecord body.length (be32 body)) ∧
    (validMarker (be32 hd) = false → ∃ f, v.readDone = .fail f) := by
  have hb4 : (body.take 4).length = 4 := by
    rw [List.length_take]
    have := hr.xid
    omega
  have hlen : (hd ++ body.take 4).length = 8 := by
    rw [List.length_append,hr.header,hb4]
  obtain ⟨v',hv',hdone,hx,hsh,hlog,hmem,hsz⟩ := hm.store hok hlen
  obtain rfl := Option.some.inj (hv.symm.trans hv')
  have hhd : be32 v.rmXid = be32 hd := by rw [hx,be32_append _ _ hr.header]
  have hxid : be32 (v.rmXid.drop 4) = be32 body := by
    rw [hx,List.drop_append_of_le_length (by rw [hr.header]),List.drop_of_length_le (by rw [hr.header]),
      List.nil_append,← be32_append (body.take 4) (body.drop 4) hb4,List.take_append_drop]
  have hrm8 : v.rmXid.length = 8 := by rw [hx,hlen]
  obtain ⟨hyes,hno⟩ := rmDone_eq v
  rw [hhd] at hyes hno
  rw [hxid] at hyes
  rw [hdone]
  refine ⟨fun hval => ?_,hno⟩
  have hsize := hr.valid_size hval
  have hlt : body.length < 2^32 := hsize ▸ lt_of_le_of_lt (Nat.sub_le _ _) (be32_lt _)
  have h8 := setRm0_rmXid_length v body.length hrm8
  rw [hsize] at hyes
  exact ⟨v.marked body.length (be32 body),⟨hsh,rm1_setRm1 _ _ h8 (be32_lt _),
    (rm0_setRm1 _ _ h8).trans (rm0_setRm0 v _ hlt),rfl,hlog,hmem,hsz⟩,hyes hval⟩

/-- What of the record is read before its header is decoded. -/
def headOf (p : Pdu) (body : List UInt8) : List UInt8 :=
  if p.cursor.isSome then body.take zcrp else body

theorem headOf_eq (p : Pdu) (body : List UInt8) : headOf p body = body.take (headOf p body).length := by
  unfold headOf
  split
  · rw [List.length_take,← List.take_take,List.take_length]
  · rw [List.take_length]

theorem headOf_length (p : Pdu) (body : List UInt8) :
    (headOf p body).length = if p.cursor.isSome then min body.length zcrp else body.length := by
  unfold headOf
  split
  · rw [List.length_take,min_comm]
  · rfl

theorem headOf_ge {p : Pdu} {body : List UInt8} (h : 8 ≤ body.length) : 8 ≤ (headOf p body).length := by
  rw [headOf_length]
  split
  · exact le_min h (by decide)
  · exact h

/-- The first bytes of the reply to `p` are all in the buffer of `v`. -/
structure Full (s u : Rpc) (p : Pdu) (body : List UInt8) (v : Rpc) : Prop where
  pdu : v.pdu = some p
  done : v.inpos = v.pduSize
  len : v.inpos = (headOf p body).length
  long : v.inpos ≤ v.inbuf.length
  buf : v.inbuf.take v.pduSize = headOf p body
  size : v.rm0 = body.length
  shared : v.shared = u.shared
  log : v.log = s.log
  mem : v.mem = s.mem

/-- The reply to a PDU, from the entry into READ_PAYLOAD to the end of its first bytes. -/
theorem Matched.enter {s u f : Rpc} {p : Pdu} {body : List UInt8} (h : Matched s u p body f)
    (hok : f.Ok P) (h8 : 8 ≤ body.length) :
    ∃ e v, f.readPrep = some e ∧ Prepared P e ∧ e.state = .readPayload ∧ e.rmXid.length = 8 ∧
      e.inpos = 4 ∧ e.pduSize = (headOf p body).length ∧ PduOk P p ∧ body.length ≤ maxFragmentSize ∧
      e.readStore ((headOf p body).drop 4) = some v ∧ v.readDone = v.payloadDone ∧
      Full s u p body v := by
  obtain ⟨e,he,hp⟩ := hok.prepared
  have hge := headOf_ge (p := p) h8
  obtain ⟨i,n,rfl⟩ := hok.readPrep_eq he
  obtain ⟨-,-,-,hin⟩ := readPrep_inpos he
  have hi4 : i = 4 := by
    rcases hin with hin | hin
    · have h0 : i = 0 := hin.trans h.inpos
      cases hp with
      | payload _ _ _ _ _ _ hi =>
        have : 4 ≤ i := hi.1
        omega
      | stuck _ hi =>
        have : 0 < i := hi
        omega
      | marker hs => exact absurd (h.state.symm.trans hs) (by simp)
      | unknown hs => exact absurd (h.state.symm.trans hs) (by simp)
      | iovec _ _ hs => exact absurd (h.state.symm.trans hs) (by simp)
      | padding _ hs => exact absurd (h.state.symm.trans hs) (by simp)
    · exact hin.2.1
  subst hi4
  have hst : ({ f with inpos := 4, pduSize := n } : Rpc).state = .readPayload := h.state
  have hsz : n = (headOf p body).length := by
    rw [headOf_length]
    have hz := he
    simp only [Rpc.readPrep,h.inpos,if_true,h.state,h.pdu] at hz
    have hn := congrArg Rpc.pduSize (Option.some.inj hz)
    rw [h.size] at hn
    exact hn.symm
  subst hsz
  have hx : PduOk P p ∧ body.length ≤ maxFragmentSize := by
    cases hp with
    | payload q _ hq ok hsize =>
      have hqp : q = p := Option.some.inj (hq.symm.trans h.pdu)
      have hle : f.rm0 ≤ maxFragmentSize := hsize.2
      rw [h.size] at hle
      exact ⟨hqp ▸ ok,hle⟩
    | stuck _ _ hsz =>
      have : 4 = (headOf p body).length := hsz
      omega
    | marker hs => exact absurd (h.state.symm.trans hs) (by simp)
    | unknown hs => exact absurd (h.state.symm.trans hs) (by simp)
    | iovec _ _ hs => exact absurd (h.state.symm.trans hs) (by simp)
    | padding _ hs => exact absurd (h.state.symm.trans hs) (by simp)
  have h4 : 4 ≤ f.inbuf.length := by
    have hlen := congrArg List.length h.front
    simp only [List.length_take] at hlen
    omega
  have hvst : (({ f with inpos := 4, pduSize := (headOf p body).length } : Rpc).storedPayload
      ((headOf p body).drop 4)).state = .readPayload := h.state
  have hdrop : ((headOf p body).drop 4).length = (headOf p body).length-4 := List.length_drop
  refine ⟨_,_,he,hp,hst,hok.rmXid,rfl,rfl,hx.1,hx.2,readStore_eq_payload (.inl hst) _,
    readDone_payload hvst,h.pdu,?_,?_,?_,?_,h.size,h.shared,h.log,h.mem⟩
  · show 4+((headOf p body).drop 4).length = (headOf p body).length
    omega
  · show 4+((headOf p body).drop 4).length = (headOf p body).length
    omega
  · show 4+((headOf p body).drop 4).length ≤ (overwrite f.inbuf 4 ((headOf p body).drop 4)).length
    rw [length_overwrite _ _ _ h4]
    omega
  · show (overwrite f.inbuf 4 ((headOf p body).drop 4)).take (headOf p body).length = headOf p body
    have htake := take_overwrite f.inbuf 4 ((headOf p body).drop 4) h4
    rw [show 4+((headOf p body).drop 4).length = (headOf p body).length by omega] at htake
    have hfront : body.take 4 = (headOf p body).take 4 := by
      rw [headOf_eq p body,List.take_take,min_eq_left (by omega)]
    rw [htake,h.front,hfront,List.take_append_drop]

/-- `q` is the PDU `p` with the reply that starts with `buf` decoded. -/
structure Holds (p : Pdu) (buf : List UInt8) (q : Pdu) : Prop where
  id : q.id = p.id
  free : q.freePdu = (p.freePdu || (p.cursor.isSome && !rejects p buf))
  size : p.cursor.isSome → q.zdrSize = buf.length
  result : rejects p buf = false → (.success,decoded q buf) = answer p buf

/-- The record is dealt with: the reader is at a marker and holds nothing. -/
structure Finished (s u : Rpc) (log : List LogEntry) (mem : ℕ → UInt8) (t : Rpc) : Prop where
  marker : t.AtMarker
  pdu : t.pdu = none
  shared : t.shared = u.shared
  log : t.log = s.log ++ log
  mem : t.mem = mem

/-- The entry of the log that `rpc_finished_pdu` makes. -/
def lateLog (q : Pdu) (inbuf : List UInt8) : List LogEntry :=
  if q.freePdu then [.callback q.id .success (decoded q (inbuf.take q.zdrSize))] else []

/-- The end of a record that was the reply to the PDU that `q` is now. -/
theorem finished_of_pdu {s u w : Rpc} {q : Pdu} {log : List LogEntry} (hw : w.pdu = some q)
    (hsh : w.shared = u.shared) (hlog : w.log = s.log ++ log) :
    Finished s u (log ++ lateLog q w.inbuf) w.mem w.rpcFinishedPdu := by
  have hfields : w.rpcFinishedPdu.mem = w.mem ∧ w.rpcFinishedPdu.log = w.log ++ lateLog q w.inbuf := by
    unfold rpcFinishedPdu lateLog
    simp only [hw]
    split
    · exact ⟨rfl,rfl⟩
    · exact ⟨rfl,(List.append_nil _).symm⟩
  exact ⟨⟨rfl,rfl⟩,rfl,(finished_shared w).trans hsh,by rw [hfields.2,hlog,List.append_assoc],hfields.1⟩

/-- What is left in the log by a reply: the record, and one call of the callback with what it
says. -/
def fullLog (p : Pdu) (buf : List UInt8) : List LogEntry :=
  [.record buf,.callback p.id (answer p buf).1 (answer p buf).2]

/-- The callback of a reply is called once, unless `free_pdu` is left over from an earlier reply
to the PDU. -/
theorem replyLog_lateLog {p q : Pdu} {buf inbuf : List UInt8} (hq : Holds p buf q)
    (hplain : p.cursor = none → p.freePdu = false) (hfree : rejects p buf = true → p.freePdu = false)
    (hin : ∀ i, q.freePdu = true → q.Shows i → inbuf[i]? = buf[i]?) :
    replyLog p buf ++ lateLog q inbuf = fullLog p buf := by
  have hf := hq.free
  unfold replyLog lateLog fullLog
  cases hc : p.cursor with
  | none =>
    rw [hc,hplain hc] at hf
    simp only [Option.isSome_none,Bool.false_and,Bool.or_false] at hf
    simp [hf]
  | some c =>
    have hsz := hq.size (by simp [hc])
    cases hr : rejects p buf with
    | true =>
      rw [hc,hr,hfree hr] at hf
      simp only [Bool.not_true,Bool.and_false,Bool.or_false] at hf
      simp [hf]
    | false =>
      rw [hc,hr] at hf
      simp only [Option.isSome_some,Bool.not_false,Bool.and_self,Bool.or_true] at hf
      have hdec : decoded q (inbuf.take q.zdrSize) = decoded q buf := by
        have h := (decoded_eq_iff q inbuf buf).mpr fun i hi => hin i hf hi
        rw [h,hsz,List.take_length]
      have hans := hq.result hr
      simp only [Option.isSome_some,and_self,if_true,hf,hdec,hq.id,← hans]
      rfl

/-- `w` has all of the reply to `p` that will be looked at, and is about to finish the record. -/
structure Ended (s u : Rpc) (p : Pdu) (buf : List UInt8) (mem : ℕ → UInt8) (w : Rpc) (q : Pdu) :
    Prop where
  pdu : w.pdu = some q
  holds : Holds p buf q
  shared : w.shared = u.shared
  log : w.log = s.log ++ replyLog p buf
  mem : w.mem = mem

theorem Ended.finished {s u w : Rpc} {p q : Pdu} {buf : List UInt8} {mem : ℕ → UInt8}
    (h : Ended s u p buf mem w q) :
    Finished s u (replyLog p buf ++ lateLog q w.inbuf) mem w.rpcFinishedPdu := by
  rw [← h.mem]
  exact finished_of_pdu h.pdu h.shared h.log

/-- The data of the reply goes on behind the first bytes: `g` reads the other `left` bytes of
it into the vectors. -/
structure Scattering (s u : Rpc) (p : Pdu) (body : List UInt8) (ref : List Vec) (count pos : ℕ)
    (g : Rpc) (q : Pdu) : Prop where
  state : g.state = .readIovec
  pdu : g.pdu = some q
  inpos : g.inpos = 0
  size : g.rm0 = body.length-(headOf p body).length
  holds : Holds p (headOf p body) q
  cursor : q.cursor = some ⟨skip (placed ref count) ((headOf p body).length-pos),
    count-((headOf p body).length-pos),ref⟩
  readCount : q.readCount = count-((headOf p body).length-pos)
  shared : g.shared = u.shared
  log : g.log = s.log ++ replyLog p (headOf p body)
  mem : g.mem = scatter s.mem ref ((headOf p body).drop pos)
  buf : g.inbuf.take (headOf p body).length = headOf p body

theorem Replied.holds {s t : Rpc} {p q : Pdu} {buf : List UInt8} (h : Replied s p buf t q)
    (n : ℕ) (hn : p.cursor.isSome → n = buf.length) : Holds p buf (q.keepZdr n) := by
  obtain ⟨set,mem,rfl⟩ := h.pdu
  exact ⟨rfl,rfl,hn,h.result⟩

/-- The first bytes of a reply that is no READ are all of it. -/
theorem Full.plain {s u v : Rpc} {p : Pdu} {body : List UInt8} (h : Full s u p body v)
    (hc : p.cursor = none) :
    (verdict u.nfsV3 p body = .crash ∧ ∃ t, v.payloadDone = .fault t) ∨
    (verdict u.nfsV3 p body = .done ∧ ∃ w q, v.payloadDone = .more w.rpcFinishedPdu ∧
      Ended s u p body s.mem w q) := by
  have hv3 : v.nfsV3 = u.nfsV3 := show v.shared.nfsV3 = u.shared.nfsV3 by rw [h.shared]
  have hbody : headOf p body = body := by simp [headOf,hc]
  have hbuf := h.buf
  rw [hbody] at hbuf
  have hdone := payloadDone_done h.pdu hc
  rw [hbuf,hv3] at hdone
  rcases hdone with ⟨hf,hcrash⟩ | ⟨t,q,hrep,he,hver⟩
  · exact .inl ⟨hcrash,hf⟩
  · obtain ⟨last,ht⟩ := hrep.context
    obtain ⟨set,mem,hq⟩ := hrep.pdu
    refine .inr ⟨hver,t.holding q,q,he,rfl,?_,?_,?_,?_⟩
    · subst hq
      exact ⟨rfl,rfl,fun hs => by simp [hc] at hs,hrep.result⟩
    · rw [ht]
      exact h.shared
    · rw [ht]
      show v.log ++ _ = _
      rw [h.log]
    · rw [ht]
      exact h.mem

theorem take_drop_of_take {b buf : List UInt8} {n pos k : ℕ} (h : b.take n = buf)
    (hk : pos+k ≤ n) : (b.drop pos).take k = (buf.drop pos).take k := by
  rw [← h,List.drop_take,List.take_take,min_eq_left (by omega)]

/-- The first bytes of a READ. -/
theorem Full.read {s u v : Rpc} {p : Pdu} {c : Cursor} {body : List UInt8} (h : Full s u p body v)
    (ok : PduOk P p) (hc : p.cursor = some c) (hmax : body.length ≤ maxFragmentSize) :
    match verdict u.nfsV3 p (headOf p body) with
    | .crash => ∃ t, v.payloadDone = .fault t
    | .lost => ∃ t, v.payloadDone = .fail t
    | .done => ∃ w q, v.payloadDone = .more w.rpcFinishedPdu ∧
        Ended s u p (headOf p body) s.mem w q ∧ w.inbuf.take (headOf p body).length = headOf p body
    | .data count pos =>
      if count ≤ (headOf p body).length-pos then
        if Overrun c.ref count then ∃ t, v.payloadDone = .fault t
        else ∃ w q, v.payloadDone = .more w.rpcFinishedPdu ∧
          Ended s u p (headOf p body) (scatter s.mem c.ref (((headOf p body).drop pos).take count)) w q ∧
          w.inbuf.take (headOf p body).length = headOf p body
      else ∃ g q, v.payloadDone = .more g ∧ Scattering s u p body c.ref count pos g q := by
  have hv3 : v.nfsV3 = u.nfsV3 := show v.shared.nfsV3 = u.shared.nfsV3 by rw [h.shared]
  have hfollow := payloadDone_follow h.pdu ok hc h.done h.long
  rw [h.buf,hv3] at hfollow
  rcases hfollow with ⟨hf,hcrash⟩ | ⟨t,q,hrep,he⟩
  · rw [hcrash]
    exact hf
  · obtain ⟨last,ht⟩ := hrep.context
    have hholds := hrep.holds v.pduSize fun _ => h.done.symm.trans h.len
    have htf : t.inpos = (headOf p body).length ∧ t.inbuf = v.inbuf ∧ t.rm0 = body.length ∧
        t.shared = u.shared ∧ t.log = s.log ++ replyLog p (headOf p body) ∧ t.mem = s.mem := by
      rw [ht]
      refine ⟨h.len,rfl,h.size,h.shared,?_,h.mem⟩
      show v.log ++ _ = _
      rw [h.log]
    obtain ⟨hti,htb,htr,hts,htl,htm⟩ := htf
    have hbuf : t.inbuf.take (headOf p body).length = headOf p body := by
      rw [htb,← h.len,h.done]
      exact h.buf
    have hPle : (headOf p body).length ≤ body.length := by
      rw [headOf_length,hc]
      exact min_le_left _ _
    cases hv : verdict u.nfsV3 p (headOf p body) with
    | crash => exact ⟨_,by rw [he,hv]; rfl⟩
    | lost => exact ⟨_,by rw [he,hv]; rfl⟩
    | done => exact ⟨t.holding (q.keepZdr v.pduSize),_,by rw [he,hv]; rfl,⟨rfl,hholds,hts,htl,htm⟩,hbuf⟩
    | data count pos =>
      obtain ⟨hpos,-⟩ := verdict_data hv
      rw [he,hv]
      simp only [follow]
      have hti' : (t.holding (q.keepZdr v.pduSize)).inpos = (headOf p body).length := hti
      rw [hti']
      by_cases hcount : count ≤ (headOf p body).length-pos
      · rw [if_pos hcount,if_pos hcount]
        by_cases hover : Overrun c.ref count
        · rw [if_pos hover,if_pos hover]
          exact ⟨_,rfl⟩
        · rw [if_neg hover,if_neg hover]
          refine ⟨_,_,rfl,⟨rfl,⟨hholds.id,hholds.free,hholds.size,hholds.result⟩,hts,htl,?_⟩,hbuf⟩
          show scatter t.mem c.ref ((t.inbuf.drop pos).take count) = _
          rw [htm,take_drop_of_take hbuf (by omega)]
      · rw [if_neg hcount,if_neg hcount]
        refine ⟨_,_,rfl,rfl,rfl,rfl,?_,⟨hholds.id,hholds.free,hholds.size,hholds.result⟩,?_,?_,hts,htl,
          ?_,hbuf⟩
        · rw [toIovec,rm0_setRm0 _ _ (Nat.mod_lt _ (by decide))]
          show (t.rm0+2^32-(pos+(t.inpos-pos))) % 2^32 = _
          have hlt : body.length < 2^32 := lt_of_le_of_lt hmax (by decide)
          have hsum : t.rm0+2^32-(pos+(t.inpos-pos)) = body.length-(headOf p body).length+2^32 := by
            omega
          rw [hsum,Nat.add_mod_right,Nat.mod_eq_of_lt (by omega)]
        · rw [hti']
        · rw [hti']
        · show scatter t.mem c.ref ((t.inbuf.drop pos).take (t.inpos-pos)) = _
          rw [hti,htm,take_drop_of_take hbuf (by omega),
            List.take_of_length_le (by rw [List.length_drop])]

/-- `n` of the `left` bytes behind the data of a READ are read. They overwrite the front of the
receive buffer. -/
structure Padding (s u : Rpc) (p : Pdu) (buf : List UInt8) (mem : ℕ → UInt8) (left n : ℕ) (t : Rpc)
    (q : Pdu) : Prop where
  state : t.state = .readPadding
  inpos : t.inpos = n
  short : n < left
  size : t.rm0 = left
  ended : Ended s u p buf mem t q
  buf : ∀ i, left ≤ i → i < buf.length → t.inbuf[i]? = buf[i]?

theorem getElem?_of_take {b buf : List UInt8} (h : b.take buf.length = buf) {i : ℕ}
    (hi : i < buf.length) : b[i]? = buf[i]? := by
  conv_rhs => rw [← h]
  rw [List.getElem?_take,if_pos hi]

/-- The rest of the data, from the entry into READ_IOVEC to its end. -/
theorem Scattering.enter {s u g : Rpc} {p q : Pdu} {body : List UInt8} {ref : List Vec} {count pos : ℕ}
    (h : Scattering s u p body ref count pos g q) (hok : g.Ok P) :
    ∃ e, g.readPrep = some e ∧ Prepared P e ∧ e.state = .readIovec ∧ e.rmXid.length = 8 ∧
      e.inpos = 0 ∧ e.pduSize = count-((headOf p body).length-pos) ∧
      e.rm0 = body.length-(headOf p body).length ∧ e.inbuf = g.inbuf ∧ e.log = g.log ∧
      e.mem = g.mem ∧ e.shared = g.shared ∧ e.pdu = some q := by
  obtain ⟨e,he,hp⟩ := hok.prepared
  have hz := he
  simp only [Rpc.readPrep,h.inpos,if_true,h.state,h.pdu,Option.some.injEq] at hz
  refine ⟨e,he,hp,(readPrep_shared he).2.trans h.state,?_,?_,?_,?_,?_,readPrep_log he,?_,
    (readPrep_shared he).1,?_⟩
  · rw [(readPrep_inpos he).2.1]
    exact hok.rmXid
  · rw [← hz]
  · rw [← hz]
    exact h.readCount
  · rw [rm0,(readPrep_inpos he).2.1]
    exact h.size
  · rw [← hz]
  · rw [← hz]
  · rw [← hz]

/-- The end of READ_IOVEC with `left` bytes of the record to come. -/
def iovecEnd (v : Rpc) (p : Pdu) (left : ℕ) : Rpc :=
  ({ v with pdu := some { p with readCount := p.readCount-v.pduSize } } : Rpc).setRm0 left

theorem iovecDone_eq {v : Rpc} {p : Pdu} {left : ℕ} (hp : v.pdu = some p)
    (hl : (v.rm0+2^32-v.pduSize) % 2^32 = left) :
    v.iovecDone = if left = 0 then .more (v.iovecEnd p left).rpcFinishedPdu
      else .more { v.iovecEnd p left with state := .readPadding, inpos := 0 } := by
  unfold iovecDone
  rw [hp]
  dsimp only
  rw [hl]
  rfl

theorem Scattering.done {s u g e : Rpc} {p q : Pdu} {c : Cursor} {body : List UInt8} {count pos : ℕ}
    (h : Scattering s u p body c.ref count pos g q) (hok : g.Ok P) (hpos : pos ≤ (headOf p body).length)
    (hlt : (headOf p body).length-pos < count) (hmax : body.length ≤ maxFragmentSize)
    (hend : count-((headOf p body).length-pos) ≤ body.length-(headOf p body).length)
    (he : g.readPrep = some e) :
    if Overrun c.ref count then
      e.readStore ((body.drop (headOf p body).length).take (count-((headOf p body).length-pos))) = none
    else ∃ v, e.readStore ((body.drop (headOf p body).length).take
        (count-((headOf p body).length-pos))) = some v ∧
      (body.length-(headOf p body).length = count-((headOf p body).length-pos) →
        ∃ w q, v.readDone = .more w.rpcFinishedPdu ∧ w.inbuf = g.inbuf ∧
          Ended s u p (headOf p body) (scatter s.mem c.ref ((body.drop pos).take count)) w q) ∧
      (body.length-(headOf p body).length ≠ count-((headOf p body).length-pos) →
        ∃ t q, v.readDone = .more t ∧
          Padding s u p (headOf p body) (scatter s.mem c.ref ((body.drop pos).take count))
            (body.length-(headOf p body).length-(count-((headOf p body).length-pos))) 0 t q) := by
  obtain ⟨e',he',hp,hst,hrm8,hi,hsz,hrm,hib,hlog,hmem,hsh,hpdu⟩ := h.enter hok
  obtain rfl := Option.some.inj (he.symm.trans he')
  generalize hk : count-((headOf p body).length-pos) = k at hlt hend hsz ⊢
  generalize ha : (body.drop (headOf p body).length).take k = a
  have halen : a.length = k := by
    rw [← ha,List.length_take,List.length_drop]
    omega
  have hcur := h.cursor
  rw [hk] at hcur
  have hsized : k = total (skip (placed c.ref count) ((headOf p body).length-pos)) := by
    cases hp with
    | iovec q' c' _ hq' ok hc' =>
      obtain rfl := Option.some.inj (hpdu.symm.trans hq')
      obtain rfl := Option.some.inj (hcur.symm.trans hc')
      exact (ok.cursor _ hc').1
    | stuck hs => simp [hst] at hs
    | _ => simp_all
  have hskip : skip (skip (placed c.ref count) ((headOf p body).length-pos)) k =
      skip (placed c.ref count) count := by
    rw [skip_skip]
    congr 1
    omega
  have hadv : (⟨skip (placed c.ref count) ((headOf p body).length-pos),k,c.ref⟩ :
      Cursor).rpcAdvanceCursor a.length = Cursor.settle ⟨skip (placed c.ref count) count,0,c.ref⟩ := by
    rw [Cursor.rpcAdvanceCursor]
    dsimp only
    rw [halen,hsized,Cursor.advanceLoop_eq _ _ (le_refl _),← hsized,Option.bind_some,Nat.sub_self,hskip]
  rw [readStore_eq_iovec hst hpdu hcur,hadv,Cursor.settle]
  by_cases hover : Overrun c.ref count
  · have hne : (skip (placed c.ref count) count).isEmpty = false := List.isEmpty_eq_false_iff.mpr hover
    rw [if_pos hover,if_neg (by simp [hne])]
    rfl
  · have hnil : skip (placed c.ref count) count = [] := not_not.mp hover
    rw [if_neg hover,hnil,if_pos ⟨rfl,Nat.zero_le _⟩]
    have hbody : body = headOf p body ++ body.drop (headOf p body).length := by
      conv_lhs => rw [← List.take_append_drop (headOf p body).length body,← headOf_eq]
    have hdata : (headOf p body).drop pos ++ a = (body.drop pos).take count := by
      conv_rhs => rw [hbody,List.drop_append_of_le_length hpos,List.take_append,List.length_drop,hk,ha]
      rw [List.take_of_length_le (by rw [List.length_drop]; omega)]
    have hscat : scatter e.mem (skip (placed c.ref count) ((headOf p body).length-pos)) a =
        scatter s.mem c.ref ((body.drop pos).take count) := by
      rw [hmem,h.mem,← hdata,← scatter_placed s.mem c.ref count _ (by rw [List.length_drop]; omega),
        ← scatter_placed s.mem c.ref count ((headOf p body).drop pos ++ a)
          (by rw [List.length_append,List.length_drop]; omega),← scatter_append,List.length_drop]
    have hleft : (e.rm0+2^32-e.pduSize) % 2^32 = body.length-(headOf p body).length-k := by
      have hlt32 : body.length < 2^32 := lt_of_le_of_lt hmax (by decide)
      have hsum : e.rm0+2^32-e.pduSize = body.length-(headOf p body).length-k+2^32 := by omega
      rw [hsum,Nat.add_mod_right,Nat.mod_eq_of_lt (by omega)]
    refine ⟨_,rfl,?_⟩
    rw [readDone_iovec (v := e.storedIovec q _ _ a) hst,
      iovecDone_eq (v := e.storedIovec q _ ⟨[],0,c.ref⟩ a) rfl hleft]
    generalize hv : e.storedIovec q ⟨skip (placed c.ref count) ((headOf p body).length-pos),k,c.ref⟩
      ⟨[],0,c.ref⟩ a = v
    have hended : Ended s u p (headOf p body) (scatter s.mem c.ref ((body.drop pos).take count))
        (v.iovecEnd { q with cursor := some ⟨[],0,c.ref⟩ }
          (body.length-(headOf p body).length-k))
        { q with cursor := some ⟨[],0,c.ref⟩, readCount := q.readCount-v.pduSize } := by
      rw [← hv]
      exact ⟨rfl,⟨h.holds.id,h.holds.free,h.holds.size,h.holds.result⟩,hsh.trans h.shared,
        hlog.trans h.log,hscat⟩
    have hinbuf : v.inbuf = g.inbuf := by
      rw [← hv]
      exact hib
    refine ⟨fun heq => ?_,fun hne => ?_⟩
    · rw [if_pos (by omega)]
      exact ⟨_,_,rfl,hinbuf,hended⟩
    · rw [if_neg (by omega)]
      refine ⟨_,_,rfl,rfl,rfl,by omega,rm0_setRm0 _ _ ?_,
        ⟨hended.pdu,hended.holds,hended.shared,hended.log,hended.mem⟩,?_⟩
      · exact lt_of_le_of_lt (Nat.sub_le _ _) (lt_of_le_of_lt (Nat.sub_le _ _)
          (lt_of_le_of_lt hmax (by decide)))
      · intro i _ hi
        show v.inbuf[i]? = _
        rw [hinbuf]
        exact getElem?_of_take h.buf hi

theorem Padding.again {s u t t' : Rpc} {p q : Pdu} {buf : List UInt8} {mem : ℕ → UInt8} {left n : ℕ}
    (h : Padding s u p buf mem left n t q) (hok : t.Ok P) (ht : t.recvStep .again = .more t') :
    Padding s u p buf mem left n t' q := by
  have hturn := recvStep_turn hok .again
  generalize t.recvStep .again = c at hturn ht
  cases hturn with
  | none => exact Ctl.more.inj ht ▸ h
  | idle v hv hp =>
    obtain rfl := Ctl.more.inj ht
    obtain ⟨hrm,hi,hb,-,-,hpdu⟩ := padding_prep hok h.state hv hp
    obtain ⟨hsh,hst⟩ := readPrep_shared hv
    obtain ⟨j,m,rfl⟩ := hok.readPrep_eq hv
    exact ⟨h.state,hi.trans h.inpos,h.short,h.size,
      ⟨h.ended.pdu,h.ended.holds,h.ended.shared,h.ended.log,h.ended.mem⟩,h.buf⟩
  | lost v => simp at ht
  | abort v bs hr => simp at hr
  | part v w bs hr => simp at hr
  | full v w bs hr => simp at hr

/-- A chunk of the bytes behind the data. -/
theorem Padding.chunk {s u t : Rpc} {p q : Pdu} {buf b : List UInt8} {mem : ℕ → UInt8} {left n : ℕ}
    (h : Padding s u p buf mem left n t q) (hok : t.Ok P) (hacc : t.Accepts b.length) :
    (∃ t', t.recvStep (.data b) = .more t' ∧ Padding s u p buf mem left (n+b.length) t' q) ∨
    n+b.length = left ∧ ∃ w, t.recvStep (.data b) = .more w.rpcFinishedPdu ∧
      Ended s u p buf mem w q ∧ ∀ i, left ≤ i → i < buf.length → w.inbuf[i]? = buf[i]? := by
  obtain ⟨v,hv,hp⟩ := hok.prepared
  have hle := hacc.le hp hv
  obtain ⟨hrm,hi,hb,hsz,-,hpdu⟩ := padding_prep hok h.state hv hp
  have hvn : v.inpos = n := hi.trans h.inpos
  have hvl : v.pduSize = left := hsz.trans (hrm.trans h.size)
  have hbuf : ∀ i, left ≤ i → i < buf.length → (v.storedPadding b).inbuf[i]? = buf[i]? := by
    intro i hl hi
    show (overwrite v.inbuf 0 b)[i]? = _
    rw [getElem?_overwrite_zero,if_neg (by omega),hb]
    exact h.buf i hl hi
  have hended : Ended s u p buf mem (v.storedPadding b) q := by
    obtain ⟨j,m,rfl⟩ := hok.readPrep_eq hv
    exact ⟨h.ended.pdu,h.ended.holds,h.ended.shared,h.ended.log,h.ended.mem⟩
  rw [recvStep_padding h.state hv hacc]
  rcases Nat.lt_or_eq_of_le hle with hlt | heq
  · refine .inl ⟨v.storedPadding b,if_neg (by omega),?_,?_,by omega,?_,hended,hbuf⟩
    · exact (readPrep_shared hv).2.trans h.state
    · show v.inpos+b.length = _
      omega
    · exact hrm.trans h.size
  · exact .inr ⟨by omega,v.storedPadding b,if_pos heq,hended,hbuf⟩

theorem Phase.state {e t : Rpc} {a : List UInt8} (h : Phase P e a t) : t.state = e.state := by
  obtain ⟨v,hv,-⟩ := h.ok.prepared
  have hst := (readPrep_shared hv).2
  have hst' := (readStore_shared (h.prep.symm.trans hv)).2
  exact hst.symm.trans hst'

end Rpc
end Libnfs
