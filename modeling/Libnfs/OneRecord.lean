import Libnfs.Reading

/-! A whole record, in whatever chunks: the stages the reader goes through, for the reply to a PDU
and for a record that nobody waits for. -/
namespace Libnfs

open ByteWords Scatter Zdr RecordMark

variable {P : Pdu → Prop}

namespace Rpc

/-- The reply starts with `buf` and has `len` bytes; the reader gets to where it takes the record
for done. -/
def Ends (len : ℕ) (p : Pdu) (buf : List UInt8) : Verdict → Prop
  | .crash => False
  | .lost => False
  | .done => True
  | .data count pos => ¬ Overrun (p.cursor.elim [] Cursor.ref) count ∧
      (count ≤ buf.length-pos ∨ count-(buf.length-pos) ≤ len-buf.length)

/-- The verdict sends the reader to READ_IOVEC. -/
def goesOn (buf : List UInt8) : Verdict → Bool
  | .data count pos => decide (buf.length-pos < count)
  | _ => false

/-- What the application finds in its memory after the reply. -/
def memAfter (mem : ℕ → UInt8) (p : Pdu) (body : List UInt8) : Verdict → ℕ → UInt8
  | .data count pos => scatter mem (p.cursor.elim [] Cursor.ref) ((body.drop pos).take count)
  | _ => mem

/-- A reply from the server, for the PDU `p`; `u` is the context without that. -/
structure Reply (P : Pdu → Prop) (s u : Rpc) (p : Pdu) (hd body : List UInt8) : Prop where
  ok : s.Ok P
  marker : s.AtMarker
  record : Record hd body
  found : s.lookup (be32 body) = (some p,u)
  valid : validMarker (be32 hd) = true
  room : s.Room (roomFor p body.length)
  ends : Ends body.length p (headOf p body) (verdict u.nfsV3 p (headOf p body))

theorem Reply.long {s u : Rpc} {p : Pdu} {hd body : List UInt8} (h : Reply P s u p hd body) :
    8 ≤ body.length := by
  have hv := h.valid
  have hs := h.record.valid_size hv
  simp only [validMarker,decide_eq_true_eq] at hv
  omega

/-- How far the reader is in the reply. -/
inductive Stage (P : Pdu → Prop) (s u : Rpc) (p : Pdu) (hd body : List UInt8) :
    List UInt8 → Rpc → Prop
  | marker (a : List UInt8) (t : Rpc) (h : Phase P s.atRm a t) : Stage P s u p hd body a t
  | payload (f e : Rpc) (a : List UInt8) (t : Rpc) (hM : Matched s u p body f) (hok : f.Ok P)
      (he : f.readPrep = some e) (h : Phase P e a t) :
      Stage P s u p hd body (hd ++ body.take 4 ++ a) t
  | iovec (c : Cursor) (count pos : ℕ) (g e : Rpc) (q : Pdu) (a : List UInt8) (t : Rpc)
      (hc : p.cursor = some c) (hv : verdict u.nfsV3 p (headOf p body) = .data count pos)
      (hlt : (headOf p body).length-pos < count) (hS : Scattering s u p body c.ref count pos g q)
      (hok : g.Ok P) (he : g.readPrep = some e) (h : Phase P e a t) :
      Stage P s u p hd body (hd ++ headOf p body ++ a) t
  | padding (count pos left n : ℕ) (bs : List UInt8) (t : Rpc) (q : Pdu)
      (hv : verdict u.nfsV3 p (headOf p body) = .data count pos)
      (hlt : (headOf p body).length-pos < count)
      (hleft : left = body.length-(headOf p body).length-(count-((headOf p body).length-pos)))
      (h : Padding s u p (headOf p body)
        (memAfter s.mem p body (verdict u.nfsV3 p (headOf p body))) left n t q)
      (hok : t.Ok P) (hlen : bs.length+left = 4+body.length+n) : Stage P s u p hd body bs t
  | finished (bs inbuf : List UInt8) (t : Rpc) (q : Pdu) (hok : t.Ok P)
      (hq : Holds p (headOf p body) q)
      (h : Finished s u (replyLog p (headOf p body) ++ lateLog q inbuf)
        (memAfter s.mem p body (verdict u.nfsV3 p (headOf p body))) t)
      (hlen : bs.length = 4+if goesOn (headOf p body) (verdict u.nfsV3 p (headOf p body)) then
        body.length else (headOf p body).length)
      (hin : p.cursor.isSome → ∀ i, (∀ count pos, verdict u.nfsV3 p (headOf p body) = .data count pos →
          (headOf p body).length-pos < count →
          body.length-(headOf p body).length-(count-((headOf p body).length-pos)) ≤ i) →
        i < (headOf p body).length → inbuf[i]? = (headOf p body)[i]?) :
      Stage P s u p hd body bs t

/-- The bytes read so far, when they are as many as the marker and the bytes `c` of the body. -/
theorem Record.prefix_eq {hd body bs c : List UInt8} (h : Record hd body) (hpre : bs <+: hd++body)
    (hc : c = body.take c.length) (hlen : bs.length = 4+c.length) : bs = hd ++ c := by
  have hd4 := h.header
  rw [List.prefix_iff_eq_take.mp hpre,hlen,List.take_append,List.take_of_length_le (by omega),hd4,
    Nat.add_sub_cancel_left,← hc]

/-- A chunk of the marker. -/
theorem stage_marker {s u t : Rpc} {p : Pdu} {hd body a b : List UInt8} (hr : Reply P s u p hd body)
    (h : Phase P s.atRm a t) (hacc : t.Accepts b.length) (hpre : a++b <+: hd++body) :
    ∃ t', t.recvStep (.data b) = .more t' ∧ Stage P s u p hd body (a++b) t' := by
  have hp : Prepared P s.atRm := hr.marker.prepared
  have hok := recvStep_ok h.ok (.data b)
  rcases h.chunk hp (by simp [atRm,hr.marker.1]) hr.ok.rmXid hacc with ⟨t',ht',hph⟩ | ⟨hlen,hor⟩
  · exact ⟨t',ht',.marker _ _ hph⟩
  · have h8 : (a++b).length = 8 := by
      have : s.inpos+(a++b).length = 8 := hlen
      rw [hr.marker.2] at this
      omega
    have hab : a++b = hd ++ body.take 4 := by
      have hx := hr.record.header
      rw [List.prefix_iff_eq_take.mp hpre,h8,List.take_append,hx,List.take_of_length_le (by omega)]
    rw [hab] at hor ⊢
    obtain ⟨v',hv',-⟩ := hr.marker.store hr.ok (a := hd ++ body.take 4) (by rw [← hab]; exact h8)
    rcases hor with ⟨v,hv,hstep⟩ | ⟨hnone,-⟩
    · obtain ⟨M,hM,hdone⟩ := (marker_done hr.marker hr.ok hr.record hv).1 hr.valid
      obtain ⟨f,hf,hmat⟩ := (matchRecord_found hr.ok.rmXid hr.record.xid hM hr.found).1 hr.room
      rw [hstep,hdone,hf] at hok ⊢
      obtain ⟨e,v',he,hpe,-,-,hi,hsz,-⟩ := hmat.enter hok hr.long
      refine ⟨f,rfl,?_⟩
      have hge := headOf_ge (p := p) hr.long
      have hst : Stage P s u p hd body (hd ++ body.take 4 ++ []) f :=
        .payload f e [] f hmat hok he (.start hok he hpe (by omega))
      rwa [List.append_nil] at hst
    · rw [hnone] at hv'
      simp at hv'

/-- A record that is dealt with once its first bytes are there. -/
theorem stage_ended {s u w t : Rpc} {p q : Pdu} {hd body : List UInt8} {mem : ℕ → UInt8}
    (hr : Reply P s u p hd body) (hgo : goesOn (headOf p body) (verdict u.nfsV3 p (headOf p body)) = false)
    (hmem : mem = memAfter s.mem p body (verdict u.nfsV3 p (headOf p body)))
    (hw : Ended s u p (headOf p body) mem w q)
    (hb : p.cursor.isSome → w.inbuf.take (headOf p body).length = headOf p body)
    (ht : t = w.rpcFinishedPdu) (hok : t.Ok P) : Stage P s u p hd body (hd ++ headOf p body) t := by
  subst ht
  refine .finished _ w.inbuf _ q hok hw.holds (hmem ▸ hw.finished) ?_ ?_
  · rw [hgo,List.length_append,hr.record.header]
    rfl
  · intro hc i _ hi
    exact getElem?_of_take (hb hc) hi

/-- The first bytes of the reply are all there. -/
theorem stage_full {s u v : Rpc} {p : Pdu} {hd body : List UInt8} (hr : Reply P s u p hd body)
    (hp : PduOk P p) (hmax : body.length ≤ maxFragmentSize) (hfull : Full s u p body v)
    (hok : ∀ t, v.payloadDone = .more t → t.Ok P) :
    ∃ t, v.payloadDone = .more t ∧ Stage P s u p hd body (hd ++ headOf p body) t := by
  have hends := hr.ends
  cases hc : p.cursor with
  | none =>
    have hbody : headOf p body = body := by simp [headOf,hc]
    rcases hfull.plain hc with ⟨hcrash,-⟩ | ⟨hdone,w,q,hw,hend⟩
    · rw [hbody,hcrash] at hends
      exact hends.elim
    · rw [← hbody] at hdone
      refine ⟨_,hw,stage_ended (q := q) hr ?_ ?_ (hbody.symm ▸ hend) (fun h => by simp [hc] at h) rfl (hok _ hw)⟩
      · rw [hdone]
        rfl
      · rw [hdone]
        rfl
  | some c =>
    have hread := hfull.read hp hc hmax
    have href : p.cursor.elim [] Cursor.ref = c.ref := by rw [hc]; rfl
    cases hv : verdict u.nfsV3 p (headOf p body) with
    | crash =>
      rw [hv] at hends
      exact hends.elim
    | lost =>
      rw [hv] at hends
      exact hends.elim
    | done =>
      rw [hv] at hread
      obtain ⟨w,q,hw,hend,hb⟩ := hread
      exact ⟨_,hw,stage_ended (q := q) hr (by rw [hv]; rfl) (by rw [hv]; rfl) hend (fun _ => hb) rfl (hok _ hw)⟩
    | data count pos =>
      rw [hv] at hread hends
      simp only [Ends,href] at hends
      simp only at hread
      by_cases hcount : count ≤ (headOf p body).length-pos
      · rw [if_pos hcount,if_neg hends.1] at hread
        obtain ⟨w,q,hw,hend,hb⟩ := hread
        refine ⟨_,hw,stage_ended (q := q) hr ?_ ?_ hend (fun _ => hb) rfl (hok _ hw)⟩
        · rw [hv]
          simp only [goesOn,decide_eq_false_iff_not]
          omega
        · have hpos := (verdict_data hv).1
          rw [hv,memAfter,href,take_drop_of_take (headOf_eq p body).symm (by omega)]
      · rw [if_neg hcount] at hread
        obtain ⟨g,q,hw,hS⟩ := hread
        obtain ⟨e,he,hpe,-,-,hi,hsz,-⟩ := hS.enter (hok _ hw)
        have hlt : (headOf p body).length-pos < count := by omega
        refine ⟨g,hw,?_⟩
        have hst : Stage P s u p hd body (hd ++ headOf p body ++ []) g :=
          .iovec c count pos g e q [] g hc hv hlt hS (hok _ hw) he (.start (hok _ hw) he hpe (by omega))
        rwa [List.append_nil] at hst

/-- A chunk of the first bytes of the reply. -/
theorem stage_payload {s u f e t : Rpc} {p : Pdu} {hd body a b : List UInt8} (hr : Reply P s u p hd body)
    (hM : Matched s u p body f) (hok : f.Ok P) (he : f.readPrep = some e) (h : Phase P e a t)
    (hacc : t.Accepts b.length) (hpre : hd ++ body.take 4 ++ a ++ b <+: hd++body) :
    ∃ t', t.recvStep (.data b) = .more t' ∧ Stage P s u p hd body (hd ++ body.take 4 ++ a ++ b) t' := by
  obtain ⟨e',v,he',hpe,hst,hrm,hi,hsz,hp,hmax,hv,hdone,hfull⟩ := hM.enter hok hr.long
  obtain rfl := Option.some.inj (he.symm.trans he')
  have hok' := recvStep_ok h.ok (.data b)
  rw [List.append_assoc (hd ++ body.take 4)] at hpre ⊢
  rcases h.chunk hpe (by simp [hst]) hrm hacc with ⟨t',ht',hph⟩ | ⟨hlen,hor⟩
  · exact ⟨t',ht',.payload f e _ _ hM hok he hph⟩
  have hge := headOf_ge (p := p) hr.long
  have hb4 : (body.take 4).length = 4 := by
    rw [List.length_take]
    have := hr.long
    omega
  have hbs : hd ++ body.take 4 ++ (a++b) = hd ++ headOf p body := by
    apply hr.record.prefix_eq hpre (headOf_eq p body)
    rw [List.length_append,List.length_append,hb4,hr.record.header]
    omega
  have hab : a++b = (headOf p body).drop 4 := by
    have hfront : body.take 4 = (headOf p body).take 4 := by
      rw [headOf_eq p body,List.take_take,min_eq_left (by omega)]
    have hsplit : hd ++ body.take 4 ++ (a++b) = hd ++ body.take 4 ++ (headOf p body).drop 4 := by
      rw [hbs,hfront,List.append_assoc,List.take_append_drop]
    exact List.append_cancel_left hsplit
  rw [hbs]
  rw [hab,hv] at hor
  rcases hor with ⟨v',hv',hstep⟩ | ⟨hnone,-⟩
  · obtain rfl := Option.some.inj hv'
    rw [hstep,hdone] at hok' ⊢
    exact stage_full hr hp hmax hfull fun t ht => by rw [ht] at hok'; exact hok'
  · simp at hnone

theorem append_prefix_eq {α : Type} {a b c : List α} (h : a++b <+: c) : b = (c.drop a.length).take b.length := by
  obtain ⟨d,rfl⟩ := h
  rw [List.append_assoc,List.drop_left,List.take_left]

theorem goesOn_data {buf : List UInt8} {count pos : ℕ} (h : buf.length-pos < count) :
    goesOn buf (.data count pos) = true := by
  simp only [goesOn,decide_eq_true_eq]
  exact h

/-- A chunk of the data that goes into the vectors. -/
theorem stage_iovec {s u g e t : Rpc} {p q : Pdu} {c : Cursor} {count pos : ℕ} {hd body a b : List UInt8}
    (hr : Reply P s u p hd body) (hc : p.cursor = some c)
    (hv : verdict u.nfsV3 p (headOf p body) = .data count pos)
    (hlt : (headOf p body).length-pos < count) (hS : Scattering s u p body c.ref count pos g q)
    (hok : g.Ok P) (he : g.readPrep = some e) (h : Phase P e a t)
    (hacc : t.Accepts b.length) (hpre : hd ++ headOf p body ++ a ++ b <+: hd++body) :
    ∃ t', t.recvStep (.data b) = .more t' ∧ Stage P s u p hd body (hd ++ headOf p body ++ a ++ b) t' := by
  obtain ⟨e',he',hpe,hst,hrm,hi,hsz,-⟩ := hS.enter hok
  obtain rfl := Option.some.inj (he.symm.trans he')
  have hok' := recvStep_ok h.ok (.data b)
  rw [List.append_assoc (hd ++ headOf p body)] at hpre ⊢
  rcases h.chunk hpe (by simp [hst]) hrm hacc with ⟨t',ht',hph⟩ | ⟨hlen,hor⟩
  · exact ⟨t',ht',.iovec c count pos g e q _ _ hc hv hlt hS hok he hph⟩
  have hmax : body.length ≤ maxFragmentSize := by
    have hval := hr.valid
    have hsize := hr.record.valid_size hval
    simp only [validMarker,decide_eq_true_eq] at hval
    omega
  have hends := hr.ends
  have href : p.cursor.elim [] Cursor.ref = c.ref := by rw [hc]; rfl
  rw [hv,Ends,href] at hends
  obtain ⟨hover,hor'⟩ := hends
  have hend : count-((headOf p body).length-pos) ≤ body.length-(headOf p body).length := by omega
  have hd4 := hr.record.header
  have hk : (a++b).length = count-((headOf p body).length-pos) := by omega
  have hab : a++b = (body.drop (headOf p body).length).take (count-((headOf p body).length-pos)) := by
    have hpre' := hpre
    rw [List.append_assoc,List.prefix_append_right_inj] at hpre'
    rw [← hk]
    exact append_prefix_eq hpre'
  have hdone := hS.done hok (verdict_data hv).1 hlt hmax hend he
  rw [if_neg hover,← hab] at hdone
  obtain ⟨v,hvs,hall,hmore⟩ := hdone
  rcases hor with ⟨v',hv',hstep⟩ | ⟨hnone,-⟩
  swap
  · rw [hvs] at hnone
    simp at hnone
  obtain rfl := Option.some.inj (hvs.symm.trans hv')
  rw [hstep] at hok' ⊢
  by_cases hleft : body.length-(headOf p body).length = count-((headOf p body).length-pos)
  · obtain ⟨w,q',hw,hib,hended⟩ := hall hleft
    rw [hw] at hok' ⊢
    refine ⟨_,rfl,.finished _ w.inbuf _ q' hok' hended.holds ?_ ?_ ?_⟩
    · rw [hv,memAfter,href]
      exact hended.finished
    · rw [hv,goesOn_data hlt,if_pos rfl,List.length_append,List.length_append]
      omega
    · intro _ i _ hi
      rw [hib]
      exact getElem?_of_take hS.buf hi
  · obtain ⟨t',q',ht',hpad⟩ := hmore hleft
    rw [ht'] at hok' ⊢
    refine ⟨t',rfl,.padding count pos _ 0 _ t' q' hv hlt rfl ?_ hok' ?_⟩
    · rw [hv,memAfter,href]
      exact hpad
    · rw [List.length_append,List.length_append]
      omega

/-- A chunk of what follows the data. -/
theorem stage_padding {s u t : Rpc} {p q : Pdu} {count pos left n : ℕ} {hd body bs b : List UInt8}
    (hv : verdict u.nfsV3 p (headOf p body) = .data count pos)
    (hlt : (headOf p body).length-pos < count)
    (hleft : left = body.length-(headOf p body).length-(count-((headOf p body).length-pos)))
    (h : Padding s u p (headOf p body)
      (memAfter s.mem p body (verdict u.nfsV3 p (headOf p body))) left n t q)
    (hok : t.Ok P) (hlen : bs.length+left = 4+body.length+n) (hacc : t.Accepts b.length) :
    ∃ t', t.recvStep (.data b) = .more t' ∧ Stage P s u p hd body (bs ++ b) t' := by
  have hok' := recvStep_ok hok (.data b)
  rcases h.chunk hok hacc with ⟨t',ht',hpad⟩ | ⟨hn,w,hw,hended,hin⟩
  · rw [ht'] at hok'
    refine ⟨t',ht',.padding count pos left _ _ t' q hv hlt hleft hpad hok' ?_⟩
    rw [List.length_append]
    omega
  · rw [hw] at hok'
    refine ⟨_,hw,.finished _ w.inbuf _ q hok' hended.holds hended.finished ?_ ?_⟩
    · rw [hv,goesOn_data hlt,if_pos rfl,List.length_append]
      omega
    · intro _ i hi hlt'
      apply hin i _ hlt'
      rw [hleft]
      exact hi count pos hv hlt

theorem wants_pos {e : Rpc} (hp : Prepared P e) (hlt : e.inpos < e.pduSize) : 0 < e.wants := by
  unfold wants
  split
  · next hs =>
    cases hp with
    | padding p _ _ _ _ _ hroom => omega
    | stuck _ _ hsz => omega
    | marker h => simp [h] at hs
    | payload p h => simp [h] at hs
    | unknown h => simp [h] at hs
    | iovec p c h => simp [h] at hs
  · omega

/-- A reader that waits for bytes goes on waiting. -/
theorem again_more {t e : Rpc} (ht : t.readPrep = some e) (hp : Prepared P e) (hlt : e.inpos < e.pduSize)
    (hfd : t.fd = true) : ∃ u, t.recvStep .again = .more u := by
  have hpos := wants_pos hp hlt
  have hefd : e.fd = true := show e.shared.fd = true by rw [(readPrep_shared ht).1]; exact hfd
  unfold recvStep
  split
  · exact ⟨t,rfl⟩
  · simp only [ht,readWant_eq hp,if_neg (Nat.ne_of_gt hpos),hefd,if_true]
    exact ⟨e,rfl⟩

theorem AtMarker.short {s : Rpc} (h : s.AtMarker) : s.atRm.inpos < s.atRm.pduSize := by
  show s.inpos < 8
  rw [h.2]
  decide

theorem Phase.waits {e t : Rpc} {a : List UInt8} (h : Phase P e a t) :
    ∃ v, t.readPrep = some v ∧ Prepared P v ∧ v.inpos < v.pduSize := by
  obtain ⟨v,hv,hp⟩ := h.ok.prepared
  obtain ⟨hi,hsz⟩ := readStore_frame (h.prep.symm.trans hv)
  refine ⟨v,hv,hp,?_⟩
  rw [hi,hsz]
  exact h.short

/-- Nothing arrives, and the stage stays what it is. -/
theorem stage_again {s u t : Rpc} {p : Pdu} {hd body bs : List UInt8} (h : Stage P s u p hd body bs t)
    (hfd : t.fd = true) : ∃ t', t.recvStep .again = .more t' ∧ Stage P s u p hd body bs t' := by
  have hphase : ∀ {e : Rpc} {a : List UInt8}, Phase P e a t →
      ∃ t', t.recvStep .again = .more t' ∧ Phase P e a t' := by
    intro e a h
    obtain ⟨v,hv,hp,hlt⟩ := h.waits
    obtain ⟨t',ht'⟩ := again_more hv hp hlt hfd
    exact ⟨t',ht',h.again ht'⟩
  cases h with
  | marker _ _ h =>
    obtain ⟨t',ht',h'⟩ := hphase h
    exact ⟨t',ht',.marker _ _ h'⟩
  | payload f e a _ hM hok he h =>
    obtain ⟨t',ht',h'⟩ := hphase h
    exact ⟨t',ht',.payload f e a _ hM hok he h'⟩
  | iovec c count pos g e q a _ hc hv hlt hS hok he h =>
    obtain ⟨t',ht',h'⟩ := hphase h
    exact ⟨t',ht',.iovec c count pos g e q a _ hc hv hlt hS hok he h'⟩
  | padding count pos left n _ _ q hv hlt hleft h hok hlen =>
    obtain ⟨v,hv',hp⟩ := hok.prepared
    obtain ⟨hrm,hi,-,hsz,-,-⟩ := padding_prep hok h.state hv' hp
    have hshort : v.inpos < v.pduSize := by
      rw [hi,h.inpos,hsz,hrm,h.size]
      exact h.short
    obtain ⟨t',ht'⟩ := again_more hv' hp hshort hfd
    have hok' := recvStep_ok hok .again
    rw [ht'] at hok'
    exact ⟨t',ht',.padding count pos left n _ _ q hv hlt hleft (h.again hok ht') hok' hlen⟩
  | finished _ inbuf _ q hok hq h hlen hin =>
    have hprep := h.marker.readPrep
    obtain ⟨t',ht'⟩ := again_more (P := P) hprep h.marker.prepared h.marker.short hfd
    have hok' := recvStep_ok hok .again
    rw [ht'] at hok'
    have h' : Finished s u (replyLog p (headOf p body) ++ lateLog q inbuf)
        (memAfter s.mem p body (verdict u.nfsV3 p (headOf p body))) t' := by
      rcases again_eq ht' with rfl | ⟨-,hp⟩
      · exact h
      · obtain rfl := Option.some.inj (hprep.symm.trans hp)
        exact ⟨h.marker,rfl,h.shared,h.log,h.mem⟩
    exact ⟨t',ht',.finished _ inbuf _ q hok' hq h' hlen hin⟩

theorem Stage.ok {s u t : Rpc} {p : Pdu} {hd body bs : List UInt8} (h : Stage P s u p hd body bs t) : t.Ok P := by
  cases h with
  | marker _ _ h => exact h.ok
  | payload _ _ _ _ _ _ _ h => exact h.ok
  | iovec _ _ _ _ _ _ _ _ _ _ _ _ _ _ h => exact h.ok
  | padding _ _ _ _ _ _ _ _ _ _ _ hok => exact hok
  | finished _ _ _ _ hok => exact hok

/-- Whatever the chunks, the reader is in one of the stages. -/
theorem reads_stage {s u : Rpc} {p : Pdu} {hd body bs : List UInt8} {c : Ctl} (hr : Reply P s u p hd body)
    (hfd : s.fd = true) (h : Reads s bs c) (hpre : bs <+: hd++body) :
    ∃ t, c = .more t ∧ t.fd = true ∧ Stage P s u p hd body bs t := by
  induction h with
  | start =>
    exact ⟨s,rfl,hfd,.marker [] s (.start hr.ok hr.marker.readPrep hr.marker.prepared hr.marker.short)⟩
  | @chunk bs a t h hm ha ih =>
    obtain ⟨t₀,ht,-,hst⟩ := ih ((List.prefix_append bs a).trans hpre)
    obtain rfl := Ctl.more.inj ht
    have hfd' : ∀ t', t.recvStep (.data a) = .more t' → t'.fd = true := by
      intro t' ht'
      have hb := recvStep_booked hst.ok (.data a)
      rw [ht'] at hb
      simp only [Ctl.rpc,booked,Prod.mk.injEq] at hb
      exact hb.2.2.2.1.trans ha.1
    have hnext : ∃ t', t.recvStep (.data a) = .more t' ∧ Stage P s u p hd body (bs++a) t' := by
      cases hst with
      | marker _ _ h => exact stage_marker hr h ha hpre
      | payload f e _ _ hM hok he h => exact stage_payload hr hM hok he h ha hpre
      | iovec c count pos g e q _ _ hc hv hlt hS hok he h => exact stage_iovec hr hc hv hlt hS hok he h ha hpre
      | padding count pos left n _ _ q hv hlt hleft h hok hlen => exact stage_padding hv hlt hleft h hok hlen ha
      | finished _ inbuf _ q hok hq h hlen hin =>
        rcases hm with rfl | hm
        · simp at hlen
          omega
        · exact absurd h.marker hm
    obtain ⟨t',ht',hst'⟩ := hnext
    exact ⟨t',ht',hfd' t' ht',hst'⟩
  | @again bs t h ih =>
    obtain ⟨t₀,ht,hfd',hst⟩ := ih hpre
    obtain rfl := Ctl.more.inj ht
    obtain ⟨t',ht',hst'⟩ := stage_again hst hfd'
    have hb := recvStep_booked hst.ok .again
    rw [ht'] at hb
    simp only [Ctl.rpc,booked,Prod.mk.injEq] at hb
    exact ⟨t',ht',hb.2.2.2.1.trans hfd',hst'⟩

end Rpc
end Libnfs
