import Libnfs.Alongside
import Libnfs.Quiet
import Libnfs.ZeroCopyRead

/-! A record that arrives in chunks while the application makes calls: it is taken in as if it had come in one piece, and what it
does to the PDUs depends on the queues at one point, where its xid is complete. -/
namespace Libnfs

open ByteWords Scatter Zdr RecordMark

variable {P : Pdu → Prop}

namespace Rpc

section Stages

variable {s u v t : Rpc} {p : Pdu} {hd body bs a b : List UInt8}

/-- A chunk is no more than what is asked for. -/
theorem Phase.le {e : Rpc} (h : Phase P e a t) (hacc : t.Accepts b.length) : e.inpos+(a++b).length ≤ e.pduSize := by
  obtain ⟨v,hv,hp⟩ := h.ok.prepared
  obtain ⟨hi,hsz⟩ := readStore_frame (h.prep.symm.trans hv)
  have hle := hacc.le hp hv
  rw [List.length_append]
  omega

/-- How a record that was the reply to `p` ends: all of it is read, the callback has been called once and the data is in place. -/
structure Answered (s : Rpc) (v3 : Bool) (p : Pdu) (hd body bs : List UInt8) (t : Rpc) : Prop where
  whole : bs = hd++body
  log : t.log = s.log ++ fullLog p (headOf p body)
  mem : t.mem = memAfter s.mem p body (verdict v3 p (headOf p body))

/-- The reply `body` is one that the reader gets to the end of, with one callback. -/
def Followed (v3 : Bool) (p : Pdu) (body : List UInt8) : Prop :=
  Completes p (headOf p body) body.length (verdict v3 p (headOf p body)) ∧
    Sound body.length p (headOf p body) (verdict v3 p (headOf p body))

theorem Followed.goesOn {v3 : Bool} (h : Followed v3 p body) :
    goesOn (headOf p body) (verdict v3 p (headOf p body)) = false → body.length ≤ (headOf p body).length := by
  obtain ⟨hc,hs⟩ := h
  cases hv : verdict v3 p (headOf p body) with
  | crash => simp [hv,Completes] at hc
  | lost => simp [hv,Completes] at hc
  | done =>
    rw [hv] at hs
    exact fun _ => hs
  | data count pos =>
    rw [hv] at hs
    intro hgo
    simp only [Rpc.goesOn,decide_eq_false_iff_not] at hgo
    have h2 := hs.2
    rwa [if_pos (by omega)] at h2

theorem headOf_le (p : Pdu) (body : List UInt8) : (headOf p body).length ≤ body.length := by
  rw [headOf_length]
  split
  · exact min_le_left _ _
  · exact le_refl _

theorem eq_of_prefix_length {α : Type*} {l m : List α} (h : l <+: m) (hn : m.length ≤ l.length) : l = m :=
  h.eq_of_length (le_antisymm h.length_le hn)

/-- The reader is at a marker again, and no padding has been written over the result. -/
theorem answered_of_finished {q : Pdu} {inbuf : List UInt8} (hr : Reply P s u p hd body) (hfol : Followed u.nfsV3 p body)
    (hplain : p.cursor = none → p.freePdu = false) (hq : Holds p (headOf p body) q)
    (h : Finished s u (replyLog p (headOf p body) ++ lateLog q inbuf)
      (memAfter s.mem p body (verdict u.nfsV3 p (headOf p body))) t)
    (hlen : bs.length = 4+if goesOn (headOf p body) (verdict u.nfsV3 p (headOf p body)) then body.length
      else (headOf p body).length) (hpre : bs <+: hd++body)
    (hin : p.cursor.isSome → q.freePdu = true → ∀ i, q.Shows i → inbuf[i]? = (headOf p body)[i]?) :
    Answered s u.nfsV3 p hd body bs t := by
  refine ⟨eq_of_prefix_length hpre ?_,?_,h.mem⟩
  · rw [List.length_append,hr.record.header,hlen]
    have hgo := hfol.goesOn
    generalize goesOn (headOf p body) (verdict u.nfsV3 p (headOf p body)) = go at hgo
    cases go with
    | true => exact le_refl _
    | false => exact Nat.add_le_add_left (hgo rfl) 4
  · rw [h.log,replyLog_lateLog hq hplain hfol.1.free]
    intro i hf hi
    cases hc : p.cursor with
    | none =>
      have hfree := hq.free
      rw [hc,hplain hc] at hfree
      simp [hfree] at hf
    | some c => exact hin (by rw [hc]; rfl) hf i hi

/-- What a stage says when the reader is at a marker: the record has ended. -/
theorem Stage.atMarker (h : Stage P s u p hd body bs t) (h8 : 8 ≤ bs.length) (hm : t.state = .readRm) :
    ∃ inbuf q, Holds p (headOf p body) q ∧
      Finished s u (replyLog p (headOf p body) ++ lateLog q inbuf)
        (memAfter s.mem p body (verdict u.nfsV3 p (headOf p body))) t ∧
      (bs.length = 4+if goesOn (headOf p body) (verdict u.nfsV3 p (headOf p body)) then body.length
        else (headOf p body).length) ∧
      (p.cursor.isSome → ∀ i, (∀ count pos, verdict u.nfsV3 p (headOf p body) = .data count pos →
          (headOf p body).length-pos < count →
          body.length-(headOf p body).length-(count-((headOf p body).length-pos)) ≤ i) →
        i < (headOf p body).length → inbuf[i]? = (headOf p body)[i]?) := by
  cases h with
  | marker _ _ h =>
    have hs := h.short
    have hs : s.inpos+bs.length < 8 := hs
    omega
  | payload f e a _ hM hok he h =>
    have hst := h.state.symm.trans hm
    rw [(readPrep_shared he).2,hM.state] at hst
    simp at hst
  | iovec c count pos g e q a _ hc hv hlt hS hok he h =>
    have hst := h.state.symm.trans hm
    rw [(readPrep_shared he).2,hS.state] at hst
    simp at hst
  | padding count pos left n _ _ q hv hlt hleft h hok hlen =>
    rw [h.state] at hm
    simp at hm
  | finished _ inbuf _ q hok hq h hlen hin => exact ⟨inbuf,q,hq,h,hlen,hin⟩

/-- The record has ended where no padding was read. -/
theorem Stage.answered (hr : Reply P s u p hd body) (hfol : Followed u.nfsV3 p body)
    (hplain : p.cursor = none → p.freePdu = false) (h : Stage P s u p hd body bs t) (h8 : 8 ≤ bs.length)
    (hm : t.state = .readRm) (hpre : bs <+: hd++body)
    (hleft : ∀ count pos, verdict u.nfsV3 p (headOf p body) = .data count pos → (headOf p body).length-pos < count →
      bs.length = 4+body.length → body.length-(headOf p body).length-(count-((headOf p body).length-pos)) = 0) :
    Answered s u.nfsV3 p hd body bs t := by
  obtain ⟨inbuf,q,hq,hfin,hlen,hin⟩ := h.atMarker h8 hm
  refine answered_of_finished hr hfol hplain hq hfin hlen hpre fun hc _ i hi => hin hc i ?_ ?_
  · intro count pos hv hlt
    rw [hv,goesOn_data hlt,if_pos rfl] at hlen
    rw [hleft count pos hv hlt hlen]
    exact Nat.zero_le i
  · rw [← hq.size hc]
    exact hi.2.1

/-- A chunk of a reply. Padding must not be written over what the callback is given. -/
theorem Stage.chunk (hr : Reply P s u p hd body) (hfol : Followed u.nfsV3 p body)
    (hplain : p.cursor = none → p.freePdu = false) (h : Stage P s u p hd body bs v) (hm : bs.length < 8 ∨ v.state ≠ .readRm)
    (hacc : v.Accepts b.length) (hpre : bs++b <+: hd++body)
    (hpad : v.state = .readPadding → ∀ i, v.Shown i → v.rm0 ≤ i) :
    ∃ t, v.recvStep (.data b) = .more t ∧ Stage P s u p hd body (bs++b) t ∧
      (8 ≤ (bs++b).length → t.state = .readRm → Answered s u.nfsV3 p hd body (bs++b) t) := by
  have hlong := hr.long
  have hd4 := hr.record.header
  cases h with
  | marker _ _ h =>
    obtain ⟨t,ht,hst⟩ := stage_marker hr h hacc hpre
    refine ⟨t,ht,hst,fun h8 hm => hst.answered hr hfol hplain h8 hm hpre ?_⟩
    intro count pos hv hlt hlen
    have hle := h.le hacc
    have hle : s.inpos+(bs++b).length ≤ 8 := hle
    omega
  | payload f e a _ hM hok he h =>
    obtain ⟨t,ht,hst⟩ := stage_payload hr hM hok he h hacc hpre
    refine ⟨t,ht,hst,fun h8 hm => hst.answered hr hfol hplain h8 hm hpre ?_⟩
    intro count pos hv hlt hlen
    obtain ⟨e',-,he',-,-,-,hi,hsz,-⟩ := hM.enter hok hr.long
    obtain rfl := Option.some.inj (he.symm.trans he')
    have hle := h.le hacc
    have hb4 : (body.take 4).length = 4 := by
      rw [List.length_take]
      omega
    simp only [List.length_append] at hlen hle
    omega
  | iovec c count pos g e q a _ hc hv hlt hS hok he h =>
    obtain ⟨t,ht,hst⟩ := stage_iovec hr hc hv hlt hS hok he h hacc hpre
    refine ⟨t,ht,hst,fun h8 hm => hst.answered hr hfol hplain h8 hm hpre ?_⟩
    intro count' pos' hv' hlt' hlen
    obtain ⟨rfl,rfl⟩ : count' = count ∧ pos' = pos := by simpa using hv'.symm.trans hv
    obtain ⟨e',he',-,-,-,hi,hsz,-⟩ := hS.enter hok
    obtain rfl := Option.some.inj (he.symm.trans he')
    have hle := h.le hacc
    simp only [List.length_append] at hlen hle
    omega
  | padding count pos left n _ _ q hv hlt hleft h hok hlen =>
    have hok' := recvStep_ok hok (.data b)
    rcases h.chunk hok hacc with ⟨t,ht,hp⟩ | ⟨hn,w,hw,hend,hin⟩
    · rw [ht] at hok'
      have hst : Stage P s u p hd body (bs++b) t :=
        .padding count pos left _ _ t q hv hlt hleft hp hok' (by rw [List.length_append]; omega)
      exact ⟨t,ht,hst,fun _ hm => by simp [hp.state] at hm⟩
    · rw [hw] at hok'
      have hall : (bs++b).length = 4+if goesOn (headOf p body) (verdict u.nfsV3 p (headOf p body)) then body.length
          else (headOf p body).length := by
        rw [hv,goesOn_data hlt,if_pos rfl,List.length_append]
        omega
      have hsize : p.cursor.isSome → q.zdrSize = (headOf p body).length := hend.holds.size
      have hshow : p.cursor.isSome → q.freePdu = true → ∀ i, q.Shows i → w.inbuf[i]? = (headOf p body)[i]? := by
        intro hc hf i hi
        have hri := hpad h.state i ⟨q,h.ended.pdu,hf,hi⟩
        rw [h.size] at hri
        exact hin i hri (hsize hc ▸ hi.2.1)
      refine ⟨_,hw,.finished _ w.inbuf _ q hok' hend.holds hend.finished hall ?_,fun _ _ => ?_⟩
      · intro _ i hi hlt'
        refine hin i ?_ hlt'
        rw [hleft]
        exact hi count pos hv hlt
      · exact answered_of_finished hr hfol hplain hend.holds hend.finished hall hpre hshow
  | finished _ inbuf _ q hok hq h hlen hin =>
    rcases hm with hm | hm
    · have hge := headOf_ge (p := p) hlong
      split at hlen <;> omega
    · exact absurd h.marker.1 hm

/-- All of the record has arrived. -/
theorem Stage.whole (hr : Reply P s u p hd body) (hfol : Followed u.nfsV3 p body) (h : Stage P s u p hd body bs t)
    (hbs : bs.length = 4+body.length) : t.AtMarker := by
  have hlong := hr.long
  have hd4 := hr.record.header
  have hle := headOf_le p body
  cases h with
  | marker _ _ h =>
    have hs := h.short
    have hs : s.inpos+bs.length < 8 := hs
    omega
  | payload f e a _ hM hok he h =>
    obtain ⟨e',-,he',-,-,-,hi,hsz,-⟩ := hM.enter hok hlong
    obtain rfl := Option.some.inj (he.symm.trans he')
    have hs := h.short
    simp only [List.length_append,List.length_take] at hbs
    omega
  | iovec c count pos g e q a _ hc hv hlt hS hok he h =>
    obtain ⟨e',he',-,-,-,hi,hsz,-⟩ := hS.enter hok
    obtain rfl := Option.some.inj (he.symm.trans he')
    have hs := h.short
    have hsound := hfol.2
    rw [hv] at hsound
    have hfits := hsound.2
    rw [if_neg (by omega)] at hfits
    simp only [List.length_append] at hbs
    omega
  | padding count pos left n _ _ q hv hlt hleft h hok hlen =>
    have hs := h.short
    omega
  | finished _ inbuf _ q hok hq h hlen hin => exact h.marker

/-- What is read of a record does not reach beyond it. -/
theorem Stage.fits (hr : Reply P s u p hd body) (hfol : Followed u.nfsV3 p body) (h : Stage P s u p hd body bs v)
    (hlt : bs.length < 4+body.length) (hacc : v.Accepts b.length) : bs.length+b.length ≤ 4+body.length := by
  have hlong := hr.long
  have hd4 := hr.record.header
  have hhead := headOf_le p body
  have hb4 : (body.take 4).length = 4 := by
    rw [List.length_take]
    omega
  cases h with
  | marker _ _ h =>
    have hle := h.le hacc
    have hle : s.inpos+(bs++b).length ≤ 8 := hle
    rw [List.length_append] at hle
    omega
  | payload f e a _ hM hok he h =>
    obtain ⟨e',-,he',-,-,-,hi,hsz,-⟩ := hM.enter hok hlong
    obtain rfl := Option.some.inj (he.symm.trans he')
    have hle := h.le hacc
    simp only [List.length_append] at hle ⊢
    omega
  | iovec c count pos g e q a _ hc hv hlt' hS hok he h =>
    obtain ⟨e',he',-,-,-,hi,hsz,-⟩ := hS.enter hok
    obtain rfl := Option.some.inj (he.symm.trans he')
    have hle := h.le hacc
    have hsound := hfol.2
    rw [hv] at hsound
    have hfits := hsound.2
    rw [if_neg (by omega)] at hfits
    simp only [List.length_append] at hle ⊢
    omega
  | padding count pos left n _ _ q hv hlt' hleft h hok hlen =>
    obtain ⟨e,he,hp⟩ := hok.prepared
    obtain ⟨hrm,hi,-,hsz,-⟩ := padding_prep hok h.state he hp
    have hle := hacc.le hp he
    rw [hi,hsz,hrm,h.inpos,h.size] at hle
    omega
  | finished _ inbuf _ q hok hq h hlen hin =>
    have hgo := hfol.goesOn
    split at hlen
    · omega
    · rename_i hno
      have := hgo (by simpa using hno)
      omega

end Stages

section Records

variable {s t u v c : Rpc} {p : Pdu} {hd body bs a b : List UInt8} {x0 x : ℕ}

/-- The context with nothing read of the next record -/
def rewound (s : Rpc) : Rpc := { s with inpos := 0 }

/-- The search for the PDU of a record, by the queues alone -/
theorem lookup_shared (h : t.shared = s.shared) (ht : t.rmXid.length = 8) (hs : s.rmXid.length = 8) (hx : x < 2^32) :
    (t.lookup x).1 = (s.lookup x).1 ∧ (t.lookup x).2.shared = (s.lookup x).2.shared := by
  obtain ⟨o,q,w,n,ha,hb⟩ := rpcFindPdu_congr (a := t.setRm1 x) (b := s.setRm1 x) h
    ((rm1_setRm1 t x ht hx).trans (rm1_setRm1 s x hs hx).symm) x
  rw [lookup,lookup,ha,hb]
  refine ⟨rfl,?_⟩
  show ({ t.shared with outqueue := q, waitpdu := w, waitpduLen := n } : Rpc) =
    { s.shared with outqueue := q, waitpdu := w, waitpduLen := n }
  rw [h]

theorem overwrite_take {α : Type} (l : List α) (n : ℕ) : overwrite l 0 (l.take n) = l := by
  rw [overwrite,List.take_zero,List.nil_append,Nat.zero_add,List.length_take]
  rcases Nat.le_total n l.length with h | h
  · rw [min_eq_left h,List.take_append_drop]
  · rw [min_eq_right h,List.take_of_length_le h,List.drop_length,List.append_nil]

/-- A reader in the middle of a marker has got its bytes since it was at the marker, whatever was called meanwhile. -/
theorem marker_phase (h : t.Ok P) (hst : t.state = .readRm) (h8 : t.inpos < 8) :
    t.rewound.Ok P ∧ t.rewound.AtMarker ∧ Phase P t.rewound.atRm (t.rmXid.take t.inpos) t := by
  have hm : t.rewound.AtMarker := ⟨hst,rfl⟩
  have hlen : (t.rmXid.take t.inpos).length = t.inpos := by
    rw [List.length_take,h.rmXid]
    omega
  refine ⟨⟨⟨h.hashes,h.queued,h.out⟩,⟨h.rmXid,h.idle,_,hm.readPrep,hm.prepared⟩⟩,hm,h,?_,?_⟩
  · have hstored : t.rewound.atRm.storedMarker (t.rmXid.take t.inpos) = t.atRm := by
      have hrm : overwrite t.rewound.atRm.rmXid t.rewound.atRm.inpos (t.rmXid.take t.inpos) = t.rmXid := overwrite_take t.rmXid _
      have hi : t.rewound.atRm.inpos+(t.rmXid.take t.inpos).length = t.inpos := by
        rw [hlen]
        exact Nat.zero_add _
      rw [storedMarker,hrm,hi]
      rfl
    rw [readStore_eq_marker (s := t.rewound.atRm) hst,hstored]
    obtain ⟨v,hv,hp⟩ := h.prepared
    rcases Nat.eq_zero_or_pos t.inpos with h0 | hpos
    · exact AtMarker.readPrep ⟨hst,h0⟩
    · have hvt : t.readPrep = some t := by rw [Rpc.readPrep,if_neg (by omega)]
      obtain rfl := Option.some.inj (hv.symm.trans hvt)
      have hsz : v.pduSize = 8 := by
        cases hp with
        | marker _ _ hsz => exact hsz
        | stuck hs => simp [hst] at hs
        | _ => simp_all
      have hat : v.atRm = v := by rw [atRm,← hsz,← h.idle hst]
      rw [hvt,hat]
  · rw [hlen]
    exact (Nat.zero_add _).trans_lt h8

theorem again_prep (hdis : s.socketDisabled = false) (h : s.recvStep .again = .more t) : s.readPrep = some t := by
  unfold recvStep at h
  rw [if_neg (by simp [hdis])] at h
  split at h
  · simp at h
  · rename_i u hu
    split at h
    · simp at h
    · split at h
      · simp at h
      · split at h
        · rename_i bs hr
          split at hr <;> simp at hr
        · exact hu.trans (congrArg some (Ctl.more.inj h))
        · simp at h
        · simp at h

/-- The turn leaves everything but the reader as it is. -/
def Idle (t w : Rpc) : Prop := w.shared = t.shared ∧ w.log = t.log ∧ w.mem = t.mem

/-- A chunk of the marker, and not all of it -/
theorem marker_short (h : Ready x0 t) (hst : t.state = .readRm) (hx : t.rmXid.take t.inpos = a) (hacc : t.Accepts b.length)
    (h8 : t.inpos+b.length < 8) : ∃ w, t.recvStep (.data b) = .more w ∧ w.state = .readRm ∧ w.inpos = t.inpos+b.length ∧
      w.rmXid.take w.inpos = a++b ∧ Idle t w := by
  obtain ⟨e,he,hp⟩ := h.ok.prepared
  obtain ⟨hi,hrm,hlog,-⟩ := readPrep_marker hst he
  obtain ⟨hsh,hest⟩ := readPrep_shared he
  have hsz : e.pduSize = 8 := by
    cases hp with
    | marker _ _ hsz => exact hsz
    | stuck hs => simp [hest,hst] at hs
    | _ => simp_all
  obtain ⟨w,hw,hstep,-⟩ := recvStep_part h.ok he hp hacc (by omega)
  rw [readStore_eq_marker (hest.trans hst),Option.some.injEq] at hw
  refine ⟨w,hstep,?_⟩
  have hmem : e.mem = t.mem := by
    obtain ⟨i,n,rfl⟩ := h.ok.readPrep_eq he
    rfl
  rw [← hw]
  refine ⟨hest.trans hst,?_,?_,hsh,hlog,hmem⟩
  · show e.inpos+b.length = _
    rw [hi]
  · show (overwrite e.rmXid e.inpos b).take (e.inpos+b.length) = _
    rw [hrm,hi,take_overwrite _ _ _ (by rw [h.ok.rmXid]; omega),hx]

/-- The reply to `p`, seen from the context `c` in which its xid is complete -/
theorem reply_of_lookup (hok : c.rewound.Ok P) (hm : c.rewound.AtMarker) (hrec : Record hd body)
    (hval : validMarker (be32 hd) = true) (hf : c.rewound.lookup (be32 body) = (some p,u))
    (hroom : c.Room (roomFor p body.length)) (hfol : Followed c.nfsV3 p body) : Reply P c.rewound u p hd body := by
  have hv3 : u.nfsV3 = c.nfsV3 := (lookup_some hok hm hf).1
  exact ⟨hok,hm,hrec,hf,hval,hroom,by rw [hv3]; exact hfol.1.ends⟩

/-- The chunk that completes the marker of a record nobody waits for -/
theorem marker_unknown (h : Ready x0 t) (hst : t.state = .readRm) (hx : t.rmXid.take t.inpos = a) (hi : t.inpos < 8)
    (hacc : t.Accepts b.length) (hrec : Record hd body) (hval : validMarker (be32 hd) = true) (hab : a++b = hd ++ body.take 4)
    (hf : (t.rewound.lookup (be32 body)).1 = none) (hroom : t.Room body.length) :
    ∃ w, t.recvStep (.data b) = .more w ∧ Unmatched t body w := by
  obtain ⟨hok,hm,hph⟩ := marker_phase h.ok hst hi
  rw [hx] at hph
  have hb4 : (body.take 4).length = 4 := by
    rw [List.length_take]
    have := hrec.xid
    omega
  have hlen : (hd ++ body.take 4).length = 8 := by
    rw [List.length_append,hrec.header,hb4]
  obtain ⟨v',hv',-⟩ := hm.store hok hlen
  rcases hph.chunk hm.prepared (by simp [atRm,hm.1]) hok.rmXid hacc with ⟨w,-,hw⟩ | ⟨-,hor⟩
  · have hs := hw.short
    rw [hab,hlen] at hs
    have hs : 0+8 < 8 := hs
    omega
  · rw [hab] at hor
    rcases hor with ⟨v,hv,hstep⟩ | ⟨hnone,-⟩
    · obtain ⟨M,hM,hdone⟩ := (marker_done hm hok hrec hv).1 hval
      obtain ⟨w,hw,hun⟩ := matchRecord_unknown hok.rmXid hM (Prod.ext hf rfl) hroom
      exact ⟨w,by rw [hstep,hdone,hw],hun.state,hun.inpos,hun.size,hun.shared,hun.log,hun.mem⟩
    · rw [hnone] at hv'
      simp at hv'

/-- A chunk of a record nobody waits for -/
theorem unknown_chunk (h : Ready x0 t) (hst : t.state = .readUnknown) (hacc : t.Accepts b.length) :
    ∃ w, t.recvStep (.data b) = .more w ∧ Idle t w ∧ max 4 t.inpos+b.length ≤ t.rm0 ∧
      (if max 4 t.inpos+b.length = t.rm0 then w.AtMarker
        else w.state = .readUnknown ∧ w.rm0 = t.rm0 ∧ w.inpos = max 4 t.inpos+b.length) := by
  obtain ⟨e,he,hp⟩ := h.ok.prepared
  obtain ⟨hsh,hest⟩ := readPrep_shared he
  have hest := hest.trans hst
  have hlog := readPrep_log he
  obtain ⟨hle4,hsz⟩ : 4 ≤ e.inpos ∧ e.pduSize = e.rm0 := by
    cases hp with
    | unknown _ _ hsz hi => exact ⟨hi.1,hsz⟩
    | stuck hs => simp [hest] at hs
    | _ => simp_all
  obtain ⟨-,hrm,-,hor⟩ := readPrep_inpos he
  have hrm0 : e.rm0 = t.rm0 := by rw [rm0,rm0,hrm]
  have hi : e.inpos = max 4 t.inpos := by omega
  have hle := hacc.le hp he
  have hmem : e.mem = t.mem := by
    obtain ⟨i,n,rfl⟩ := h.ok.readPrep_eq he
    rfl
  have hstep := recvStep_data hacc he
  rw [readBytes_of_store (readStore_eq_payload (.inr hest) b)] at hstep
  rw [hstep]
  by_cases heq : e.inpos+b.length = e.pduSize
  · rw [if_pos (show (e.storedPayload b).inpos = (e.storedPayload b).pduSize from heq),
      readDone_unknown (v := e.storedPayload b) hest]
    refine ⟨_,rfl,⟨hsh,hlog,hmem⟩,by omega,?_⟩
    rw [if_pos (by omega)]
    exact ⟨rfl,rfl⟩
  · rw [if_neg (show ¬ (e.storedPayload b).inpos = (e.storedPayload b).pduSize from heq)]
    refine ⟨_,rfl,⟨hsh,hlog,hmem⟩,by omega,?_⟩
    rw [if_neg (by omega)]
    exact ⟨hest,hrm0,by rw [← hi]; rfl⟩

/-- How far a record is: the bytes of it that are there, the context in which its xid was complete, and the turns of the read
loop that took bytes of it. -/
structure Progress where
  bytes : List UInt8
  ctx : Option Rpc
  turns : List (Rpc × Rpc)
  calls : List Event

namespace Progress

def start : Progress := ⟨[],none,[],[]⟩

/-- A chunk, from the context `t` to `w` -/
def chunk (g : Progress) (t : Rpc) (b : List UInt8) (w : Rpc) : Progress :=
  { g with
    bytes := g.bytes++b
    ctx := if g.bytes.length < 8 ∧ 8 ≤ g.bytes.length+b.length then some t else g.ctx
    turns := g.turns ++ [(t,w)] }

def call (g : Progress) (e : Event) : Progress := { g with calls := g.calls ++ [e] }

/-- The contexts before the turns -/
def before (g : Progress) : List Rpc := g.turns.map Prod.fst

end Progress

/-- What is asked of a record, in the context `c` in which its xid is complete: it is one the reader can follow, there is room for
it, the program is the same over its turns, and padding is not written over what a callback is still to be given. -/
structure Routable (c : Rpc) (hd body : List UInt8) (before : List Rpc) : Prop where
  valid : validMarker (be32 hd) = true
  room : c.Room ((c.lookup (be32 body)).1.elim body.length fun p => roomFor p body.length)
  followed : ∀ p, (c.lookup (be32 body)).1 = some p → Followed c.nfsV3 p body
  program : ∀ t ∈ before, t.nfsV3 = c.nfsV3
  padding : ∀ t ∈ before, t.state = .readPadding → ∀ i, t.Shown i → t.rm0 ≤ i

/-- Where the reader is in a record that began to arrive in the context `s`: in its marker, in the reply to a PDU, which it reads
like the context `v` that has seen no calls since the xid was complete, in a record nobody waits for, or behind that. -/
inductive Halfway (s : Rpc) (hd body : List UInt8) (g : Progress) (t : Rpc) : Prop
  | marker (hc : g.ctx = none) (hst : t.state = .readRm) (hi : t.inpos = g.bytes.length) (h8 : g.bytes.length < 8)
      (hx : t.rmXid.take t.inpos = g.bytes) (hlog : replies t.log = replies s.log) (hmem : t.mem = s.mem)
  | reply (c u v : Rpc) (p : Pdu) (l : List LogEntry) (hc : g.ctx = some c)
      (hr : Reply (fun _ => True) c.rewound u p hd body) (hfd : u.fd = true) (hdis : u.socketDisabled = false)
      (hst : Stage (fun _ => True) c.rewound u p hd body g.bytes v) (h8 : 8 ≤ g.bytes.length)
      (hend : v.state = .readRm → Answered c.rewound u.nfsV3 p hd body g.bytes v)
      (hon : v.readerPart = t.readerPart) (hm : v.mem = t.mem) (hvl : v.log = c.log ++ l)
      (hlog : replies t.log = replies s.log ++ replies l) (hmem : c.mem = s.mem)
  | unknown (c : Rpc) (hc : g.ctx = some c) (hf : (c.lookup (be32 body)).1 = none) (hst : t.state = .readUnknown)
      (hr : t.rm0 = body.length) (hi : g.bytes.length = 4+max 4 t.inpos) (hlt : max 4 t.inpos < body.length)
      (hlog : replies t.log = replies s.log) (hmem : t.mem = s.mem)
  | skipped (c : Rpc) (hc : g.ctx = some c) (hf : (c.lookup (be32 body)).1 = none) (hm : t.AtMarker) (hb : g.bytes = hd++body)
      (hlog : replies t.log = replies s.log) (hmem : t.mem = s.mem)

/-- What a turn that takes bytes of a record does to the rest of the context: the one that completes the xid takes the PDU of the
record, if there is one, and if not no turn does anything. -/
structure Effect (body : List UInt8) (g : Progress) (t : Rpc) (b : List UInt8) (w : Rpc) : Prop where
  shared : (g.chunk t b w).ctx = g.ctx ∧ w.shared = t.shared ∨
    g.ctx = none ∧ (g.chunk t b w).ctx = some t ∧ w.shared = (t.lookup (be32 body)).2.shared
  idle : (∀ c, (g.chunk t b w).ctx = some c → (c.lookup (be32 body)).1 = none) → Idle t w

theorem Stage.shared (h : Stage P s u p hd body bs t) (h8 : 8 ≤ bs.length) : t.shared = u.shared := by
  have hphase : ∀ {e : Rpc} {a : List UInt8}, Phase P e a t → t.shared = e.shared := by
    intro e a h
    obtain ⟨v,hv,-⟩ := h.ok.prepared
    exact (readPrep_shared hv).1.symm.trans (readStore_shared (h.prep.symm.trans hv)).1
  cases h with
  | marker _ _ h =>
    have hs := h.short
    have hs : s.inpos+bs.length < 8 := hs
    omega
  | payload f e a _ hM hok he h => exact (hphase h).trans ((readPrep_shared he).1.trans hM.shared)
  | iovec c count pos g e q a _ hc hv hlt hS hok he h => exact (hphase h).trans ((readPrep_shared he).1.trans hS.shared)
  | padding count pos left n _ _ q hv hlt hleft h hok hlen => exact h.ended.shared
  | finished _ inbuf _ q hok hq h hlen hin => exact h.shared

/-- The reader of `s` is already in `t`. -/
theorem onto_eq (hr : s.readerPart = t.readerPart) (hm : s.mem = t.mem) : s.onto t = t := by
  simp only [readerPart,Prod.mk.injEq] at hr
  obtain ⟨h1,h2,h3,h4,h5,h6,h7⟩ := hr
  rw [onto,h1,h2,h3,h4,h5,h6,h7,hm]

theorem reply_plain (hr : Reply P s u p hd body) : p.cursor = none → p.freePdu = false := by
  obtain ⟨-,q,w,n,-,-,-,hperm⟩ := @rpcFindPdu_some (s.setRm1 (be32 body)) u (be32 body) p hr.ok.hashes hr.found
  exact (hr.ok.queued p (hperm.symm.subset List.mem_cons_self)).plain

theorem lookup_frame (hw : 0 < s.waitpdu.length) (h : s.lookup x = (some p,u)) :
    u.fd = s.fd ∧ u.socketDisabled = s.socketDisabled ∧ u.nfsV3 = s.nfsV3 := by
  obtain ⟨-,q,w,n,rfl,-⟩ := @rpcFindPdu_some (s.setRm1 x) u x p hw h
  exact ⟨rfl,rfl,rfl⟩

theorem lookup_none (h : (s.lookup x).1 = none) : (s.lookup x).2.shared = s.shared := by
  have hf : (s.setRm1 x).rpcFindPdu x = (none,(s.lookup x).2) := Prod.ext h rfl
  rw [rpcFindPdu_none hf]
  rfl

theorem lookup_rewound (h : c.rmXid.length = 8) (hx : x < 2^32) :
    (c.rewound.lookup x).1 = (c.lookup x).1 ∧ (c.rewound.lookup x).2.shared = (c.lookup x).2.shared :=
  @lookup_shared c c.rewound x rfl h h hx

theorem reply_found (hr : Reply P c.rewound u p hd body) : (c.lookup (be32 body)).1 = some p ∧ u.nfsV3 = c.nfsV3 := by
  obtain ⟨-,-,hu3⟩ := lookup_frame hr.ok.hashes hr.found
  refine ⟨?_,hu3⟩
  rw [← (lookup_rewound (c := c) hr.ok.rmXid (be32_lt body)).1]
  exact congrArg Prod.fst hr.found

/-- In the middle of a reply the socket is as it was when the xid was complete. -/
theorem Stage.socket (h : Stage P s u p hd body bs v) (h8 : 8 ≤ bs.length) (hfd : u.fd = true) (hdis : u.socketDisabled = false) :
    v.fd = true ∧ v.socketDisabled = false := by
  have hsh := h.shared h8
  exact ⟨show v.shared.fd = true by rw [hsh]; exact hfd,show v.shared.socketDisabled = false by rw [hsh]; exact hdis⟩

/-- The turn in which the xid is complete, for a PDU that waits -/
theorem matched_turn {g : Progress} (h : Ready x0 t) (hc : g.ctx = none) (hrec : Record hd body) (hst : t.state = .readRm)
    (hi : t.inpos = g.bytes.length) (h8 : g.bytes.length < 8) (hx : t.rmXid.take t.inpos = g.bytes)
    (hlog : replies t.log = replies s.log) (hmem : t.mem = s.mem) (hacc : t.Accepts b.length)
    (hpre : g.bytes++b <+: hd++body) (hlen : 8 ≤ g.bytes.length+b.length)
    (hr : Routable t hd body (g.before ++ [t])) (hf : (t.lookup (be32 body)).1 = some p) :
    ∃ w, t.recvStep (.data b) = .more w ∧ Halfway s hd body (g.chunk t b w) w ∧ Effect body g t b w := by
  obtain ⟨hok,hm,hph⟩ := marker_phase h.ok hst (by omega)
  rw [hx] at hph
  obtain ⟨hrw,hrsh⟩ := lookup_rewound h.ok.rmXid (be32_lt body)
  generalize hu : (t.rewound.lookup (be32 body)).2 = u at hrsh
  have hfind : t.rewound.lookup (be32 body) = (some p,u) := Prod.ext (hrw.trans hf) hu
  have hroom := hr.room
  rw [hf] at hroom
  have hrep := reply_of_lookup hok hm hrec hr.valid hfind hroom (hr.followed p hf)
  obtain ⟨hfd,hdis,hv3⟩ := lookup_frame hok.hashes hfind
  have hfol := hr.followed p hf
  have hv3' : u.nfsV3 = t.nfsV3 := hv3
  rw [← hv3'] at hfol
  obtain ⟨w,hw,hstage,hend⟩ := Stage.chunk hrep hfol (reply_plain hrep) (.marker _ _ hph) (.inl h8) hacc hpre
    (fun hs => by simp [hst] at hs)
  have hsh := hstage.shared (by rw [List.length_append]; exact hlen)
  have hctx : (g.chunk t b w).ctx = some t := if_pos ⟨h8,hlen⟩
  obtain ⟨l,hl⟩ := recvStep_log h.ok (.data b)
  rw [hw] at hl
  refine ⟨w,hw,.reply t u w p l hctx hrep (hfd.trans h.fd) (hdis.trans hacc.2.1) hstage ?_ ?_ rfl rfl hl.symm ?_ hmem,?_,?_⟩
  · exact hlen.trans_eq List.length_append.symm
  · exact hend (hlen.trans_eq List.length_append.symm)
  · rw [← hlog,← replies_append,hl]
    rfl
  · exact .inr ⟨hc,hctx,hsh.trans hrsh⟩
  · intro hnone
    rw [hnone t hctx] at hf
    simp at hf

/-- The same, where no PDU waits -/
theorem unmatched_turn {g : Progress} (h : Ready x0 t) (hc : g.ctx = none) (hrec : Record hd body) (hst : t.state = .readRm)
    (hi : t.inpos = g.bytes.length) (h8 : g.bytes.length < 8) (hx : t.rmXid.take t.inpos = g.bytes)
    (hlog : replies t.log = replies s.log) (hmem : t.mem = s.mem) (hacc : t.Accepts b.length) (hpre : g.bytes++b <+: hd++body)
    (hlen : g.bytes.length+b.length = 8) (hr : Routable t hd body (g.before ++ [t])) (hf : (t.lookup (be32 body)).1 = none) :
    ∃ w, t.recvStep (.data b) = .more w ∧ Halfway s hd body (g.chunk t b w) w ∧ Effect body g t b w := by
  have hroom := hr.room
  rw [hf] at hroom
  have hlong : 8 ≤ body.length := by
    have hv := hr.valid
    have hs := hrec.valid_size hv
    simp only [validMarker,decide_eq_true_eq] at hv
    omega
  have hb4 : (body.take 4).length = 4 := by
    rw [List.length_take]
    omega
  have hab : g.bytes++b = hd ++ body.take 4 := by
    refine hrec.prefix_eq hpre ?_ ?_
    · rw [hb4]
    · rw [hb4,List.length_append,hlen]
  obtain ⟨w,hw,hun⟩ := marker_unknown h hst hx (by omega) hacc hrec hr.valid hab
    ((lookup_rewound h.ok.rmXid (be32_lt body)).1.trans hf) hroom
  have hctx : (g.chunk t b w).ctx = some t := if_pos ⟨h8,hlen.ge⟩
  refine ⟨w,hw,.unknown t hctx hf hun.state hun.size ?_ ?_ ?_ ?_,.inr ⟨hc,hctx,?_⟩,fun _ => ⟨hun.shared,hun.log,hun.mem⟩⟩
  · show (g.bytes++b).length = _
    rw [hun.inpos,List.length_append,hlen]
    rfl
  · rw [hun.inpos]
    show 4 < _
    omega
  · rw [hun.log,hlog]
  · rw [hun.mem,hmem]
  · rw [hun.shared,lookup_none hf]

/-- A chunk of a reply, in a context that has seen other calls -/
theorem reply_turn {g : Progress} {l : List LogEntry} (hc : g.ctx = some c)
    (hr : Reply (fun _ => True) c.rewound u p hd body) (hfd : u.fd = true) (hdis : u.socketDisabled = false)
    (hst : Stage (fun _ => True) c.rewound u p hd body g.bytes v) (h8 : 8 ≤ g.bytes.length)
    (hend : v.state = .readRm → Answered c.rewound u.nfsV3 p hd body g.bytes v)
    (hon : v.readerPart = t.readerPart) (hm : v.mem = t.mem) (hvl : v.log = c.log ++ l)
    (hlog : replies t.log = replies s.log ++ replies l) (hmem : c.mem = s.mem) (hacc : t.Accepts b.length)
    (hpre : g.bytes++b <+: hd++body) (hrt : Routable c hd body (g.before ++ [t])) :
    ∃ w, t.recvStep (.data b) = .more w ∧ Halfway s hd body (g.chunk t b w) w ∧ Effect body g t b w := by
  have hne : v.state ≠ .readRm := by
    intro hs
    have hall := (hend hs).whole
    have hle := hpre.length_le
    rw [← hall,List.length_append] at hle
    have := hacc.2.2.1
    omega
  have hsh := hst.shared h8
  obtain ⟨hvfd,hvdis⟩ := hst.socket h8 hfd hdis
  obtain ⟨hfind,hu3⟩ := reply_found hr
  have hv3 : t.nfsV3 = v.nfsV3 := by
    rw [hrt.program t (by simp),← hu3]
    exact show u.shared.nfsV3 = v.shared.nfsV3 by rw [hsh]
  have hvt := onto_eq hon hm
  have hacc' : (v.onto t).Accepts b.length := hvt.symm ▸ hacc
  have hvacc := accepts_of_onto hvfd hvdis hacc'
  have hfol := hrt.followed p hfind
  rw [← hu3] at hfol
  have hparts := hon
  simp only [readerPart,Prod.mk.injEq] at hparts
  obtain ⟨hstate,-,-,hpdu,hrm,-⟩ := hparts
  obtain ⟨y,hy,hstage,hend'⟩ := Stage.chunk hr hfol (reply_plain hr) hst (.inr hne) hvacc hpre (by
    intro hs i hi
    have hti : t.Shown i := by
      obtain ⟨q,hq,hrest⟩ := hi
      exact ⟨q,hpdu.symm.trans hq,hrest⟩
    have hle := hrt.padding t (by simp) (hstate.symm.trans hs) i hti
    rw [rm0,hrm]
    exact hle)
  have halong := recvStep_onto hne hv3 hvfd hvdis hacc'
  rw [hvt,hy] at halong
  generalize hw : t.recvStep (.data b) = k at halong
  cases halong with
  | more _ m last hml =>
    have hctx : (g.chunk t b (y.onto (t.noted m last))).ctx = some c := by
      rw [Progress.chunk,if_neg (by omega)]
      exact hc
    refine ⟨_,rfl,.reply c u y p (l++m) hctx hr hfd hdis hstage ?_ ?_ rfl rfl ?_ ?_ hmem,.inl ⟨hctx.trans hc.symm,rfl⟩,?_⟩
    · exact (h8.trans (Nat.le_add_right _ _)).trans_eq List.length_append.symm
    · exact hend' ((h8.trans (Nat.le_add_right _ _)).trans_eq List.length_append.symm)
    · rw [hml,hvl,List.append_assoc]
    · show replies (t.log ++ m) = _
      rw [replies_append,hlog,replies_append,List.append_assoc]
    · intro hnone
      rw [hnone c hctx] at hfind
      simp at hfind

/-- A chunk of a record: it is taken in, and the PDU of the record is taken out of the queues when the xid is complete. -/
theorem Halfway.chunk {g : Progress} (hg : Halfway s hd body g t) (h : Ready x0 t) (hrec : Record hd body)
    (hacc : t.Accepts b.length) (hpre : g.bytes++b <+: hd++body)
    (hr : ∀ c, (if g.bytes.length < 8 ∧ 8 ≤ g.bytes.length+b.length then some t else g.ctx) = some c →
      Routable c hd body (g.before ++ [t])) :
    ∃ w, t.recvStep (.data b) = .more w ∧ Halfway s hd body (g.chunk t b w) w ∧ Effect body g t b w := by
  cases hg with
  | marker hc hst hi h8 hx hlog hmem =>
    obtain ⟨-,-,hph⟩ := marker_phase h.ok hst (by omega)
    have hle := hph.le hacc
    rw [hx,List.length_append] at hle
    have hle : 0+(g.bytes.length+b.length) ≤ 8 := hle
    rcases Nat.lt_or_ge (g.bytes.length+b.length) 8 with hlt | hge
    · obtain ⟨w,hw,hws,hwi,hwx,hidle⟩ := marker_short h hst hx hacc (by omega)
      have hctx : (g.chunk t b w).ctx = none := by
        rw [Progress.chunk,if_neg (by omega)]
        exact hc
      have hlen : (g.chunk t b w).bytes.length = g.bytes.length+b.length := List.length_append
      exact ⟨w,hw,.marker hctx hws (by omega) (by omega) hwx (by rw [hidle.2.1,hlog]) (hidle.2.2.trans hmem),
        .inl ⟨hctx.trans hc.symm,hidle.1⟩,fun _ => hidle⟩
    · have hrt := hr t (if_pos ⟨h8,hge⟩)
      cases hf : (t.lookup (be32 body)).1 with
      | some p => exact matched_turn h hc hrec hst hi h8 hx hlog hmem hacc hpre hge hrt hf
      | none => exact unmatched_turn h hc hrec hst hi h8 hx hlog hmem hacc hpre (by omega) hrt hf
  | reply c u v p l hc hrep hfd hdis hst h8 hend hon hm hvl hlog hmem =>
    exact reply_turn hc hrep hfd hdis hst h8 hend hon hm hvl hlog hmem hacc hpre (hr c (by rw [if_neg (by omega)]; exact hc))
  | unknown c hc hf hst hrm hi hlt hlog hmem =>
    obtain ⟨w,hw,hidle,hle,hor⟩ := unknown_chunk h hst hacc
    have hlen : (g.chunk t b w).bytes.length = g.bytes.length+b.length := List.length_append
    have hctx : (g.chunk t b w).ctx = some c := by
      rw [Progress.chunk,if_neg (by omega)]
      exact hc
    refine ⟨w,hw,?_,.inl ⟨hctx.trans hc.symm,hidle.1⟩,fun _ => hidle⟩
    have hlog' : replies w.log = replies s.log := by rw [hidle.2.1,hlog]
    have hmem' : w.mem = s.mem := hidle.2.2.trans hmem
    split at hor
    · refine .skipped c hctx hf hor ?_ hlog' hmem'
      refine eq_of_prefix_length hpre ?_
      rw [List.length_append,hlen,hrec.header]
      omega
    · obtain ⟨h1,h2,h3⟩ := hor
      exact .unknown c hctx hf h1 (h2.trans hrm) (by omega) (by omega) hlog' hmem'
  | skipped c hc hf hm hb hlog hmem =>
    have hle := hpre.length_le
    rw [hb,List.length_append] at hle
    have := hacc.2.2.1
    omega

/-- No chunk reaches beyond the record. -/
theorem Halfway.fits {g : Progress} (hg : Halfway s hd body g t) (h : Ready x0 t) (hrec : Record hd body)
    (hacc : t.Accepts b.length) (hlt : g.bytes.length < 4+body.length)
    (hr : ∀ c, g.ctx = some c → Routable c hd body g.before) : g.bytes.length+b.length ≤ 4+body.length := by
  cases hg with
  | marker hc hst hi h8 hx hlog hmem =>
    obtain ⟨-,-,hph⟩ := marker_phase h.ok hst (by omega)
    have hle := hph.le hacc
    rw [hx,List.length_append] at hle
    have hle : 0+(g.bytes.length+b.length) ≤ 8 := hle
    have := hrec.xid
    omega
  | reply c u v p l hc hrep hfd hdis hst h8 hend hon hm hvl hlog hmem =>
    obtain ⟨hvfd,hvdis⟩ := hst.socket h8 hfd hdis
    obtain ⟨hfind,hu3⟩ := reply_found hrep
    have hfol := (hr c hc).followed p hfind
    rw [← hu3] at hfol
    exact hst.fits hrep hfol hlt (accepts_of_onto hvfd hvdis ((onto_eq hon hm).symm ▸ hacc))
  | unknown c hc hf hst hrm hi hlt' hlog hmem =>
    obtain ⟨w,-,-,hle,-⟩ := unknown_chunk h hst hacc
    omega
  | skipped c hc hf hm hb hlog hmem =>
    rw [hb,List.length_append,hrec.header] at hlt
    omega

/-- A call does not matter to a record that is half read. -/
theorem Halfway.call {g : Progress} {e : Event} (hg : Halfway s hd body g t) (hq : Quiet t u) :
    Halfway s hd body (g.call e) u := by
  have hr := hq.reader
  simp only [readerPart,Prod.mk.injEq] at hr
  obtain ⟨hst',hi',-,-,hrm',-⟩ := hr
  obtain ⟨l',hl',hnone⟩ := hq.timeouts
  have hrep : replies u.log = replies t.log := by rw [hl',replies_append,hnone,List.append_nil]
  cases hg with
  | marker hc hst hi h8 hx hlog hmem =>
    exact .marker hc (hst'.trans hst) (hi'.trans hi) h8 (by rw [hi',hrm']; exact hx) (hrep.trans hlog) (hq.mem.trans hmem)
  | reply c w v p l hc hr hfd hdis hst h8 hend hon hm hvl hlog hmem =>
    exact .reply c w v p l hc hr hfd hdis hst h8 hend (hon.trans hq.reader.symm) (hm.trans hq.mem.symm) hvl (hrep.trans hlog) hmem
  | unknown c hc hf hst hr hi hlt hlog hmem =>
    exact .unknown c hc hf (hst'.trans hst) (by rw [rm0,hrm']; exact hr) (by rw [hi']; exact hi) (by rw [hi']; exact hlt)
      (hrep.trans hlog) (hq.mem.trans hmem)
  | skipped c hc hf hm hb hlog hmem =>
    exact .skipped c hc hf ⟨hst'.trans hm.1,hi'.trans hm.2⟩ hb (hrep.trans hlog) (hq.mem.trans hmem)

/-- Nor does a turn of the read loop for which there are no bytes. -/
theorem Halfway.again {g : Progress} (hg : Halfway s hd body g t) (h : Ready x0 t) (hu : t.recvStep .again = .more u) :
    Halfway s hd body g u ∧ Idle t u := by
  rcases again_eq hu with rfl | ⟨-,hp⟩
  · exact ⟨hg,rfl,rfl,rfl⟩
  · obtain ⟨hsh,hst'⟩ := readPrep_shared hp
    have hl' := readPrep_log hp
    have hm' : u.mem = t.mem := by
      obtain ⟨i,n,rfl⟩ := h.ok.readPrep_eq hp
      rfl
    obtain ⟨-,hrm',-,hor⟩ := readPrep_inpos hp
    refine ⟨?_,hsh,hl',hm'⟩
    cases hg with
    | marker hc hst hi h8 hx hlog hmem =>
      obtain ⟨hi',-⟩ := readPrep_marker hst hp
      exact .marker hc (hst'.trans hst) (hi'.trans hi) h8 (by rw [hi',hrm']; exact hx) (by rw [hl',hlog]) (hm'.trans hmem)
    | reply c w v p l hc hr hfd hdis hst h8 hend hon hm hvl hlog hmem =>
      obtain ⟨hvfd,hvdis⟩ := hst.socket h8 hfd hdis
      obtain ⟨y,hy,hstage⟩ := stage_again hst hvfd
      have hvy := again_prep hvdis hy
      have hyu : u = y.onto t := by
        rw [← onto_eq hon hm,readPrep_onto,hvy,Option.map_some,Option.some.injEq] at hp
        exact hp.symm
      have hyl := readPrep_log hvy
      have hym : y.mem = v.mem := by
        obtain ⟨i,n,rfl⟩ := hst.ok.readPrep_eq hvy
        rfl
      subst hyu
      refine .reply c w y p l hc hr hfd hdis hstage h8 (fun hs => ?_) rfl rfl (hyl.trans hvl) (by rw [hl',hlog]) hmem
      have ha := hend ((readPrep_shared hvy).2.symm.trans hs)
      exact ⟨ha.whole,hyl.trans ha.log,hym.trans ha.mem⟩
    | unknown c hc hf hst hr hi hlt hlog hmem =>
      have hmax : max 4 u.inpos = max 4 t.inpos := by omega
      exact .unknown c hc hf (hst'.trans hst) (by rw [rm0,hrm']; exact hr) (by rw [hmax]; exact hi) (by rw [hmax]; exact hlt)
        (by rw [hl',hlog]) (hm'.trans hmem)
    | skipped c hc hf hm hb hlog hmem =>
      obtain ⟨hi',-⟩ := readPrep_marker hm.1 hp
      exact .skipped c hc hf ⟨hst'.trans hm.1,hi'.trans hm.2⟩ hb (by rw [hl',hlog]) (hm'.trans hmem)

end Records

end Rpc
end Libnfs
