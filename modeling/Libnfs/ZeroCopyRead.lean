import Libnfs.OneRecord
import Libnfs.ExactlyOnce

/-! The reply to a zero-copy READ: over every way to cut it into chunks the callback is called once,
when the reader is back at a marker, or the record has one of the shapes for which it is not. -/
namespace Libnfs

open ByteWords Scatter Zdr RecordMark

variable {P : Pdu → Prop}

namespace Rpc

/-- The record `r` completes `p`: however it is cut into chunks, no callback is called before the
reader is at a marker again, it gets there at the latest with the last byte, and then `p` has been
called back once and is on no queue any more. -/
def CalledOnce (s : Rpc) (p : Pdu) (r : List UInt8) : Prop :=
  ∀ bs c, bs <+: r → Reads s bs c → ∃ t, c = .more t ∧
    ((bs ≠ [] ∧ t.AtMarker ∧ t.called = s.called ++ [p.id] ∧ s.outstanding.Perm (p::t.outstanding)) ∨
      (¬ (bs ≠ [] ∧ t.AtMarker) ∧ t.called = s.called ∧ bs ≠ r))

/-- What a reply of `len` bytes that starts with `buf` has to be, by what it says. -/
def Completes (p : Pdu) (buf : List UInt8) (len : ℕ) : Verdict → Prop
  | .crash => False
  | .lost => False
  | .done => rejects p buf = true → p.freePdu = false
  | .data count pos => ¬ Overrun (p.cursor.elim [] Cursor.ref) count ∧
      if count ≤ buf.length-pos then rejects p buf = true → p.freePdu = false
      else rejects p buf = false ∧ count-(buf.length-pos) ≤ len-buf.length

/-- The record has a marker of one whole record, there is room for its first bytes, and they say
nothing that the reader cannot follow. -/
structure Answerable (s : Rpc) (p : Pdu) (hd body : List UInt8) : Prop where
  valid : validMarker (be32 hd) = true
  room : s.Room (roomFor p body.length)
  completes : Completes p (headOf p body) body.length (verdict s.nfsV3 p (headOf p body))

instance (p : Pdu) (buf : List UInt8) (len : ℕ) (v : Verdict) : Decidable (Completes p buf len v) :=
  match v with
  | .crash => inferInstanceAs (Decidable False)
  | .lost => inferInstanceAs (Decidable False)
  | .done => inferInstanceAs (Decidable (rejects p buf = true → p.freePdu = false))
  | .data count pos => inferInstanceAs (Decidable (¬ Overrun (p.cursor.elim [] Cursor.ref) count ∧
      if count ≤ buf.length-pos then rejects p buf = true → p.freePdu = false
      else rejects p buf = false ∧ count-(buf.length-pos) ≤ len-buf.length))

theorem Completes.ends {p : Pdu} {buf : List UInt8} {len : ℕ} {v : Verdict} (h : Completes p buf len v) :
    Ends len p buf v := by
  cases v with
  | crash => exact h
  | lost => exact h
  | done => trivial
  | data count pos =>
    refine ⟨h.1,?_⟩
    by_cases hc : count ≤ buf.length-pos
    · exact .inl hc
    · have h2 := h.2
      rw [if_neg hc] at h2
      exact .inr h2.2

theorem Completes.free {p : Pdu} {buf : List UInt8} {len : ℕ} {v : Verdict} (h : Completes p buf len v)
    (hr : rejects p buf = true) : p.freePdu = false := by
  cases v with
  | crash => exact h.elim
  | lost => exact h.elim
  | done => exact h hr
  | data count pos =>
    have h2 := h.2
    split at h2
    · exact h2 hr
    · simp [h2.1] at hr

theorem calledIn_replyLog {p : Pdu} (hc : p.cursor.isSome) (buf : List UInt8) :
    calledIn (replyLog p buf) = if rejects p buf then [p.id] else [] := by
  unfold replyLog
  cases hr : rejects p buf <;> simp [hc,calledIn]

/-- The calls of the callback over the whole reply -/
theorem calledIn_reply {p q : Pdu} (hc : p.cursor.isSome) {buf inbuf : List UInt8} (hq : Holds p buf q) :
    calledIn (replyLog p buf ++ lateLog q inbuf) =
      if rejects p buf = true ∧ p.freePdu = true then [p.id,p.id] else [p.id] := by
  have hf := hq.free
  rw [calledIn_append,calledIn_replyLog hc,lateLog]
  rw [hc] at hf
  cases hr : rejects p buf with
  | true =>
    rw [hr] at hf
    cases hp : p.freePdu with
    | true => simp [hf,hp,calledIn,hq.id]
    | false => simp [hf,hp,calledIn]
  | false =>
    rw [hr] at hf
    simp [hf,calledIn,hq.id]

theorem Phase.log {e t : Rpc} {a : List UInt8} (h : Phase P e a t) : t.log = e.log := by
  obtain ⟨v,hv,-⟩ := h.ok.prepared
  rw [← readPrep_log hv]
  exact readStore_log (h.prep.symm.trans hv)

/-- The PDU of a record is taken out of the queues, and nothing else changes. -/
theorem lookup_some {s u : Rpc} {x : ℕ} {p : Pdu} (hok : s.Ok P) (hm : s.AtMarker) (h : s.lookup x = (some p,u)) :
    u.nfsV3 = s.nfsV3 ∧ s.outstanding.Perm (p::(u.outqueue ++ u.waitpdu.flatten)) := by
  obtain ⟨-,q,w,n,rfl,-,-,hperm⟩ := @rpcFindPdu_some (s.setRm1 x) u x p hok.hashes h
  refine ⟨rfl,?_⟩
  rw [outstanding,hok.idle hm.1,Option.toList_none,List.append_nil]
  exact hperm

/-- The calls are those of the stage: none up to the end of the record. -/
theorem Stage.called {s u t : Rpc} {p : Pdu} {hd body bs : List UInt8} (hr : Reply P s u p hd body)
    (hc : p.cursor.isSome)
    (hcomp : Completes p (headOf p body) body.length (verdict u.nfsV3 p (headOf p body)))
    (h : Stage P s u p hd body bs t) :
    (bs ≠ [] ∧ t.AtMarker ∧ t.called = s.called ++ [p.id] ∧ s.outstanding.Perm (p::t.outstanding)) ∨
      (¬ (bs ≠ [] ∧ t.AtMarker) ∧ t.called = s.called ∧ bs ≠ hd++body) := by
  have hP : (headOf p body).length ≤ body.length := by
    rw [headOf_length,hc]
    exact min_le_left _ _
  have hd4 := hr.record.header
  have hlong := hr.long
  have hne : ∀ bs : List UInt8, bs.length < 4+body.length → bs ≠ hd++body := by
    rintro bs hlt rfl
    rw [List.length_append] at hlt
    omega
  have hfew : ∀ {count pos : ℕ}, verdict u.nfsV3 p (headOf p body) = .data count pos →
      (headOf p body).length-pos < count → rejects p (headOf p body) = false ∧
        count-((headOf p body).length-pos) ≤ body.length-(headOf p body).length := by
    intro count pos hv hlt
    rw [hv] at hcomp
    have h2 := hcomp.2
    rwa [if_neg (by omega)] at h2
  cases h with
  | marker _ _ h =>
    refine .inr ⟨?_,?_,?_⟩
    · rintro ⟨hbs,hm⟩
      have hi := (readStore_frame (h.prep.symm.trans hm.readPrep)).1
      have hi : t.inpos = s.inpos+bs.length := hi
      rw [hm.2,hr.marker.2] at hi
      exact hbs (List.length_eq_zero_iff.mp (by omega))
    · rw [Rpc.called,h.log]
      rfl
    · apply hne
      have hs := h.short
      rw [atRm,hr.marker.2] at hs
      have hs : 0+bs.length < 8 := hs
      omega
  | payload f e a _ hM hok he h =>
    obtain ⟨e',-,he',-,hst,-,hi,hsz,-⟩ := hM.enter hok hr.long
    obtain rfl := Option.some.inj (he.symm.trans he')
    refine .inr ⟨?_,?_,?_⟩
    · rintro ⟨-,hm⟩
      rw [AtMarker,h.state,hst] at hm
      simp at hm
    · rw [Rpc.called,h.log,readPrep_log he,hM.log]
      rfl
    · apply hne
      have hs := h.short
      rw [List.length_append,List.length_append,List.length_take]
      omega
  | iovec c count pos g e q a _ hc' hv hlt hS hok he h =>
    obtain ⟨e',he',-,hst,-,hi,hsz,-⟩ := hS.enter hok
    obtain rfl := Option.some.inj (he.symm.trans he')
    obtain ⟨hrej,hle⟩ := hfew hv hlt
    refine .inr ⟨?_,?_,?_⟩
    · rintro ⟨-,hm⟩
      rw [AtMarker,h.state,hst] at hm
      simp at hm
    · rw [Rpc.called,h.log,readPrep_log he,hS.log,calledIn_append,calledIn_replyLog hc,hrej]
      simp [Rpc.called]
    · apply hne
      have hs := h.short
      rw [List.length_append,List.length_append]
      omega
  | padding count pos left n _ _ q hv hlt hleft h hok hlen =>
    obtain ⟨hrej,hle⟩ := hfew hv hlt
    refine .inr ⟨?_,?_,?_⟩
    · rintro ⟨-,hm⟩
      rw [AtMarker,h.state] at hm
      simp at hm
    · rw [Rpc.called,h.ended.log,calledIn_append,calledIn_replyLog hc,hrej]
      simp [Rpc.called]
    · apply hne
      have hs := h.short
      omega
  | finished _ inbuf _ q hok hq h hlen hin =>
    refine .inl ⟨?_,h.marker,?_,?_⟩
    · rintro rfl
      simp at hlen
      omega
    · rw [Rpc.called,h.log,calledIn_append,calledIn_reply hc hq,if_neg]
      · rfl
      · rintro ⟨hrej,hfree⟩
        rw [hcomp.free hrej] at hfree
        simp at hfree
    · obtain ⟨-,hperm⟩ := lookup_some hr.ok hr.marker hr.found
      have ho : t.outqueue = u.outqueue := show t.shared.outqueue = u.shared.outqueue by rw [h.shared]
      have hw : t.waitpdu = u.waitpdu := show t.shared.waitpdu = u.shared.waitpdu by rw [h.shared]
      have hout : t.outstanding = u.outqueue ++ u.waitpdu.flatten := by
        rw [outstanding,h.pdu,ho,hw,Option.toList_none,List.append_nil]
      rw [hout]
      exact hperm

theorem Reads.kept {s : Rpc} (hok : s.Ok P) {bs : List UInt8} {c : Ctl} (h : Reads s bs c) :
    c.All (Ok P) ∧ c.rpc.booked = s.booked := by
  induction h with
  | start => exact ⟨hok,rfl⟩
  | chunk h hm ha ih => exact ⟨recvStep_ok ih.1 _,(recvStep_booked ih.1 _).trans ih.2⟩
  | again h ih => exact ⟨recvStep_ok ih.1 _,(recvStep_booked ih.1 _).trans ih.2⟩

/-- The reading goes on with a chunk, as long as it is asked for. -/
theorem Reads.feed {s t e : Rpc} {bs a : List UInt8} (hok : s.Ok P) (hfd : s.fd = true)
    (hdis : s.socketDisabled = false) (h : Reads s bs (.more t)) (hm : bs = [] ∨ ¬ t.AtMarker)
    (ht : t.readPrep = some e) (hp : Prepared P e) (hs : e.state ≠ .readPadding) (hpos : 0 < a.length)
    (hle : e.inpos+a.length ≤ e.pduSize) : Reads s (bs++a) (e.readBytes a) := by
  have hb := (h.kept hok).2
  simp only [Ctl.rpc,booked,Prod.mk.injEq] at hb
  have hacc : t.Accepts a.length := by
    apply (accepts_iff ht hp _).mpr
    refine ⟨hb.2.2.2.1.trans hfd,hb.2.2.2.2.1.trans hdis,hpos,?_⟩
    rw [wants,if_neg hs]
    omega
  rw [← recvStep_data hacc ht]
  exact .chunk h hm hacc

/-- A reading that ends the record -/
theorem CalledOnce.ended {s w : Rpc} {p q : Pdu} {u : Rpc} {r bs buf : List UInt8} {mem : ℕ → UInt8}
    (hc : p.cursor.isSome) (h : CalledOnce s p r) (hpre : bs <+: r) (hbs : bs ≠ [])
    (hr : Reads s bs (.more w.rpcFinishedPdu)) (hw : Ended s u p buf mem w q)
    (hrej : rejects p buf = true) : p.freePdu = false := by
  obtain ⟨t,ht,hor⟩ := h bs _ hpre hr
  obtain rfl := Ctl.more.inj ht
  have hfin := hw.finished
  rcases hor with ⟨-,-,hcalled,-⟩ | ⟨hn,-,-⟩
  · rw [called,hfin.log,calledIn_append,calledIn_reply hc hw.holds] at hcalled
    have hone := List.append_cancel_left hcalled
    by_contra hfree
    simp [hrej,hfree] at hone
  · exact absurd ⟨hbs,hfin.marker⟩ hn

/-- Data that goes on behind the first bytes: the reply is accepted, the record holds all of it, and
the vectors take it. -/
theorem CalledOnce.scattered {s u g : Rpc} {p q : Pdu} {c : Cursor} {count pos : ℕ} {hd body : List UInt8}
    (hok : s.Ok P) (hfd : s.fd = true) (hdis : s.socketDisabled = false) (h : CalledOnce s p (hd++body))
    (hc : p.cursor.isSome) (hmax : body.length ≤ maxFragmentSize) (hpos : pos ≤ (headOf p body).length)
    (hlt : (headOf p body).length-pos < count) (hread : Reads s (hd ++ headOf p body) (.more g))
    (hS : Scattering s u p body c.ref count pos g q) :
    ¬ Overrun c.ref count ∧ rejects p (headOf p body) = false ∧
      count-((headOf p body).length-pos) ≤ body.length-(headOf p body).length := by
  have hbody : hd++body = hd ++ headOf p body ++ body.drop (headOf p body).length := by
    conv_lhs => rw [← List.take_append_drop (headOf p body).length body,← headOf_eq]
    rw [List.append_assoc]
  have hgok : g.Ok P := (hread.kept hok).1
  obtain ⟨e,he,hpe,hst,-,hi,hsz,-⟩ := hS.enter hgok
  have hmk : ¬ g.AtMarker := by
    rw [AtMarker,hS.state]
    simp
  have hfeed : ∀ a : List UInt8, 0 < a.length → a.length ≤ count-((headOf p body).length-pos) →
      Reads s (hd ++ headOf p body ++ a) (e.readBytes a) := by
    intro a ha hle
    exact hread.feed hok hfd hdis (.inr hmk) he hpe (by simp [hst]) ha (by omega)
  obtain ⟨t,ht,hor⟩ := h _ _ (by rw [hbody]; exact List.prefix_append _ _) hread
  obtain rfl := Ctl.more.inj ht
  have hno : s.called = s.called ++ calledIn (replyLog p (headOf p body)) ∧
      hd ++ headOf p body ≠ hd++body := by
    rcases hor with ⟨-,hm,-⟩ | ⟨-,hcalled,hne⟩
    · exact absurd hm hmk
    · rw [called,hS.log,calledIn_append] at hcalled
      exact ⟨hcalled.symm,hne⟩
  have hrej : rejects p (headOf p body) = false := by
    by_contra hrej
    have hnil := hno.1
    rw [calledIn_replyLog hc] at hnil
    simp [hrej] at hnil
  have hend : count-((headOf p body).length-pos) ≤ body.length-(headOf p body).length := by
    -- a record that is too short is read to its end, and the reader still waits
    by_contra hshort
    have hlen : (body.drop (headOf p body).length).length = body.length-(headOf p body).length :=
      List.length_drop
    have hpos' : 0 < (body.drop (headOf p body).length).length := by
      apply List.length_pos_iff.mpr
      intro hnil
      rw [hnil,List.append_nil] at hbody
      exact hno.2 hbody.symm
    have hall := hfeed _ hpos' (by omega)
    rw [← hbody] at hall
    obtain ⟨t,ht,hor⟩ := h _ _ (List.prefix_refl _) hall
    rw [readBytes] at ht
    split at ht
    · simp at ht
    · next v hv =>
      obtain ⟨hvi,hvs⟩ := readStore_frame hv
      rw [if_neg (by omega)] at ht
      obtain rfl := Ctl.more.inj ht
      rcases hor with ⟨-,hm,-⟩ | ⟨-,-,hne⟩
      · rw [AtMarker,(readStore_shared hv).2,hst] at hm
        simp at hm
      · exact hne rfl
  refine ⟨fun hover => ?_,hrej,hend⟩
  have hdone := hS.done hgok hpos hlt hmax hend he
  rw [if_pos hover] at hdone
  have hlen : ((body.drop (headOf p body).length).take (count-((headOf p body).length-pos))).length =
      count-((headOf p body).length-pos) := by
    rw [List.length_take,List.length_drop]
    omega
  have hall := hfeed _ (by omega) hlen.le
  have hpre : hd ++ headOf p body ++ (body.drop (headOf p body).length).take
      (count-((headOf p body).length-pos)) <+: hd++body := by
    rw [hbody,List.prefix_append_right_inj]
    exact List.take_prefix _ _
  obtain ⟨t,ht,-⟩ := h _ _ hpre hall
  rw [readBytes,hdone] at ht
  simp at ht

section

variable {s u : Rpc} {p : Pdu} {hd body : List UInt8} (hok : s.Ok P) (hm : s.AtMarker) (hfd : s.fd = true)
  (hdis : s.socketDisabled = false) (hrec : Record hd body) (hf : s.lookup (be32 body) = (some p,u))
  (h : CalledOnce s p (hd++body))

include hok hm hfd hdis hrec hf h

/-- The marker and the xid arrive at once: the marker is valid, and there is room. -/
theorem CalledOnce.matched : validMarker (be32 hd) = true ∧ s.Room (roomFor p body.length) ∧
    ∃ f, Reads s (hd ++ body.take 4) (.more f) ∧ Matched s u p body f := by
  have hb4 : (body.take 4).length = 4 := by
    rw [List.length_take]
    have := hrec.xid
    omega
  have h8 : (hd ++ body.take 4).length = 8 := by
    rw [List.length_append,hrec.header,hb4]
  obtain ⟨v,hv,-⟩ := hm.store hok h8
  have hlen : s.atRm.inpos+(hd ++ body.take 4).length = s.atRm.pduSize := by
    rw [h8]
    show s.inpos+8 = 8
    rw [hm.2]
  have hread : Reads s (hd ++ body.take 4) v.readDone := by
    have hfeed := Reads.feed (P := P) hok hfd hdis .start (.inl rfl) hm.readPrep hm.prepared
      (by simp [atRm,hm.1]) (by omega : 0 < (hd ++ body.take 4).length) hlen.le
    rwa [List.nil_append,readBytes_done hv hlen] at hfeed
  have hpre : hd ++ body.take 4 <+: hd++body := by
    rw [List.prefix_append_right_inj]
    exact List.take_prefix _ _
  obtain ⟨f,hdone,-⟩ := h _ _ hpre hread
  obtain ⟨hyes,hno⟩ := marker_done hm hok hrec hv
  have hvalid : validMarker (be32 hd) = true := by
    by_contra hbad
    obtain ⟨f',hf'⟩ := hno (by simpa using hbad)
    rw [hf'] at hdone
    simp at hdone
  obtain ⟨M,hM,hmatch⟩ := hyes hvalid
  obtain ⟨hfound,hfull⟩ := matchRecord_found hok.rmXid hrec.xid hM hf
  have hroom : s.Room (roomFor p body.length) := by
    by_contra hbad
    obtain ⟨f',hf'⟩ := hfull hbad
    rw [hmatch,hf'] at hdone
    simp at hdone
  obtain ⟨f',hf',hmat⟩ := hfound hroom
  rw [hmatch,hf'] at hread
  exact ⟨hvalid,hroom,f',hread,hmat⟩

/-- The rest of the first bytes arrives at once. -/
theorem CalledOnce.full (h8 : 8 ≤ body.length) : ∃ v, Reads s (hd ++ headOf p body) v.payloadDone ∧
    Full s u p body v ∧ PduOk P p ∧ body.length ≤ maxFragmentSize := by
  obtain ⟨-,-,f,hread,hmat⟩ := h.matched hok hm hfd hdis hrec hf
  have hfok : f.Ok P := (hread.kept hok).1
  obtain ⟨e,v,he,hpe,hst,-,hi,hsz,hp,hmax,hv,hdone,hfull⟩ := hmat.enter hfok h8
  have hge := headOf_ge (p := p) h8
  have hlen : e.inpos+((headOf p body).drop 4).length = e.pduSize := by
    rw [List.length_drop]
    omega
  refine ⟨v,?_,hfull,hp,hmax⟩
  have hfeed := hread.feed hok hfd hdis (.inr fun hmk => ?_) he hpe (by simp [hst])
    (by rw [List.length_drop]; omega : 0 < ((headOf p body).drop 4).length) hlen.le
  · have hfront : body.take 4 = (headOf p body).take 4 := by
      rw [headOf_eq p body,List.take_take,min_eq_left (by omega)]
    rwa [readBytes_done hv hlen,hdone,hfront,List.append_assoc,List.take_append_drop] at hfeed
  · rw [AtMarker,hmat.state] at hmk
    simp at hmk

/-- The first bytes say how the record goes on. -/
theorem CalledOnce.completes (hc : p.cursor.isSome) :
    Completes p (headOf p body) body.length (verdict u.nfsV3 p (headOf p body)) := by
  obtain ⟨hvalid,-,-⟩ := h.matched hok hm hfd hdis hrec hf
  have h8 : 8 ≤ body.length := by
    have hs := hrec.valid_size hvalid
    simp only [validMarker,decide_eq_true_eq] at hvalid
    omega
  obtain ⟨v,hread,hfull,hp,hmax⟩ := h.full hok hm hfd hdis hrec hf h8
  obtain ⟨c,hc'⟩ := Option.isSome_iff_exists.mp hc
  have href : p.cursor.elim [] Cursor.ref = c.ref := by rw [hc']; rfl
  have hpre : hd ++ headOf p body <+: hd++body := by
    rw [List.prefix_append_right_inj,headOf_eq]
    exact List.take_prefix _ _
  have hbs : hd ++ headOf p body ≠ [] := by
    have hge := headOf_ge (p := p) h8
    intro hnil
    rw [(List.append_eq_nil_iff.mp hnil).2] at hge
    simp at hge
  have hgo := hfull.read hp hc' hmax
  obtain ⟨t,hdone,hor⟩ := h _ _ hpre hread
  cases hv : verdict u.nfsV3 p (headOf p body) with
  | crash =>
    rw [hv,hdone] at hgo
    simp at hgo
  | lost =>
    rw [hv,hdone] at hgo
    simp at hgo
  | done =>
    rw [hv] at hgo
    obtain ⟨w,q,hw,hend,-⟩ := hgo
    rw [hw] at hread
    exact fun hrej => h.ended hc hpre hbs hread hend hrej
  | data count pos =>
    rw [hv] at hgo
    simp only at hgo
    rw [Completes,href]
    by_cases hcount : count ≤ (headOf p body).length-pos
    · rw [if_pos hcount] at hgo ⊢
      by_cases hover : Overrun c.ref count
      · rw [if_pos hover,hdone] at hgo
        simp at hgo
      · rw [if_neg hover] at hgo
        obtain ⟨w,q,hw,hend,-⟩ := hgo
        rw [hw] at hread
        exact ⟨hover,fun hrej => h.ended hc hpre hbs hread hend hrej⟩
    · rw [if_neg hcount] at hgo ⊢
      obtain ⟨g,q,hg,hS⟩ := hgo
      rw [hg] at hread
      exact h.scattered hok hfd hdis hc hmax (verdict_data hv).1 (by omega) hread hS

end

/-- The PDU of `demoReading` and the context without it -/
def demoPdu : Pdu := ((after demoConfig demoReading).lookup 1).1.getD (demoRead.pdu 0 0)

def demoRest : Rpc := ((after demoConfig demoReading).lookup 1).2

theorem demoReading_lookup : (after demoConfig demoReading).lookup 1 = (some demoPdu,demoRest) := rfl

/-- The server denies the READ: RPC_MISMATCH, with the versions it has. -/
def demoDenied : List UInt8 :=
  beBytes 1 ++ beBytes 1 ++ beBytes 1 ++ beBytes 0 ++ beBytes 2 ++ beBytes 2

/-- Its marker and its xid -/
def demoDeniedHead : List UInt8 := beBytes (2^31+24) ++ beBytes 1

end Rpc
end Libnfs
