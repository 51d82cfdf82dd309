import Libnfs.Reordering
import Libnfs.Requests
import Libnfs.ServerContext

/-! A client context and a server context at the two ends of a connection: what a callback of the client gets is what the server
has replied to that very call. -/
namespace Libnfs

open ByteWords Zdr Zdrmem Dispatch RecordMark Transition
open Rpc (marking validMarker Progress)

/-- The message of a PDU, behind its record marker -/
def Pdu.message (p : Pdu) : List UInt8 := p.record.drop 4

/-- There is room for the reply of `rpc_send_reply` in what `rpc_allocate_reply_pdu` allocates. -/
def Results.Fits (r : Results) : Prop :=
  24+r.bytes.length+4 ≤ encodebufMinsize+r.allocHint ∧ encodebufMinsize+r.allocHint < 2^31

namespace Rpc

variable {cfg : Config} {es : List Event} {p : Pdu} {bs r : List UInt8}

/-- The message of a PDU starts with its xid. -/
theorem Made.message (h : Made cfg es p) (hg : Guarded step Numbered (init cfg) es) :
    p.record = beBytes (2^31+p.message.length) ++ p.message ∧ p.message.take 4 = beBytes p.xid ∧ p.message.length < 2^31 := by
  obtain ⟨pre,c,ws,post,rfl,-,-,rfl⟩ := h
  have hnum : (after cfg pre).Numbered (.queuePdu c ws) := by
    rw [guarded_append] at hg
    exact hg.2.1
  have hmsg : (c.pdu (after cfg pre).nextId (after cfg pre).xid).message = c.message := by
    rw [Pdu.message,Call.pdu_record,List.drop_left' (beBytes_length _)]
  rw [hmsg,Call.pdu_record]
  exact ⟨rfl,hnum.1,hnum.2⟩

/-- A turn of the read loop that lasts is an event of its own. -/
theorem step_of_more {s w : Rpc} (hl : s.Live) {r : Recv} (hw : s.recvStep r = .more w) (conn : Connect) :
    s.step (.recv r conn) = w := by
  rw [step_live hl,act,hw]
  rfl

theorem headed_frame {body : List UInt8} (h : body.length < 2^31) : Headed marking (beBytes (2^31+body.length) ++ body) := by
  have hbe : be32 (beBytes (2^31+body.length)) = 2^31+body.length := be32_beBytes_self _ (by omega)
  have hlen : marking.len (beBytes (2^31+body.length)) =
      if validMarker (be32 (beBytes (2^31+body.length))) = true then some (be32 (beBytes (2^31+body.length))-2^31) else none := rfl
  rw [hbe] at hlen
  refine ⟨_,body,rfl,rfl,?_⟩
  by_cases hv : validMarker (2^31+body.length) = true
  · rw [hlen,if_pos hv,Nat.add_sub_cancel_left]
    exact .inr rfl
  · rw [hlen,if_neg hv]
    exact .inl rfl

/-- The records that are cut from what a client has written are the messages of its PDUs. -/
theorem split_sent (hok : (after cfg es).Ok (Made cfg es)) (hst : (after cfg es).StreamOk (Made cfg es))
    (hfd : (after cfg es).fd = true) (hg : Guarded step Numbered (init cfg) es) (hbs : bs <+: (after cfg es).sent)
    (hr : r ∈ (split marking bs).bodies) : ∃ p, Made cfg es p ∧ p.message = r := by
  obtain ⟨ps,hps,hsent⟩ := hst hfd
  have hhead : ∃ qs : List Pdu, (∀ q ∈ qs, Made cfg es q) ∧ bs <+: (qs.map Pdu.record).flatten := by
    cases hq : (after cfg es).outqueue with
    | nil =>
      refine ⟨ps,hps,?_⟩
      rw [hsent,hq,sentPart,List.append_nil] at hbs
      rwa [← List.flatMap_def]
    | cons a q =>
      have ha : Made cfg es a.request := (hok.queued a (by rw [pool,hq]; simp)).origin
      refine ⟨ps++[a.request],fun b hb => ?_,hbs.trans ?_⟩
      · rcases List.mem_append.1 hb with hb | hb
        · exact hps b hb
        · exact List.mem_singleton.1 hb ▸ ha
      · rw [hsent,hq,sentPart_cons,List.map_append,List.flatten_append,← List.flatMap_def]
        refine (List.prefix_append_right_inj _).2 ?_
        rw [List.map_singleton,List.flatten_singleton,request_record]
        exact List.take_prefix _ _
  obtain ⟨qs,hqs,hpre⟩ := hhead
  have hcut := split_prefix marking (by decide) (fun x hx => ?_) hpre
  · have hin := hcut.subset hr
    rw [List.map_map] at hin
    obtain ⟨q,hq,rfl⟩ := List.mem_map.1 hin
    exact ⟨q,hqs q hq,rfl⟩
  · obtain ⟨q,hq,rfl⟩ := List.mem_map.1 hx
    obtain ⟨hrec,-,hlt⟩ := (hqs q hq).message hg
    rw [hrec]
    exact headed_frame hlt

end Rpc

section Echo

variable {α β : Type} {Q : ServerContext.Spec α} {record body bs r : List UInt8} {mem : Bool} {endpoints : List (Endpoint α)}
  {out : Outcome α} {xid : UInt32}

theorem word_front (h : 4 ≤ r.length) : Format.word (UInt32.ofNat (be32 r)) = r.take 4 := by
  have hlt := be32_lt r
  have hword : (UInt32.ofNat (be32 r)).toNat = be32 r := UInt32.toNat_ofNat_of_lt' hlt
  rw [Format.word,hword,← ServerContext.be32_take h,beBytes_be32 _ (List.length_take_of_le h)]

/-- The xid of a record is its first word. -/
theorem decodedXid_create (h4 : 4 ≤ r.length) (hlt : r.length < 2^31) : decodedXid (zdrmemCreate r r.length) = UInt32.ofNat (be32 r) := by
  have hsize : toInt r.length = r.length := Int.bmod_eq_of_le (by omega) (by omega)
  have hz : zdrmemCreate r r.length = { buf := r, size := r.length, pos := 0 } := by rw [zdrmemCreate,hsize]
  have hword := word_front h4
  generalize UInt32.ofNat (be32 r) = u at hword ⊢
  have hlen : (Format.word u).length = 4 := rfl
  have hfit : Fit { buf := r, size := r.length, pos := 0 } (Format.word u).length := by
    refine ⟨le_refl _,?_,le_refl _,?_⟩
    · show (0 : ℤ)+(Format.word u).length ≤ r.length
      omega
    · show (r.length : ℤ) < 2^31
      omega
  have hahead : Ahead { buf := r, size := r.length, pos := 0 } (Format.word u) := by
    rw [hword]
    exact List.take_prefix 4 r
  obtain ⟨z,hread,-⟩ := (meets_uInt.reads u 0 trivial (Nat.zero_le _) _ (dvd_zero 4) hfit hahead).ok allocated_nil
  rw [hz]
  simp only [decodedXid,hread]

/-- The message of a reply that fits what is allocated for it -/
theorem marshal_fits {r : Results} (h : r.Fits) : r.marshal true xid =
    .ok (Format.word xid ++ (Format.word 1 ++ (Format.word 0 ++ (Format.auth ⟨0,[]⟩ ++ (Format.word 0 ++ r.bytes))))) := by
  have hw : Writes ((Zdrmem.zdrReplymsg ⟨fun _ => r.encodeFn,fun _ => Zop.fault⟩).enc (successMsg xid))
      (Format.word xid ++ (Format.word 1 ++ (Format.word 0 ++ (Format.auth ⟨0,[]⟩ ++ (Format.word 0 ++ r.bytes))))) :=
    Writes.uInt xid (Writes.uInt 1 (Writes.uInt 0 ((meets_verf.writes ⟨0,[]⟩ trivial).bind (auth_aligned _) (Writes.uInt 0 r.writes))))
  have hlen : (Format.word xid ++ (Format.word 1 ++ (Format.word 0 ++ (Format.auth ⟨0,[]⟩ ++ (Format.word 0 ++ r.bytes))))).length =
      24+r.bytes.length := by
    simp [Format.word,Format.auth,Format.sized,padLen]
    omega
  generalize Format.word xid ++ (Format.word 1 ++ (Format.word 0 ++ (Format.auth ⟨0,[]⟩ ++ (Format.word 0 ++ r.bytes)))) = bs at hw hlen ⊢
  obtain ⟨h1,h2⟩ := h
  unfold Results.marshal rpcAllocateReplyPdu
  rw [if_pos rfl]
  generalize encodebufMinsize+r.allocHint = n at h1 h2 ⊢
  have hsize : toInt n = n := by
    unfold toInt
    exact Int.bmod_eq_of_le (by omega) (by omega)
  obtain ⟨buf,hbuf⟩ : ∃ buf : List UInt8, buf = List.replicate n 0 := ⟨_,rfl⟩
  have hz : zdrmemCreate (List.replicate n 0) n = { buf := buf, size := n, pos := 0 } := by rw [zdrmemCreate,hsize,hbuf]
  have hfit : Fit { buf := buf, size := n, pos := 0 } bs.length := by
    refine ⟨by simp,?_,?_,?_⟩
    · simp only
      omega
    · simp only [hbuf,List.length_replicate,le_refl]
    · simp only
      omega
  obtain ⟨z,henc,hwrote⟩ := hw _ (by simp) hfit
  have hpos : z.pos = bs.length := by
    rw [hwrote.pos]
    simp
  have hbytes : z.buf.take z.pos.toNat = bs := by
    rw [hwrote.buf,hpos]
    simp [overwrite]
  have hend : z.pos.toNat+4 ≤ n := by omega
  simp only [hz,henc,if_pos hend,hbytes]

/-- A reply starts with the first word of the record that it answers. -/
theorem answered_echo (hQ : ∀ p call args r, Q p call args r → r.Fits) (h4 : 4 ≤ record.length) (hlt : record.length < 2^31)
    (hout : out = rpcProcessCall mem endpoints (zdrmemCreate record record.length)) (h : ServerContext.Answered Q out body) :
    body.take 4 = record.take 4 ∧ body.length < 2^31 := by
  obtain ⟨h1,h2⟩ := ServerContext.process_about mem endpoints (zdrmemCreate record record.length)
  rw [decodedXid_create h4 hlt] at h1 h2
  rw [← hout] at h1 h2
  have hfront : ∀ (x : UInt32) (l : List UInt8), (Format.word x ++ l).take 4 = Format.word x := fun x l => List.take_left' rfl
  cases out with
  | queued b =>
    obtain rfl : body = b := h
    obtain ⟨-,err,low,high,rfl⟩ := h1 body rfl
    have hlen := errorMsg_length (UInt32.ofNat (be32 record)) err low high
    exact ⟨(hfront _ _).trans (word_front h4),by omega⟩
  | handler p call args =>
    obtain ⟨r,hr,hm⟩ := h
    have hfit := hQ p call args r hr
    rw [h2 p call args rfl,marshal_fits hfit] at hm
    obtain rfl := Res.ok.inj hm
    refine ⟨(hfront _ _).trans (word_front h4),?_⟩
    obtain ⟨h5,h6⟩ := hfit
    simp [Format.word,Format.auth,Format.sized,padLen]
    omega
  | noMemory => exact h.elim
  | crash => exact h.elim

theorem split_bounds (hr : r ∈ (split marking bs).bodies) : 8 ≤ r.length ∧ r.length ≤ maxFragmentSize := by
  obtain ⟨rs,-,hrs,hb⟩ := split_spec marking bs
  rw [hb] at hr
  obtain ⟨x,hx,rfl⟩ := List.mem_map.1 hr
  obtain ⟨h4,hv,hlen⟩ := ServerContext.isRecord_marking.1 (hrs x hx)
  obtain ⟨-,h8,hmax⟩ := ServerContext.validMarker_iff.1 hv
  have hdrop : (x.drop marking.size).length = x.length-4 := List.length_drop
  omega

end Echo

section Talks

variable {α β : Type}

open Rpc

/-- What a client has read since it connected: the records that are there, and a part of the next one -/
def arrived (as : List Arrival) (g : Progress) : List UInt8 := (as.flatMap fun a => a.hd++a.body) ++ g.bytes

/-- A client that made its connection with the events `es0`, and a server context at the other end. Each reads what the other has
written, in chunks of any size and whenever it comes to it. The connection lasts, half-sent PDUs stay on the out queue, and the
server writes its replies one at a time. -/
inductive Talks (cfg : Config) (handler : Handler α β) (Q : ServerContext.Spec α) (es0 : List Event) (app : β) :
    List Event → List Arrival → Progress → ServerContext α β → Prop
  | start : Talks cfg handler Q es0 app es0 [] .start (.init app)
  | chunk {es : List Event} {as : List Arrival} {g : Progress} {v : ServerContext α β} (h : Talks cfg handler Q es0 app es as g v)
      (b : List UInt8) (conn : Connect) (w : Rpc) (ha : (Rpc.after cfg es).Accepts b.length)
      (hw : (Rpc.after cfg es).recvStep (.data b) = .more w) (hk : (Rpc.after cfg es).KeepsHalfSent (.recv (.data b) conn))
      (hpre : arrived as g ++ b <+: v.server.rpc.sent) :
      Talks cfg handler Q es0 app (es++[.recv (.data b) conn]) as (g.chunk (Rpc.after cfg es) b w) v
  | again {es : List Event} {as : List Arrival} {g : Progress} {v : ServerContext α β} (h : Talks cfg handler Q es0 app es as g v)
      (conn : Connect) (w : Rpc) (hw : (Rpc.after cfg es).recvStep .again = .more w)
      (hk : (Rpc.after cfg es).KeepsHalfSent (.recv .again conn)) : Talks cfg handler Q es0 app (es++[.recv .again conn]) as g v
  | call {es : List Event} {as : List Arrival} {g : Progress} {v : ServerContext α β} (h : Talks cfg handler Q es0 app es as g v)
      (e : Event) (hl : (Rpc.after cfg es).Lasts e) (hr : ∀ r c, e ≠ .recv r c) (hk : (Rpc.after cfg es).KeepsHalfSent e)
      (hx : (Rpc.after cfg es).Numbered e) : Talks cfg handler Q es0 app (es++[e]) as (g.call e) v
  | next {es : List Event} {as : List Arrival} {v : ServerContext α β} (a : Arrival)
      (h : Talks cfg handler Q es0 app es as a.progress v) (hrec : Record a.hd a.body) (hr : a.Routable) :
      Talks cfg handler Q es0 app es (as++[a]) .start v
  | serve {es : List Event} {as : List Arrival} {g : Progress} {v : ServerContext α β} (h : Talks cfg handler Q es0 app es as g v)
      (e : ServiceEvent α β) (hw : v.WritesHeadOnly e) (hf : v.Fulfils Q e)
      (hread : (v.step handler e).taken <+: (Rpc.after cfg es).sent) (hv : (v.step handler e).fate = .serving) :
      Talks cfg handler Q es0 app es as g (v.step handler e)

/-- What holds at any time of a conversation -/
structure Agreed (Q : ServerContext.Spec α) (cfg : Config) (es0 es : List Event) (as : List Arrival) (g : Progress) (v : ServerContext α β) : Prop where
  kept : Guarded step KeepsHalfSent (Rpc.init cfg) es
  numbered : Guarded step Numbered (Rpc.init cfg) es
  ready : Ready cfg.xid (Rpc.after cfg es)
  arrives : ∃ pre, pre <+: es ∧ Arrives (Rpc.after cfg es0) as (Rpc.after cfg pre) ∧
    Receives (Rpc.after cfg pre) g.bytes g (Rpc.after cfg es)
  routable : ∀ a ∈ as, a.Routable
  ctxs : ∀ a ∈ as, ∃ pre, pre <+: es ∧ a.ctx = Rpc.after cfg pre
  ctx : ∀ c, g.ctx = some c → ∃ pre, pre <+: es ∧ c = Rpc.after cfg pre
  served : ServerContext.Served Q v
  serving : v.fate = .serving
  inStep : v.server.InStep
  asked : ∀ h ∈ v.handled, ∃ p, Made cfg es p ∧ p.message = h.1
  replied : arrived as g <+: (v.answered.map fun a => ServerContext.frame a.2).flatten
  answered : ∀ a ∈ as, ∃ record, (record,a.body) ∈ v.answered

theorem Rpc.Arrives.snoc {s t u : Rpc} {as : List Arrival} {a : Arrival} {rest : List UInt8} (h : Arrives s as t)
    (hrec : Record a.hd a.body) (hr : Receives t (a.hd++a.body++rest) a.progress u) : Arrives s (as++[a]) u := by
  induction h with
  | nil s => exact .cons a rest hrec hr (.nil u)
  | cons b rest' hb hrb h ih => exact .cons b rest' hb hrb (ih hr)

theorem Rpc.Receives.mono {s t : Rpc} {r r' : List UInt8} {g : Progress} (h : Receives s r g t) (hr : r <+: r') : Receives s r' g t := by
  induction h with
  | start => exact .start
  | chunk h b conn ha hpre ih => exact .chunk ih b conn ha (hpre.trans hr)
  | again h conn hl ih => exact .again ih conn hl
  | call h e hl hne ih => exact .call ih e hl hne

theorem guarded_concat {G : Rpc → Event → Prop} {cfg : Config} {es : List Event} {e : Event} (h : Guarded step G (Rpc.init cfg) es)
    (he : G (Rpc.after cfg es) e) : Guarded step G (Rpc.init cfg) (es++[e]) := by
  rw [guarded_append]
  exact ⟨h,he,trivial⟩

variable {cfg : Config} {handler : Handler α β} {Q : ServerContext.Spec α} {es0 es : List Event} {app : β} {as : List Arrival} {g : Progress}
  {v : ServerContext α β}

/-- The client goes on. -/
theorem Agreed.client (h : Agreed Q cfg es0 es as g v) {e : Event} {g' : Progress} (hk : (Rpc.after cfg es).KeepsHalfSent e)
    (hx : (Rpc.after cfg es).Numbered e) (hready : Ready cfg.xid (Rpc.after cfg (es++[e])))
    (hrecv : ∀ c, Receives c g.bytes g (Rpc.after cfg es) → Receives c g'.bytes g' (Rpc.after cfg (es++[e])))
    (hctx : ∀ c, g'.ctx = some c → g.ctx = some c ∨ c = Rpc.after cfg es)
    (hpre : arrived as g' <+: (v.answered.map fun a => ServerContext.frame a.2).flatten) : Agreed Q cfg es0 (es++[e]) as g' v where
  kept := guarded_concat h.kept hk
  numbered := guarded_concat h.numbered hx
  ready := hready
  arrives := by
    obtain ⟨pre,hp,h1,h2⟩ := h.arrives
    exact ⟨pre,hp.trans (List.prefix_append _ _),h1,hrecv _ h2⟩
  routable := h.routable
  ctxs a ha := by
    obtain ⟨pre,hp,hc⟩ := h.ctxs a ha
    exact ⟨pre,hp.trans (List.prefix_append _ _),hc⟩
  ctx c hc := by
    rcases hctx c hc with hc | rfl
    · obtain ⟨pre,hp,hc⟩ := h.ctx c hc
      exact ⟨pre,hp.trans (List.prefix_append _ _),hc⟩
    · exact ⟨es,List.prefix_append _ _,rfl⟩
  served := h.served
  serving := h.serving
  inStep := h.inStep
  asked y hy := by
    obtain ⟨p,hp,hm⟩ := h.asked y hy
    exact ⟨p,hp.append [e],hm⟩
  replied := hpre
  answered := h.answered

/-- What a server has sent is the beginning of its replies. -/
theorem sent_begins (hs : ServerContext.Served Q v) (hin : v.server.InStep) :
    v.server.rpc.sent <+: (v.answered.map fun a => ServerContext.frame a.2).flatten := by
  obtain ⟨freed,hsplit,hsent⟩ := hin.wire
  have hsame : ∀ l : List Pdu, (l.map Pdu.unstarted).map Pdu.record = l.map Pdu.record := fun l => by
    rw [List.map_map]
    rfl
  rw [← hs.framed,hsplit,List.map_append,hsame,List.flatten_append,← List.flatMap_def,← List.flatMap_def,hsent]
  refine (List.prefix_append_right_inj _).2 ?_
  cases v.server.rpc.outqueue with
  | nil => exact List.prefix_rfl
  | cons p q =>
    rw [sentPart_cons,List.flatMap_cons]
    exact (List.take_prefix _ _).trans (List.prefix_append _ _)

/-- Replies are added behind those that there are. -/
theorem act_answered (h : ServerContext.Served Q v) (hs : v.fate = .serving) (e : ServiceEvent α β)
    (hv : (v.act handler e).fate = .serving) : v.answered <+: (v.act handler e).answered := by
  cases e with
  | memory ok => exact List.prefix_rfl
  | disableSocket val => exact List.prefix_rfl
  | register e =>
    simp only [ServerContext.act]
    split <;> exact List.prefix_rfl
  | recv r ios =>
    simp only [ServerContext.act] at hv ⊢
    rcases ServerContext.recvStep_cases h.reader r ios hv with ⟨rpc,he,-⟩ | ⟨rpc,bs,he,-⟩ | ⟨rpc,bs,he,-⟩
    · rw [he]
      exact List.prefix_rfl
    · rw [he]
      exact List.prefix_rfl
    · rw [he] at hv ⊢
      obtain ⟨t,out,-,he,hsent⟩ := ServerContext.process_serving (s := v.took rpc bs) hs hv
      rw [he]
      exact ⟨_,hsent.answered.symm⟩
  | deferred i r app io =>
    simp only [ServerContext.act,ServerContext.replyLater] at hv ⊢
    split at hv
    · exact ⟨_,(ServerContext.rpcSendReply_sent (s := { v with app := app }) hv).answered.symm⟩
    · exact List.prefix_rfl
  | write ws =>
    simp only [ServerContext.act]
    split
    · exact List.prefix_rfl
    · split <;> exact List.prefix_rfl
  | pollError => exact List.prefix_rfl

/-- The server goes on. -/
theorem Agreed.serve (h : Agreed Q cfg es0 es as g v) (hQ : ServerContext.Promises handler Q)
    (e : ServiceEvent α β) (hw : v.WritesHeadOnly e) (hf : v.Fulfils Q e)
    (hread : (v.step handler e).taken <+: (Rpc.after cfg es).sent) (hv : (v.step handler e).fate = .serving) :
    Agreed Q cfg es0 es as g (v.step handler e) := by
  have hact : v.step handler e = v.act handler e := if_pos h.serving
  have hserved : ServerContext.Served Q (v.step handler e) := by
    rw [hact] at hv ⊢
    exact ServerContext.act_served h.served hQ h.serving e hf hv
  have hmore : v.answered <+: (v.step handler e).answered := by
    rw [hact] at hv ⊢
    exact act_answered h.served h.serving e hv
  refine { h with served := hserved, serving := hv, inStep := ?_, asked := fun y hy => ?_, replied := ?_, answered := fun a ha => ?_ }
  · rw [hact] at hv ⊢
    exact ServerContext.act_inStep h.served h.inStep h.serving hw hv
  · obtain ⟨hok,hst⟩ := after_made cfg es h.kept h.ready.live.2
    refine split_sent hok hst h.ready.fd h.numbered hread ?_
    rw [← hserved.bodies]
    exact List.mem_map_of_mem hy
  · obtain ⟨l,hl⟩ := hmore
    refine h.replied.trans ⟨(l.map fun a => ServerContext.frame a.2).flatten,?_⟩
    rw [← hl,List.map_append,List.flatten_append]
  · obtain ⟨record,hr⟩ := h.answered a ha
    exact ⟨record,hmore.subset hr⟩

/-- A reply is behind its record marker. -/
theorem Agreed.framed (h : Agreed Q cfg es0 es as g v) (hfit : ∀ p call args r, Q p call args r → r.Fits) {a : List UInt8 × List UInt8} (ha : a ∈ v.answered) :
    ∃ out, (a.1,out) ∈ v.handled ∧ ServerContext.Answered Q out a.2 ∧ a.2.take 4 = a.1.take 4 ∧ a.2.length < 2^31 := by
  obtain ⟨out,hin,hans⟩ := h.served.answers a ha
  obtain ⟨mem,endpoints,-,hout⟩ := h.served.outcome _ hin
  have hbody : a.1 ∈ (split marking v.taken).bodies := by
    rw [← h.served.bodies]
    exact List.mem_map_of_mem hin
  obtain ⟨h8,hmax⟩ := split_bounds hbody
  have hlt : a.1.length < 2^31 := hmax.trans_lt (by decide)
  obtain ⟨h1,h2⟩ := answered_echo hfit (by omega) hlt hout hans
  exact ⟨out,hin,hans,h1,h2⟩

theorem Rpc.Arrives.records {s t : Rpc} {as : List Arrival} (h : Arrives s as t) {a : Arrival} (ha : a ∈ as) : Record a.hd a.body := by
  induction h with
  | nil s => simp at ha
  | cons b rest hrec hr h ih =>
    rcases List.mem_cons.1 ha with rfl | ha
    · exact hrec
    · exact ih ha

/-- A record that the client follows is cut from the stream as it is. -/
theorem isRecord_append {hd body : List UInt8} (h : Record hd body) (hv : validMarker (be32 hd) = true) : IsRecord marking (hd++body) := by
  refine ⟨hd,body,rfl,h.header,?_⟩
  show (if validMarker (be32 hd) = true then some (be32 hd-2^31) else none) = _
  rw [if_pos hv,h.valid_size hv]

/-- Whole records that are read are replies. -/
theorem read_answered {l : List (List UInt8 × List UInt8)} (hl : ∀ b ∈ l, b.2.length < 2^31)
    (hrec : ∀ a ∈ as, Record a.hd a.body) (hr : ∀ a ∈ as, a.Routable)
    (h : (as.flatMap fun a => a.hd++a.body) <+: (l.map fun b => ServerContext.frame b.2).flatten) {a : Arrival} (ha : a ∈ as) :
    ∃ record, (record,a.body) ∈ l := by
  have hrs : ∀ r ∈ as.map fun a => a.hd++a.body, IsRecord marking r := fun r hr' => by
    obtain ⟨b,hb,rfl⟩ := List.mem_map.1 hr'
    exact isRecord_append (hrec b hb) (hr b hb).valid
  have hheaded : ∀ r ∈ l.map fun b => ServerContext.frame b.2, Headed marking r := fun r hr => by
    obtain ⟨b,hb,rfl⟩ := List.mem_map.1 hr
    exact headed_frame (hl b hb)
  have hcut := split_prefix marking (by decide) hheaded h
  rw [List.flatMap_def,split_flatten marking (by decide) hrs] at hcut
  have hin : (a.hd++a.body).drop 4 ∈ (l.map fun b => ServerContext.frame b.2).map (List.drop 4) :=
    hcut.subset (List.mem_map_of_mem (List.mem_map_of_mem ha))
  rw [List.map_map,List.drop_left' (hrec a ha).header] at hin
  obtain ⟨b,hb,hbody⟩ := List.mem_map.1 hin
  have hframe : (ServerContext.frame b.2).drop 4 = b.2 := List.drop_left' (beBytes_length _)
  exact ⟨b.1,by rw [← hbody,Function.comp_apply,hframe]; exact hb⟩

/-- The record that the client reads is complete. -/
theorem Agreed.next {a : Arrival} (h : Agreed Q cfg es0 es as a.progress v) (hfit : ∀ p call args r, Q p call args r → r.Fits) (hrec : Record a.hd a.body) (hr : a.Routable) :
    Agreed Q cfg es0 es (as++[a]) .start v := by
  obtain ⟨pre,hp,h1,h2⟩ := h.arrives
  have harr : Arrives (Rpc.after cfg es0) (as++[a]) (Rpc.after cfg es) :=
    @Rpc.Arrives.snoc _ _ _ _ a [] h1 hrec (by rw [List.append_nil]; exact h2)
  have hall : ∀ b ∈ as++[a], b.Routable := fun b hb =>
    (List.mem_append.1 hb).elim (h.routable b) fun hb => List.mem_singleton.1 hb ▸ hr
  have hread : arrived (as++[a]) .start = arrived as a.progress := by
    rw [arrived,arrived,List.flatMap_append,List.flatMap_singleton,List.append_assoc]
    exact congrArg _ (List.append_nil _)
  have hreplied : arrived (as++[a]) .start <+: (v.answered.map fun a => ServerContext.frame a.2).flatten := hread ▸ h.replied
  refine { h with arrives := ⟨es,List.prefix_rfl,harr,.start⟩, routable := hall, ctxs := fun b hb => ?_, ctx := fun c hc => by simp [Progress.start] at hc,
                  replied := hreplied, answered := fun b hb => ?_ }
  · rcases List.mem_append.1 hb with hb | hb
    · exact h.ctxs b hb
    · exact List.mem_singleton.1 hb ▸ h.ctx a.ctx rfl
  · refine read_answered (fun y hy => ?_) (fun b hb => harr.records hb) hall ?_ hb
    · obtain ⟨-,-,-,-,hlt⟩ := h.framed hfit hy
      exact hlt
    · rw [arrived,show Progress.start.bytes = [] from rfl,List.append_nil] at hreplied
      exact hreplied

/-- What a client and a server have said to each other agrees at any time. -/
theorem Talks.agreed (h : Talks cfg handler Q es0 app es as g v) (hk : Guarded step KeepsHalfSent (Rpc.init cfg) es0)
    (hx : Guarded step Numbered (Rpc.init cfg) es0) (hl : (Rpc.after cfg es0).Live) (hfd : (Rpc.after cfg es0).fd = true)
    (hQ : ServerContext.Promises handler Q) (hfit : ∀ p call args r, Q p call args r → r.Fits) : Agreed Q cfg es0 es as g v := by
  induction h with
  | start =>
    have hok : (Rpc.after cfg es0).Ok fun _ => True := after_ok cfg es0 (fun e _ => by cases e <;> simp [Queues]) hl.2
    exact ⟨hk,hx,⟨hok,hl,hfd,after_ticketed cfg es0 hl.2⟩,⟨es0,List.prefix_rfl,.nil _,.start⟩,by simp,by simp,fun c hc => by simp [Progress.start] at hc,
      ServerContext.init_served app,rfl,Server.init_inStep,by simp [ServerContext.init],List.prefix_rfl,by simp⟩
  | @chunk es as g v h b conn w ha hw hk hpre ih =>
    have hstep : Rpc.after cfg (es++[.recv (.data b) conn]) = w := by rw [after_concat,step_of_more ih.ready.live hw]
    have hall := hpre.trans (sent_begins ih.served ih.inStep)
    refine ih.client hk trivial (hstep ▸ ih.ready.recv hw) (fun c hc => ?_) (fun c hc => ?_) ?_
    · have hnext := Receives.chunk (hc.mono (List.prefix_append g.bytes b)) b conn ha List.prefix_rfl
      rw [after_concat] at hstep ⊢
      rw [hstep] at hnext ⊢
      exact hnext
    · rw [Progress.chunk] at hc
      dsimp only at hc
      split at hc
      · exact .inr (Option.some.inj hc).symm
      · exact .inl hc
    · rw [arrived,Progress.chunk,← List.append_assoc]
      exact hall
  | @again es as g v h conn w hw hk ih =>
    have hstep : Rpc.after cfg (es++[.recv .again conn]) = w := by rw [after_concat,step_of_more ih.ready.live hw]
    have hlasts : (Rpc.after cfg es).Lasts (.recv .again conn) := by
      show ((Rpc.after cfg es).recvStep .again).lasts = true
      rw [hw]
      rfl
    refine ih.client hk trivial (hstep ▸ ih.ready.recv hw) (fun c hc => ?_) (fun c hc => .inl hc) ih.replied
    rw [after_concat]
    exact .again hc conn hlasts
  | @call es as g v h e hl hr hk hx ih =>
    refine ih.client hk hx ?_ (fun c hc => ?_) (fun c hc => .inl hc) ih.replied
    · rw [after_concat]
      exact (ih.ready.call hl hr).1
    · rw [after_concat]
      exact .call hc e hl hr
  | @next es as v a h hrec hr ih => exact ih.next hfit hrec hr
  | @serve es as g v h e hw hf hread hv ih => exact ih.serve hQ e hw hf hread hv

/-- The record that a PDU is found for answers the message of that PDU. -/
theorem Agreed.found (h : Agreed Q cfg es0 es as g v) (hfit : ∀ p call args r, Q p call args r → r.Fits) (hn : (Rpc.after cfg es).nextId ≤ 2^32) {a : Arrival} (ha : a ∈ as)
    (hrec : Record a.hd a.body) {p : Pdu} (hp : p ∈ a.ctx.pool) (hx : p.xid = a.xid) :
    ∃ out, (p.message,out) ∈ v.handled ∧ ServerContext.Answered Q out a.body := by
  obtain ⟨pre,⟨post,rfl⟩,hctx⟩ := h.ctxs a ha
  have hcrash := (nextId_mono cfg pre post h.ready.live.2).1
  have hmade : Made cfg (pre++post) p.request := by
    have hg : Guarded step KeepsHalfSent (Rpc.init cfg) pre := ((guarded_append _ _ _ _ _).1 h.kept).1
    have hok := (after_made cfg pre hg hcrash).1
    rw [hctx] at hp
    exact (hok.queued p hp).origin.append post
  obtain ⟨record,hr⟩ := h.answered a ha
  obtain ⟨out,hin,hans,hecho,-⟩ := h.framed hfit hr
  obtain ⟨q,hq,rfl⟩ := h.asked _ hin
  obtain ⟨-,hfront,-⟩ := hq.message h.numbered
  have hqx : q.xid < 2^32 := by
    obtain ⟨pre',c,ws,post',-,hl,-,rfl⟩ := hq
    show (Rpc.after cfg pre').xid < 2^32
    rw [(after_ticketed cfg pre' hl.2).next]
    exact Nat.mod_lt _ (by decide)
  have hxid : a.xid = q.xid := by
    rw [Arrival.xid,← ServerContext.be32_take hrec.xid,hecho,hfront,be32_beBytes_self _ hqx]
  have hsame : p.request = q := hmade.eq_of_xid hq h.ready.live.2 hn (hx.trans hxid)
  exact ⟨out,by rw [← hsame] at hin; exact hin,hans⟩

/-- The records that the client has read are routed. -/
theorem Agreed.routed (h : Agreed Q cfg es0 es as g v) (hl : (Rpc.after cfg es0).Live) (hm : (Rpc.after cfg es0).AtMarker)
    (hfd : (Rpc.after cfg es0).fd = true) (hn : (Rpc.after cfg es).nextId ≤ 2^32) :
    ∃ pre, pre <+: es ∧ Routed (Rpc.after cfg es0) as (Rpc.after cfg pre) := by
  obtain ⟨pre,⟨post,rfl⟩,harr,-⟩ := h.arrives
  have hready : Ready cfg.xid (Rpc.after cfg es0) :=
    ⟨after_ok cfg es0 (fun e _ => by cases e <;> simp [Queues]) hl.2,hl,hfd,after_ticketed cfg es0 hl.2⟩
  have hmono := (nextId_mono cfg pre post h.ready.live.2).2
  exact ⟨pre,List.prefix_append pre post,harr.routed hready hm (hmono.trans hn) h.routable⟩

end Talks

section Demo

open Rpc ServerContext

/-- A call of the NULL procedure -/
def demoAsk : Call := { demoNull with payload := [⟨4,[1,0,2,1,1,0,0,0,0,0].flatMap beBytes⟩] }

def demoAsked : List Event := demoConnect ++ [.queuePdu demoAsk [.wrote 44]]

def demoBehind : Rpc := Rpc.after demoConfig demoAsked

/-- The reply: its marker, and its message -/
def demoHd : List UInt8 := beBytes (2^31+24)

def demoAnswer : List UInt8 := [1,1,0,0,0,0].flatMap beBytes

/-- The server reads the call in two chunks and replies. -/
def demoCalled : ServiceEvent Unit ℕ := .recv (.data (beBytes (2^31+40) ++ beBytes 1)) []

def demoReplies : ServiceEvent Unit ℕ := .recv (.data (demoAsk.message.drop 4)) [⟨1000,[.wrote 28]⟩]

/-- The reply is read in two chunks. -/
def demoRead8 : Event := .recv (.data (demoHd ++ demoAnswer.take 4)) .started

def demoRead20 : Event := .recv (.data (demoAnswer.drop 4)) .started

/-- The NULL procedure has no results, and there is room for the reply. -/
def demoPromise : Spec Unit := fun _ _ _ r => r.bytes = [] ∧ r.Fits

theorem demoHandler_fits : Promises demoHandler demoPromise := by
  intro app p call args r hr
  obtain rfl := List.mem_singleton.1 hr
  exact ⟨rfl,by decide,by decide⟩

theorem demo_quiet {s : Rpc} {r : Recv} (hq : s.outqueue = []) {w : Rpc} (hr : s.recvStep r = .more w) (conn : Connect) :
    s.KeepsHalfSent (.recv r conn) := by
  refine ⟨fun _ p hp => ?_,fun t ht => ?_⟩
  · rw [HalfSent,hq] at hp
    simp at hp
  · rw [hr] at ht
    simp at ht

/-- The call is sent and answered. -/
theorem demo_served : Talks demoConfig demoHandler demoPromise demoAsked 0 demoAsked [] .start
    ((((ServerContext.init 0).step demoHandler (.register demoEndpoint)).step demoHandler demoCalled).step demoHandler demoReplies) := by
  have h1 := @Talks.serve _ _ demoConfig demoHandler demoPromise demoAsked 0 _ _ _ _ .start (.register demoEndpoint) trivial
    trivial (by decide +kernel) (by decide +kernel)
  have h2 := h1.serve demoCalled trivial trivial (by decide +kernel) (by decide +kernel)
  exact h2.serve demoReplies trivial trivial (by decide +kernel) (by decide +kernel)

theorem inTwo_progress {s : Rpc} {hd body : List UInt8} (hrec : Record hd body) :
    (Progress.start.chunk s (hd ++ body.take 4) (s.afterXid hd body)).chunk (s.afterXid hd body) (body.drop 4) (s.afterRest hd body) =
      (s.inTwo hd body).progress := by
  have hlen : (hd ++ body.take 4).length = 8 := by rw [List.length_append,hrec.header,List.length_take,min_eq_left hrec.xid]
  have hall : hd ++ body.take 4 ++ body.drop 4 = hd++body := by rw [List.append_assoc,List.take_append_drop]
  simp only [Progress.chunk,Progress.start,Arrival.progress,inTwo,List.nil_append,hall,hlen]
  rfl

def goesOn : Ctl → Bool
  | .more _ => true
  | _ => false

theorem more_of_goesOn {c : Ctl} (h : goesOn c = true) : c = .more c.rpc := by
  cases c with
  | more w => rfl
  | fail w => simp [goesOn] at h
  | fault w => simp [goesOn] at h

/-- The call is answered. -/
theorem demo_talks : Talks demoConfig demoHandler demoPromise demoAsked 0 ((demoAsked++[demoRead8])++[demoRead20])
    ([]++[demoBehind.inTwo demoHd demoAnswer]) .start
    ((((ServerContext.init 0).step demoHandler (.register demoEndpoint)).step demoHandler demoCalled).step demoHandler demoReplies) := by
  have hrec : Record demoHd demoAnswer := ⟨by decide,by decide,by decide⟩
  have hw : demoBehind.recvStep (.data (demoHd ++ demoAnswer.take 4)) = .more (demoBehind.afterXid demoHd demoAnswer) := by
    have hmore := more_of_goesOn (c := demoBehind.recvStep (.data (demoHd ++ demoAnswer.take 4))) (by decide +kernel)
    rw [afterXid,step_of_more ⟨by decide +kernel,by decide +kernel⟩ hmore]
    exact hmore
  have hnext : Rpc.after demoConfig (demoAsked++[demoRead8]) = demoBehind.afterXid demoHd demoAnswer := by
    rw [after_concat,demoBehind,afterXid,demoRead8]
  have hw' : (demoBehind.afterXid demoHd demoAnswer).recvStep (.data (demoAnswer.drop 4)) =
      .more (demoBehind.afterRest demoHd demoAnswer) := by
    have hmore := more_of_goesOn (c := (demoBehind.afterXid demoHd demoAnswer).recvStep (.data (demoAnswer.drop 4))) (by decide +kernel)
    rw [afterRest,step_of_more ⟨by decide +kernel,by decide +kernel⟩ hmore]
    exact hmore
  have hread := demo_served.chunk (demoHd ++ demoAnswer.take 4) .started _ (by decide +kernel) hw (demo_quiet (by decide +kernel) hw _)
    (by decide +kernel)
  have hboth := hread.chunk (demoAnswer.drop 4) .started (demoBehind.afterRest demoHd demoAnswer) (by decide +kernel)
    (hnext ▸ hw') (demo_quiet (by decide +kernel) (hnext ▸ hw') _) (by decide +kernel)
  change Talks _ _ _ _ _ _ _ ((Progress.start.chunk demoBehind _ _).chunk (Rpc.after demoConfig (demoAsked++[demoRead8])) _ _) _ at hboth
  rw [hnext] at hboth
  refine Talks.next (demoBehind.inTwo demoHd demoAnswer) ?_ hrec ?_
  · rw [← inTwo_progress hrec]
    exact hboth
  · refine inTwo_routable (by decide +kernel) (by decide +kernel) (fun p hp => ?_) (by decide +kernel) (by decide +kernel)
      (by decide +kernel)
    have hx : be32 demoAnswer = 1 := by decide
    have hfound : p = (demoBehind.lookup 1).1.getD (demoAsk.pdu 0 1) := by rw [← hx,hp,Option.getD_some]
    rw [hfound]
    exact ⟨by decide +kernel,by decide +kernel⟩

end Demo

end Libnfs
