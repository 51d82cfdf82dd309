import Libnfs.Interleaved

/-! What becomes of the PDUs while a record arrives: one turn of the read loop takes the PDU that waits for the record, and
all other PDUs stay until the application or a timeout takes them back. -/
namespace Libnfs

open ByteWords Zdr RecordMark

namespace Rpc

variable {s t u c : Rpc} {p : Pdu} {hd body b rest : List UInt8} {x0 x : ℕ}

/-- The bytes of the stream `r` arrive in chunks, from the context `s` on. Between any two the application makes calls and time
passes, and the connection lasts. -/
inductive Receives (s : Rpc) (r : List UInt8) : Progress → Rpc → Prop
  | start : Receives s r .start s
  | chunk {g : Progress} {t : Rpc} (h : Receives s r g t) (b : List UInt8) (conn : Connect) (ha : t.Accepts b.length)
      (hpre : g.bytes++b <+: r) : Receives s r (g.chunk t b (t.step (.recv (.data b) conn))) (t.step (.recv (.data b) conn))
  | again {g : Progress} {t : Rpc} (h : Receives s r g t) (conn : Connect) (hl : t.Lasts (.recv .again conn)) :
      Receives s r g (t.step (.recv .again conn))
  | call {g : Progress} {t : Rpc} (h : Receives s r g t) (e : Event) (hl : t.Lasts e) (hr : ∀ r c, e ≠ .recv r c) :
      Receives s r (g.call e) (t.step e)

/-- What has become of the PDUs, since a record began to arrive in the context `s`: those that waited still do, or they were
withdrawn, or one was found for the record; and that one does not come back. -/
structure Tracked (x0 : ℕ) (s : Rpc) (body : List UInt8) (g : Progress) (t : Rpc) : Prop where
  older : Older s t
  kept : ∀ id ∈ s.ids, id ∈ t.ids ∨ Withdrawn s t id ∨ ∃ c p, g.ctx = some c ∧ (c.lookup (be32 body)).1 = some p ∧ p.id = id
  ctx : ∀ c, g.ctx = some c → Ready x0 c ∧ Older s c ∧ Older c t ∧ ∀ id ∈ s.ids, id ∈ c.ids ∨ Withdrawn s c id
  gone : ∀ c p, g.ctx = some c → (c.lookup (be32 body)).1 = some p → p.id ∉ t.ids ∧ p.id < c.nextId
  idle : (∀ c, g.ctx = some c → (c.lookup (be32 body)).1 = none) → ∀ y ∈ g.turns, Idle y.1 y.2
  same : g.calls = [] → (g.ctx = none → t.shared = s.shared) ∧
    ∀ c, g.ctx = some c → c.shared = s.shared ∧ t.shared = (c.lookup (be32 body)).2.shared

theorem ids_of_shared (h : t.shared = s.shared) : t.ids = s.ids := show t.shared.ids = s.shared.ids by rw [h]

/-- Nothing but the reader, the log and the memory has changed. -/
theorem Older.of_shared (h : t.shared = s.shared) (hl : s.log <+: t.log) : Older s t where
  log := hl
  cancelled := show s.cancelled <+: t.shared.cancelled by rw [h]; exact List.prefix_rfl
  nextId := show s.nextId ≤ t.shared.nextId by rw [h]; exact le_refl _
  fresh id hid := .inl (ids_of_shared h ▸ hid)

theorem lookup_ids (hw : 0 < s.waitpdu.length) (h : s.lookup x = (some p,u)) :
    s.ids.Perm (p.id::u.ids) ∧ u.nextId = s.nextId ∧ u.cancelled = s.cancelled := by
  obtain ⟨-,q,w,n,rfl,-,-,hperm⟩ := @rpcFindPdu_some (s.setRm1 x) u x p hw h
  exact ⟨hperm.map Pdu.id,rfl,rfl⟩

theorem Ticketed.ids_nodup (h : s.Ticketed x0) : s.ids.Nodup := by
  have hnd : (s.pool.map Pdu.ticket).Nodup := by
    have hall : (s.outstanding.map Pdu.ticket).Nodup := List.nodup_iff_count_le_one.2 h.once
    rw [outstanding,List.map_append] at hall
    exact hall.of_append_left
  have hids : s.ids = (s.pool.map Pdu.ticket).map Prod.fst := by
    rw [ids,List.map_map]
    rfl
  rw [hids]
  refine hnd.map_on fun y hy z hz hyz => ?_
  obtain ⟨p,hp,rfl⟩ := List.mem_map.1 hy
  obtain ⟨q,hq,rfl⟩ := List.mem_map.1 hz
  rw [h.eq_of_id (pool_subset_outstanding hp) (pool_subset_outstanding hq) hyz]

/-- A turn only takes PDUs out of the queues. -/
theorem Effect.older {g : Progress} (he : Effect body g t b u) (h : Ready x0 t) (hl : t.log <+: u.log) : Older t u := by
  rcases he.shared with ⟨-,hsh⟩ | ⟨-,-,hsh⟩
  · exact .of_shared hsh hl
  · cases hf : (t.lookup (be32 body)).1 with
    | none =>
      rw [lookup_none hf] at hsh
      exact .of_shared hsh hl
    | some p =>
      obtain ⟨hperm,hn,hc⟩ := lookup_ids h.ok.hashes (Prod.ext hf rfl)
      refine ⟨hl,?_,?_,fun id hid => .inl ?_⟩
      · exact show t.cancelled <+: u.shared.cancelled by rw [hsh]; exact hc.symm ▸ List.prefix_rfl
      · exact show t.nextId ≤ u.shared.nextId by rw [hsh]; exact hn.ge
      · rw [ids_of_shared hsh] at hid
        exact hperm.symm.subset (List.mem_cons_of_mem _ hid)

theorem Tracked.start (s : Rpc) : Tracked x0 s body .start s :=
  ⟨.refl s,fun _ h => .inl h,fun _ h => by simp [Progress.start] at h,fun _ _ h => by simp [Progress.start] at h,
    fun _ _ h => by simp [Progress.start] at h,fun _ => ⟨fun _ => rfl,fun _ h => by simp [Progress.start] at h⟩⟩

/-- A turn that is not the one of the xid -/
theorem Tracked.turn {g g' : Progress} (hT : Tracked x0 s body g t) (hctx : g'.ctx = g.ctx) (hcalls : g'.calls = g.calls)
    (hsh : u.shared = t.shared) (hl : t.log <+: u.log)
    (hidle : (∀ c, g'.ctx = some c → (c.lookup (be32 body)).1 = none) → ∀ y ∈ g'.turns, Idle y.1 y.2) :
    Tracked x0 s body g' u := by
  have hold := Older.of_shared hsh hl
  have hids := ids_of_shared hsh
  refine ⟨hT.older.trans hold,fun id hid => ?_,fun c hc => ?_,fun c p hc hp => ?_,hidle,fun hnil => ?_⟩
  · rw [hids,hctx]
    exact (hT.kept id hid).imp_right fun hor => hor.imp_left fun hw => hw.older hold
  · obtain ⟨h1,h2,h3,h4⟩ := hT.ctx c (hctx ▸ hc)
    exact ⟨h1,h2,h3.trans hold,h4⟩
  · rw [hids]
    exact hT.gone c p (hctx ▸ hc) hp
  · rw [hctx,hsh]
    exact hT.same (hcalls ▸ hnil)

theorem Tracked.chunk {g : Progress} (hT : Tracked x0 s body g t) (h : Ready x0 t) (he : Effect body g t b u)
    (hl : t.log <+: u.log) : Tracked x0 s body (g.chunk t b u) u := by
  have hold := he.older h hl
  have hidle : (∀ c, (g.chunk t b u).ctx = some c → (c.lookup (be32 body)).1 = none) →
      (∀ c, g.ctx = some c → (c.lookup (be32 body)).1 = none) → ∀ y ∈ (g.chunk t b u).turns, Idle y.1 y.2 := by
    intro hnew hnone y hy
    rcases List.mem_append.1 hy with hy | hy
    · exact hT.idle hnone y hy
    · obtain rfl := List.mem_singleton.1 hy
      exact he.idle hnew
  rcases he.shared with ⟨hctx,hsh⟩ | ⟨hnone,hctx,hsh⟩
  · exact hT.turn hctx rfl hsh hl fun hn => hidle hn (by rw [← hctx]; exact hn)
  · have hkept : ∀ id ∈ s.ids, id ∈ t.ids ∨ Withdrawn s t id := by
      intro id hid
      refine (hT.kept id hid).imp_right fun hor => hor.resolve_right ?_
      rintro ⟨c,p,hc,-⟩
      simp [hnone] at hc
    have hthis : ∀ c, (g.chunk t b u).ctx = some c → c = t := fun c hc => Option.some.inj (hc.symm.trans hctx)
    refine ⟨hT.older.trans hold,fun id hid => ?_,fun c hc => ?_,fun c p hc hp => ?_,fun hn => ?_,fun hcalls => ?_⟩
    · rcases hkept id hid with hin | hw
      · cases hf : (t.lookup (be32 body)).1 with
        | none => exact .inl (by rw [ids_of_shared hsh,ids_of_shared (lookup_none hf)]; exact hin)
        | some p =>
          obtain ⟨hperm,-⟩ := lookup_ids h.ok.hashes (Prod.ext hf rfl)
          rcases List.mem_cons.1 (hperm.subset hin) with rfl | hin
          · exact .inr (.inr ⟨t,p,hctx,hf,rfl⟩)
          · exact .inl (by rw [ids_of_shared hsh]; exact hin)
      · exact .inr (.inl (hw.older hold))
    · obtain rfl := hthis c hc
      exact ⟨h,hT.older,hold,hkept⟩
    · obtain rfl := hthis c hc
      obtain ⟨hperm,-⟩ := lookup_ids h.ok.hashes (Prod.ext hp rfl)
      have hnd := hperm.nodup_iff.1 h.ticketed.ids_nodup
      refine ⟨by rw [ids_of_shared hsh]; exact (List.nodup_cons.1 hnd).1,?_⟩
      obtain ⟨q,hq,hqp⟩ := List.mem_map.1 (hperm.symm.subset List.mem_cons_self)
      rw [← hqp]
      exact (h.ticketed.issued q (pool_subset_outstanding hq)).1
    · exact hidle hn (by simp [hnone])
    · refine ⟨fun hn => by simp [hctx] at hn,fun c hc => ?_⟩
      obtain rfl := hthis c hc
      exact ⟨(hT.same hcalls).1 hnone,hsh⟩

theorem Tracked.again {g : Progress} (hT : Tracked x0 s body g t) (hi : Idle t u) : Tracked x0 s body g u := by
  obtain ⟨hsh,hl,-⟩ := hi
  exact hT.turn rfl rfl hsh (hl ▸ List.prefix_rfl) hT.idle

theorem Tracked.call {g : Progress} {e : Event} (hT : Tracked x0 s body g t) (hq : Quiet t u) : Tracked x0 s body (g.call e) u := by
  refine ⟨hT.older.trans hq.toOlder,fun id hid => ?_,fun c hc => ?_,fun c p hc hp => ?_,hT.idle,fun hcalls => ?_⟩
  · rcases hT.kept id hid with hin | hw | hf
    · exact (hq.kept id hin).imp_right fun hw => .inl (hw.since hT.older)
    · exact .inr (.inl (hw.older hq.toOlder))
    · exact .inr (.inr hf)
  · obtain ⟨h1,h2,h3,h4⟩ := hT.ctx c hc
    exact ⟨h1,h2,h3.trans hq.toOlder,h4⟩
  · obtain ⟨h1,h2⟩ := hT.gone c p hc hp
    refine ⟨fun hin => ?_,h2⟩
    rcases hq.fresh _ hin with hin | hge
    · exact h1 hin
    · have hn := (hT.ctx c hc).2.2.1.nextId
      omega
  · simp [Progress.call] at hcalls

theorem Receives.long {g : Progress} {r : List UInt8} (h : Receives s r g t) (hc : g.ctx = some c) : 8 ≤ g.bytes.length := by
  induction h with
  | start => simp [Progress.start] at hc
  | @chunk g t h b conn ha hpre ih =>
    have hlen : (g.chunk t b (t.step (.recv (.data b) conn))).bytes.length = g.bytes.length+b.length := List.length_append
    rw [Progress.chunk] at hc
    dsimp only at hc
    split at hc
    · omega
    · have := ih hc
      omega
  | again h conn hl ih => exact ih hc
  | call h e hl hr ih => exact ih hc

theorem Routable.before {l m : List Rpc} (h : Routable c hd body m) (hlm : l ⊆ m) : Routable c hd body l :=
  ⟨h.valid,h.room,h.followed,fun t ht => h.program t (hlm ht),fun t ht => h.padding t (hlm ht)⟩

/-- A record on its way: what is asked of it holds up to here. -/
theorem Receives.halfway {g : Progress} (h : Receives s (hd++body++rest) g t) (hs : Ready x0 s) (hm : s.AtMarker)
    (hrec : Record hd body) (hle : g.bytes.length ≤ (hd++body).length) (hr : ∀ c, g.ctx = some c → Routable c hd body g.before) :
    Ready x0 t ∧ Halfway s hd body g t ∧ Tracked x0 s body g t := by
  induction h with
  | start => exact ⟨hs,.marker rfl hm.1 hm.2 (by simp [Progress.start]) (by rw [hm.2]; rfl) rfl rfl,.start s⟩
  | @chunk g t h b conn ha hpre ih =>
    have hbefore : (g.chunk t b (t.step (.recv (.data b) conn))).before = g.before ++ [t] := List.map_append
    rw [hbefore] at hr
    have hprior : ∀ c, g.ctx = some c → Routable c hd body g.before := by
      intro c hc
      have h8 := h.long hc
      exact (hr c (by rw [Progress.chunk,if_neg (by omega)]; exact hc)).before fun t ht => List.mem_append_left _ ht
    have hle : (g.bytes++b).length ≤ (hd++body).length := hle
    obtain ⟨h1,h2,h3⟩ := ih ((List.prefix_append _ _).length_le.trans hle) hprior
    obtain ⟨w,hw,hhalf,heff⟩ := h2.chunk h1 hrec ha (List.prefix_of_prefix_length_le hpre (List.prefix_append _ _) hle) hr
    have hstep : t.step (.recv (.data b) conn) = w := by
      rw [step_live h1.live,act,hw]
      rfl
    have hlog := recvStep_log h1.ok (.data b)
    rw [hw] at hlog
    rw [hstep]
    exact ⟨h1.recv hw,hhalf,h3.chunk h1 heff hlog⟩
  | @again g t h conn hl ih =>
    obtain ⟨h1,h2,h3⟩ := ih hle hr
    obtain ⟨w,hw⟩ : ∃ w, t.recvStep .again = .more w := by
      have hturn := recvStep_turn h1.ok .again
      have hl : (t.recvStep .again).lasts = true := hl
      generalize t.recvStep .again = k at hturn hl
      cases hturn with
      | none => exact ⟨_,rfl⟩
      | idle v => exact ⟨_,rfl⟩
      | lost v => simp [Ctl.lasts] at hl
      | abort v bs hr => simp at hr
      | part v w bs hr => simp at hr
      | full v w bs hr => simp at hr
    have hstep : t.step (.recv .again conn) = w := by
      rw [step_live h1.live,act,hw]
      rfl
    obtain ⟨hhalf,hidle⟩ := h2.again h1 hw
    rw [hstep]
    exact ⟨h1.recv hw,hhalf,h3.again hidle⟩
  | @call g t h e hl hne ih =>
    obtain ⟨h1,h2,h3⟩ := ih hle hr
    obtain ⟨hready,hq⟩ := h1.call hl hne
    exact ⟨hready,h2.call hq,h3.call hq⟩

/-- The reader asks for no byte behind a record that is half read. -/
theorem Receives.fits {g : Progress} (h : Receives s (hd++body++rest) g t) (hs : Ready x0 s) (hm : s.AtMarker)
    (hrec : Record hd body) (hlt : g.bytes.length < (hd++body).length) (hr : ∀ c, g.ctx = some c → Routable c hd body g.before)
    (hacc : t.Accepts b.length) : (g.bytes++b).length ≤ (hd++body).length := by
  obtain ⟨hready,hhalf,-⟩ := h.halfway hs hm hrec hlt.le hr
  have hlen : (hd++body).length = 4+body.length := by rw [List.length_append,hrec.header]
  rw [hlen] at hlt ⊢
  rw [List.length_append]
  exact hhalf.fits hready hrec hacc hlt hr

/-- What arrives is what the events take. -/
theorem Receives.run {g : Progress} {r : List UInt8} (h : Receives s r g t) :
    ∃ fs, t = Transition.run step s fs ∧ fs.flatMap Event.taken = g.bytes := by
  have hone : ∀ {fs : List Event} {u : Rpc} (e : Event), u = Transition.run step s fs →
      u.step e = Transition.run step s (fs++[e]) ∧ (fs++[e]).flatMap Event.taken = fs.flatMap Event.taken ++ e.taken := by
    rintro fs u e rfl
    exact ⟨(Transition.run_append step s fs [e]).symm,by rw [List.flatMap_append]; simp⟩
  induction h with
  | start => exact ⟨[],rfl,rfl⟩
  | chunk h b conn ha hpre ih =>
    obtain ⟨fs,hrun,hb⟩ := ih
    obtain ⟨h1,h2⟩ := hone (.recv (.data b) conn) hrun
    exact ⟨_,h1,by rw [h2,hb]; rfl⟩
  | again h conn hl ih =>
    obtain ⟨fs,hrun,hb⟩ := ih
    obtain ⟨h1,h2⟩ := hone (.recv .again conn) hrun
    exact ⟨_,h1,by rw [h2,hb]; exact List.append_nil _⟩
  | call h e hl hr ih =>
    obtain ⟨fs,hrun,hb⟩ := ih
    obtain ⟨h1,h2⟩ := hone e hrun
    have htaken : e.taken = [] := by
      cases e with
      | recv r c => exact absurd rfl (hr r c)
      | _ => rfl
    exact ⟨_,h1,by rw [h2,hb,htaken]; exact List.append_nil _⟩

/-- A record that has arrived: its marker and its body, the context in which its xid was complete, the turns of the read loop that
took its bytes, and the calls in between. -/
structure Arrival where
  hd : List UInt8
  body : List UInt8
  ctx : Rpc
  turns : List (Rpc × Rpc)
  calls : List Event

namespace Arrival

def xid (a : Arrival) : ℕ := be32 a.body

/-- The PDU that is found for the record -/
def found (a : Arrival) : Option Pdu := (a.ctx.lookup a.xid).1

/-- What the record leaves in the log: itself and the callback of its PDU, with what it says -/
def entries (a : Arrival) : List LogEntry := a.found.elim [] fun p => fullLog p (headOf p a.body)

/-- What it leaves in the memory of the application -/
def remember (a : Arrival) (mem : ℕ → UInt8) : ℕ → UInt8 :=
  a.found.elim mem fun p => memAfter mem p a.body (verdict a.ctx.nfsV3 p (headOf p a.body))

/-- The record is one the reader can follow. -/
def Routable (a : Arrival) : Prop := a.ctx.Routable a.hd a.body (a.turns.map Prod.fst)

def progress (a : Arrival) : Progress := ⟨a.hd++a.body,some a.ctx,a.turns,a.calls⟩

end Arrival

/-- The record `a` has arrived in a context that was `s` before, and is dealt with. -/
structure Received (x0 : ℕ) (s : Rpc) (a : Arrival) (t : Rpc) : Prop where
  ready : Ready x0 t
  marker : t.AtMarker
  log : replies t.log = replies s.log ++ a.entries
  mem : t.mem = a.remember s.mem
  tracked : Tracked x0 s a.body a.progress t

theorem replies_fullLog (p : Pdu) (buf : List UInt8) : replies (fullLog p buf) = fullLog p buf := by
  have hst : (answer p buf).1 = .success ∨ (answer p buf).1 = .error := by
    unfold answer
    split
    · split
      · exact .inr rfl
      · split
        · exact .inl rfl
        · exact .inr rfl
    · exact .inr rfl
  unfold fullLog replies
  generalize answer p buf = r at hst
  obtain ⟨st,d⟩ := r
  rcases hst with rfl | rfl
  · rfl
  · rfl

/-- A record that has arrived is dealt with, whatever the chunks and whatever was called meanwhile. -/
theorem Receives.received {a : Arrival} (h : Receives s (a.hd++a.body++rest) a.progress t) (hs : Ready x0 s) (hm : s.AtMarker)
    (hrec : Record a.hd a.body) (hr : a.Routable) : Received x0 s a t := by
  obtain ⟨hready,hhalf,htr⟩ := h.halfway hs hm hrec (le_refl _) fun c hc => Option.some.inj hc ▸ hr
  have hlen : a.progress.bytes.length = 4+a.body.length := by
    show (a.hd++a.body).length = _
    rw [List.length_append,hrec.header]
  have hthis : ∀ {c : Rpc}, a.progress.ctx = some c → c = a.ctx := fun hc => (Option.some.inj hc).symm
  cases hhalf with
  | marker hc => simp [Arrival.progress] at hc
  | reply c u v p l hc hrep hfd hdis hst h8 hend hon hm' hvl hlog hmem =>
    obtain rfl := hthis hc
    obtain ⟨hfind,hu3⟩ := reply_found hrep
    have hfind : a.found = some p := hfind
    have hfol := hr.followed p hfind
    rw [← hu3] at hfol
    have hvm := hst.whole hrep hfol hlen
    have ha := hend hvm.1
    have hl : l = fullLog p (headOf p a.body) := by
      have hvlog := ha.log
      rw [hvl] at hvlog
      exact List.append_cancel_left hvlog
    simp only [readerPart,Prod.mk.injEq] at hon
    refine ⟨hready,⟨hon.1.symm.trans hvm.1,hon.2.1.symm.trans hvm.2⟩,?_,?_,htr⟩
    · rw [hlog,hl,replies_fullLog,Arrival.entries,hfind]
      rfl
    · rw [← hm',ha.mem,Arrival.remember,hfind,← hu3,← hmem]
      rfl
  | unknown c hc hf hst hrm hi hlt =>
    rw [hlen] at hi
    omega
  | skipped c hc hf hm' hb hlog hmem =>
    obtain rfl := hthis hc
    have hfind : a.found = none := hf
    refine ⟨hready,hm',?_,?_,htr⟩
    · rw [hlog,Arrival.entries,hfind]
      exact (List.append_nil _).symm
    · rw [hmem,Arrival.remember,hfind]
      rfl

end Rpc
end Libnfs
