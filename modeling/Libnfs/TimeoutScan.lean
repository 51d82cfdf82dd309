import Libnfs.LinksInvariant

/-! `rpc_timeout_scan` (`lib/socket.c`) over the linked queues, with the times of the PDUs and with callbacks
that queue new PDUs while the scan is under way. -/
namespace Libnfs
namespace TimeoutScan

open Links Links.Ctx Intrusive Function

/-- What `pdu_set_timeout` and the scan read of a PDU -/
structure Pdu where
  timeout : ℕ
  majorTimeout : ℕ
  numDone : ℕ
  doNotRetry : Bool
  deriving DecidableEq, Repr

/-- A call that a callback queues: the time until then, and what becomes of it in `rpc_queue_pdu`. -/
structure NewPdu where
  elapsed : ℕ
  ok : Bool
  sent : ℕ
  numDone : ℕ
  doNotRetry : Bool

/-- The context and its PDUs. `clock` is `rpc_current_time`, `queued` what the callback of a PDU queues, and
`timedOut` the PDUs completed with `RPC_STATUS_TIMEOUT`. -/
structure Rpc where
  ctx : Ctx
  pdu : ℕ → Pdu
  timeout : ℤ
  retrans : ℤ
  lastTimeoutScan : ℕ
  lastSuccessfulRpcResponse : ℕ
  clock : ℕ
  queued : ℕ → List NewPdu
  timedOut : List ℕ

namespace Rpc

def setPdu (p : ℕ) (x : Pdu) (s : Rpc) : Rpc := { s with pdu := update s.pdu p x }

/-- `pdu_set_timeout`, with `HAVE_CLOCK_GETTIME` -/
def pduSetTimeout (s : Rpc) (x : Pdu) (now : ℕ) : Pdu :=
  if s.timeout ≤ 0 then { x with timeout := 0 }
  else
    let now := if now = 0 then s.clock else now
    let minor := now+s.timeout.toNat
    let x := if x.timeout = 0 then { x with timeout := minor } else x
    if x.majorTimeout = 0 then
      { x with timeout := minor, majorTimeout := max ((now+s.timeout*s.retrans)%2^64).toNat minor }
    else x

/-- A call is allocated, gets its times and is queued. -/
def rpcQueuePdu (n : NewPdu) (s : Rpc) : Option Rpc :=
  let s := { s with clock := s.clock+n.elapsed }
  let x := s.pduSetTimeout ⟨0,0,n.numDone,n.doNotRetry⟩ 0
  match (s.ctx.rpcAllocatePdu .call).rpcQueuePdu .call n.ok n.sent s.ctx.fresh with
  | none => none
  | some c => some { s.setPdu s.ctx.fresh x with ctx := c }

def rpcQueuePdus : List NewPdu → Rpc → Option Rpc
  | [], s => some s
  | n::ns, s =>
    match s.rpcQueuePdu n with
    | none => none
    | some s => rpcQueuePdus ns s

/-- The callback of `p` with `RPC_STATUS_TIMEOUT`, and `rpc_free_pdu` -/
def complete (p : ℕ) (s : Rpc) : Option Rpc :=
  match rpcQueuePdus (s.queued p) { s with timedOut := s.timedOut++[p] } with
  | none => none
  | some s => some { s with ctx := s.ctx.rpcFreePdu p }

/-- `!pdu->do_not_retry && rpc->retrans > 0` -/
def MayRetry (s : Rpc) (p : ℕ) : Prop := (s.pdu p).doNotRetry = false ∧ 0 < s.retrans

instance (s : Rpc) (p : ℕ) : Decidable (s.MayRetry p) := inferInstanceAs (Decidable (_ ∧ _))

/-- The loop over the out queue -/
def scanOut (t : ℕ) : ℕ → Option ℕ → Rpc → Option Rpc
  | 0, _, _ => none
  | _+1, none, s => some s
  | fuel+1, some p, s =>
    let n := s.ctx.next p
    if (s.pdu p).timeout = 0 then scanOut t fuel n s
    else if t < (s.pdu p).timeout then scanOut t fuel n s
    else if s.MayRetry p then
      scanOut t fuel n (s.setPdu p (s.pduSetTimeout { s.pdu p with timeout := 0, majorTimeout := 0 } t))
    else
      match s.ctx.rpcRemovePduFromQueue .out p with
      | none => none
      | some c =>
        match { s with ctx := c }.complete p with
        | none => none
        | some s => scanOut t fuel n s

/-- A number as an `int` -/
def toInt (n : ℤ) : ℤ := (n+2^31)%2^32-2^31

/-- `last_rpc_msecs > rpc->timeout` -/
def unresponsive (t : ℕ) (s : Rpc) : Bool :=
  s.timeout < (if s.lastSuccessfulRpcResponse = 0 then -1 else toInt (t-s.lastSuccessfulRpcResponse))

/-- The new times of a PDU that goes back to the out queue; its `num_done` is set there. -/
def retried (t : ℕ) (s : Rpc) (x : Pdu) : Pdu :=
  let x := { x with timeout := 0, majorTimeout := if x.majorTimeout ≤ t then 0 else x.majorTimeout }
  { s.pduSetTimeout x t with numDone := 0 }

/-- The loop over a wait chain, with `need_reconnect` -/
def scanWait (t : ℕ) (a : Loc) : ℕ → Option ℕ → Bool × Rpc → Option (Bool × Rpc)
  | 0, _, _ => none
  | _+1, none, s => some s
  | fuel+1, some p, (need,s) =>
    let n := s.ctx.next p
    if (s.pdu p).timeout = 0 then scanWait t a fuel n (need,s)
    else if t < (s.pdu p).timeout ∧ t < (s.pdu p).majorTimeout then scanWait t a fuel n (need,s)
    else
      match s.ctx.rpcRemovePduFromQueue a p with
      | none => none
      | some c =>
        let s := { s with ctx := c.dec }
        if s.MayRetry p then
          let need := need || ((s.pdu p).majorTimeout ≤ t && s.unresponsive t)
          let s := s.setPdu p (s.retried t (s.pdu p))
          scanWait t a fuel n (need,{ s with ctx := s.ctx.rpcReturnToOutqueue p })
        else
          match s.complete p with
          | none => none
          | some s => scanWait t a fuel n (need,s)

def scanWaits (t fuel : ℕ) : List ℕ → Bool × Rpc → Option (Bool × Rpc)
  | [], s => some s
  | h::hs, s =>
    match scanWait t (.wait h) fuel (s.2.ctx.queue (.wait h)).head s with
    | none => none
    | some s => scanWaits t fuel hs s

/-- `rpc_timeout_scan`, with so much fuel for each loop, and what it returns -/
def rpcTimeoutScan (fuel : ℕ) (s : Rpc) : Option (ℤ × Rpc) :=
  let t := s.clock
  if t ≤ s.lastTimeoutScan+1000 then some (0,s)
  else
    match scanOut t fuel (s.ctx.queue .out).head { s with lastTimeoutScan := t } with
    | none => none
    | some s =>
      match scanWaits t fuel (List.range s.ctx.numHashes) (false,s) with
      | none => none
      | some (need,s) => some (if need then -1 else 0,s)

end Rpc

/-- A PDU in the queue `a` that the scan takes for timed out -/
def Expired (t : ℕ) : Loc → Pdu → Prop
  | .out, x => x.timeout ≠ 0 ∧ x.timeout ≤ t
  | .wait _, x => x.timeout ≠ 0 ∧ (x.timeout ≤ t ∨ x.majorTimeout ≤ t)

instance (t : ℕ) : ∀ (a : Loc) (x : Pdu), Decidable (Expired t a x)
  | .out, _ => inferInstanceAs (Decidable (_ ∧ _))
  | .wait _, _ => inferInstanceAs (Decidable (_ ∧ (_ ∨ _)))

/-- Both times of the PDU are still to come. -/
def Later (t : ℕ) (x : Pdu) : Prop := t < x.timeout ∧ t < x.majorTimeout

theorem Later.not_expired {t : ℕ} {x : Pdu} (h : Later t x) (a : Loc) : ¬ Expired t a x := by
  obtain ⟨h₁,h₂⟩ := h
  cases a <;> simp only [Expired] <;> omega

/-- New times are later than the time they are set at. -/
theorem pduSetTimeout_later {s : Rpc} (hs : 0 < s.timeout) {t n : ℕ} (hn : t ≤ n ∧ n ≠ 0 ∨ n = 0 ∧ t ≤ s.clock)
    {x : Pdu} (hx : x.timeout = 0) (hm : x.majorTimeout = 0 ∨ t < x.majorTimeout) :
    Later t (s.pduSetTimeout x n) := by
  have hnow : t ≤ (if n = 0 then s.clock else n) := by
    split <;> omega
  unfold Rpc.pduSetTimeout
  rw [if_neg (by omega)]
  generalize (if n = 0 then s.clock else n) = now at hnow
  have hlt : t < now+s.timeout.toNat := by omega
  simp only [if_pos hx]
  split
  · exact ⟨hlt,lt_max_of_lt_right hlt⟩
  · next hmajor => exact ⟨hlt,hm.resolve_left hmajor⟩

section Queue

variable {c : Ctx} {l : Loc → List ℕ} {p : ℕ}

theorem rpcWriteToSocket_nil (h : c.Shape l) (hl : l .out = []) (sent : ℕ) : c.rpcWriteToSocket sent = some c := by
  have hhead := (h.holds .out).head
  rw [hl] at hhead
  cases sent with
  | zero => rfl
  | succ sent =>
    rw [rpcWriteToSocket,hhead]
    rfl

/-- The out queue has one PDU: it stays, or goes to the wait chains, or is discarded. -/
theorem rpcWriteToSocket_single (h : c.Shape l) (hl : l .out = [p]) (sent : ℕ) :
    ∃ d m, c.rpcWriteToSocket sent = some d ∧ Moved [] c l d m ∧
      (m .out = [p] ∨ m .out = []) ∧ ∀ k, m (.wait k) = l (.wait k) ∨ m (.wait k) = l (.wait k)++[p] := by
  have hhead := (h.holds .out).head
  rw [hl,List.head?_cons] at hhead
  cases sent with
  | zero => exact ⟨c,l,rfl,Moved.refl h,.inl hl,fun k => .inl rfl⟩
  | succ sent =>
    obtain ⟨hpop,hloose⟩ := moved_pop h hl
    have hp : p ∈ l .out := by
      rw [hl]
      exact List.mem_cons_self
    have hin : ∀ x ∈ [p], (∃ b, x ∈ l b) ∨ x ∈ ([] : List ℕ) := fun x hx => .inl ⟨.out,List.mem_singleton.mp hx ▸ hp⟩
    rw [rpcWriteToSocket,hhead]
    simp only
    generalize c.setQueue .out ⟨c.next p,if c.next p = none then none else (c.queue .out).tail⟩ = c₁ at *
    split
    · refine ⟨_,_,rfl,hpop.trans (moved_free hpop.shape hloose) hin,.inr (update_self ..),fun k => .inl ?_⟩
      rw [update_of_ne (by simp)]
    · obtain ⟨d,hd,hmoved,-⟩ := moved_enqueue (a := .wait (c₁.rpcHashXid (c₁.xids p))) hpop.shape hloose
        fun k hk => by simpa using hk
      have hinc := hmoved.then (moved_inc hmoved.shape)
      have hnil : update (update l .out []) (.wait (c₁.rpcHashXid (c₁.xids p)))
          (update l .out [] (.wait (c₁.rpcHashXid (c₁.xids p)))++[p]) .out = [] := by
        rw [update_of_ne (by simp),update_self]
      rw [hd]
      refine ⟨d.inc,_,rpcWriteToSocket_nil hinc.shape hnil sent,hpop.trans hinc hin,.inr hnil,fun k => ?_⟩
      by_cases hk : k = c₁.rpcHashXid (c₁.xids p)
      · rw [← hk,update_self,update_of_ne (by simp)]
        exact .inr rfl
      · rw [update_of_ne (by simpa using hk),update_of_ne (by simp)]
        exact .inl rfl

/-- A queued call goes to the end of one queue, or is gone. -/
theorem rpcQueuePdu_call (h : c.Shape l) (hp : c.Loose l p) (ok : Bool) (sent : ℕ) :
    ∃ d m, c.rpcQueuePdu .call ok sent p = some d ∧ Moved [p] c l d m ∧ ∀ b, m b = l b ∨ m b = l b++[p] := by
  have hpushed : ∀ (a : Loc) b, update l a (l a++[p]) b = l b ∨ update l a (l a++[p]) b = l b++[p] := by
    intro a b
    by_cases hb : b = a
    · rw [hb,update_self]
      exact .inr rfl
    · rw [update_of_ne hb]
      exact .inl rfl
  unfold Ctx.rpcQueuePdu
  split
  · rw [if_neg (by simp)]
    obtain ⟨d,hd,hmoved,-⟩ := moved_enqueue (a := .wait (c.rpcHashXid (c.xids p))) h hp fun k hk => by simpa using hk
    have hinc := hmoved.then (moved_inc hmoved.shape)
    rw [hd]
    simp only [hmoved.same.hash]
    generalize Loc.wait (c.rpcHashXid (c.xids p)) = a at *
    cases ok with
    | true => exact ⟨d.inc,_,rfl,hinc,hpushed a⟩
    | false =>
      have hmem : p ∈ update l a (l a++[p]) a := by
        rw [update_self]
        simp
      obtain ⟨e,he,hrem,hloose,-⟩ := moved_remove hinc.shape hmem
      refine ⟨e.rpcFreePdu p,_,by simp [he],
        (hinc.then hrem).trans (moved_free hrem.shape hloose) fun x hx => .inr hx,fun b => .inl ?_⟩
      by_cases hb : b = a
      · rw [hb,update_self,update_self,List.erase_append_right _ (hp.unlinked a),List.erase_cons_head,List.append_nil]
      · rw [update_of_ne hb,update_of_ne hb]
  · obtain ⟨d,hd,hmoved,-⟩ := moved_enqueue (a := .out) h hp fun k hk => by simp at hk
    rw [hd]
    simp only
    split
    · next hhead =>
      have hnil : l .out = [] := by
        have hq := (hmoved.shape.holds .out).head
        rw [hhead,update_self] at hq
        cases hl : l .out with
        | nil => rfl
        | cons x t =>
          rw [hl] at hq
          simp only [List.cons_append,List.head?_cons,Option.some.injEq] at hq
          exact absurd (by rw [hl,hq]; exact List.mem_cons_self) (hp.unlinked .out)
      obtain ⟨e,m,he,hm,hout,hwait⟩ := rpcWriteToSocket_single hmoved.shape
        (by rw [update_self,hnil]; rfl : update l .out (l .out++[p]) .out = [p]) sent
      refine ⟨e,m,he,hmoved.then hm,fun b => ?_⟩
      cases b with
      | out =>
        rw [hnil]
        exact hout.symm
      | wait k =>
        have hk := hwait k
        rwa [update_of_ne (by simp)] at hk
    · exact ⟨d,_,rfl,hmoved,hpushed .out⟩

end Queue

/-- What no step of the scan changes, and the clock that does not go back -/
structure Static (s s' : Rpc) : Prop where
  timeout : s'.timeout = s.timeout
  retrans : s'.retrans = s.retrans
  numHashes : s'.ctx.numHashes = s.ctx.numHashes
  queued : s'.queued = s.queued
  clock : s.clock ≤ s'.clock
  fresh : s.ctx.fresh ≤ s'.ctx.fresh

theorem Static.trans {s s' s'' : Rpc} (h : Static s s') (h' : Static s' s'') : Static s s'' :=
  ⟨h'.timeout.trans h.timeout,h'.retrans.trans h.retrans,h'.numHashes.trans h.numHashes,h'.queued.trans h.queued,
    h.clock.trans h'.clock,h.fresh.trans h'.fresh⟩

/-- No more than `k` new PDUs have been added to the ends of the queues. -/
structure Grown (t k : ℕ) (s : Rpc) (l : Loc → List ℕ) (s' : Rpc) (l' : Loc → List ℕ) : Prop where
  shape : s'.ctx.Shape l'
  static : Static s s'
  pdu : ∀ x < s.ctx.fresh, s'.pdu x = s.pdu x
  appended : ∀ b, ∃ n, l' b = l b++n ∧ n.length ≤ k ∧ ∀ x ∈ n, s.ctx.fresh ≤ x ∧ Later t (s'.pdu x)
  loose : ∀ x, s.ctx.Loose l x → s'.ctx.Loose l' x
  timedOut : s'.timedOut = s.timedOut

theorem Grown.trans {t k k' : ℕ} {s s' s'' : Rpc} {l l' l'' : Loc → List ℕ} (h : Grown t k s l s' l')
    (h' : Grown t k' s' l' s'' l'') : Grown t (k+k') s l s'' l'' := by
  refine ⟨h'.shape,h.static.trans h'.static,fun x hx => ?_,fun b => ?_,fun x hx => h'.loose x (h.loose x hx),
    h'.timedOut.trans h.timedOut⟩
  · rw [h'.pdu x (hx.trans_le h.static.fresh),h.pdu x hx]
  · obtain ⟨n,hn,hlen,hnew⟩ := h.appended b
    obtain ⟨n',hn',hlen',hnew'⟩ := h'.appended b
    refine ⟨n++n',by rw [hn',hn,List.append_assoc],by rw [List.length_append]; omega,fun x hx => ?_⟩
    rcases List.mem_append.mp hx with hx | hx
    · have hknown := h.shape.known b x (by rw [hn]; exact List.mem_append_right _ hx)
      rw [h'.pdu x hknown]
      exact hnew x hx
    · exact ⟨h.static.fresh.trans (hnew' x hx).1,(hnew' x hx).2⟩

theorem rpcQueuePdu_spec {t : ℕ} {s : Rpc} {l : Loc → List ℕ} (h : s.ctx.Shape l) (ht : 0 < s.timeout)
    (hc : t ≤ s.clock) (n : NewPdu) : ∃ s' l', s.rpcQueuePdu n = some s' ∧ Grown t 1 s l s' l' := by
  obtain ⟨hshape,hloose⟩ := rpcAllocatePdu_spec h .call
  obtain ⟨d,m,hd,hm,hpush⟩ := rpcQueuePdu_call hshape hloose n.ok n.sent
  have hx := pduSetTimeout_later (s := { s with clock := s.clock+n.elapsed }) ht (t := t) (n := 0)
    (.inr ⟨rfl,Nat.le_add_right_of_le hc⟩) (x := ⟨0,0,n.numDone,n.doNotRetry⟩) rfl (.inl rfl)
  have hs : s.rpcQueuePdu n = some { s with
      ctx := d
      clock := s.clock+n.elapsed
      pdu := update s.pdu s.ctx.fresh
        ({ s with clock := s.clock+n.elapsed }.pduSetTimeout ⟨0,0,n.numDone,n.doNotRetry⟩ 0) } := by
    rw [Rpc.rpcQueuePdu,hd]
    rfl
  refine ⟨_,m,hs,hm.shape,⟨rfl,rfl,hm.same.numHashes,rfl,Nat.le_add_right _ _,?_⟩,
    fun x hx => update_of_ne (Nat.ne_of_lt hx) _ _,fun b => ?_,fun x hl => ?_,rfl⟩
  · exact (Nat.le_succ _).trans hm.same.fresh.ge
  · rcases hpush b with hb | hb
    · exact ⟨[],by rw [hb,List.append_nil],Nat.zero_le _,by simp⟩
    · refine ⟨_,hb,le_rfl,fun y hy => ?_⟩
      rw [List.mem_singleton.mp hy]
      refine ⟨le_rfl,?_⟩
      show Later t (update s.pdu _ _ s.ctx.fresh)
      rw [update_self]
      exact hx
  · have hne : x ∉ [s.ctx.fresh] := by simpa using Nat.ne_of_lt hl.known
    exact hm.loose ⟨hl.unlinked,Nat.lt_succ_of_lt hl.known,hl.live⟩ hne

theorem rpcQueuePdus_spec {t : ℕ} {s : Rpc} {l : Loc → List ℕ} (h : s.ctx.Shape l) (ht : 0 < s.timeout)
    (hc : t ≤ s.clock) (ns : List NewPdu) :
    ∃ s' l', Rpc.rpcQueuePdus ns s = some s' ∧ Grown t ns.length s l s' l' := by
  induction ns generalizing s l with
  | nil =>
    refine ⟨s,l,rfl,h,⟨rfl,rfl,rfl,rfl,le_rfl,le_rfl⟩,fun _ _ => rfl,fun b => ?_,fun _ hx => hx,rfl⟩
    exact ⟨[],(List.append_nil _).symm,le_rfl,by simp⟩
  | cons n ns ih =>
    obtain ⟨s₁,l₁,hs₁,hg₁⟩ := rpcQueuePdu_spec h ht hc n
    obtain ⟨s₂,l₂,hs₂,hg₂⟩ := ih hg₁.shape (by rw [hg₁.static.timeout]; exact ht) (hc.trans hg₁.static.clock)
    refine ⟨s₂,l₂,by rw [Rpc.rpcQueuePdus,hs₁]; exact hs₂,?_⟩
    rw [List.length_cons,Nat.add_comm]
    exact hg₁.trans hg₂

/-- From the lists `l` to the lists `l'` nothing happens to an old PDU but to `p`. -/
structure Touches (t p : ℕ) (s : Rpc) (l : Loc → List ℕ) (s' : Rpc) (l' : Loc → List ℕ) : Prop where
  shape : s'.ctx.Shape l'
  static : Static s s'
  pdu : ∀ x < s.ctx.fresh, x ≠ p → s'.pdu x = s.pdu x
  keeps : ∀ b (m : List ℕ), p ∉ m → m.Sublist (l b) → m.Sublist (l' b)
  origin : ∀ b, ∀ x ∈ l' b, x = p ∨ x ∈ l b ∨ (s.ctx.fresh ≤ x ∧ Later t (s'.pdu x))

theorem Touches.trans {t p : ℕ} {s s' s'' : Rpc} {l l' l'' : Loc → List ℕ} (h : Touches t p s l s' l')
    (h' : Touches t p s' l' s'' l'') : Touches t p s l s'' l'' := by
  refine ⟨h'.shape,h.static.trans h'.static,fun x hx hxp => ?_,fun b m hm hs => h'.keeps b m hm (h.keeps b m hm hs),
    fun b x hx => ?_⟩
  · rw [h'.pdu x (hx.trans_le h.static.fresh) hxp,h.pdu x hx hxp]
  · by_cases hxp : x = p
    · exact .inl hxp
    rcases h'.origin b x hx with he | hx | ⟨hf,hl⟩
    · exact .inl he
    · rcases h.origin b x hx with he | hx' | ⟨hf,hl⟩
      · exact .inl he
      · exact .inr (.inl hx')
      · rw [h'.pdu x (h.shape.known b x hx) hxp]
        exact .inr (.inr ⟨hf,hl⟩)
    · exact .inr (.inr ⟨h.static.fresh.trans hf,hl⟩)

/-- A change of the context alone -/
theorem touches_ctx {t p : ℕ} {s : Rpc} {l m : Loc → List ℕ} {o : List ℕ} {d : Ctx} (hm : Moved o s.ctx l d m)
    (hk : ∀ b (n : List ℕ), p ∉ n → n.Sublist (l b) → n.Sublist (m b)) (ho : ∀ b, ∀ x ∈ m b, x = p ∨ x ∈ l b) :
    Touches t p s l { s with ctx := d } m :=
  ⟨hm.shape,⟨rfl,rfl,hm.same.numHashes,rfl,le_rfl,hm.same.fresh.ge⟩,fun _ _ _ => rfl,hk,
    fun b x hx => (ho b x hx).imp_right .inl⟩

/-- The PDU is taken out of its queue, and maybe no longer counted. -/
theorem touches_remove {t p : ℕ} {s : Rpc} {l : Loc → List ℕ} {a : Loc} {d : Ctx}
    (hm : Moved [] s.ctx l d (update l a ((l a).erase p))) :
    Touches t p s l { s with ctx := d } (update l a ((l a).erase p)) := by
  refine touches_ctx hm (fun b n hn hs => ?_) fun b x hx => .inr ?_
  · by_cases hb : b = a
    · subst hb
      rw [update_self]
      have he := hs.erase p
      rwa [List.erase_of_not_mem hn] at he
    · rwa [update_of_ne hb]
  · by_cases hb : b = a
    · rw [hb,update_self] at hx
      rw [hb]
      exact List.mem_of_mem_erase hx
    · rwa [update_of_ne hb] at hx

theorem touches_setPdu {t p : ℕ} {s : Rpc} {l : Loc → List ℕ} (h : s.ctx.Shape l) (x : Pdu) :
    Touches t p s l (s.setPdu p x) l :=
  ⟨h,⟨rfl,rfl,rfl,rfl,le_rfl,le_rfl⟩,fun _ _ hy => update_of_ne hy _ _,fun _ _ _ hs => hs,fun _ _ hy => .inr (.inl hy)⟩

theorem setPdu_self (s : Rpc) (p : ℕ) (x : Pdu) : (s.setPdu p x).pdu p = x := update_self ..

theorem sublist_insertSecond (p : ℕ) (l : List ℕ) : l.Sublist (insertSecond p l) := by
  cases l with
  | nil => exact List.nil_sublist _
  | cons x l => exact (List.sublist_cons_self p l).cons_cons x

/-- The PDU goes back to the out queue. -/
theorem touches_return {t p : ℕ} {s : Rpc} {l : Loc → List ℕ} (h : s.ctx.Shape l) (hp : s.ctx.Loose l p) :
    Touches t p s l { s with ctx := s.ctx.rpcReturnToOutqueue p } (update l .out (insertSecond p (l .out))) := by
  refine touches_ctx (moved_return h hp).1 (fun b n _ hs => ?_) fun b x hx => ?_
  · by_cases hb : b = .out
    · subst hb
      rw [update_self]
      exact hs.trans (sublist_insertSecond p (l .out))
    · rwa [update_of_ne hb]
  · by_cases hb : b = .out
    · rw [hb,update_self] at hx
      rw [hb]
      exact mem_insertSecond.mp hx
    · rw [update_of_ne hb] at hx
      exact .inr hx

theorem Grown.touches {t k p : ℕ} {s s' : Rpc} {l l' : Loc → List ℕ} (h : Grown t k s l s' l') : Touches t p s l s' l' := by
  refine ⟨h.shape,h.static,fun x hx _ => h.pdu x hx,fun b m _ hs => ?_,fun b x hx => ?_⟩
  · obtain ⟨n,hn,-⟩ := h.appended b
    rw [hn]
    exact hs.trans (List.sublist_append_left _ _)
  · obtain ⟨n,hn,-,hnew⟩ := h.appended b
    rw [hn] at hx
    exact (List.mem_append.mp hx).elim (fun hx => .inr (.inl hx)) fun hx => .inr (.inr (hnew x hx))

/-- A PDU that is in no queue is completed: its callback queues new PDUs. -/
theorem complete_spec {t p : ℕ} {s : Rpc} {l : Loc → List ℕ} (h : s.ctx.Shape l) (ht : 0 < s.timeout)
    (hc : t ≤ s.clock) (hp : s.ctx.Loose l p) :
    ∃ s' l', s.complete p = some s' ∧ Touches t p s l s' l' ∧ s'.timedOut = s.timedOut++[p] ∧ (∀ b, p ∉ l' b) ∧
      ∀ b, ∃ n, l' b = l b++n ∧ n.length ≤ (s.queued p).length ∧ ∀ x ∈ n, s.ctx.fresh ≤ x := by
  obtain ⟨s₁,l₁,hs₁,hg⟩ := rpcQueuePdus_spec (s := { s with timedOut := s.timedOut++[p] }) h ht hc (s.queued p)
  have hloose := hg.loose p hp
  have hlog : Touches t p s l { s with timedOut := s.timedOut++[p] } l :=
    ⟨h,⟨rfl,rfl,rfl,rfl,le_rfl,le_rfl⟩,fun _ _ _ => rfl,fun _ _ _ hs => hs,fun _ _ hy => .inr (.inl hy)⟩
  have hfree : Touches t p s₁ l₁ { s₁ with ctx := s₁.ctx.rpcFreePdu p } l₁ :=
    touches_ctx (moved_free hg.shape hloose) (fun _ _ _ hs => hs) fun _ _ hx => .inr hx
  refine ⟨{ s₁ with ctx := s₁.ctx.rpcFreePdu p },l₁,by rw [Rpc.complete,hs₁],(hlog.trans hg.touches).trans hfree,
    hg.timedOut,hloose.unlinked,fun b => ?_⟩
  obtain ⟨n,hn,hlen,hnew⟩ := hg.appended b
  exact ⟨n,hn,hlen,fun x hx => (hnew x hx).1⟩

section Invariant

variable {t : ℕ} {s₀ : Rpc} {l₀ : Loc → List ℕ}

/-- What has become of a PDU of the queue `b`: it is there as it was, and to be seen yet or not timed out; or it
is in the out queue with new times; or it was completed. -/
inductive Fate (t : ℕ) (s₀ : Rpc) (todo : ℕ → Prop) (s : Rpc) (l : Loc → List ℕ) (done : List ℕ) (b : Loc) (x : ℕ) : Prop
  | kept (hl : x ∈ l b) (hp : s.pdu x = s₀.pdu x) (he : Expired t b (s₀.pdu x) → todo x)
  | retried (he : Expired t b (s₀.pdu x)) (hm : s₀.MayRetry x) (hl : x ∈ l .out) (hp : Later t (s.pdu x))
    (hn : b = .out ∨ (s.pdu x).numDone = 0)
  | completed (he : Expired t b (s₀.pdu x)) (hm : ¬ s₀.MayRetry x) (hd : x ∈ done)

/-- The state of the scan that began in `s₀` with the lists `l₀`, has `todo` to see yet and completed `done` -/
structure Inv (t : ℕ) (s₀ : Rpc) (l₀ : Loc → List ℕ) (todo : ℕ → Prop) (s : Rpc) (l : Loc → List ℕ) (done : List ℕ) :
    Prop where
  shape : s.ctx.Shape l
  static : Static s₀ s
  clock : t ≤ s.clock
  young : ∀ b, ∀ x ∈ l b, s₀.ctx.fresh ≤ x → Later t (s.pdu x)
  origin : ∀ b, ∀ x ∈ l b, s₀.ctx.fresh ≤ x ∨ ∃ b', x ∈ l₀ b'
  fate : ∀ b, ∀ x ∈ l₀ b, Fate t s₀ todo s l done b x
  order : ∀ b, ((l₀ b).filter fun x => ¬ Expired t b (s₀.pdu x)).Sublist (l b)
  log : s.timedOut = s₀.timedOut++done
  nodup : done.Nodup
  gone : ∀ x ∈ done, ∀ b, x ∉ l b
  lapsed : ∀ x ∈ done, ∃ b, x ∈ l₀ b ∧ Expired t b (s₀.pdu x) ∧ ¬ s₀.MayRetry x

variable {todo todo' : ℕ → Prop} {s s' : Rpc} {l l' : Loc → List ℕ} {done done' : List ℕ} {p : ℕ} {a : Loc}

theorem Inv.mono (h : Inv t s₀ l₀ todo s l done)
    (ht : ∀ b, ∀ x ∈ l b, s.pdu x = s₀.pdu x → Expired t b (s₀.pdu x) → todo x → todo' x) : Inv t s₀ l₀ todo' s l done := by
  refine { h with fate := fun b x hx => ?_ }
  cases h.fate b x hx with
  | kept hl hp he => exact .kept hl hp fun hex => ht b x hl hp hex (he hex)
  | retried he hm hl hp hn => exact .retried he hm hl hp hn
  | completed he hm hd => exact .completed he hm hd

/-- A PDU that is timed out now is as it was when the scan began. -/
theorem Inv.expired (h : Inv t s₀ l₀ todo s l done) (hp : p ∈ l a) (he : Expired t a (s.pdu p)) :
    p ∈ l₀ a ∧ s.pdu p = s₀.pdu p := by
  rcases h.origin a p hp with hf | ⟨b,hb⟩
  · exact absurd he ((h.young a p hp hf).not_expired a)
  · cases h.fate b p hb with
    | kept hl heq _ =>
      have hba : b = a := by
        by_contra hba
        exact h.shape.apart b a hba p hl hp
      exact ⟨hba ▸ hb,heq⟩
    | retried _ _ _ hl _ => exact absurd he (hl.not_expired a)
    | completed _ _ hd => exact absurd hp (h.gone p hd a)

theorem Inv.mayRetry (h : Inv t s₀ l₀ todo s l done) (hp : s.pdu p = s₀.pdu p) : s.MayRetry p ↔ s₀.MayRetry p := by
  unfold Rpc.MayRetry
  rw [hp,h.static.retrans]

/-- A step that deals with the PDU `p`, which is timed out -/
theorem Inv.touch (h₀ : s₀.ctx.Shape l₀) (h : Inv t s₀ l₀ todo s l done) (hp : p ∈ l₀ a)
    (he : Expired t a (s₀.pdu p)) (hT : Touches t p s l s' l') (hl : p ∈ l a) (ht : ∀ x, todo x → x ≠ p → todo' x)
    (hf : Fate t s₀ todo' s' l' done' a p)
    (hd : done' = done ∧ s'.timedOut = s.timedOut ∨
      done' = done++[p] ∧ s'.timedOut = s.timedOut++[p] ∧ (∀ b, p ∉ l' b) ∧ ¬ s₀.MayRetry p) :
    Inv t s₀ l₀ todo' s' l' done' := by
  have hpd : p ∉ done := fun hd => h.gone p hd a hl
  have hold : p < s₀.ctx.fresh := h₀.known a p hp
  have hsub : ∀ x ∈ done, x ∈ done' := by
    rcases hd with ⟨rfl,-⟩ | ⟨rfl,-⟩
    · exact fun x hx => hx
    · exact fun x hx => List.mem_append_left _ hx
  have hgone : ∀ x ∈ done, ∀ b, x ∉ l' b := by
    intro x hx b hb
    rcases hT.origin b x hb with rfl | hb | ⟨hfresh,-⟩
    · exact hpd hx
    · exact h.gone x hx b hb
    · obtain ⟨b',hb',-⟩ := h.lapsed x hx
      have hknown := h₀.known b' x hb'
      have hle := h.static.fresh
      omega
  have hstay : ∀ b, ∀ x ∈ l b, x ≠ p → x ∈ l' b := by
    intro b x hx hxp
    have hs := hT.keeps b [x] (by simpa using Ne.symm hxp) (List.singleton_sublist.mpr hx)
    exact List.singleton_sublist.mp hs
  refine ⟨hT.shape,h.static.trans hT.static,h.clock.trans hT.static.clock,fun b x hx hfx => ?_,fun b x hx => ?_,
    fun b x hx => ?_,fun b => ?_,?_,?_,?_,?_⟩
  · have hxp : x ≠ p := by omega
    rcases hT.origin b x hx with he | hx | ⟨-,hlater⟩
    · exact absurd he hxp
    · rw [hT.pdu x (h.shape.known b x hx) hxp]
      exact h.young b x hx hfx
    · exact hlater
  · rcases hT.origin b x hx with rfl | hx | ⟨hfresh,-⟩
    · exact .inr ⟨a,hp⟩
    · exact h.origin b x hx
    · exact .inl (h.static.fresh.trans hfresh)
  · by_cases hxp : x = p
    · subst hxp
      have hba : b = a := by
        by_contra hba
        exact h₀.apart b a hba x hx hp
      exact hba ▸ hf
    · have hknown : x < s.ctx.fresh := (h₀.known b x hx).trans_le h.static.fresh
      cases h.fate b x hx with
      | kept hl hpdu hex => exact .kept (hstay b x hl hxp) (by rw [hT.pdu x hknown hxp,hpdu]) fun hh => ht x (hex hh) hxp
      | retried hex hm hl hlater hn =>
        rw [← hT.pdu x hknown hxp] at hlater hn
        exact .retried hex hm (hstay .out x hl hxp) hlater hn
      | completed hex hm hd => exact .completed hex hm (hsub x hd)
  · refine hT.keeps b _ (fun hmem => ?_) (h.order b)
    rw [List.mem_filter] at hmem
    have hba : b = a := by
      by_contra hba
      exact h₀.apart b a hba p hmem.1 hp
    rw [hba] at hmem
    simp [he] at hmem
  · rcases hd with ⟨rfl,hlog⟩ | ⟨rfl,hlog,-⟩
    · rw [hlog,h.log]
    · rw [hlog,h.log,List.append_assoc]
  · rcases hd with ⟨rfl,-⟩ | ⟨rfl,-⟩
    · exact h.nodup
    · exact h.nodup.append (List.nodup_singleton p) (by simpa using hpd)
  · rcases hd with ⟨rfl,-⟩ | ⟨rfl,-,hun,-⟩
    · exact hgone
    · intro x hx
      rcases List.mem_append.mp hx with hx | hx
      · exact hgone x hx
      · rw [List.mem_singleton.mp hx]
        exact hun
  · rcases hd with ⟨rfl,-⟩ | ⟨rfl,-,-,hm⟩
    · exact h.lapsed
    · intro x hx
      rcases List.mem_append.mp hx with hx | hx
      · exact h.lapsed x hx
      · rw [List.mem_singleton.mp hx]
        exact ⟨a,hp,he,hm⟩

/-- How often a loop can go round: one for each PDU ahead, and one for each that callbacks may queue. -/
def weight (s₀ : Rpc) (ps : List ℕ) : ℕ :=
  (ps.map fun x => if x < s₀.ctx.fresh then 1+(s₀.queued x).length else 1).sum

theorem weight_cons (s₀ : Rpc) (p : ℕ) (ps : List ℕ) :
    weight s₀ (p::ps) = (if p < s₀.ctx.fresh then 1+(s₀.queued p).length else 1)+weight s₀ ps := rfl

theorem weight_lt (s₀ : Rpc) (p : ℕ) (ps : List ℕ) : weight s₀ ps < weight s₀ (p::ps) := by
  rw [weight_cons]
  split <;> omega

theorem weight_new {ps ns : List ℕ} (hn : ∀ x ∈ ns, s₀.ctx.fresh ≤ x) :
    weight s₀ (ps++ns) = weight s₀ ps+ns.length := by
  have hone : ns.map (fun x => if x < s₀.ctx.fresh then 1+(s₀.queued x).length else 1) = ns.map fun _ => 1 := by
    apply List.map_congr_left
    intro x hx
    rw [if_neg (Nat.not_lt.mpr (hn x hx))]
  unfold weight
  rw [List.map_append,List.sum_append,hone]
  simp

/-- What is ahead in a loop over the queue `a`: the end of the queue, or nothing -/
def Ahead (l : Loc → List ℕ) (a : Loc) (rest : List ℕ) : Prop := rest = [] ∨ ∃ pre, l a = pre++rest

variable {U : ℕ → Prop} {pre post : List ℕ}

/-- A PDU that is not timed out is left alone. -/
theorem Inv.skip (h : Inv t s₀ l₀ (fun x => x ∈ p::post ∨ U x) s l done) (hl : l a = pre++p::post)
    (he : ¬ Expired t a (s.pdu p)) : Inv t s₀ l₀ (fun x => x ∈ post ∨ U x) s l done := by
  apply h.mono
  intro b x hx heq hex hor
  refine hor.imp_left fun hmem => (List.mem_cons.mp hmem).resolve_left ?_
  rintro rfl
  have hba : b = a := by
    by_contra hba
    exact h.shape.apart b a hba x hx (by rw [hl]; simp)
  rw [heq,← hba] at he
  exact he hex

/-- A PDU that is taken out of its queue is completed. -/
theorem Inv.complete (h₀ : s₀.ctx.Shape l₀) (ht : 0 < s₀.timeout)
    (h : Inv t s₀ l₀ (fun x => x ∈ p::post ∨ U x) s l done) (hl : l a = pre++p::post) (he : Expired t a (s.pdu p))
    (hm : ¬ s.MayRetry p) {c : Ctx} (hc : Moved [] s.ctx l c (update l a ((l a).erase p)))
    (hp : c.Loose (update l a ((l a).erase p)) p) :
    ∃ s' l' rest, { s with ctx := c }.complete p = some s' ∧
      Inv t s₀ l₀ (fun x => x ∈ rest ∨ U x) s' l' (done++[p]) ∧ rest.head? = post.head? ∧ Ahead l' a rest ∧
      weight s₀ rest < weight s₀ (p::post) := by
  have hin : p ∈ l a := by
    rw [hl]
    simp
  obtain ⟨hp₀,heq⟩ := h.expired hin he
  obtain ⟨s',l',hs',hT,hlog,hun,happ⟩ := complete_spec (t := t) (s := { s with ctx := c }) hc.shape
    (by rw [show (_ : ℤ) = s₀.timeout from h.static.timeout]; exact ht) h.clock hp
  have hT := (touches_remove hc).trans hT
  obtain ⟨n,hn,hlen,hnew⟩ := happ a
  rw [update_self,h.shape.erase_eq hl] at hn
  have hnew₀ : ∀ x ∈ n, s₀.ctx.fresh ≤ x := fun x hx => h.static.fresh.trans (hc.same.fresh.ge.trans (hnew x hx))
  have hlen' : n.length ≤ (s₀.queued p).length := by
    rw [← h.static.queued]
    exact hlen
  refine ⟨s',l',if post = [] then [] else post++n,hs',?_,?_,?_,?_⟩
  · rw [heq] at he
    refine h.touch h₀ hp₀ he hT hin (fun x hx hxp => ?_) ?_ (.inr ⟨rfl,hlog,hun,?_⟩)
    · refine hx.imp_left fun hmem => ?_
      have hpost := (List.mem_cons.mp hmem).resolve_left hxp
      rw [if_neg (List.ne_nil_of_mem hpost)]
      exact List.mem_append_left _ hpost
    · exact .completed he (by rwa [← h.mayRetry heq]) (by simp)
    · rwa [← h.mayRetry heq]
  · cases post with
    | nil => rfl
    | cons x post => simp
  · unfold Ahead
    split
    · exact .inl rfl
    · exact .inr ⟨pre,by rw [hn,List.append_assoc]⟩
  · rw [weight_cons,if_pos (h₀.known a p hp₀)]
    split
    · simp [weight]
    · rw [weight_new hnew₀]
      omega

/-- The loop over the out queue -/
theorem scanOut_spec (h₀ : s₀.ctx.Shape l₀) (ht : 0 < s₀.timeout) (hpos : t ≠ 0) (k : ℕ) {rest : List ℕ}
    (hk : weight s₀ rest ≤ k) (h : Inv t s₀ l₀ (fun x => x ∈ rest ∨ U x) s l done) (ha : Ahead l .out rest) :
    ∃ s' l' done', (∀ fuel, k < fuel → Rpc.scanOut t fuel rest.head? s = some s') ∧ Inv t s₀ l₀ U s' l' done' := by
  induction k generalizing rest s l done with
  | zero =>
    cases rest with
    | nil =>
      refine ⟨s,l,done,fun fuel hf => ?_,h.mono fun _ _ _ _ _ hor => hor.resolve_left (by simp)⟩
      obtain ⟨f,rfl⟩ := Nat.exists_eq_add_one_of_ne_zero (by omega : fuel ≠ 0)
      rfl
    | cons p post =>
      have hlt := weight_lt s₀ p post
      omega
  | succ k ih =>
    cases rest with
    | nil =>
      refine ⟨s,l,done,fun fuel hf => ?_,h.mono fun _ _ _ _ _ hor => hor.resolve_left (by simp)⟩
      obtain ⟨f,rfl⟩ := Nat.exists_eq_add_one_of_ne_zero (by omega : fuel ≠ 0)
      rfl
    | cons p post =>
      have hlt := weight_lt s₀ p post
      obtain ⟨pre,hl⟩ := ha.resolve_left (by simp)
      have hin : p ∈ l .out := by
        rw [hl]
        simp
      have hnext := h.shape.next_eq hl
      have hahead : Ahead l .out post := .inr ⟨pre++[p],by rw [hl,List.append_assoc]; rfl⟩
      by_cases he : Expired t .out (s.pdu p)
      · obtain ⟨hp₀,heq⟩ := h.expired hin he
        have he₀ := he
        rw [heq] at he₀
        obtain ⟨hz,hle⟩ := he
        by_cases hm : s.MayRetry p
        · have hlater := pduSetTimeout_later (s := s) (by rw [h.static.timeout]; exact ht) (.inl ⟨le_rfl,hpos⟩)
            (x := { s.pdu p with timeout := 0, majorTimeout := 0 }) rfl (.inl rfl)
          have hi : Inv t s₀ l₀ (fun x => x ∈ post ∨ U x)
              (s.setPdu p (s.pduSetTimeout { s.pdu p with timeout := 0, majorTimeout := 0 } t)) l done :=
            h.touch h₀ hp₀ he₀ (touches_setPdu h.shape _) hin
            (fun x hx hxp => hx.imp_left fun hmem => (List.mem_cons.mp hmem).resolve_left hxp)
            (.retried he₀ ((h.mayRetry heq).mp hm) hin (by rw [setPdu_self]; exact hlater) (.inl rfl))
            (.inl ⟨rfl,rfl⟩)
          obtain ⟨s',l',done',hs',hi'⟩ := ih (by omega) hi hahead
          refine ⟨s',l',done',fun fuel hf => ?_,hi'⟩
          obtain ⟨f,rfl⟩ := Nat.exists_eq_add_one_of_ne_zero (by omega : fuel ≠ 0)
          rw [List.head?_cons,Rpc.scanOut,if_neg hz,if_neg (by omega),if_pos hm,hnext]
          exact hs' f (by omega)
        · obtain ⟨c,hc,hmoved,hloose,-⟩ := moved_remove h.shape hin
          obtain ⟨s₁,l₁,rest,hs₁,hi,hhead,hrest,hw⟩ := h.complete h₀ ht hl ⟨hz,hle⟩ hm hmoved hloose
          obtain ⟨s',l',done',hs',hi'⟩ := ih (by omega) hi hrest
          refine ⟨s',l',done',fun fuel hf => ?_,hi'⟩
          obtain ⟨f,rfl⟩ := Nat.exists_eq_add_one_of_ne_zero (by omega : fuel ≠ 0)
          rw [List.head?_cons,Rpc.scanOut,if_neg hz,if_neg (by omega),if_neg hm,hc]
          simp only [hs₁,hnext]
          rw [← hhead]
          exact hs' f (by omega)
      · obtain ⟨s',l',done',hs',hi'⟩ := ih (by omega) (h.skip hl he) hahead
        refine ⟨s',l',done',fun fuel hf => ?_,hi'⟩
        obtain ⟨f,rfl⟩ := Nat.exists_eq_add_one_of_ne_zero (by omega : fuel ≠ 0)
        rw [List.head?_cons,Rpc.scanOut,hnext]
        have hor : (s.pdu p).timeout = 0 ∨ t < (s.pdu p).timeout := by
          simp only [Expired] at he
          omega
        rcases hor with hz | hlt'
        · rw [if_pos hz]
          exact hs' f (by omega)
        · rw [if_neg (by omega),if_pos hlt']
          exact hs' f (by omega)

/-- `-1` has a reason. -/
def Reason (t : ℕ) (s₀ : Rpc) (l₀ : Loc → List ℕ) : Prop :=
  ∃ i, ∃ x ∈ l₀ (.wait i), Expired t (.wait i) (s₀.pdu x) ∧ s₀.MayRetry x ∧ (s₀.pdu x).majorTimeout ≤ t

/-- The state after a PDU of a wait chain has gone back to the out queue -/
def returned (t p : ℕ) (s : Rpc) : Rpc :=
  let s := s.setPdu p (s.retried t (s.pdu p))
  { s with ctx := s.ctx.rpcReturnToOutqueue p }

theorem Inv.retry (h₀ : s₀.ctx.Shape l₀) (ht : 0 < s₀.timeout) (hpos : t ≠ 0) {i : ℕ}
    (h : Inv t s₀ l₀ (fun x => x ∈ p::post ∨ U x) s l done) (hl : l (.wait i) = pre++p::post)
    (he : Expired t (.wait i) (s.pdu p)) (hm : s.MayRetry p) {c : Ctx}
    (hc : Moved [] s.ctx l c (update l (.wait i) ((l (.wait i)).erase p)))
    (hp : c.Loose (update l (.wait i) ((l (.wait i)).erase p)) p) :
    ∃ l', Inv t s₀ l₀ (fun x => x ∈ post ∨ U x) (returned t p { s with ctx := c }) l' done ∧ Ahead l' (.wait i) post := by
  have hin : p ∈ l (.wait i) := by
    rw [hl]
    simp
  obtain ⟨hp₀,heq⟩ := h.expired hin he
  have hlater : Later t ({ s with ctx := c }.retried t (s.pdu p)) := by
    have hset := pduSetTimeout_later (s := { s with ctx := c })
      (by rw [show (_ : ℤ) = s₀.timeout from h.static.timeout]; exact ht) (.inl ⟨le_rfl,hpos⟩)
      (x := { s.pdu p with
        timeout := 0, majorTimeout := if (s.pdu p).majorTimeout ≤ t then 0 else (s.pdu p).majorTimeout }) rfl
      (by split
          · exact .inl rfl
          · next hgt => exact .inr (Nat.lt_of_not_le hgt))
    exact hset
  have hset := touches_setPdu (t := t) (p := p) (s := { s with ctx := c }) hc.shape ({ s with ctx := c }.retried t (s.pdu p))
  have hret := touches_return (t := t) (s := { s with ctx := c }.setPdu p ({ s with ctx := c }.retried t (s.pdu p)))
    hc.shape hp
  have hT := ((touches_remove hc).trans hset).trans hret
  refine ⟨_,h.touch h₀ hp₀ (heq ▸ he) hT hin
    (fun x hx hxp => hx.imp_left fun hmem => (List.mem_cons.mp hmem).resolve_left hxp)
    (.retried (heq ▸ he) ((h.mayRetry heq).mp hm) ?_ ?_ (.inr ?_)) (.inl ⟨rfl,rfl⟩),?_⟩
  · rw [update_self]
    exact mem_insertSecond.mpr (.inl rfl)
  · show Later t (update s.pdu p _ p)
    rw [update_self]
    exact hlater
  · show (update s.pdu p _ p).numDone = 0
    rw [update_self]
    rfl
  · refine .inr ⟨pre,?_⟩
    rw [update_of_ne (by simp),update_self,h.shape.erase_eq hl]

/-- One round for a PDU that is timed out -/
theorem scanWait_expired {i : ℕ} (he : Expired t (.wait i) (s.pdu p)) {d : Ctx}
    (hd : s.ctx.rpcRemovePduFromQueue (.wait i) p = some d) (need : Bool) (fuel : ℕ) :
    Rpc.scanWait t (.wait i) (fuel+1) (some p) (need,s) =
      if s.MayRetry p then
        Rpc.scanWait t (.wait i) fuel (s.ctx.next p) (need || ((s.pdu p).majorTimeout ≤ t && s.unresponsive t),
          returned t p { s with ctx := d.dec })
      else
        match { s with ctx := d.dec }.complete p with
        | none => none
        | some s' => Rpc.scanWait t (.wait i) fuel (s.ctx.next p) (need,s') := by
  obtain ⟨hz,hor⟩ := he
  rw [Rpc.scanWait,if_neg hz,if_neg (by omega),hd]
  rfl

/-- The loop over a wait chain -/
theorem scanWait_spec (h₀ : s₀.ctx.Shape l₀) (ht : 0 < s₀.timeout) (hpos : t ≠ 0) {i : ℕ} (k : ℕ) {rest : List ℕ}
    (hk : weight s₀ rest ≤ k) (need : Bool) (h : Inv t s₀ l₀ (fun x => x ∈ rest ∨ U x) s l done)
    (ha : Ahead l (.wait i) rest) :
    ∃ need' s' l' done', (∀ fuel, k < fuel → Rpc.scanWait t (.wait i) fuel rest.head? (need,s) = some (need',s')) ∧
      Inv t s₀ l₀ U s' l' done' ∧ (need' = true → need = true ∨ Reason t s₀ l₀) := by
  induction k generalizing rest s l done need with
  | zero =>
    cases rest with
    | nil =>
      refine ⟨need,s,l,done,fun fuel hf => ?_,h.mono fun _ _ _ _ _ hor => hor.resolve_left (by simp),.inl⟩
      obtain ⟨f,rfl⟩ := Nat.exists_eq_add_one_of_ne_zero (by omega : fuel ≠ 0)
      rfl
    | cons p post =>
      have hlt := weight_lt s₀ p post
      omega
  | succ k ih =>
    cases rest with
    | nil =>
      refine ⟨need,s,l,done,fun fuel hf => ?_,h.mono fun _ _ _ _ _ hor => hor.resolve_left (by simp),.inl⟩
      obtain ⟨f,rfl⟩ := Nat.exists_eq_add_one_of_ne_zero (by omega : fuel ≠ 0)
      rfl
    | cons p post =>
      have hlt := weight_lt s₀ p post
      obtain ⟨pre,hl⟩ := ha.resolve_left (by simp)
      have hin : p ∈ l (.wait i) := by
        rw [hl]
        simp
      have hnext := h.shape.next_eq hl
      have hahead : Ahead l (.wait i) post := .inr ⟨pre++[p],by rw [hl,List.append_assoc]; rfl⟩
      by_cases he : Expired t (.wait i) (s.pdu p)
      · obtain ⟨hp₀,heq⟩ := h.expired hin he
        obtain ⟨d,hd,hmoved,hloose,-⟩ := moved_remove h.shape hin
        have hmoved := hmoved.then (moved_dec hmoved.shape)
        have hloose : d.dec.Loose (update l (.wait i) ((l (.wait i)).erase p)) p :=
          ⟨hloose.unlinked,hloose.known,hloose.live⟩
        by_cases hm : s.MayRetry p
        · obtain ⟨l₁,hi,hrest⟩ := h.retry h₀ ht hpos hl he hm hmoved hloose
          obtain ⟨need',s',l',done',hs',hi',hneed⟩ :=
            ih (by omega) (need || ((s.pdu p).majorTimeout ≤ t && s.unresponsive t)) hi hrest
          refine ⟨need',s',l',done',fun fuel hf => ?_,hi',fun hn => (hneed hn).elim (fun hn => ?_) .inr⟩
          · obtain ⟨f,rfl⟩ := Nat.exists_eq_add_one_of_ne_zero (by omega : fuel ≠ 0)
            rw [List.head?_cons,scanWait_expired he hd,if_pos hm,hnext]
            exact hs' f (by omega)
          · simp only [Bool.or_eq_true,Bool.and_eq_true,decide_eq_true_eq] at hn
            rw [heq] at he hn
            exact hn.imp_right fun hmajor => ⟨i,p,hp₀,he,(h.mayRetry heq).mp hm,hmajor.1⟩
        · obtain ⟨s₁,l₁,rest,hs₁,hi,hhead,hrest,hw⟩ := h.complete h₀ ht hl he hm hmoved hloose
          obtain ⟨need',s',l',done',hs',hi',hneed⟩ := ih (by omega) need hi hrest
          refine ⟨need',s',l',done',fun fuel hf => ?_,hi',hneed⟩
          obtain ⟨f,rfl⟩ := Nat.exists_eq_add_one_of_ne_zero (by omega : fuel ≠ 0)
          rw [List.head?_cons,scanWait_expired he hd,if_neg hm,hnext]
          simp only [hs₁]
          rw [← hhead]
          exact hs' f (by omega)
      · obtain ⟨need',s',l',done',hs',hi',hneed⟩ := ih (by omega) need (h.skip hl he) hahead
        refine ⟨need',s',l',done',fun fuel hf => ?_,hi',hneed⟩
        obtain ⟨f,rfl⟩ := Nat.exists_eq_add_one_of_ne_zero (by omega : fuel ≠ 0)
        rw [List.head?_cons,Rpc.scanWait,hnext]
        by_cases hz : (s.pdu p).timeout = 0
        · rw [if_pos hz]
          exact hs' f (by omega)
        · have hnot : t < (s.pdu p).timeout ∧ t < (s.pdu p).majorTimeout := by
            simp only [Expired] at he
            omega
          rw [if_neg hz,if_pos hnot]
          exact hs' f (by omega)

/-- The loop over the wait chains -/
theorem scanWaits_spec (h₀ : s₀.ctx.Shape l₀) (ht : 0 < s₀.timeout) (hpos : t ≠ 0) (hs : List ℕ) (need : Bool)
    (h : Inv t s₀ l₀ (fun x => ∃ i ∈ hs, x ∈ l₀ (.wait i)) s l done) :
    ∃ N need' s' l' done', (∀ fuel, N ≤ fuel → Rpc.scanWaits t fuel hs (need,s) = some (need',s')) ∧
      Inv t s₀ l₀ (fun _ => False) s' l' done' ∧ (need' = true → need = true ∨ Reason t s₀ l₀) := by
  induction hs generalizing s l done need with
  | nil => exact ⟨0,need,s,l,done,fun _ _ => rfl,h.mono fun _ _ _ _ _ hx => by simp at hx,.inl⟩
  | cons i hs ih =>
    have hi : Inv t s₀ l₀ (fun x => x ∈ l (.wait i) ∨ ∃ j ∈ hs, x ∈ l₀ (.wait j)) s l done := by
      apply h.mono
      rintro b x hx heq hex ⟨j,hj,hmem⟩
      rcases List.mem_cons.mp hj with rfl | hj
      · cases h.fate _ x hmem with
        | kept hl => exact .inl hl
        | retried _ _ _ hlater => exact absurd hex (heq ▸ hlater.not_expired b)
        | completed _ _ hd => exact absurd hx (h.gone x hd b)
      · exact .inr ⟨j,hj,hmem⟩
    obtain ⟨need₁,s₁,l₁,done₁,hs₁,hi₁,hneed₁⟩ :=
      scanWait_spec h₀ ht hpos (weight s₀ (l (.wait i))) le_rfl need hi (.inr ⟨[],rfl⟩)
    obtain ⟨N,need₂,s₂,l₂,done₂,hs₂,hi₂,hneed₂⟩ := ih need₁ hi₁
    refine ⟨max N (weight s₀ (l (.wait i))+1),need₂,s₂,l₂,done₂,fun fuel hf => ?_,hi₂,fun hn => ?_⟩
    · have hlt := le_of_max_le_right hf
      rw [Rpc.scanWaits,(h.shape.holds _).head,hs₁ fuel (by omega)]
      exact hs₂ fuel (le_of_max_le_left hf)
    · exact (hneed₂ hn).elim hneed₁ .inr

/-- When the scan begins, every PDU is to be seen. -/
theorem inv_start (h₀ : s₀.ctx.Shape l₀) (hn : 0 < s₀.ctx.numHashes) :
    Inv s₀.clock s₀ l₀ (fun x => x ∈ l₀ .out ∨ ∃ i ∈ List.range s₀.ctx.numHashes, x ∈ l₀ (.wait i))
      { s₀ with lastTimeoutScan := s₀.clock } l₀ [] := by
  refine ⟨h₀,⟨rfl,rfl,rfl,rfl,le_rfl,le_rfl⟩,le_rfl,fun b x hx hf => ?_,fun b x hx => .inr ⟨b,hx⟩,fun b x hx => ?_,
    fun b => List.filter_sublist,(List.append_nil _).symm,List.nodup_nil,by simp,by simp⟩
  · have hlt := h₀.known b x hx
    omega
  · refine .kept hx rfl fun _ => ?_
    cases b with
    | out => exact .inl hx
    | wait i =>
      refine .inr ⟨i,List.mem_range.mpr ?_,hx⟩
      by_contra hi
      rw [h₀.wait_eq_nil hn (Nat.le_of_not_lt hi)] at hx
      simp at hx

/-- A PDU that is in a queue when everything has been seen is not timed out. -/
theorem Inv.settled (h : Inv t s₀ l₀ (fun _ => False) s l done) (hp : p ∈ l a) : ¬ Expired t a (s.pdu p) := by
  intro he
  obtain ⟨hp₀,heq⟩ := h.expired hp he
  cases h.fate a p hp₀ with
  | kept _ _ hex => exact hex (heq ▸ he)
  | retried _ _ _ hlater => exact hlater.not_expired a he
  | completed _ _ hd => exact h.gone p hd a hp

end Invariant

variable {s : Rpc} {l : Loc → List ℕ}

theorem rpcTimeoutScan_inv (h : s.ctx.Shape l) (hn : 0 < s.ctx.numHashes) (ht : 0 < s.timeout)
    (hscan : s.lastTimeoutScan+1000 < s.clock) :
    ∃ N ret s' l' done, (∀ fuel, N ≤ fuel → s.rpcTimeoutScan fuel = some (ret,s')) ∧
      Inv s.clock s l (fun _ => False) s' l' done ∧ (ret = -1 → Reason s.clock s l) := by
  obtain ⟨s₁,l₁,done₁,hs₁,hi₁⟩ := scanOut_spec h ht (by omega) (weight s (l .out)) le_rfl (inv_start h hn)
    (.inr ⟨[],rfl⟩)
  obtain ⟨N,need,s₂,l₂,done₂,hs₂,hi₂,hneed⟩ := scanWaits_spec h ht (by omega) _ false hi₁
  refine ⟨max N (weight s (l .out)+1),if need then -1 else 0,s₂,l₂,done₂,fun fuel hf => ?_,hi₂,fun hret => ?_⟩
  · have hlt := le_of_max_le_right hf
    have hout := hs₁ fuel (by omega)
    rw [← (h.holds .out).head] at hout
    rw [Rpc.rpcTimeoutScan]
    simp only [if_neg (Nat.not_le.mpr hscan),hout]
    rw [hi₁.static.numHashes,hs₂ fuel (le_of_max_le_left hf)]
  · cases need with
    | false => simp at hret
    | true => exact (hneed rfl).resolve_left (by simp)

/-- The scan ends, and in the lists `l'` that it leaves no PDU is timed out at its time `s.clock`. The PDUs
`done` were completed with `RPC_STATUS_TIMEOUT`, each once. -/
theorem timeout_scan (h : s.ctx.Shape l) (hn : 0 < s.ctx.numHashes) (ht : 0 < s.timeout)
    (hscan : s.lastTimeoutScan+1000 < s.clock) :
    ∃ N ret s' l' done, (∀ fuel, N ≤ fuel → s.rpcTimeoutScan fuel = some (ret,s')) ∧ s'.ctx.Shape l' ∧
      (∀ x ∈ l' .out, (s'.pdu x).timeout ≠ 0 → s.clock < (s'.pdu x).timeout) ∧
      (∀ i, ∀ x ∈ l' (.wait i), (s'.pdu x).timeout ≠ 0 →
        s.clock < (s'.pdu x).timeout ∧ s.clock < (s'.pdu x).majorTimeout) ∧
      (s'.timedOut = s.timedOut++done ∧ done.Nodup ∧ ∀ x ∈ done, ∀ a, x ∉ l' a) ∧
      (∀ x, x ∈ done ↔ ∃ a, x ∈ l a ∧ Expired s.clock a (s.pdu x) ∧ ¬ s.MayRetry x) ∧
      (∀ a, ∀ x ∈ l a, Expired s.clock a (s.pdu x) → s.MayRetry x →
        x ∉ done ∧ x ∈ l' .out ∧ (a ≠ .out → (s'.pdu x).numDone = 0)) ∧
      (∀ a, ((l a).filter fun x => ¬ Expired s.clock a (s.pdu x)).Sublist (l' a)) ∧
      (ret = -1 → ∃ i, ∃ x ∈ l (.wait i), Expired s.clock (.wait i) (s.pdu x) ∧ s.MayRetry x ∧
        (s.pdu x).majorTimeout ≤ s.clock) := by
  obtain ⟨N,ret,s',l',done,hs',hi,hret⟩ := rpcTimeoutScan_inv h hn ht hscan
  refine ⟨N,ret,s',l',done,hs',hi.shape,fun x hx hz => ?_,fun i x hx hz => ?_,⟨hi.log,hi.nodup,hi.gone⟩,
    fun x => ⟨hi.lapsed x,?_⟩,fun a x hx he hm => ?_,hi.order,hret⟩
  · have he := hi.settled hx
    simp only [Expired] at he
    omega
  · have he := hi.settled hx
    simp only [Expired] at he
    omega
  · rintro ⟨a,hx,he,hm⟩
    cases hi.fate a x hx with
    | kept _ _ hex => exact (hex he).elim
    | retried _ hm' => exact absurd hm' hm
    | completed _ _ hd => exact hd
  · cases hi.fate a x hx with
    | kept _ _ hex => exact (hex he).elim
    | retried _ _ hl _ hz =>
      refine ⟨fun hd => ?_,hl,fun ha => hz.resolve_left ha⟩
      obtain ⟨_,_,_,hm'⟩ := hi.lapsed x hd
      exact hm' hm
    | completed _ hm' => exact absurd hm hm'

/-- One call is waiting for its reply since long, and its callback queues another one. -/
def late : Rpc where
  ctx := { Links.init false 1 1 with
    queue := fun a => if a = .wait 0 then ⟨some 0,some 0⟩ else ⟨none,none⟩
    fresh := 1 }
  pdu := fun _ => ⟨100,100,40,false⟩
  timeout := 60
  retrans := 0
  lastTimeoutScan := 0
  lastSuccessfulRpcResponse := 0
  clock := 2000
  queued := fun _ => [⟨0,true,1,40,false⟩]
  timedOut := []

def lateLists (a : Loc) : List ℕ := if a = .wait 0 then [0] else []

theorem late_shape : late.ctx.Shape lateLists := by
  have hmem : ∀ a, ∀ x ∈ lateLists a, x = 0 ∧ a = .wait 0 := by
    intro a x hx
    unfold lateLists at hx
    split at hx
    · next ha => exact ⟨List.mem_singleton.mp hx,ha⟩
    · simp at hx
  refine ⟨fun a => ?_,fun a b hab x hx hx' => ?_,fun k x hx => ?_,fun a x hx => ?_,fun a x _ => ?_,fun x hx => ?_⟩
  · by_cases ha : a = .wait 0
    · subst ha
      exact ⟨⟨rfl,rfl⟩,rfl,List.nodup_singleton 0⟩
    · have hq : late.ctx.queue a = ⟨none,none⟩ := if_neg ha
      rw [hq,lateLists,if_neg ha]
      exact Queue.Holds.empty
  · exact hab ((hmem a x hx).2.trans (hmem b x hx').2.symm)
  · have hk : k = 0 := by simpa using (hmem _ x hx).2
    rw [hk]
    exact Nat.mod_one _
  · rw [(hmem a x hx).1]
    exact Nat.one_pos
  · exact List.not_mem_nil
  · exact absurd hx List.not_mem_nil

theorem timeout_scan_late : ∃ N ret s', (∀ fuel, N ≤ fuel → late.rpcTimeoutScan fuel = some (ret,s')) ∧
    s'.timedOut.count 0 = 1 := by
  obtain ⟨N,ret,s',l',done,hs',-,-,-,⟨hlog,hnd,-⟩,hdone,-⟩ := timeout_scan late_shape (by decide) (by decide) (by decide)
  refine ⟨N,ret,s',hs',?_⟩
  have hin : 0 ∈ done := (hdone 0).mpr ⟨.wait 0,List.mem_singleton_self 0,by decide,by decide⟩
  rw [hlog]
  exact List.count_eq_one_of_mem hnd hin

end TimeoutScan
end Libnfs
