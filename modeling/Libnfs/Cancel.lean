import Libnfs.LinksRuns

/-! `rpc_cancel_pdu` with what it returns, in the states that whole runs reach. -/
namespace Libnfs
namespace Links

open Intrusive Transition Function

namespace Ctx

/-- What a cancel comes to: its return value, the context, and the PDUs whose callbacks it invokes -/
structure Cancel where
  ret : ℤ
  ctx : Ctx
  calls : List ℕ

/-- `rpc_cancel_pdu`. `rpc_free_pdu` invokes no callback; -2 is `-ENOENT`. -/
def cancel (p : ℕ) (c : Ctx) : Option Cancel :=
  match c.rpcFindPdu (c.xids p) with
  | none => none
  | some (some p,c) => some ⟨0,c.rpcFreePdu p,[]⟩
  | some (none,c) => some ⟨-2,c,[]⟩

variable {c d : Ctx} {l m : Loc → List ℕ} {a : Loc} {p q : ℕ}

/-- The context after a cancel is the one of the runs. -/
theorem cancel_ctx (p : ℕ) (c : Ctx) : (c.cancel p).map Cancel.ctx = c.rpcCancelPdu p := by
  unfold cancel rpcCancelPdu
  rcases c.rpcFindPdu (c.xids p) with _ | ⟨_ | q,d⟩ <;> rfl

/-- `p` is taken out of the queue `a`, counted and freed, and nothing else is done. -/
structure Removed (c : Ctx) (l : Loc → List ℕ) (a : Loc) (p : ℕ) (d : Ctx) : Prop where
  shape : d.Shape (update l a ((l a).erase p))
  freed : d.freed = p::c.freed
  count : d.waitpduLen = if a = .out then c.waitpduLen else c.dec.waitpduLen
  rest : d = { c with queue := d.queue, next := d.next, freed := d.freed, waitpduLen := d.waitpduLen }

/-- What a cancel owes: a PDU of a queue is removed and 0 is returned; for another PDU a negative value is, and nothing
changes. No callback is invoked. -/
def Cancels (c : Ctx) (l : Loc → List ℕ) (p : ℕ) : Prop :=
  (∀ a, p ∈ l a → ∃ d, c.cancel p = some ⟨0,d,[]⟩ ∧ Removed c l a p d) ∧
    ((∀ a, p ∉ l a) → ∃ r < 0, c.cancel p = some ⟨r,c,[]⟩)

/-- The first PDU of `m` with its xid -/
def FirstOf (c : Ctx) (m : List ℕ) (p : ℕ) : Prop := ∃ pre post, m = pre++p::post ∧ ∀ x ∈ pre, c.xids x ≠ c.xids p

/-- The first with its xid in the out queue; or, if there is none, the first with its xid in the chain of `rm_xid[1]` -/
def Sought (c : Ctx) (l : Loc → List ℕ) (p : ℕ) : Prop :=
  c.FirstOf (l .out) p ∨ (∀ x ∈ l .out, c.xids x ≠ c.xids p) ∧ c.FirstOf (l (.wait (c.rpcHashXid c.rm1))) p

/-- A PDU of a queue is the one that is looked for, and no broadcast keeps it linked; for another PDU there is none with its
xid where it is looked for. -/
def Cancellable (c : Ctx) (l : Loc → List ℕ) (p : ℕ) : Prop :=
  ((∃ a, p ∈ l a) → (c.isUdp && c.isBroadcast) = false ∧ c.Sought l p) ∧
    ((∀ a, p ∉ l a) → ∀ x, x ∈ l .out ∨ x ∈ l (.wait (c.rpcHashXid c.rm1)) → c.xids x ≠ c.xids p)

/-- A PDU that is taken out of the out queue and freed -/
theorem removed_out (h : c.Shape l) {pre post : List ℕ} (hl : l .out = pre++p::post) (hu : (c.isUdp && c.isBroadcast) = false) :
    Removed c l .out p ((c.take .out p (if pre = [] then none else pre.getLast?)).rpcFreePdu p) := by
  obtain ⟨q,next,he,hs⟩ := take_spec h hl hu
  obtain ⟨-,hloose⟩ := moved_erase h (by rw [hl]; simp) hs
  rw [he]
  exact ⟨(moved_free hs hloose).shape,rfl,rfl,rfl⟩

/-- The same in a wait chain -/
theorem removed_wait (h : c.Shape l) {k : ℕ} {pre post : List ℕ} (hl : l (.wait k) = pre++p::post)
    (hu : (c.isUdp && c.isBroadcast) = false) :
    Removed c l (.wait k) p ((c.take (.wait k) p (if pre = [] then none else pre.getLast?)).dec.rpcFreePdu p) := by
  obtain ⟨q,next,he,hs⟩ := take_spec h hl hu
  obtain ⟨-,hloose⟩ := moved_erase h (by rw [hl]; simp) hs
  have hdec := moved_dec hs
  rw [he]
  exact ⟨(moved_free hdec.shape ⟨hloose.unlinked,hloose.known,hloose.live⟩).shape,rfl,rfl,rfl⟩

theorem take_freed (a : Loc) (p : ℕ) (prev : Option ℕ) (c : Ctx) : (c.take a p prev).freed = c.freed := by
  unfold take
  split
  · rfl
  · cases prev <;> rfl

/-- The search finds nothing, or a PDU of the out queue, or one of the chain of `rm_xid[1]`. -/
theorem cancel_cases (h : c.Shape l) (p : ℕ) :
    (c.cancel p = some ⟨-2,c,[]⟩ ∧ ∀ x, x ∈ l .out ∨ x ∈ l (.wait (c.rpcHashXid c.rm1)) → c.xids x ≠ c.xids p) ∨
    ∃ q a d, c.xids q = c.xids p ∧ c.Sought l q ∧ q ∈ l a ∧ (a = .out ∨ a = .wait (c.rpcHashXid c.rm1)) ∧
      c.cancel p = some ⟨0,d,[]⟩ ∧ d.freed = q::c.freed ∧
      ((c.isUdp && c.isBroadcast) = false → Removed c l a q d) ∧
      ((c.isUdp && c.isBroadcast) = true → d.queue = c.queue ∧ d.next = update c.next q none) := by
  have hlo := h.length_le .out
  have hlw := h.length_le (.wait (c.rpcHashXid c.rm1))
  unfold cancel rpcFindPdu
  rcases search_spec c (c.xids p) none (h.holds .out).seg (c.fresh+1) (by omega) with
    ⟨hout,hno⟩ | ⟨pre,q,post,hl,hpre,hq,hout⟩
  · rw [hout]
    rcases search_spec c (c.xids p) none (h.holds (.wait (c.rpcHashXid c.rm1))).seg (c.fresh+1) (by omega) with
      ⟨hwait,hnw⟩ | ⟨pre,q,post,hl,hpre,hq,hwait⟩
    · rw [hwait]
      exact .inl ⟨rfl,fun x hx => hx.elim (hno x) (hnw x)⟩
    · rw [hwait]
      have hsought : c.Sought l q := by
        refine .inr ⟨?_,pre,post,hl,?_⟩
        · rwa [hq]
        · rwa [hq]
      have hmem : q ∈ l (.wait (c.rpcHashXid c.rm1)) := by
        rw [hl]
        simp
      refine .inr ⟨q,_,_,hq,hsought,hmem,.inr rfl,rfl,?_,fun hu => ?_,fun hu => ?_⟩
      · show q::(if (c.isUdp && c.isBroadcast) = true then _ else _ : Ctx).freed = q::c.freed
        split
        · rw [take_freed]
        · exact congrArg (q::·) (take_freed _ _ _ c)
      · simp only [hu]
        exact removed_wait h hl hu
      · simp only [hu,take,if_true]
        exact ⟨rfl,rfl⟩
  · rw [hout]
    have hsought : c.Sought l q := by
      refine .inl ⟨pre,post,hl,?_⟩
      rwa [hq]
    have hmem : q ∈ l .out := by
      rw [hl]
      simp
    refine .inr ⟨q,_,_,hq,hsought,hmem,.inl rfl,rfl,?_,fun hu => removed_out h hl hu,fun hu => ?_⟩
    · exact congrArg (q::·) (take_freed _ _ _ c)
    · simp only [hu,take,if_true]
      exact ⟨rfl,rfl⟩

/-- Of two PDUs that are looked for with one xid there is one. -/
theorem FirstOf.eq {n : List ℕ} (hp : c.FirstOf n p) (hq : c.FirstOf n q) (hx : c.xids q = c.xids p) : q = p := by
  obtain ⟨pre,post,hl,hpre⟩ := hp
  obtain ⟨pre',post',hl',hpre'⟩ := hq
  rw [hl] at hl'
  rcases List.append_eq_append_iff.mp hl' with ⟨t,ht,hp⟩ | ⟨t,ht,hq⟩
  · cases t with
    | nil => exact (List.cons.inj hp).1.symm
    | cons x t =>
      obtain ⟨rfl,-⟩ := List.cons.inj hp
      exact absurd hx.symm (hpre' p (by rw [ht]; simp))
  · cases t with
    | nil => exact (List.cons.inj hq).1
    | cons x t =>
      obtain ⟨rfl,-⟩ := List.cons.inj hq
      exact absurd hx (hpre q (by rw [ht]; simp))

theorem FirstOf.mem {n : List ℕ} (h : c.FirstOf n p) : p ∈ n := by
  obtain ⟨pre,post,rfl,-⟩ := h
  simp

theorem Sought.eq (hp : c.Sought l p) (hq : c.Sought l q) (hx : c.xids q = c.xids p) : q = p := by
  rcases hp with hp | ⟨hno,hp⟩
  · rcases hq with hq | ⟨hno,-⟩
    · exact hp.eq hq hx
    · exact absurd hx.symm (hno p hp.mem)
  · rcases hq with hq | ⟨-,hq⟩
    · exact absurd hx (hno q hq.mem)
    · exact hp.eq hq hx

/-- A PDU whose link alone is cleared is still in its queue. -/
theorem not_removed (h : c.Shape l) (hp : p ∈ l a) (hq : d.queue = c.queue) (hn : d.next = update c.next p none) :
    ¬ d.Shape (update l a ((l a).erase p)) := by
  intro hd
  obtain ⟨pre,post,hl,hpre⟩ := List.eq_append_cons_of_mem hp
  have hc := (h.holds a).seg
  rw [hl] at hc
  obtain ⟨x,hx,rfl,-⟩ := seg_append.mp hc
  have hold : Seg d.next (d.queue a).head pre (some p) := by
    rw [hq,hn]
    exact hx.congr fun y hy => update_of_ne (fun he : y = p => hpre (he ▸ hy)) _ _
  have hnew := (hd.holds a).seg
  rw [update_self,hl,List.erase_append_right _ hpre,List.erase_cons_head] at hnew
  have hnodup := (h.holds a).nodup
  rw [hl] at hnodup
  obtain ⟨y,hy,hpost⟩ := seg_append.mp hnew
  obtain rfl := hold.unique hy
  cases post with
  | nil =>
    cases hpost
  | cons z post =>
    obtain ⟨he,-⟩ := hpost
    obtain rfl := Option.some.inj he
    exact absurd hnodup (by simp [List.nodup_append])

/-- A cancel does what it owes just where the PDU is cancellable. -/
theorem cancels_iff (h : c.Shape l) (p : ℕ) : c.Cancels l p ↔ c.Cancellable l p := by
  have hplace : ∀ {q b b'}, q ∈ l b → q ∈ l b' → b' = b := by
    intro q b b' hb hb'
    by_contra hne
    exact h.apart b' b hne q hb' hb
  rcases cancel_cases h p with ⟨hc,hno⟩ | ⟨q,a,d,hx,hsought,hqa,ha,hc,hfreed,hplain,hbroad⟩
  · refine ⟨fun hcan => ⟨fun ⟨a,hp⟩ => ?_,fun _ => hno⟩,fun hcan => ⟨fun a hp => ?_,fun _ => ⟨_,by decide,hc⟩⟩⟩
    · obtain ⟨d,hd,-⟩ := hcan.1 a hp
      rw [hc] at hd
      simp at hd
    · rcases (hcan.1 ⟨a,hp⟩).2 with hs | ⟨-,hs⟩
      · exact absurd rfl (hno p (.inl hs.mem))
      · exact absurd rfl (hno p (.inr hs.mem))
  · constructor
    · intro hcan
      refine ⟨fun ⟨b,hp⟩ => ?_,fun hun => ?_⟩
      · obtain ⟨d',hd,hr⟩ := hcan.1 b hp
        rw [hc] at hd
        obtain rfl : d = d' := by simpa using hd
        obtain rfl : q = p := by
          have := hfreed.symm.trans hr.freed
          exact (List.cons.inj this).1
        refine ⟨?_,hsought⟩
        by_contra hu
        obtain ⟨hq,hn⟩ := hbroad (by simpa using hu)
        exact not_removed h hp hq hn hr.shape
      · obtain ⟨r,hr,hd⟩ := hcan.2 hun
        rw [hc] at hd
        simp only [Option.some.injEq,Cancel.mk.injEq] at hd
        omega
    · intro hcan
      refine ⟨fun b hp => ?_,fun hun => ?_⟩
      · obtain ⟨hu,hs⟩ := hcan.1 ⟨b,hp⟩
        obtain rfl := hs.eq hsought hx
        obtain rfl := hplace hqa hp
        exact ⟨d,hc,hplain hu⟩
      · refine absurd hx (hcan.2 hun q ?_)
        rcases ha with rfl | rfl
        · exact .inl hqa
        · exact .inr hqa

end Ctx

open Ctx

/-- In every run whose queues stay in order: a cancel does what it owes just where the PDU is cancellable. -/
theorem rpcCancelPdu_cancels (isUdp : Bool) {numHashes : ℕ} (hn : 0 < numHashes) (xid : ℕ) {es : List Event}
    (hg : Guarded step Tidy (init isUdp numHashes xid) es) :
    ∃ l, (run step (init isUdp numHashes xid) es).Shape l ∧
      ∀ p, (run step (init isUdp numHashes xid) es).Cancels l p ↔
        (run step (init isUdp numHashes xid) es).Cancellable l p := by
  obtain ⟨-,l,h⟩ := queues_hold isUdp hn xid hg
  exact ⟨l,h,cancels_iff h⟩

theorem rpcCancelPdu_cancels_sent : (∃ l, (run step (init false 4 7) demoTcp).Shape l ∧
    ∀ p, (run step (init false 4 7) demoTcp).Cancels l p ↔ (run step (init false 4 7) demoTcp).Cancellable l p) ∧
      ((run step (init false 4 7) demoTcp).cancel 4).map Cancel.ret = some 0 := by
  have hg : Guarded step Tidy (init false 4 7) demoTcp :=
    ⟨by simp [Tidy],by simp [Tidy],by simp [Tidy],by simp [Tidy],by simp [Tidy],fun h => absurd h (by decide),trivial⟩
  exact ⟨rpcCancelPdu_cancels false (by decide) 7 hg,by decide +kernel⟩

/-- A call that is sent is not found before `rm_xid[1]` belongs to its chain. -/
theorem rpcCancelPdu_misses : ¬ ∃ l, (run step (init false 4 7) [.queuePdu .call true 1]).Shape l ∧
    (run step (init false 4 7) [.queuePdu .call true 1]).Cancels l 0 := by
  rintro ⟨l,h,hc,-⟩
  have hhead : ((run step (init false 4 7) [.queuePdu .call true 1]).queue (.wait 1)).head = some 0 := by decide
  have hmem : 0 ∈ l (.wait 1) := by
    rw [(h.holds (.wait 1)).head] at hhead
    exact List.mem_of_head? hhead
  obtain ⟨d,hd,-⟩ := hc _ hmem
  have hret : ((run step (init false 4 7) [.queuePdu .call true 1]).cancel 0).map Cancel.ret = some (-2) := by decide
  rw [hd] at hret
  simp at hret

end Links
end Libnfs
