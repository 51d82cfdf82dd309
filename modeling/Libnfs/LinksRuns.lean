import Libnfs.LinksInvariant

/-! The queues of a context in whole runs: when the chains stay in order, and when `waitpdu_len` is the
number of PDUs in the wait chains. -/
namespace Libnfs
namespace Links

open Intrusive Transition Function

namespace Ctx

variable {c d : Ctx} {l m : Loc → List ℕ} {a : Loc} {p : ℕ} {N : Prop}

/-- A PDU that some queue leads to -/
def Linked (c : Ctx) (p : ℕ) : Prop := ∃ a, First c.next (· = p) (c.queue a).head p

theorem Shape.linked_iff (h : c.Shape l) : c.Linked p ↔ ∃ a, p ∈ l a := by
  simp only [Linked,first_eq_iff (h.holds _).seg]

/-- The PDU with this xid: the first one in the out queue, or else in the wait chain `i` -/
def Found (c : Ctx) (xid i p : ℕ) : Prop :=
  First c.next (c.xids · = xid) (c.queue .out).head p ∨
  (∀ q, ¬ First c.next (c.xids · = xid) (c.queue .out).head q) ∧
    First c.next (c.xids · = xid) (c.queue (.wait i)).head p

theorem Shape.not_first (h : c.Shape l) {xid : ℕ} (hx : ∀ x ∈ l a, c.xids x ≠ xid) (q : ℕ) :
    ¬ First c.next (c.xids · = xid) (c.queue a).head q := by
  rw [first_iff (h.holds a).seg]
  rintro ⟨pre,post,hl,-,hq⟩
  exact hx q (by rw [hl]; simp) hq

/-- `rpc_find_pdu` gives that PDU, and unlinks it but in a broadcast context. -/
theorem rpcFindPdu_spec (hn : 0 < c.numHashes) (h : c.Shape l) (xid : ℕ) :
    (c.rpcFindPdu xid = some (none,c) ∧ ∀ q, ¬ c.Found xid (c.rpcHashXid c.rm1) q) ∨
    ∃ p a d, c.rpcFindPdu xid = some (some p,d) ∧ c.Found xid (c.rpcHashXid c.rm1) p ∧ p ∈ l a ∧
      ((c.isUdp && c.isBroadcast) = true → d = c.setNext p none) ∧
      ((c.isUdp && c.isBroadcast) = false →
        ∃ m, Moved [] c l d m ∧ d.Loose m p ∧ (c.Agree l → d.Agree m)) := by
  have hlo := h.length_le .out
  unfold rpcFindPdu
  rcases search_spec c xid none (h.holds .out).seg (c.fresh+1) (by omega) with
    ⟨hout,hno⟩ | ⟨pre,p,post,hl,hpre,hp,hout⟩
  · rw [hout]
    have hlw := h.length_le (.wait (c.rpcHashXid c.rm1))
    rcases search_spec c xid none (h.holds (.wait (c.rpcHashXid c.rm1))).seg (c.fresh+1) (by omega) with
      ⟨hwait,hnw⟩ | ⟨pre,p,post,hl,hpre,hp,hwait⟩
    · rw [hwait]
      refine .inl ⟨rfl,fun q hq => ?_⟩
      rcases hq with hq | ⟨-,hq⟩
      · exact h.not_first hno q hq
      · exact h.not_first hnw q hq
    · rw [hwait]
      have hmem : p ∈ l (.wait (c.rpcHashXid c.rm1)) := by
        rw [hl]
        simp
      refine .inr ⟨p,_,_,rfl,.inr ⟨h.not_first hno,?_⟩,hmem,fun hu => ?_,fun hu => ?_⟩
      · exact (first_iff (h.holds _).seg).mpr ⟨pre,post,hl,hpre,hp⟩
      · rw [if_pos hu,take,if_pos hu]
      · rw [hu]
        obtain ⟨d,hd,hm,hloose,hlen⟩ := moved_take h hl hu
        rw [hd]
        refine ⟨_,hm.then (moved_dec hm.shape),⟨hloose.unlinked,hloose.known,hloose.live⟩,fun ha => ?_⟩
        exact ha.dec hlen hm.same.numHashes (hash_lt hn _) hmem
  · rw [hout]
    refine .inr ⟨p,.out,_,rfl,.inl ?_,by rw [hl]; simp,fun hu => ?_,fun hu => ?_⟩
    · exact (first_iff (h.holds _).seg).mpr ⟨pre,post,hl,hpre,hp⟩
    · rw [take,if_pos hu]
    · obtain ⟨d,hd,hm,hloose,hlen⟩ := moved_take h hl hu
      rw [hd]
      exact ⟨_,hm,hloose,fun ha => ha.out hlen hm.same.numHashes _⟩

/-- The last PDU of a queue has no link to lose. -/
theorem setNext_none (h : c.next p = none) : c.setNext p none = c := by
  rw [setNext,← h,update_eq_self]

/-- The only PDU of the out queue stays there. -/
theorem rpcReturnToOutqueue_sole (h : c.Shape l) (hl : l .out = [p]) : c.rpcReturnToOutqueue p = c := by
  have hq := h.holds .out
  rw [hl] at hq
  have hhead : (c.queue .out).head = some p := hq.head
  have htail : (c.queue .out).tail = some p := hq.tail
  have hnext : c.next p = none := hq.seg.2
  have hqueue : (⟨some p,some p⟩ : Queue ℕ) = c.queue .out := by
    rw [← hhead]
    nth_rewrite 2 [hhead]
    rw [← htail]
  rw [rpcReturnToOutqueue,hhead]
  simp only [htail,if_true]
  rw [setQueue,setNext,setNext,hqueue]
  simp only [update_idem,update_eq_self]
  rw [← hnext,update_eq_self]

/-- The half-read PDU is in no queue, or the only one of the out queue. -/
theorem returnPdu_spec (h : c.Shape l) (hp : ∀ p, c.pdu = some p → c.Loose l p ∨ l .out = [p]) :
    ∃ m, (returnPdu c).Shape m ∧ Same c (returnPdu c) ∧ (returnPdu c).pdu = none ∧
      (returnPdu c).waitpduLen = c.waitpduLen ∧ ∀ i, m (.wait i) = l (.wait i) := by
  unfold returnPdu
  cases hpdu : c.pdu with
  | none => exact ⟨l,h,Same.refl c,hpdu,rfl,fun _ => rfl⟩
  | some p =>
    simp only
    rcases hp p hpdu with hloose | hl
    · obtain ⟨hm,hlen,-,-⟩ := moved_return h hloose
      refine ⟨_,hm.shape.congr rfl rfl rfl rfl rfl rfl,?_,trivial,hlen,fun i => update_of_ne (by simp) _ _⟩
      exact ⟨hm.same.isUdp,hm.same.isBroadcast,hm.same.autoReconnect,hm.same.numHashes,hm.same.xids,hm.same.fresh,
        hm.same.crashed⟩
    · rw [rpcReturnToOutqueue_sole h hl]
      exact ⟨l,h.congr rfl rfl rfl rfl rfl rfl,⟨rfl,rfl,rfl,rfl,rfl,rfl,rfl⟩,trivial,rfl,fun _ => rfl⟩

theorem eq_singleton {m : List ℕ} (hnd : m.Nodup) (hp : p ∈ m) (hall : ∀ x ∈ m, x = p) : m = [p] := by
  have hrep := List.eq_replicate_of_mem hall
  have hle : m.length ≤ 1 := by
    rw [hrep] at hnd
    exact List.nodup_replicate.mp hnd
  have hpos := List.length_pos_of_mem hp
  rw [hrep,show m.length = 1 by omega]
  rfl

/-- A head without a link is the tail. -/
theorem Shape.tail_eq (h : c.Shape l) {q : ℕ} (hp : (c.queue a).head = some p) (hq : (c.queue a).tail = some q)
    (hn : c.next p = none) : p = q := by
  have hseg := (h.holds a).seg
  have hlast := (h.holds a).tail
  rw [hp] at hseg
  rw [hq] at hlast
  cases hl : l a with
  | nil =>
    rw [hl] at hseg
    cases hseg
  | cons b t =>
    rw [hl] at hseg hlast
    have hb : p = b := Option.some.inj hseg.1
    subst hb
    have ht := hseg.2.head
    rw [hn] at ht
    rw [List.head?_eq_none_iff.mp ht.symm] at hlast
    simpa using hlast.symm

/-- No PDU is in a wait chain. -/
def NoneWaits (c : Ctx) : Prop := ∀ i < c.numHashes, (c.queue (.wait i)).head = none

theorem Shape.waiting_eq (h : c.Shape l) (hw : c.NoneWaits) : waiting c.numHashes l = 0 := by
  apply waiting_eq_zero.mpr
  intro i hi
  have hhead := (h.holds (.wait i)).head
  rw [hw i hi] at hhead
  exact List.head?_eq_none_iff.mp hhead.symm

/-- Where `rpc_reconnect_requeue` can put `rpc->pdu` into the out queue: it is not freed, and no queue has
it, or it is the only PDU of all. -/
def Returnable (c : Ctx) : Prop :=
  ∀ p, c.pdu = some p → p ∉ c.freed ∧ (c.Linked p → ∀ q, c.Linked q → q = p)

theorem rpcReconnectRequeue_spec (hn : 0 < c.numHashes) (h : c.Shape l) (hk : ∀ p, c.pdu = some p → p < c.fresh)
    (hr : c.autoReconnect ≠ 0 → c.Returnable) (started : Bool) :
    ∃ d m, c.rpcReconnectRequeue started = some d ∧
      ((c.autoReconnect = 0 ∧ Moved [] c l d m) ∨ (d.Shape m ∧ Same c d ∧ d.pdu = none)) ∧
      ((c.autoReconnect = 0 → c.NoneWaits) → c.Agree l → d.Agree m) := by
  unfold rpcReconnectRequeue
  split
  · next hauto =>
    obtain ⟨d,m,hd,hm,ha⟩ := rpcPurgeAllPdus_spec h
    exact ⟨d,m,hd,.inl ⟨hauto,hm⟩,fun hw => ha (h.waiting_eq (hw hauto))⟩
  · next hauto =>
    obtain ⟨e,m,he,hm,hfreed,hnil⟩ := requeue_spec (List.range c.numHashes) h
    have hempty : ∀ i, m (.wait i) = [] := by
      intro i
      rcases Nat.lt_or_ge i c.numHashes with hi | hi
      · exact hnil i (.inl (List.mem_range.mpr hi))
      · exact hnil i (.inr (h.wait_eq_nil hn hi))
    have hshape : ({ e with waitpduLen := 0 } : Ctx).Shape m := hm.shape.congr rfl rfl rfl rfl rfl rfl
    have hpdu : ∀ p, ({ e with waitpduLen := 0 } : Ctx).pdu = some p →
        ({ e with waitpduLen := 0 } : Ctx).Loose m p ∨ m .out = [p] := by
      intro p hp
      have hp' : c.pdu = some p := hm.pdu.symm.trans hp
      obtain ⟨hlive,hsole⟩ := hr hauto p hp'
      by_cases hmem : p ∈ m .out
      · have hall : ∀ x ∈ m .out, x = p := by
          intro x hx
          have hl : ∀ y ∈ m .out, c.Linked y :=
            fun y hy => h.linked_iff.mpr ((hm.linked .out y hy).resolve_right (by simp))
          exact hsole (hl p hmem) x (hl x hx)
        exact .inr (eq_singleton (hm.shape.holds .out).nodup hmem hall)
      · refine .inl ⟨fun b hb => ?_,?_,?_⟩
        · cases b with
          | out => exact hmem hb
          | wait i =>
            rw [hempty i] at hb
            simp at hb
        · show p < e.fresh
          rw [hm.same.fresh]
          exact hk p hp'
        · show p ∉ e.freed
          rw [hfreed]
          exact hlive
    obtain ⟨k,hkept,hsame,hnone,hlen,hwait⟩ := returnPdu_spec hshape hpdu
    have hzero : waiting c.numHashes k = 0 := waiting_eq_zero.mpr fun i _ => by rw [hwait i,hempty i]
    rw [he]
    simp only
    generalize returnPdu { e with waitpduLen := 0 } = f at *
    have hsame' : Same c f := hm.same.trans ⟨hsame.isUdp,hsame.isBroadcast,hsame.autoReconnect,hsame.numHashes,
      hsame.xids,hsame.fresh,hsame.crashed⟩
    have hagree : f.Agree k := by
      unfold Agree
      rw [hlen,hsame'.numHashes,hzero]
      rfl
    cases started with
    | true => exact ⟨f,k,rfl,.inr ⟨hkept,hsame',hnone⟩,fun _ _ => hagree⟩
    | false =>
      obtain ⟨g,k',hg,hm',ha⟩ := rpcPurgeAllPdus_spec hkept
      refine ⟨g,k',hg,.inr ⟨hm'.shape,hsame'.trans hm'.same,hm'.pdu.trans hnone⟩,fun _ _ => ha ?_ hagree⟩
      rw [hsame'.numHashes]
      exact hzero

/-- The chains are in order, and `rpc->pdu` is a PDU; on TCP, or where `N` holds, it is in no queue. -/
structure Inv (N : Prop) (c : Ctx) (l : Loc → List ℕ) : Prop where
  shape : c.Shape l
  alive : c.crashed = false
  hashes : 0 < c.numHashes
  known : ∀ p, c.pdu = some p → p < c.fresh
  quiet : N → (c.isUdp && c.isBroadcast) = false
  held : N ∨ c.isUdp = false → ∀ p, c.pdu = some p → c.Loose l p

/-- The chains are in order and `rpc->pdu` is clear. -/
theorem Inv.reset (h : Inv N c l) (hs : d.Shape m) (hd : Same c d) (hp : d.pdu = none) : Inv N d m := by
  refine ⟨hs,hd.crashed.trans h.alive,?_,fun p hpdu => ?_,fun hN => ?_,fun _ p hpdu => ?_⟩
  · rw [hd.numHashes]
    exact h.hashes
  · simp [hp] at hpdu
  · rw [hd.isUdp,hd.isBroadcast]
    exact h.quiet hN
  · simp [hp] at hpdu

theorem Inv.moved {o : List ℕ} (h : Inv N c l) (hm : Moved o c l d m) (ho : ∀ p, c.pdu = some p → p ∉ o) :
    Inv N d m := by
  refine ⟨hm.shape,hm.same.crashed.trans h.alive,?_,fun p hpdu => ?_,fun hN => ?_,fun hN p hpdu => ?_⟩
  · rw [hm.same.numHashes]
    exact h.hashes
  · rw [hm.same.fresh]
    exact h.known p (hm.pdu.symm.trans hpdu)
  · rw [hm.same.isUdp,hm.same.isBroadcast]
    exact h.quiet hN
  · have hp := hm.pdu.symm.trans hpdu
    rw [hm.same.isUdp] at hN
    exact hm.loose (h.held hN p hp) (ho p hp)

theorem Inv.setPdu (h : Inv N c l) {o : Option ℕ} (hk : ∀ p, o = some p → p < c.fresh)
    (hl : N ∨ c.isUdp = false → ∀ p, o = some p → c.Loose l p) : Inv N { c with pdu := o } l :=
  ⟨h.shape.congr rfl rfl rfl rfl rfl rfl,h.alive,h.hashes,hk,h.quiet,fun hN p hp =>
    have hp := hl hN p hp
    ⟨hp.unlinked,hp.known,hp.live⟩⟩

theorem Inv.setRm1 (h : Inv N c l) (x : ℕ) : Inv N { c with rm1 := x } l :=
  ⟨h.shape.congr rfl rfl rfl rfl rfl rfl,h.alive,h.hashes,h.known,h.quiet,fun hN p hp =>
    have hp := h.held hN p hp
    ⟨hp.unlinked,hp.known,hp.live⟩⟩

/-- A step keeps the invariant, allocates `n` PDUs, and keeps the counter right where `A` holds. -/
def Steps (N A : Prop) (n : ℕ) (c : Ctx) (l : Loc → List ℕ) (o : Option Ctx) : Prop :=
  ∃ d m, o = some d ∧ Inv N d m ∧ d.fresh = c.fresh+n ∧ (A → c.Agree l → d.Agree m)

theorem Inv.steps {A : Prop} {o : Option Ctx} (h : Inv N c l)
    (ho : ∃ d m, o = some d ∧ Moved [] c l d m ∧ (A → c.Agree l → d.Agree m)) : Steps N A 0 c l o := by
  obtain ⟨d,m,ho,hm,ha⟩ := ho
  exact ⟨d,m,ho,h.moved hm (by simp),hm.same.fresh,ha⟩

/-- Where a step keeps the counter right -/
def Counts (c : Ctx) : Event → Prop
  | .queuePdu kind ok _ => (c.isUdp = true ∨ kind = .authtls → ok = true) ∧ c.fresh+1 < 2^32
  | .purge => c.NoneWaits
  | .reconnect _ => c.autoReconnect = 0 → c.NoneWaits
  | _ => True

theorem steps_queuePdu (h : Inv N c l) {kind : Kind} (hk : kind = .authtls → c.isUdp = false) (ok : Bool) (sent : ℕ) :
    Steps N (c.Counts (.queuePdu kind ok sent)) 1 c l (c.act (.queuePdu kind ok sent)) := by
  obtain ⟨hs,hloose⟩ := rpcAllocatePdu_spec h.shape kind
  have hinv : Inv N (c.rpcAllocatePdu kind) l := by
    refine ⟨hs,h.alive,h.hashes,fun p hp => Nat.lt_succ_of_lt (h.known p hp),h.quiet,fun hN p hp => ?_⟩
    have hold := h.held hN p hp
    exact ⟨hold.unlinked,Nat.lt_succ_of_lt hold.known,hold.live⟩
  obtain ⟨d,m,hd,hm,ha⟩ := rpcQueuePdu_spec hinv.hashes hs hloose hk ok sent
  have hne : ∀ p, (c.rpcAllocatePdu kind).pdu = some p → p ∉ [c.fresh] := by
    intro p hp hmem
    have hlt := h.known p hp
    rw [List.mem_singleton.mp hmem] at hlt
    exact Nat.lt_irrefl _ hlt
  refine ⟨d,m,hd,hinv.moved hm hne,hm.same.fresh,fun hc hagree => ha ?_ hagree⟩
  by_cases hin : c.isUdp = true ∨ kind = .authtls
  · exact .inl (hc.1 hin)
  · simp only [not_or,Bool.not_eq_true] at hin
    exact .inr hin

/-- A reply, once its xid is in `rm_xid[1]` -/
theorem steps_found (h : Inv N c l) {xid : ℕ} (hrm : c.rm1 = xid)
    (hl : (c.isUdp && c.isBroadcast) = true → ∀ p, c.Found xid (c.rpcHashXid c.rm1) p → c.next p = none) (room : Bool) :
    Steps N True 0 c l (c.reply xid room) := by
  have hc : ({ c with rm1 := xid } : Ctx) = c := by
    subst hrm
    rfl
  unfold reply
  rw [hc]
  rcases rpcFindPdu_spec h.hashes h.shape xid with ⟨hf,-⟩ | ⟨p,a,d,hf,hfound,hp,hbroad,hplain⟩
  · rw [hf]
    exact ⟨_,l,rfl,h.setPdu (by simp) (by simp),rfl,fun _ ha => ha⟩
  · rw [hf]
    have hlt := h.shape.known a p hp
    cases hu : (c.isUdp && c.isBroadcast) with
    | true =>
      obtain rfl : d = c := (hbroad hu).trans (setNext_none (hl hu p hfound))
      have hudp : d.isUdp = true := (Bool.and_eq_true_iff.mp hu).1
      simp only
      rw [if_pos (.inl hudp)]
      refine ⟨_,l,rfl,h.setPdu (fun q hq => ?_) fun hN => ?_,rfl,fun _ ha => ha⟩
      · rw [← Option.some.inj hq]
        exact hlt
      · rcases hN with hN | hN
        · simp [h.quiet hN] at hu
        · simp [hN] at hu
    | false =>
      obtain ⟨m,hm,hloose,ha⟩ := hplain hu
      have hinv := h.moved hm (by simp)
      simp only
      split
      · refine ⟨_,m,rfl,hinv.setPdu (fun q hq => ?_) (fun _ q hq => ?_),hm.same.fresh,fun _ => ha⟩
        · rw [← Option.some.inj hq]
          exact hloose.known
        · rw [← Option.some.inj hq]
          exact hloose
      · obtain ⟨hret,hlen,-⟩ := moved_return hm.shape hloose
        have hsame := hm.same.trans hret.same
        refine ⟨_,_,rfl,h.reset (hret.shape.congr rfl rfl rfl rfl rfl rfl) ?_ rfl,hsame.fresh,
          fun _ hc => (ha hc).out hlen hret.same.numHashes _⟩
        exact ⟨hsame.isUdp,hsame.isBroadcast,hsame.autoReconnect,hsame.numHashes,hsame.xids,hsame.fresh,hsame.crashed⟩

theorem steps_reply (h : Inv N c l) {xid : ℕ}
    (hl : (c.isUdp && c.isBroadcast) = true → ∀ p, c.Found xid (c.rpcHashXid xid) p → c.next p = none) (room : Bool) :
    Steps N True 0 c l (c.reply xid room) :=
  steps_found (c := { c with rm1 := xid }) (h.setRm1 xid) rfl hl room

theorem steps_finished (h : Inv N c l) : Steps N True 0 c l (c.act .finished) := by
  cases hudp : c.isUdp with
  | true => exact ⟨c,l,by simp [act,hudp],h,rfl,fun _ => id⟩
  | false =>
    rw [act,hudp,rpcFinishedPdu,hudp]
    simp only [Bool.false_eq_true,if_false,Bool.false_and]
    cases hpdu : c.pdu with
    | none => exact ⟨c,l,rfl,h,rfl,fun _ => id⟩
    | some p =>
      have hm := moved_free h.shape (h.held (.inr hudp) p hpdu)
      refine ⟨_,l,rfl,h.reset (hm.shape.congr rfl rfl rfl rfl rfl rfl) ?_ rfl,rfl,fun _ => id⟩
      exact ⟨rfl,rfl,rfl,rfl,rfl,rfl,rfl⟩

theorem steps_cancelPdu (h : Inv N c l)
    (hl : (c.isUdp && c.isBroadcast) = true → p < c.fresh → p ∉ c.freed → ∀ q, ¬ c.Found (c.xids p) (c.rpcHashXid c.rm1) q) :
    Steps N True 0 c l (c.act (.cancelPdu p)) := by
  rw [act]
  split
  · next hp =>
    unfold rpcCancelPdu
    rcases rpcFindPdu_spec h.hashes h.shape (c.xids p) with ⟨hf,-⟩ | ⟨q,a,d,hf,hfound,hq,-,hplain⟩
    · rw [hf]
      exact ⟨c,l,rfl,h,rfl,fun _ => id⟩
    · rw [hf]
      cases hu : (c.isUdp && c.isBroadcast) with
      | true => exact absurd hfound (hl hu hp.1 hp.2 q)
      | false =>
        obtain ⟨m,hm,hloose,ha⟩ := hplain hu
        have hfree := hm.trans (moved_free hm.shape hloose) fun x hx => .inl ⟨a,List.mem_singleton.mp hx ▸ hq⟩
        exact h.steps ⟨_,m,rfl,hfree,fun _ => ha⟩
  · exact ⟨c,l,rfl,h,rfl,fun _ => id⟩

/-- Where a step keeps the chains in order. A reply in a broadcast context finds the last PDU of a chain,
and a cancel there finds none; a reconnect can return `rpc->pdu`; and AUTH_TLS is for TCP. -/
def Tidy (c : Ctx) : Event → Prop
  | .queuePdu kind _ _ => kind = .authtls → c.isUdp = false
  | .reply xid _ =>
    (c.isUdp && c.isBroadcast) = true → ∀ p, c.Found xid (c.rpcHashXid xid) p → c.next p = none
  | .cancelPdu p =>
    (c.isUdp && c.isBroadcast) = true → p < c.fresh → p ∉ c.freed → ∀ q, ¬ c.Found (c.xids p) (c.rpcHashXid c.rm1) q
  | .reconnect _ => c.autoReconnect ≠ 0 → c.Returnable
  | _ => True

/-- Where no PDU in `rpc->pdu` is in a queue, most steps are tidy. -/
theorem Inv.tidy {e : Event} (h : Inv True c l)
    (hk : ∀ kind ok sent, e = .queuePdu kind ok sent → kind = .authtls → c.isUdp = false) : c.Tidy e := by
  have hq := h.quiet trivial
  cases e with
  | queuePdu kind ok sent => exact hk kind ok sent rfl
  | reply xid room => exact fun hb => by simp [hq] at hb
  | cancelPdu p => exact fun hb => by simp [hq] at hb
  | reconnect started =>
    intro _ p hp
    have hloose := h.held (.inl trivial) p hp
    refine ⟨hloose.live,fun hl => ?_⟩
    obtain ⟨a,ha⟩ := h.shape.linked_iff.mp hl
    exact absurd ha (hloose.unlinked a)
  | _ => trivial

/-- The PDUs that an event allocates -/
def allocates : Event → ℕ
  | .queuePdu _ _ _ => 1
  | _ => 0

/-- An event that makes no context a broadcast one -/
def Unicast (c : Ctx) : Event → Prop
  | .setUdpDestination b => c.isUdp = true → b = false
  | _ => True

theorem steps_act (h : Inv N c l) {e : Event} (ht : c.Tidy e) (hu : N → c.Unicast e) :
    Steps N (c.Counts e) (allocates e) c l (c.act e) := by
  have hsame : ∀ {o : Option Ctx}, (∃ d m, o = some d ∧ Moved [] c l d m ∧ (c.Agree l → d.Agree m)) →
      Steps N True 0 c l o := by
    rintro o ⟨d,m,ho,hm,ha⟩
    exact h.steps ⟨d,m,ho,hm,fun _ => ha⟩
  have htrue : ∀ {A : Prop} {o : Option Ctx}, Steps N True 0 c l o → Steps N A 0 c l o := by
    rintro A o ⟨d,m,ho,hm,hf,ha⟩
    exact ⟨d,m,ho,hm,hf,fun _ => ha trivial⟩
  cases e with
  | queuePdu kind ok sent => exact steps_queuePdu h ht ok sent
  | write sent => exact htrue (hsame (rpcWriteToSocket_spec h.hashes h.shape sent))
  | reply xid room => exact htrue (steps_reply h ht room)
  | marker raw =>
    rw [act]
    split
    · exact ⟨c,l,rfl,h,rfl,fun _ => id⟩
    · exact ⟨_,l,rfl,(h.setRm1 raw).setPdu (by simp) (by simp),rfl,fun _ => id⟩
  | finished => exact htrue (steps_finished h)
  | cancelPdu p => exact htrue (steps_cancelPdu h ht)
  | timeoutScan expired retry => exact htrue (hsame (rpcTimeoutScan_spec expired retry h.shape))
  | purge =>
    obtain ⟨d,m,hd,hm,ha⟩ := rpcPurgeAllPdus_spec h.shape
    exact h.steps ⟨d,m,hd,hm,fun hw => ha (h.shape.waiting_eq hw)⟩
  | reconnect started =>
    obtain ⟨d,m,hd,hor,ha⟩ := rpcReconnectRequeue_spec h.hashes h.shape h.known ht started
    rcases hor with ⟨-,hm⟩ | ⟨hs,hsame',hp⟩
    · exact ⟨d,m,hd,h.moved hm (by simp),hm.same.fresh,ha⟩
    · exact ⟨d,m,hd,h.reset hs hsame' hp,hsame'.fresh,ha⟩
  | setAutoreconnect n =>
    refine ⟨_,l,rfl,⟨h.shape.congr rfl rfl rfl rfl rfl rfl,h.alive,h.hashes,h.known,h.quiet,fun hN p hp => ?_⟩,rfl,
      fun _ => id⟩
    have hloose := h.held hN p hp
    exact ⟨hloose.unlinked,hloose.known,hloose.live⟩
  | setUdpDestination b =>
    rw [act]
    split
    · next hudp =>
      refine ⟨_,l,rfl,⟨h.shape.congr rfl rfl rfl rfl rfl rfl,h.alive,h.hashes,h.known,fun hN => ?_,fun hN p hp => ?_⟩,
        rfl,fun _ => id⟩
      · simp [hu hN hudp]
      · have hloose := h.held hN p hp
        exact ⟨hloose.unlinked,hloose.known,hloose.live⟩
    · exact ⟨c,l,rfl,h,rfl,fun _ => id⟩

end Ctx

open Ctx

variable {c : Ctx} {l : Loc → List ℕ} {N : Prop}

/-- What one step keeps -/
theorem step_inv (h : Inv N c l) {e : Event} (ht : c.Tidy e) (hu : N → c.Unicast e) :
    ∃ m, Inv N (step c e) m ∧ (step c e).fresh = c.fresh+allocates e ∧
      (c.Counts e → c.Agree l → (step c e).Agree m) := by
  obtain ⟨d,m,hd,hinv,hfresh,ha⟩ := steps_act h ht hu
  have hstep : step c e = d := by
    rw [step,h.alive,hd]
    rfl
  rw [hstep]
  exact ⟨m,hinv,hfresh,ha⟩

theorem init_inv (isUdp : Bool) {numHashes : ℕ} (hn : 0 < numHashes) (xid : ℕ) :
    Inv N (init isUdp numHashes xid) fun _ => [] where
  shape := ⟨fun _ => .empty,by simp,by simp,by simp,by simp,by simp [init]⟩
  alive := rfl
  hashes := hn
  known := by simp [init]
  quiet _ := by simp [init]
  held _ p hp := by simp [init] at hp

/-- The queues are chains in order, in every run without a reply or a cancel that hits a PDU in front of
others in a broadcast context, or a reconnect that cannot return `rpc->pdu`. -/
theorem queues_hold (isUdp : Bool) {numHashes : ℕ} (hn : 0 < numHashes) (xid : ℕ) {es : List Event}
    (hg : Guarded step Tidy (init isUdp numHashes xid) es) :
    (run step (init isUdp numHashes xid) es).crashed = false ∧
      ∃ l, (run step (init isUdp numHashes xid) es).Shape l := by
  have hinv := guarded_induction step hg (P := fun c => ∃ l, Inv False c l)
    ⟨_,init_inv isUdp hn xid⟩ fun c e ⟨l,h⟩ ht => (step_inv h ht False.elim).imp fun m hm => hm.1
  obtain ⟨l,h⟩ := hinv
  exact ⟨h.alive,l,h.shape⟩

/-- Five calls, the first and the last with the same chain, and the reply to the first -/
def demoTcp : List Event :=
  [.queuePdu .call true 1,.queuePdu .call true 1,.queuePdu .call true 1,.queuePdu .call true 1,
    .queuePdu .call true 1,.reply 7 true]

theorem queues_hold_reply : (run step (init false 4 7) demoTcp).crashed = false ∧
    ∃ l, (run step (init false 4 7) demoTcp).Shape l :=
  queues_hold false (by decide) 7 ⟨by simp [Tidy],by simp [Tidy],by simp [Tidy],by simp [Tidy],by simp [Tidy],
    fun h => absurd h (by decide),trivial⟩

/-- The same calls, broadcast: the reply to the first cuts off the second, and the tail of the chain is
not its last element. -/
def demoBroadcast : List Event :=
  [.setUdpDestination true,.queuePdu .call true 0,.queuePdu .call true 0,.queuePdu .call true 0,
    .queuePdu .call true 0,.queuePdu .call true 0,.reply 7 true]

theorem queues_cut_by_broadcast : ¬ ∃ l, (run step (init true 4 7) demoBroadcast).Shape l := by
  rintro ⟨l,h⟩
  have he := h.tail_eq (a := .wait 1) (p := 0) (q := 4) (by decide +kernel) (by decide +kernel) (by decide +kernel)
  exact absurd he (by decide)

/-- Without broadcasts there is no other condition. -/
theorem queues_hold_unicast (isUdp : Bool) {numHashes : ℕ} (hn : 0 < numHashes) (xid : ℕ) {es : List Event}
    (hg : Guarded step (fun c e => c.Unicast e ∧ ∀ kind ok sent, e = .queuePdu kind ok sent → kind = .authtls →
      c.isUdp = false) (init isUdp numHashes xid) es) :
    (run step (init isUdp numHashes xid) es).crashed = false ∧
      ∃ l, (run step (init isUdp numHashes xid) es).Shape l := by
  have hinv := guarded_induction step hg (P := fun c => ∃ l, Inv True c l) ⟨_,init_inv isUdp hn xid⟩ fun c e ⟨l,h⟩ hu =>
    (step_inv h (h.tidy hu.2) fun _ => hu.1).imp fun m hm => hm.1
  obtain ⟨l,h⟩ := hinv
  exact ⟨h.alive,l,h.shape⟩

/-- A PDU of a wait chain is one of the PDUs. -/
theorem waiting_le (h : c.Shape l) (n : ℕ) : waiting n l ≤ c.fresh := by
  have hcard : ∀ i, (l (.wait i)).length = (l (.wait i)).toFinset.card :=
    fun i => (List.toFinset_card_of_nodup (h.holds (.wait i)).nodup).symm
  have hdis : ∀ i ∈ Finset.range n, ∀ j ∈ Finset.range n, i ≠ j →
      Disjoint (l (.wait i)).toFinset (l (.wait j)).toFinset := by
    intro i _ j _ hij
    rw [Finset.disjoint_left]
    intro x hx
    rw [List.mem_toFinset] at hx ⊢
    exact h.apart (.wait i) (.wait j) (by simpa using hij) x hx
  calc waiting n l = ∑ i ∈ Finset.range n, (l (.wait i)).toFinset.card := Finset.sum_congr rfl fun i _ => hcard i
    _ = ((Finset.range n).biUnion fun i => (l (.wait i)).toFinset).card := (Finset.card_biUnion hdis).symm
    _ ≤ (Finset.range c.fresh).card := by
      apply Finset.card_le_card
      intro x hx
      simp only [Finset.mem_biUnion,List.mem_toFinset] at hx
      obtain ⟨i,-,hx⟩ := hx
      exact Finset.mem_range.mpr (h.known _ x hx)
    _ = c.fresh := Finset.card_range _

/-- `waitpdu_len` is the number of PDUs in the wait chains, in every such run where no send at once fails
and no purge finds a PDU that waits. -/
theorem waitpduLen_counts (isUdp : Bool) {numHashes : ℕ} (hn : 0 < numHashes) (xid : ℕ) {es : List Event}
    (hg : Guarded step (fun c e => c.Tidy e ∧ c.Counts e) (init isUdp numHashes xid) es) :
    ∃ l, (run step (init isUdp numHashes xid) es).Shape l ∧
      (run step (init isUdp numHashes xid) es).waitpduLen =
        waiting (run step (init isUdp numHashes xid) es).numHashes l := by
  have hinv := guarded_induction step hg (P := fun c => ∃ l, Inv False c l ∧ c.Agree l ∧ c.fresh < 2^32)
    ⟨_,init_inv isUdp hn xid,by simp [Agree,init,waiting],by simp [init]⟩ fun c e ⟨l,h,ha,hf⟩ ht => ?_
  · obtain ⟨l,h,ha,hf⟩ := hinv
    have hle := waiting_le h.shape (run step (init isUdp numHashes xid) es).numHashes
    refine ⟨l,h.shape,?_⟩
    rw [ha,Nat.mod_eq_of_lt (by omega)]
  · obtain ⟨m,hm,hfresh,hagree⟩ := step_inv h ht.1 False.elim
    refine ⟨m,hm,hagree ht.2 ha,?_⟩
    rw [hfresh]
    cases e with
    | queuePdu kind ok sent => exact ht.2.2
    | _ => exact hf

theorem waitpduLen_counts_reply : ∃ l, (run step (init false 4 7) demoTcp).Shape l ∧
    (run step (init false 4 7) demoTcp).waitpduLen = waiting (run step (init false 4 7) demoTcp).numHashes l :=
  waitpduLen_counts false (by decide) 7 ⟨⟨by simp [Tidy],by simp,by decide⟩,⟨by simp [Tidy],by simp,by decide⟩,
    ⟨by simp [Tidy],by simp,by decide⟩,⟨by simp [Tidy],by simp,by decide⟩,⟨by simp [Tidy],by simp,by decide⟩,
    ⟨fun h => absurd h (by decide),trivial⟩,trivial⟩

/-- A UDP call that cannot be sent is counted and not queued. -/
theorem waitpduLen_drifts : ¬ ∃ l, (run step (init true 4 7) [.queuePdu .call false 0]).Shape l ∧
    (run step (init true 4 7) [.queuePdu .call false 0]).waitpduLen =
      waiting (run step (init true 4 7) [.queuePdu .call false 0]).numHashes l := by
  rintro ⟨l,h,hlen⟩
  have hcount : (run step (init true 4 7) [.queuePdu .call false 0]).waitpduLen = 1 := by decide
  have hheads : ∀ i < 4, ((run step (init true 4 7) [.queuePdu .call false 0]).queue (.wait i)).head = none := by
    decide
  rw [hcount,h.waiting_eq hheads] at hlen
  exact absurd hlen (by decide)

end Links
end Libnfs
