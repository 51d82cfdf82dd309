import Libnfs.LinksShape

/-! The queues of a context over whole runs: what each function moves, and which steps keep the chains
and the counter in order. -/
namespace Libnfs
namespace Links

open Intrusive Transition Function

namespace Ctx

/-- The PDUs in the first `n` wait chains -/
def waiting (n : ℕ) (l : Loc → List ℕ) : ℕ := ∑ h ∈ Finset.range n, (l (.wait h)).length

/-- `waitpdu_len` counts the PDUs in the wait chains, as far as a `uint32_t` can. -/
def Agree (c : Ctx) (l : Loc → List ℕ) : Prop := c.waitpduLen = waiting c.numHashes l%2^32

theorem waiting_update {n h : ℕ} (hh : h < n) (l : Loc → List ℕ) (m : List ℕ) :
    waiting n (update l (.wait h) m)+(l (.wait h)).length = waiting n l+m.length := by
  have hmem := Finset.mem_range.mpr hh
  unfold waiting
  rw [← Finset.add_sum_erase _ _ hmem,← Finset.add_sum_erase (a := h) _ (fun k => (l (.wait k)).length) hmem,
    update_self]
  have hrest : ∑ k ∈ (Finset.range n).erase h, (update l (.wait h) m (.wait k)).length =
      ∑ k ∈ (Finset.range n).erase h, (l (.wait k)).length := by
    apply Finset.sum_congr rfl
    intro k hk
    rw [update_of_ne]
    simpa using Finset.ne_of_mem_erase hk
  omega

theorem waiting_update_out (n : ℕ) (l : Loc → List ℕ) (m : List ℕ) :
    waiting n (update l .out m) = waiting n l := by
  unfold waiting
  apply Finset.sum_congr rfl
  intro k _
  rw [update_of_ne (by simp)]

/-- What no function but the one that is for it changes -/
structure Same (c d : Ctx) : Prop where
  isUdp : d.isUdp = c.isUdp
  isBroadcast : d.isBroadcast = c.isBroadcast
  autoReconnect : d.autoReconnect = c.autoReconnect
  numHashes : d.numHashes = c.numHashes
  xids : d.xids = c.xids
  fresh : d.fresh = c.fresh
  crashed : d.crashed = c.crashed

theorem Same.refl (c : Ctx) : Same c c := ⟨rfl,rfl,rfl,rfl,rfl,rfl,rfl⟩

theorem Same.trans {c d e : Ctx} (h : Same c d) (h' : Same d e) : Same c e :=
  ⟨h'.isUdp.trans h.isUdp,h'.isBroadcast.trans h.isBroadcast,h'.autoReconnect.trans h.autoReconnect,
    h'.numHashes.trans h.numHashes,h'.xids.trans h.xids,h'.fresh.trans h.fresh,h'.crashed.trans h.crashed⟩

/-- From the lists `l` of `c` to the lists `m` of `d`: no PDU is linked or freed that was not linked
before or is one of `ps`. -/
structure Moved (ps : List ℕ) (c : Ctx) (l : Loc → List ℕ) (d : Ctx) (m : Loc → List ℕ) : Prop where
  shape : d.Shape m
  linked : ∀ b, ∀ x ∈ m b, (∃ b', x ∈ l b') ∨ x ∈ ps
  freed : ∀ x ∈ d.freed, x ∈ c.freed ∨ (∃ b, x ∈ l b) ∨ x ∈ ps
  same : Same c d
  pdu : d.pdu = c.pdu

variable {c d e : Ctx} {l m k : Loc → List ℕ} {a : Loc} {p : ℕ} {o : List ℕ}

theorem Moved.refl (h : c.Shape l) : Moved o c l c l :=
  ⟨h,fun b _ hx => .inl ⟨b,hx⟩,fun _ hx => .inl hx,Same.refl c,rfl⟩

theorem Moved.trans {o' : List ℕ} (h : Moved o c l d m) (h' : Moved o' d m e k)
    (ho : ∀ x ∈ o', (∃ b, x ∈ l b) ∨ x ∈ o) : Moved o c l e k := by
  have hlinked : ∀ x, (∃ b, x ∈ m b) ∨ x ∈ o' → (∃ b, x ∈ l b) ∨ x ∈ o := by
    rintro x (⟨b,hb⟩ | hx)
    · exact h.linked b x hb
    · exact ho x hx
  refine ⟨h'.shape,fun b x hx => hlinked x (h'.linked b x hx),fun x hx => ?_,h.same.trans h'.same,
    h'.pdu.trans h.pdu⟩
  rcases h'.freed x hx with hx | hx
  · exact h.freed x hx
  · exact .inr (hlinked x hx)

/-- A step that brings no PDU in -/
theorem Moved.then (h : Moved o c l d m) (h' : Moved [] d m e k) : Moved o c l e k :=
  h.trans h' fun x hx => by simp at hx

theorem Shape.congr (h : c.Shape l) (hq : d.queue = c.queue) (hn : d.next = c.next) (hx : d.xids = c.xids)
    (hh : d.numHashes = c.numHashes) (hf : d.fresh = c.fresh) (hr : d.freed = c.freed) : d.Shape l := by
  refine ⟨fun b => ?_,h.apart,fun k x hk => ?_,fun b x hb => ?_,fun b x hb => ?_,?_⟩
  · rw [hq,hn]
    exact h.holds b
  · rw [rpcHashXid,hx,hh]
    exact h.hashed k x hk
  · rw [hf]
    exact h.known b x hb
  · rw [hr]
    exact h.live b x hb
  · rw [hr,hf]
    exact h.spent

theorem moved_inc (h : c.Shape l) : Moved [] c l c.inc l :=
  ⟨h.congr (d := c.inc) rfl rfl rfl rfl rfl rfl,fun b _ hx => .inl ⟨b,hx⟩,fun _ hx => .inl hx,
    ⟨rfl,rfl,rfl,rfl,rfl,rfl,rfl⟩,rfl⟩

theorem moved_dec (h : c.Shape l) : Moved [] c l c.dec l :=
  ⟨h.congr (d := c.dec) rfl rfl rfl rfl rfl rfl,fun b _ hx => .inl ⟨b,hx⟩,fun _ hx => .inl hx,
    ⟨rfl,rfl,rfl,rfl,rfl,rfl,rfl⟩,rfl⟩

/-- An edit of one queue -/
theorem moved_edited {q : Queue ℕ} {next : ℕ → Option ℕ} {n : List ℕ} (hs : (c.edited a q next).Shape (update l a n))
    (hn : ∀ x ∈ n, x ∈ l a ∨ x ∈ o) : Moved o c l (c.edited a q next) (update l a n) := by
  refine ⟨hs,fun b x hx => ?_,fun x hx => .inl hx,⟨rfl,rfl,rfl,rfl,rfl,rfl,rfl⟩,rfl⟩
  by_cases hb : b = a
  · rw [hb,update_self] at hx
    exact (hn x hx).imp (fun h => ⟨a,h⟩) id
  · rw [update_of_ne hb] at hx
    exact .inl ⟨b,hx⟩

/-- A PDU in no queue is freed. -/
theorem moved_free (h : c.Shape l) (hp : c.Loose l p) : Moved [p] c l (c.rpcFreePdu p) l := by
  refine ⟨⟨h.holds,h.apart,h.hashed,h.known,fun b x hx => ?_,fun x hx => ?_⟩,fun b x hx => .inl ⟨b,hx⟩,
    fun x hx => ?_,⟨rfl,rfl,rfl,rfl,rfl,rfl,rfl⟩,rfl⟩
  · intro hf
    rcases List.mem_cons.mp hf with rfl | hf
    · exact hp.unlinked b hx
    · exact h.live b x hx hf
  · rcases List.mem_cons.mp hx with rfl | hx
    · exact hp.known
    · exact h.spent x hx
  · rcases List.mem_cons.mp hx with rfl | hx
    · exact .inr (.inr (List.mem_singleton_self _))
    · exact .inl hx

theorem moved_enqueue (h : c.Shape l) (hp : c.Loose l p) (ha : ∀ k, a = .wait k → c.rpcHashXid (c.xids p) = k) :
    ∃ d, c.rpcEnqueue a p = some d ∧ Moved [p] c l d (update l a (l a ++ [p])) ∧ d.waitpduLen = c.waitpduLen := by
  obtain ⟨q,next,he,hs⟩ := rpcEnqueue_spec h hp ha
  refine ⟨_,he,moved_edited hs fun x hx => ?_,rfl⟩
  exact List.mem_append.mp hx

theorem moved_return (h : c.Shape l) (hp : c.Loose l p) :
    Moved [p] c l (c.rpcReturnToOutqueue p) (update l .out (insertSecond p (l .out))) ∧
      (c.rpcReturnToOutqueue p).waitpduLen = c.waitpduLen ∧ (c.rpcReturnToOutqueue p).freed = c.freed ∧
      ∀ x, x ∉ l .out → x ≠ p → (c.rpcReturnToOutqueue p).next x = c.next x := by
  obtain ⟨q,next,he,hs,hn⟩ := rpcReturnToOutqueue_spec h hp
  rw [he]
  refine ⟨moved_edited hs fun x hx => ?_,rfl,rfl,hn⟩
  rcases mem_insertSecond.mp hx with rfl | hx
  · exact .inr (List.mem_singleton_self _)
  · exact .inl hx

/-- A PDU leaves its queue. -/
theorem moved_erase (h : c.Shape l) (hp : p ∈ l a) {q : Queue ℕ} {next : ℕ → Option ℕ}
    (hs : (c.edited a q next).Shape (update l a ((l a).erase p))) :
    Moved [] c l (c.edited a q next) (update l a ((l a).erase p)) ∧
      (c.edited a q next).Loose (update l a ((l a).erase p)) p := by
  refine ⟨moved_edited hs fun x hx => .inl (List.mem_of_mem_erase hx),fun b hb => ?_,h.known a p hp,h.live a p hp⟩
  by_cases hba : b = a
  · rw [hba,update_self] at hb
    exact (h.holds a).nodup.not_mem_erase hb
  · rw [update_of_ne hba] at hb
    exact h.apart a b (Ne.symm hba) p hp hb

theorem moved_remove (h : c.Shape l) (hp : p ∈ l a) :
    ∃ d, c.rpcRemovePduFromQueue a p = some d ∧ Moved [] c l d (update l a ((l a).erase p)) ∧
      d.Loose (update l a ((l a).erase p)) p ∧ d.waitpduLen = c.waitpduLen := by
  obtain ⟨q,next,he,hs⟩ := rpcRemovePduFromQueue_spec h hp
  obtain ⟨hm,hloose⟩ := moved_erase h hp hs
  exact ⟨_,he,hm,hloose,rfl⟩

theorem moved_take (h : c.Shape l) {pre post : List ℕ} (hl : l a = pre++p::post)
    (hu : (c.isUdp && c.isBroadcast) = false) :
    ∃ d, c.take a p (if pre = [] then none else pre.getLast?) = d ∧
      Moved [] c l d (update l a ((l a).erase p)) ∧ d.Loose (update l a ((l a).erase p)) p ∧
      d.waitpduLen = c.waitpduLen := by
  obtain ⟨q,next,he,hs⟩ := take_spec h hl hu
  obtain ⟨hm,hloose⟩ := moved_erase h (by rw [hl]; simp) hs
  exact ⟨_,he,hm,hloose,rfl⟩

theorem hash_lt (hn : 0 < c.numHashes) (x : ℕ) : c.rpcHashXid x < c.numHashes := Nat.mod_lt _ hn

/-- One more PDU in a wait chain, and counted -/
theorem Agree.inc {h : ℕ} (ha : c.Agree l) (hl : d.waitpduLen = c.waitpduLen) (hs : d.numHashes = c.numHashes)
    (hh : h < c.numHashes) (p : ℕ) : d.inc.Agree (update l (.wait h) (l (.wait h) ++ [p])) := by
  have hw := waiting_update hh l (l (.wait h) ++ [p])
  rw [List.length_append,List.length_singleton] at hw
  unfold Agree at ha ⊢
  show wrap (d.waitpduLen+1) = waiting d.numHashes _%2^32
  rw [hl,hs,wrap]
  omega

/-- One PDU less in a wait chain, and counted -/
theorem Agree.dec {h : ℕ} (ha : c.Agree l) (hl : d.waitpduLen = c.waitpduLen) (hs : d.numHashes = c.numHashes)
    (hh : h < c.numHashes) (hp : p ∈ l (.wait h)) : d.dec.Agree (update l (.wait h) ((l (.wait h)).erase p)) := by
  have hw := waiting_update hh l ((l (.wait h)).erase p)
  have hpos := List.length_pos_of_mem hp
  rw [List.length_erase_of_mem hp] at hw
  unfold Agree at ha ⊢
  show wrap (d.waitpduLen-1) = waiting d.numHashes _%2^32
  rw [hl,hs,wrap]
  omega

theorem Agree.out (ha : c.Agree l) (hl : d.waitpduLen = c.waitpduLen) (hs : d.numHashes = c.numHashes)
    (n : List ℕ) : d.Agree (update l .out n) := by
  unfold Agree at ha ⊢
  rw [hl,hs,waiting_update_out,ha]

/-- The head of the out queue is taken off it. -/
theorem moved_pop (h : c.Shape l) {t : List ℕ} (hl : l .out = p::t) :
    Moved [] c l (c.setQueue .out ⟨c.next p,if c.next p = none then none else (c.queue .out).tail⟩)
      (update l .out t) ∧
    (c.setQueue .out ⟨c.next p,if c.next p = none then none else (c.queue .out).tail⟩).Loose (update l .out t) p := by
  have hq := h.holds .out
  have hp : p ∈ l .out := by
    rw [hl]
    exact List.mem_cons_self
  have ht : ∀ x ∈ t, x ∈ l .out := by
    intro x hx
    rw [hl]
    exact List.mem_cons_of_mem p hx
  rw [hl] at hq
  have hs := h.edit (a := .out) (fun _ _ _ _ => rfl) hq.pop fun x hx => .inl (ht x hx)
  refine ⟨moved_edited hs fun x hx => .inl (ht x hx),fun b hb => ?_,h.known .out p hp,h.live .out p hp⟩
  by_cases hbo : b = .out
  · rw [hbo,update_self] at hb
    exact (List.nodup_cons.mp hq.nodup).1 hb
  · rw [update_of_ne hbo] at hb
    exact h.apart .out b (Ne.symm hbo) p hp hb

theorem rpcWriteToSocket_spec (hn : 0 < c.numHashes) (h : c.Shape l) (sent : ℕ) :
    ∃ d m, c.rpcWriteToSocket sent = some d ∧ Moved [] c l d m ∧ (c.Agree l → d.Agree m) := by
  induction sent generalizing c l with
  | zero => exact ⟨c,l,rfl,Moved.refl h,id⟩
  | succ sent ih =>
    have hhead := (h.holds .out).head
    rw [rpcWriteToSocket]
    cases hl : l .out with
    | nil =>
      rw [hl,List.head?_nil] at hhead
      rw [hhead]
      exact ⟨c,l,rfl,Moved.refl h,id⟩
    | cons p t =>
      rw [hl,List.head?_cons] at hhead
      rw [hhead]
      simp only
      obtain ⟨hpop,hloose⟩ := moved_pop h hl
      have hp : p ∈ l .out := by
        rw [hl]
        exact List.mem_cons_self
      have hagree : c.Agree l →
          (c.setQueue .out ⟨c.next p,if c.next p = none then none else (c.queue .out).tail⟩).Agree (update l .out t) :=
        fun ha => ha.out rfl rfl t
      have hn' : 0 < (c.setQueue .out
        ⟨c.next p,if c.next p = none then none else (c.queue .out).tail⟩).numHashes := hn
      generalize c.setQueue .out ⟨c.next p,if c.next p = none then none else (c.queue .out).tail⟩ = c₁ at *
      split
      · exact ⟨_,_,rfl,hpop.trans (moved_free hpop.shape hloose) fun x hx => .inl ⟨.out,List.mem_singleton.mp hx ▸ hp⟩,hagree⟩
      · obtain ⟨d,hd,hmoved,hlen⟩ := moved_enqueue (a := .wait (c₁.rpcHashXid (c₁.xids p))) hpop.shape hloose
          fun k hk => by simpa using hk
        rw [hd]
        simp only
        have hinc := hmoved.then (moved_inc hmoved.shape)
        have hall := hpop.trans hinc fun x hx => .inl ⟨.out,List.mem_singleton.mp hx ▸ hp⟩
        have hna : 0 < d.inc.numHashes := by
          rw [hinc.same.numHashes]
          exact hn'
        obtain ⟨e,m,he,hm,ha⟩ := ih hna hinc.shape
        refine ⟨e,m,he,hall.then hm,fun hc => ha ?_⟩
        exact (hagree hc).inc hlen hmoved.same.numHashes (hash_lt hn' _) p

theorem Same.hash (h : Same c d) (x : ℕ) : d.rpcHashXid (d.xids x) = c.rpcHashXid (c.xids x) := by
  rw [rpcHashXid,rpcHashXid,h.xids,h.numHashes]

/-- A new PDU is in no queue. -/
theorem rpcAllocatePdu_spec (h : c.Shape l) (kind : Kind) :
    (c.rpcAllocatePdu kind).Shape l ∧ (c.rpcAllocatePdu kind).Loose l c.fresh := by
  have hne : ∀ b, ∀ x ∈ l b, x ≠ c.fresh := fun b x hx => Nat.ne_of_lt (h.known b x hx)
  refine ⟨⟨fun b => ?_,h.apart,fun k x hx => ?_,fun b x hx => ?_,h.live,fun x hx => ?_⟩,fun b hb => ?_,?_,?_⟩
  · exact (h.holds b).congr fun x hx => update_of_ne (hne b x hx) _ _
  · show (update c.xids c.fresh c.xid x*7919)%2^32%c.numHashes = k
    rw [update_of_ne (hne _ x hx)]
    exact h.hashed k x hx
  · exact Nat.lt_succ_of_lt (h.known b x hx)
  · exact Nat.lt_succ_of_lt (h.spent x hx)
  · exact hne b _ hb rfl
  · exact Nat.lt_succ_self c.fresh
  · exact fun hf => Nat.lt_irrefl _ (h.spent _ hf)

theorem rpcQueuePdu_spec (hn : 0 < c.numHashes) (h : c.Shape l) (hp : c.Loose l p) {kind : Kind}
    (hk : kind = .authtls → c.isUdp = false) (ok : Bool) (sent : ℕ) :
    ∃ d m, c.rpcQueuePdu kind ok sent p = some d ∧ Moved [p] c l d m ∧
      (ok = true ∨ (c.isUdp = false ∧ kind ≠ .authtls) → c.Agree l → d.Agree m) := by
  unfold rpcQueuePdu
  split
  · next hin =>
    rw [if_neg (by rintro ⟨hu,hk'⟩; simp [hk hk'] at hu)]
    obtain ⟨d,hd,hmoved,hlen⟩ := moved_enqueue (a := .wait (c.rpcHashXid (c.xids p))) h hp fun k hk => by simpa using hk
    have hinc := hmoved.then (moved_inc hmoved.shape)
    rw [hd]
    simp only [hmoved.same.hash]
    cases ok with
    | true =>
      refine ⟨d.inc,_,rfl,hinc,fun _ ha => ?_⟩
      exact ha.inc hlen hmoved.same.numHashes (hash_lt hn _) p
    | false =>
      have hmem : p ∈ update l (.wait (c.rpcHashXid (c.xids p)))
          (l (.wait (c.rpcHashXid (c.xids p))) ++ [p]) (.wait (c.rpcHashXid (c.xids p))) := by
        rw [update_self]
        simp
      obtain ⟨e,he,hrem,hloose,-⟩ := moved_remove hinc.shape hmem
      refine ⟨e.rpcFreePdu p,_,by simp [he],
        (hinc.then hrem).trans (moved_free hrem.shape hloose) fun x hx => .inr hx,fun hor => ?_⟩
      rcases hor with hok | ⟨hu,hk'⟩
      · simp at hok
      · simp [hu,hk'] at hin
  · obtain ⟨d,hd,hmoved,hlen⟩ := moved_enqueue (a := .out) h hp fun k hk => by simp at hk
    have hagree : c.Agree l → d.Agree (update l .out (l .out ++ [p])) :=
      fun ha => ha.out hlen hmoved.same.numHashes _
    rw [hd]
    simp only
    split
    · have hn' : 0 < d.numHashes := by
        rw [hmoved.same.numHashes]
        exact hn
      obtain ⟨e,m,he,hm,ha⟩ := rpcWriteToSocket_spec hn' hmoved.shape sent
      exact ⟨e,m,he,hmoved.then hm,fun _ hc => ha (hagree hc)⟩
    · exact ⟨d,_,rfl,hmoved,fun _ => hagree⟩

/-- The element behind `p` -/
theorem Shape.next_eq (h : c.Shape l) {pre post : List ℕ} (hl : l a = pre++p::post) : c.next p = post.head? := by
  have hs := (h.holds a).seg
  rw [hl] at hs
  obtain ⟨x,-,hx⟩ := seg_append.mp hs
  exact hx.2.head

theorem Shape.erase_eq (h : c.Shape l) {pre post : List ℕ} (hl : l a = pre++p::post) : (l a).erase p = pre++post := by
  have hnd := (h.holds a).nodup
  rw [hl,List.nodup_append] at hnd
  rw [hl,List.erase_append_right _ fun hx => hnd.2.2 p hx p (by simp) rfl,List.erase_cons_head]

/-- The loop over the out queue, with the rest of it to come -/
theorem scanOut_spec (gone : ℕ → Bool) {pre post : List ℕ} (h : c.Shape l) (hl : l .out = pre++post) (fuel : ℕ)
    (hf : post.length < fuel) :
    ∃ d m, scanOut gone fuel post.head? c = some d ∧ Moved [] c l d m ∧ (c.Agree l → d.Agree m) := by
  induction post generalizing c l pre fuel with
  | nil =>
    obtain ⟨k,rfl⟩ := Nat.exists_eq_add_one_of_ne_zero (by omega : fuel ≠ 0)
    exact ⟨c,l,rfl,Moved.refl h,id⟩
  | cons p post ih =>
    simp only [List.length_cons] at hf
    obtain ⟨k,rfl⟩ := Nat.exists_eq_add_one_of_ne_zero (by omega : fuel ≠ 0)
    have hp : p ∈ l .out := by
      rw [hl]
      simp
    rw [List.head?_cons,scanOut,h.next_eq hl]
    split
    · obtain ⟨d,hd,hrem,hloose,hlen⟩ := moved_remove h hp
      have hfree := hrem.trans (moved_free hrem.shape hloose) fun x hx => .inl ⟨.out,List.mem_singleton.mp hx ▸ hp⟩
      rw [hd]
      simp only
      obtain ⟨e,m,he,hm,ha⟩ := ih (c := d.rpcFreePdu p) hfree.shape (by rw [update_self,h.erase_eq hl]) k (by omega)
      exact ⟨e,m,he,hfree.then hm,fun hc => ha (hc.out hlen hrem.same.numHashes _)⟩
    · rw [List.append_cons] at hl
      exact ih h hl k (by omega)

/-- The loop over a wait chain, with the rest of it to come -/
theorem scanWait_spec {i : ℕ} (hi : i < c.numHashes) (expired retry : ℕ → Bool) {pre post : List ℕ} (h : c.Shape l)
    (hl : l (.wait i) = pre++post) (fuel : ℕ) (hf : post.length < fuel) :
    ∃ d m, scanWait (.wait i) expired retry fuel post.head? c = some d ∧ Moved [] c l d m ∧
      (c.Agree l → d.Agree m) := by
  induction post generalizing c l pre fuel with
  | nil =>
    obtain ⟨k,rfl⟩ := Nat.exists_eq_add_one_of_ne_zero (by omega : fuel ≠ 0)
    exact ⟨c,l,rfl,Moved.refl h,id⟩
  | cons p post ih =>
    simp only [List.length_cons] at hf
    obtain ⟨k,rfl⟩ := Nat.exists_eq_add_one_of_ne_zero (by omega : fuel ≠ 0)
    have hp : p ∈ l (.wait i) := by
      rw [hl]
      simp
    rw [List.head?_cons,scanWait,h.next_eq hl]
    split
    · obtain ⟨d,hd,hrem,hloose,hlen⟩ := moved_remove h hp
      have hdec := hrem.then (moved_dec hrem.shape)
      have hagree : c.Agree l → d.dec.Agree (update l (.wait i) ((l (.wait i)).erase p)) :=
        fun hc => hc.dec hlen hrem.same.numHashes hi hp
      have hloose' : d.dec.Loose (update l (.wait i) ((l (.wait i)).erase p)) p :=
        ⟨hloose.unlinked,hloose.known,hloose.live⟩
      have hin : ∀ x ∈ [p], (∃ b, x ∈ l b) ∨ x ∈ ([] : List ℕ) :=
        fun x hx => .inl ⟨.wait i,List.mem_singleton.mp hx ▸ hp⟩
      rw [hd]
      simp only
      split
      · obtain ⟨hret,hlen',-,-⟩ := moved_return hdec.shape hloose'
        have hall := hdec.trans hret hin
        have hi' : i < (d.dec.rpcReturnToOutqueue p).numHashes := by
          rw [hall.same.numHashes]
          exact hi
        obtain ⟨e,m,he,hm,ha⟩ := ih hi' hall.shape
          (by rw [update_of_ne (by simp),update_self,h.erase_eq hl]) k (by omega)
        exact ⟨e,m,he,hall.then hm,fun hc => ha ((hagree hc).out hlen' hret.same.numHashes _)⟩
      · have hall := hdec.trans (moved_free hdec.shape hloose') hin
        have hi' : i < (d.dec.rpcFreePdu p).numHashes := by
          rw [hall.same.numHashes]
          exact hi
        obtain ⟨e,m,he,hm,ha⟩ := ih hi' hall.shape (by rw [update_self,h.erase_eq hl]) k (by omega)
        exact ⟨e,m,he,hall.then hm,fun hc => ha (hagree hc)⟩
    · rw [List.append_cons] at hl
      exact ih hi h hl k (by omega)

theorem scanWaits_spec (expired retry : ℕ → Bool) {hs : List ℕ} (hlt : ∀ i ∈ hs, i < c.numHashes) (h : c.Shape l) :
    ∃ d m, scanWaits expired retry hs c = some d ∧ Moved [] c l d m ∧ (c.Agree l → d.Agree m) := by
  induction hs generalizing c l with
  | nil => exact ⟨c,l,rfl,Moved.refl h,id⟩
  | cons i hs ih =>
    have hle := h.length_le (.wait i)
    obtain ⟨d,m,hd,hm,ha⟩ := scanWait_spec (hlt i List.mem_cons_self) expired retry h
      (show l (.wait i) = [] ++ l (.wait i) from rfl) (c.fresh+1) (by omega)
    rw [scanWaits,(h.holds (.wait i)).head,hd]
    have hlt' : ∀ j ∈ hs, j < d.numHashes := by
      intro j hj
      rw [hm.same.numHashes]
      exact hlt j (List.mem_cons_of_mem i hj)
    obtain ⟨e,m',he,hm',ha'⟩ := ih hlt' hm.shape
    exact ⟨e,m',he,hm.then hm',fun hc => ha' (ha hc)⟩

theorem rpcTimeoutScan_spec (expired retry : ℕ → Bool) (h : c.Shape l) :
    ∃ d m, c.rpcTimeoutScan expired retry = some d ∧ Moved [] c l d m ∧ (c.Agree l → d.Agree m) := by
  have hle := h.length_le .out
  obtain ⟨d,m,hd,hm,ha⟩ := scanOut_spec (fun p => expired p && !retry p) h
    (show l .out = [] ++ l .out from rfl) (c.fresh+1) (by omega)
  rw [rpcTimeoutScan,(h.holds .out).head,hd]
  obtain ⟨e,m',he,hm',ha'⟩ := scanWaits_spec expired retry (fun i hi => List.mem_range.mp hi) hm.shape
  exact ⟨e,m',he,hm.then hm',fun hc => ha' (ha hc)⟩

theorem Moved.loose (h : Moved o c l d m) (hp : c.Loose l p) (ho : p ∉ o) : d.Loose m p := by
  refine ⟨fun b hb => ?_,?_,fun hf => ?_⟩
  · rcases h.linked b p hb with ⟨b',hb'⟩ | hb
    · exact hp.unlinked b' hb'
    · exact ho hb
  · rw [h.same.fresh]
    exact hp.known
  · rcases h.freed p hf with hf | ⟨b,hb⟩ | hf
    · exact hp.live hf
    · exact hp.unlinked b hb
    · exact ho hf

/-- The link of a PDU in no queue -/
theorem moved_setNext (h : c.Shape l) (hp : ∀ b, p ∉ l b) (n : Option ℕ) : Moved [] c l (c.setNext p n) l := by
  refine ⟨⟨fun b => ?_,h.apart,h.hashed,h.known,h.live,h.spent⟩,fun b x hx => .inl ⟨b,hx⟩,fun x hx => .inl hx,
    ⟨rfl,rfl,rfl,rfl,rfl,rfl,rfl⟩,rfl⟩
  apply (h.holds b).congr
  intro x hx
  have hxp : x ≠ p := fun he => hp b (he ▸ hx)
  exact update_of_ne hxp _ _

theorem freeAll_spec {ps : List ℕ} {cur : Option ℕ} (h : c.Shape l) (hs : Seg c.next cur ps none) (hnd : ps.Nodup)
    (hl : ∀ x ∈ ps, c.Loose l x) (fuel : ℕ) (hf : ps.length < fuel) :
    ∃ d, freeAll fuel cur c = some d ∧ Moved ps c l d l ∧ d.waitpduLen = c.waitpduLen := by
  induction ps generalizing c cur fuel with
  | nil =>
    obtain ⟨k,rfl⟩ := Nat.exists_eq_add_one_of_ne_zero (by omega : fuel ≠ 0)
    have hc : cur = none := hs
    subst hc
    exact ⟨c,rfl,Moved.refl h,rfl⟩
  | cons p ps ih =>
    simp only [List.length_cons] at hf
    obtain ⟨k,rfl⟩ := Nat.exists_eq_add_one_of_ne_zero (by omega : fuel ≠ 0)
    obtain ⟨rfl,hs⟩ := hs
    have hnd' := List.nodup_cons.mp hnd
    have hp := hl p List.mem_cons_self
    have hset := moved_setNext h hp.unlinked none
    have hfree := moved_free hset.shape (hset.loose hp (by simp))
    have hne : ∀ x ∈ ps, x ≠ p := fun x hx he => hnd'.1 (he ▸ hx)
    have hl' : ∀ x ∈ ps, ((c.setNext p none).rpcFreePdu p).Loose l x := by
      intro x hx
      have hx' := hset.loose (hl x (List.mem_cons_of_mem p hx)) (by simp)
      exact hfree.loose hx' (by simpa using hne x hx)
    obtain ⟨d,hd,hm,hlen⟩ := @ih ((c.setNext p none).rpcFreePdu p) (c.next p) hfree.shape
      (hs.congr fun x hx => update_of_ne (hne x hx) _ _) hnd'.2 hl' k (by omega)
    have hall := (Moved.refl (o := p::ps) h).then hset
    have hall := hall.trans hfree fun x hx => .inr (by simp [List.mem_singleton.mp hx])
    exact ⟨d,hd,hall.trans hm fun x hx => .inr (List.mem_cons_of_mem p hx),hlen⟩

/-- The queue `a` is reset: its PDUs are in no queue any more. -/
theorem moved_reset (h : c.Shape l) (a : Loc) :
    Moved [] c l (c.setQueue a ⟨none,none⟩) (update l a []) ∧
      ∀ x ∈ l a, (c.setQueue a ⟨none,none⟩).Loose (update l a []) x := by
  have hs := h.edit (a := a) (fun _ _ _ _ => rfl) Queue.Holds.empty fun x hx => by simp at hx
  refine ⟨moved_edited hs fun x hx => by simp at hx,fun x hx => ⟨fun b hb => ?_,h.known a x hx,h.live a x hx⟩⟩
  by_cases hba : b = a
  · rw [hba,update_self] at hb
    simp at hb
  · rw [update_of_ne hba] at hb
    exact h.apart a b (Ne.symm hba) x hx hb

theorem purge_spec (as : List Loc) (h : c.Shape l) :
    ∃ d m, purge as c = some d ∧ Moved [] c l d m ∧ d.waitpduLen = c.waitpduLen ∧
      (∀ b, b ∈ as ∨ l b = [] → m b = []) := by
  induction as generalizing c l with
  | nil => exact ⟨c,l,rfl,Moved.refl h,rfl,fun b hb => hb.resolve_left (by simp)⟩
  | cons a as ih =>
    obtain ⟨hreset,hloose⟩ := moved_reset h a
    have hq := h.holds a
    have hle := h.length_le a
    obtain ⟨d,hd,hm,hlen⟩ := freeAll_spec hreset.shape (show Seg (c.setQueue a ⟨none,none⟩).next (c.queue a).head (l a) none
      from hq.seg) hq.nodup hloose (c.fresh+1) (by omega)
    rw [purge,hd]
    obtain ⟨e,m,he,hm',hlen',hnil⟩ := ih hm.shape
    refine ⟨e,m,he,(hreset.trans hm fun x hx => .inl ⟨a,hx⟩).then hm',hlen'.trans hlen,fun b hb => hnil b ?_⟩
    by_cases hba : b = a
    · rw [hba,update_self]
      exact .inr rfl
    · rw [update_of_ne hba]
      exact hb.imp (fun h => (List.mem_cons.mp h).resolve_left hba) id

theorem Shape.wait_eq_nil (h : c.Shape l) (hn : 0 < c.numHashes) {i : ℕ} (hi : c.numHashes ≤ i) :
    l (.wait i) = [] := by
  cases hl : l (.wait i) with
  | nil => rfl
  | cons p t =>
    have hp := h.hashed i p (by rw [hl]; exact List.mem_cons_self)
    have hlt := hash_lt hn (c.xids p)
    omega

theorem waiting_eq_zero {n : ℕ} : waiting n l = 0 ↔ ∀ i < n, l (.wait i) = [] := by
  simp [waiting]

theorem rpcPurgeAllPdus_spec (h : c.Shape l) :
    ∃ d m, c.rpcPurgeAllPdus = some d ∧ Moved [] c l d m ∧
      (waiting c.numHashes l = 0 → c.Agree l → d.Agree m) := by
  obtain ⟨d,m,hd,hm,hlen,hnil⟩ := purge_spec (.out::(List.range c.numHashes).map .wait) h
  have hout : (d.queue .out).head = none := by
    rw [(hm.shape.holds .out).head,hnil .out (.inl List.mem_cons_self)]
    rfl
  rw [rpcPurgeAllPdus,hd]
  simp only [hout,if_true]
  refine ⟨d,m,rfl,hm,fun hz ha => ?_⟩
  have hz' : waiting c.numHashes m = 0 :=
    waiting_eq_zero.mpr fun i hi => hnil (.wait i) (.inl (by simpa using hi))
  unfold Agree at ha ⊢
  rw [hlen,hm.same.numHashes,hz',ha,hz]

/-- A PDU goes to the out queue, whatever a wait chain has. -/
theorem rpcReturnToOutqueue_setQueue (c : Ctx) (i : ℕ) (q : Queue ℕ) (p : ℕ) :
    (c.setQueue (.wait i) q).rpcReturnToOutqueue p = (c.rpcReturnToOutqueue p).setQueue (.wait i) q := by
  have hne : Loc.out ≠ .wait i := by simp
  have hout : (c.setQueue (.wait i) q).queue .out = c.queue .out := update_of_ne hne q c.queue
  have hcomm : ∀ q', update (update c.queue (.wait i) q) .out q' = update (update c.queue .out q') (.wait i) q :=
    fun q' => update_comm hne.symm _ _ _
  unfold rpcReturnToOutqueue
  rw [hout]
  split
  · simp only [setQueue,setNext,hcomm]
  · split
    · simp only [setQueue,setNext,hcomm]
    · rfl

/-- The loop over a chain that the context is to lose -/
theorem returnAll_spec {i : ℕ} {ps : List ℕ} {cur : Option ℕ} (h : (c.setQueue (.wait i) ⟨none,none⟩).Shape l)
    (hs : Seg c.next cur ps none) (hnd : ps.Nodup) (hl : ∀ x ∈ ps, (c.setQueue (.wait i) ⟨none,none⟩).Loose l x)
    (fuel : ℕ) (hf : ps.length < fuel) :
    ∃ d m, returnAll fuel cur c = some d ∧
      Moved ps (c.setQueue (.wait i) ⟨none,none⟩) l (d.setQueue (.wait i) ⟨none,none⟩) m ∧
      (∀ k, m (.wait k) = l (.wait k)) ∧ d.freed = c.freed := by
  induction ps generalizing c l cur fuel with
  | nil =>
    obtain ⟨k,rfl⟩ := Nat.exists_eq_add_one_of_ne_zero (by omega : fuel ≠ 0)
    have hc : cur = none := hs
    subst hc
    exact ⟨c,l,rfl,Moved.refl h,fun _ => rfl,rfl⟩
  | cons p ps ih =>
    simp only [List.length_cons] at hf
    obtain ⟨k,rfl⟩ := Nat.exists_eq_add_one_of_ne_zero (by omega : fuel ≠ 0)
    obtain ⟨rfl,hs⟩ := hs
    have hnd' := List.nodup_cons.mp hnd
    have hne : ∀ x ∈ ps, x ≠ p := fun x hx he => hnd'.1 (he ▸ hx)
    obtain ⟨hret,-,hfreed,hnext⟩ := moved_return h (hl p List.mem_cons_self)
    have hl' : ∀ x ∈ ps, ((c.setQueue (.wait i) ⟨none,none⟩).rpcReturnToOutqueue p).Loose
        (update l .out (insertSecond p (l .out))) x :=
      fun x hx => hret.loose (hl x (List.mem_cons_of_mem p hx)) (by simpa using hne x hx)
    rw [rpcReturnToOutqueue_setQueue] at hret hfreed hnext hl'
    have hs' : Seg (c.rpcReturnToOutqueue p).next (c.next p) ps none :=
      hs.congr fun x hx => hnext x ((hl x (List.mem_cons_of_mem p hx)).unlinked .out) (hne x hx)
    obtain ⟨d,m,hd,hm,hwait,hfreed'⟩ := ih hret.shape hs' hnd'.2 hl' k (by omega)
    have hall := (Moved.refl (o := p::ps) h).trans hret fun x hx => .inr (by simp [List.mem_singleton.mp hx])
    refine ⟨d,m,hd,hall.trans hm fun x hx => .inr (List.mem_cons_of_mem p hx),fun j => ?_,hfreed'.trans hfreed⟩
    rw [hwait j,update_of_ne (by simp)]

theorem requeue_spec (hs : List ℕ) (h : c.Shape l) :
    ∃ d m, requeue hs c = some d ∧ Moved [] c l d m ∧ d.freed = c.freed ∧
      ∀ i, i ∈ hs ∨ l (.wait i) = [] → m (.wait i) = [] := by
  induction hs generalizing c l with
  | nil => exact ⟨c,l,rfl,Moved.refl h,rfl,fun i hi => hi.resolve_left (by simp)⟩
  | cons i hs ih =>
    obtain ⟨hreset,hloose⟩ := moved_reset h (.wait i)
    have hq := h.holds (.wait i)
    have hle := h.length_le (.wait i)
    obtain ⟨d,m,hd,hm,hwait,hfreed⟩ := returnAll_spec hreset.shape hq.seg hq.nodup hloose (c.fresh+1) (by omega)
    rw [requeue,hd]
    obtain ⟨e,m',he,hm',hfreed',hnil⟩ := ih hm.shape
    refine ⟨e,m',he,(hreset.trans hm fun x hx => .inl ⟨.wait i,hx⟩).then hm',hfreed'.trans hfreed,fun j hj => hnil j ?_⟩
    rw [hwait j]
    by_cases hji : j = i
    · rw [hji,update_self]
      exact .inr rfl
    · rw [update_of_ne (by simpa using hji)]
      exact hj.imp (fun h => (List.mem_cons.mp h).resolve_left hji) id

end Ctx
end Links
end Libnfs
