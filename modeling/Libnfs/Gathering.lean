import Libnfs.Stream

/-! One turn of `rpc_write_to_socket`: the vectors that are handed to `writev` are a start of the unsent bytes of the out queue, and
however many of these `writev` takes, what the accounting leaves on the queue is the rest. -/
namespace Libnfs

open Transition

/-- The PDU when its last byte is sent -/
def Pdu.allSent (p : Pdu) : Pdu := { p with numDone := p.totalSize }

theorem Pdu.unsent_length (p : Pdu) : p.unsent.length = p.totalSize-p.numDone := by
  rw [unsent,List.length_drop,record_length]

namespace Gather

variable {cap limit len numDone numPdus : ℕ} {g : Gather} {vs : List OutVec} {p : Pdu} {q : List Pdu}

/-- No vector goes. -/
theorem gatherIov_grows (hg : g.Good) : g.vecs.length ≤ (gatherIov cap g numDone vs).vecs.length := by
  induction vs generalizing g numDone with
  | nil => exact le_refl _
  | cons v vs ih =>
    simp only [gatherIov]
    split
    · exact ih hg
    · split
      · split
        · simp
        · refine le_trans ?_ (ih fun _ => by simp)
          simp
      · rename_i hlast
        have hne : g.vecs ≠ [] := hg (by simp only [ne_eq,not_not] at hlast; rw [hlast]; simp)
        obtain ⟨-,hne',hlen⟩ := bytes_extend hne (v.data.drop numDone)
        refine le_trans hlen.symm.le (ih (g := ⟨_,_⟩) fun _ => hne')

/-- Where bytes are left, there is a vector. -/
theorem gatherIov_ne_nil (hg : g.Good) (h : numDone < (vs.flatMap OutVec.data).length) :
    (gatherIov cap g numDone vs).vecs ≠ [] := by
  induction vs generalizing g numDone with
  | nil => simp at h
  | cons v vs ih =>
    simp only [gatherIov]
    split
    · rename_i hle
      rw [List.flatMap_cons,List.length_append] at h
      exact ih hg (by omega)
    · split
      · split
        · simp
        · intro hnil
          have hgrows := @gatherIov_grows cap 0
            ⟨g.vecs ++ [⟨v.buf+numDone,v.data.drop numDone⟩],some (v.buf+numDone+(v.data.drop numDone).length)⟩ vs
              (fun _ => by simp)
          rw [hnil] at hgrows
          simp at hgrows
      · rename_i hlast
        have hne : g.vecs ≠ [] := hg (by simp only [ne_eq,not_not] at hlast; rw [hlast]; simp)
        obtain ⟨-,hne',-⟩ := bytes_extend hne (v.data.drop numDone)
        intro hnil
        have hgrows := @gatherIov_grows cap 0
          ⟨extend g.vecs (v.data.drop numDone),some (v.buf+numDone+(v.data.drop numDone).length)⟩ vs (fun _ => hne')
        rw [hnil,List.length_nil,Nat.le_zero] at hgrows
        exact hne' (List.length_eq_zero_iff.1 hgrows)

/-- The vectors have room. -/
theorem gatherIov_le (hg : g.Good) (h : g.vecs.length < cap) : (gatherIov cap g numDone vs).vecs.length ≤ cap := by
  induction vs generalizing g numDone with
  | nil => exact h.le
  | cons v vs ih =>
    simp only [gatherIov]
    split
    · exact ih hg h
    · split
      · split
        · rw [List.length_append,List.length_singleton]
          exact h
        · refine ih (fun _ => by simp) ?_
          rw [List.length_append,List.length_singleton]
          omega
      · rename_i hlast
        have hne : g.vecs ≠ [] := hg (by simp only [ne_eq,not_not] at hlast; rw [hlast]; simp)
        obtain ⟨-,hne',hlen⟩ := bytes_extend hne (v.data.drop numDone)
        refine ih (fun _ => hne') ?_
        rw [hlen]
        exact h

theorem gather_grows (hg : g.Good) : g.vecs.length ≤ (gather cap limit len g numPdus q).vecs.length := by
  induction q generalizing g numPdus with
  | nil => exact le_refl _
  | cons p q ih =>
    obtain ⟨-,-,-,hgood,-⟩ := gatherIov_bytes cap g p.numDone p.out hg
    simp only [gather]
    split
    · exact (gatherIov_grows hg).trans (ih hgood)
    · exact gatherIov_grows hg

theorem gather_le (hg : g.Good) (h : g.vecs.length < cap) : (gather cap limit len g numPdus q).vecs.length ≤ cap := by
  induction q generalizing g numPdus with
  | nil => exact h.le
  | cons p q ih =>
    obtain ⟨-,-,-,hgood,-⟩ := gatherIov_bytes cap g p.numDone p.out hg
    simp only [gather]
    split
    · rename_i hgo
      exact ih hgood hgo.2
    · exact gatherIov_le hg h

theorem gather_ne_nil (hg : g.Good) (h : p.numDone < p.totalSize) : (gather cap limit len g numPdus (p::q)).vecs ≠ [] := by
  have hne : (gatherIov cap g p.numDone p.out).vecs ≠ [] := gatherIov_ne_nil hg (h.trans_eq p.record_length.symm)
  obtain ⟨-,-,-,hgood,-⟩ := gatherIov_bytes cap g p.numDone p.out hg
  simp only [gather]
  split
  · intro hnil
    have hgrows := @gather_grows cap limit len (numPdus+1) (gatherIov cap g p.numDone p.out) q hgood
    rw [hnil,List.length_nil,Nat.le_zero] at hgrows
    exact hne (List.length_eq_zero_iff.1 hgrows)
  · exact hne

end Gather

namespace Rpc

/-- The unsent bytes of the out queue -/
def unsent (s : Rpc) : List UInt8 := s.outqueue.flatMap Pdu.unsent

/-- What `rpc_write_to_socket` relies on: no PDU on the out queue is fully sent, and none is a reply, which is discarded after
sending. -/
structure Sendable (s : Rpc) : Prop where
  hashes : 0 < s.waitpdu.length
  unsent : ∀ p ∈ s.outqueue, p.numDone < p.totalSize
  kept : ∀ p ∈ s.outqueue, p.discardAfterSending = false

theorem after_sendable (cfg : Config) (es : List Event) (h : (after cfg es).crashed = false) : (after cfg es).Sendable := by
  have hok : (after cfg es).Ok fun _ => True := after_ok cfg es (fun e _ => by cases e <;> simp [Queues]) h
  exact ⟨hok.hashes,hok.out.unsent,fun p hp => (hok.queued p (List.mem_append_left _ hp)).kept⟩

/-- The condition of the loop -/
def Proceeds (s : Rpc) : Prop := (s.maxWaitpduLen = 0 ∨ s.waitpduLen < s.maxWaitpduLen) ∧ s.outqueue ≠ []

/-- The vectors that are handed to `writev`, with room for `cap` -/
def offered (s : Rpc) (cap : ℕ) : Gather := Gather.gather cap s.maxWaitpduLen s.waitpduLen {} 0 s.outqueue

/-- `count` more bytes of the head are sent. -/
def advanceHead (count : ℕ) : List Pdu → List Pdu
  | [] => []
  | p::q => { p with numDone := p.numDone+count }::q

/-- `count` bytes of the out queue of `s` are sent: the PDUs `done` with all their bytes, and some bytes of the next one. -/
structure Sent (s : Rpc) (count : ℕ) (t : Rpc) (done rest : List Pdu) : Prop where
  queue : s.outqueue = done ++ rest
  whole : (done.flatMap Pdu.unsent).length ≤ count
  next : ∀ p ∈ rest.head?, count < (done.flatMap Pdu.unsent).length+p.unsent.length
  outqueue : t.outqueue = advanceHead (count-(done.flatMap Pdu.unsent).length) rest
  chains : ∀ i, t.waitpdu.getD i [] = s.waitpdu.getD i [] ++ (done.filter fun p => s.rpcHashXid p.xid = i).map Pdu.allSent
  waitpduLen : t.waitpduLen = s.waitpduLen+done.length

variable {s t : Rpc} {count : ℕ} {p : Pdu} {q done rest : List Pdu}

theorem getD_enqueueWait (h : 0 < s.waitpdu.length) (p : Pdu) (i : ℕ) :
    (s.enqueueWait p).waitpdu.getD i [] = s.waitpdu.getD i [] ++ if s.rpcHashXid p.xid = i then [p] else [] := by
  have hlt : s.rpcHashXid p.xid < s.waitpdu.length := Nat.mod_lt _ h
  show (s.waitpdu.modify (s.rpcHashXid p.xid) (· ++ [p])).getD i [] = _
  rw [List.getD_eq_getElem?_getD,List.getElem?_modify,List.getD_eq_getElem?_getD]
  by_cases hi : s.rpcHashXid p.xid = i
  · rw [hi] at hlt
    simp [hi,List.getElem?_eq_getElem hlt]
  · simp [hi]

/-- The accounting loop -/
theorem account_sent (h : 0 < s.waitpdu.length) (hq : ∀ p ∈ q, p.numDone < p.totalSize)
    (hk : ∀ p ∈ q, p.discardAfterSending = false)
    (hc : count ≤ (q.flatMap Pdu.unsent).length) :
    (s.account count q).2 = false ∧ ∃ done rest, Sent { s with outqueue := q } count (s.account count q).1 done rest := by
  induction q generalizing s count with
  | nil =>
    refine ⟨by cases count <;> rfl,[],[],rfl,by simp,by simp,?_,fun i => ?_,?_⟩
    · cases count <;> rfl
    · cases count <;> simp [account]
    · cases count <;> rfl
  | cons p q ih =>
    have hlen := p.unsent_length
    have hlt := hq p List.mem_cons_self
    cases count with
    | zero =>
      refine ⟨rfl,[],p::q,rfl,by simp,?_,rfl,fun i => ?_,rfl⟩
      · intro a ha
        obtain rfl := Option.some.inj ha
        rw [List.flatMap_nil,List.length_nil,hlen]
        omega
      · simp [account]
    | succ count =>
      rw [List.flatMap_cons,List.length_append] at hc
      simp only [account]
      by_cases hle : p.totalSize-p.numDone ≤ count+1
      · -- all of the head is sent
        have hset : ({ p with numDone := p.totalSize } : Pdu) = p.allSent := rfl
        rw [if_pos hle,if_neg (by simp [hk p List.mem_cons_self]),hset]
        obtain ⟨h2,done,rest,hs⟩ := @ih (s.enqueueWait p.allSent) (count+1-(p.totalSize-p.numDone)) (by rw [enqueueWait_length]; exact h)
          (fun a ha => hq a (List.mem_cons_of_mem p ha)) (fun a ha => hk a (List.mem_cons_of_mem p ha)) (by omega)
        have hwhole := hs.whole
        have hadd : ((p::done).flatMap Pdu.unsent).length = p.totalSize-p.numDone+(done.flatMap Pdu.unsent).length := by
          rw [List.flatMap_cons,List.length_append,hlen]
        refine ⟨h2,p::done,rest,?_,?_,?_,?_,fun i => ?_,?_⟩
        · exact congrArg (p :: ·) hs.queue
        · omega
        · intro a ha
          have hn := hs.next a ha
          omega
        · have hsub : count+1-((p::done).flatMap Pdu.unsent).length =
              count+1-(p.totalSize-p.numDone)-(done.flatMap Pdu.unsent).length := by omega
          rw [hsub]
          exact hs.outqueue
        · have hhash : ∀ x, ({ s.enqueueWait p.allSent with outqueue := q } : Rpc).rpcHashXid x = s.rpcHashXid x := fun x => by
            show x*7919 % 2^32 % (s.enqueueWait p.allSent).waitpdu.length = _
            rw [enqueueWait_length,rpcHashXid]
          have hhash' : ∀ x, ({ s with outqueue := p::q } : Rpc).rpcHashXid x = s.rpcHashXid x := fun _ => rfl
          have hchain := hs.chains i
          have hown := getD_enqueueWait h p.allSent i
          have hx : p.allSent.xid = p.xid := rfl
          simp only [hhash,hown,hx] at hchain
          simp only [hhash']
          rw [hchain,List.append_assoc,List.filter_cons]
          by_cases hi : s.rpcHashXid p.xid = i
          · simp [hi]
          · simp [hi]
        · have hl := hs.waitpduLen
          rw [List.length_cons]
          refine hl.trans ?_
          show s.waitpduLen+1+done.length = s.waitpduLen+(done.length+1)
          omega
      · rw [if_neg hle]
        refine ⟨rfl,[],p::q,rfl,by simp,?_,rfl,fun i => by simp,rfl⟩
        intro a ha
        obtain rfl := Option.some.inj ha
        rw [List.flatMap_nil,List.length_nil,hlen]
        omega

/-- What is left is the rest. -/
theorem Sent.unsent (h : Sent s count t done rest) : t.unsent = s.unsent.drop count := by
  have hw := h.whole
  rw [Rpc.unsent,Rpc.unsent,h.queue,h.outqueue,List.flatMap_append,List.drop_append,List.drop_of_length_le hw,List.nil_append]
  cases rest with
  | nil => simp [advanceHead]
  | cons p q =>
    have hn := h.next p rfl
    rw [advanceHead,List.flatMap_cons,List.flatMap_cons,List.drop_append_of_le_length (by omega)]
    congr 1
    exact List.drop_drop.symm ▸ rfl

/-- A PDU is sent whole if and only if its bytes, and those in front of them, are all among the ones that were taken. -/
theorem Sent.mem_done_iff {a b : List Pdu} (h : Sent s count t done rest) (hq : s.outqueue = a ++ p::b) :
    (∃ c, done = a ++ p::c) ↔ ((a ++ [p]).flatMap Pdu.unsent).length ≤ count := by
  have hw := h.whole
  have hnot : ∀ c, a = done ++ c → rest = c ++ p::b → ¬ ((a ++ [p]).flatMap Pdu.unsent).length ≤ count := by
    rintro c rfl hr
    simp only [List.flatMap_append,List.flatMap_singleton,List.length_append]
    cases c with
    | nil =>
      have hn := h.next p (by rw [hr]; rfl)
      simp only [List.flatMap_nil,List.length_nil]
      omega
    | cons x c =>
      have hn := h.next x (by rw [hr]; rfl)
      simp only [List.flatMap_cons,List.length_append]
      omega
  rcases List.append_eq_append_iff.1 (h.queue.symm.trans hq) with ⟨c,ha,hr⟩ | ⟨c,hd,hr⟩
  · refine ⟨?_,fun hle => absurd hle (hnot c ha hr)⟩
    rintro ⟨d,hd⟩
    have hl := congrArg List.length hd
    rw [ha] at hl
    simp only [List.length_append,List.length_cons] at hl
    omega
  · cases c with
    | nil =>
      rw [List.append_nil] at hd
      refine ⟨?_,fun hle => absurd hle (hnot [] (by rw [hd,List.append_nil]) hr.symm)⟩
      rintro ⟨d,hd'⟩
      rw [hd] at hd'
      simp at hd'
    | cons y c =>
      rw [List.cons_append,List.cons.injEq] at hr
      obtain ⟨rfl,-⟩ := hr
      refine ⟨fun _ => ?_,fun _ => ⟨c,hd⟩⟩
      rw [hd,List.flatMap_append,List.flatMap_cons,List.length_append,List.length_append] at hw
      rw [List.flatMap_append,List.flatMap_singleton,List.length_append]
      omega

/-- The context after the accounting of `count` bytes that `writev` took -/
def taken (s : Rpc) (count : ℕ) : Rpc := (({ s with sent := s.sent ++ s.unsent.take count } : Rpc).account count s.outqueue).1

/-- The room for vectors, once the head has been looked at -/
def room (s : Rpc) (cap : ℕ) : ℕ := (s.outqueue.head?.map (s.growVectors cap)).getD cap

theorem taken_sent (h : s.Sendable) (hc : count ≤ s.unsent.length) : ∃ done rest, Sent s count (s.taken count) done rest := by
  obtain ⟨-,done,rest,hs⟩ := @account_sent { s with sent := s.sent ++ s.unsent.take count } count s.outqueue h.hashes h.unsent
    h.kept hc
  exact ⟨done,rest,hs.queue,hs.whole,hs.next,hs.outqueue,hs.chains,hs.waitpduLen⟩

/-- A turn of the loop in which `writev` takes `count` bytes -/
theorem writeLoop_wrote (h : s.Sendable) (hgo : s.Proceeds) {cap : ℕ} (hc : count ≤ (s.offered (s.room cap)).bytes.length)
    (ws : List Writev) :
    s.writeLoop cap (.wrote count::ws) = (s.taken count).writeLoop (s.room cap) ws := by
  obtain ⟨hlimit,hne⟩ := hgo
  obtain ⟨p,q,hq⟩ := List.exists_cons_of_ne_nil hne
  have hroom : s.room cap = s.growVectors cap p := by rw [room,hq]; rfl
  have hpre : (s.offered (s.room cap)).bytes <+: s.unsent := Gather.gather_prefix _ _ _ _
  have htake : (s.offered (s.room cap)).bytes.take count = s.unsent.take count := by
    obtain ⟨b,hb⟩ := hpre
    rw [← hb,List.take_append_of_le_length hc]
  have hflag : (({ s with sent := s.sent ++ s.unsent.take count } : Rpc).account count s.outqueue).2 = false :=
    (@account_sent { s with sent := s.sent ++ s.unsent.take count } count s.outqueue h.hashes h.unsent h.kept
      (hc.trans hpre.length_le)).1
  rw [offered,hq,hroom] at hc htake
  rw [hroom,taken]
  rw [hq] at hflag ⊢
  rw [writeLoop,if_pos hlimit]
  simp only [hq,min_eq_left hc,htake,hflag,Bool.false_eq_true,if_false]

/-- A turn of `rpc_write_to_socket` on a client context: `writev` is handed a start of the unsent bytes, in at least one vector. Of
the bytes it takes none is left on the queue, of the others all are, and a PDU moves to its chain if and only if its last byte is
taken. -/
theorem gather_and_account :
    (∀ cfg es, (after cfg es).crashed = false → (after cfg es).Sendable) ∧
    ∀ s : Rpc, s.Sendable → s.Proceeds → (∀ cap,
      (s.offered cap).vecs ≠ [] ∧ (0 < cap → (s.offered cap).vecs.length ≤ cap) ∧ (s.offered cap).bytes <+: s.unsent ∧
      ∀ count ≤ (s.offered cap).bytes.length, (s.taken count).unsent = s.unsent.drop count ∧
        ∃ done rest, Sent s count (s.taken count) done rest ∧
          ∀ a p b, s.outqueue = a ++ p::b → ((∃ c, done = a ++ p::c) ↔ ((a ++ [p]).flatMap Pdu.unsent).length ≤ count)) ∧
      ∀ cap ws, ∀ count ≤ (s.offered (s.room cap)).bytes.length,
        s.writeLoop cap (.wrote count::ws) = (s.taken count).writeLoop (s.room cap) ws := by
  refine ⟨after_sendable,fun s h hgo => ⟨fun cap => ?_,fun cap ws count hc => writeLoop_wrote h hgo hc ws⟩⟩
  have hgood : ({} : Gather).Good := fun hlast => absurd rfl hlast
  have hpre : (s.offered cap).bytes <+: s.unsent := Gather.gather_prefix _ _ _ _
  refine ⟨?_,fun hcap => Gather.gather_le hgood hcap,hpre,fun count hc => ?_⟩
  · obtain ⟨p,q,hq⟩ := List.exists_cons_of_ne_nil hgo.2
    rw [offered,hq]
    exact Gather.gather_ne_nil hgood (h.unsent p (by rw [hq]; exact List.mem_cons_self))
  · obtain ⟨done,rest,hs⟩ := taken_sent h (hc.trans hpre.length_le)
    exact ⟨hs.unsent,done,rest,hs,fun a p b hq => hs.mem_done_iff hq⟩

/-- 10 bytes of the record were sent before, and `writev` takes the other 34. -/
theorem gather_and_account_demo :
    ((after demoConfig demoPartial).taken 34).unsent = (after demoConfig demoPartial).unsent.drop 34 := by
  have hs := gather_and_account.1 demoConfig demoPartial rfl
  have hgo : (after demoConfig demoPartial).Proceeds := ⟨.inl rfl,by decide +kernel⟩
  exact (((gather_and_account.2 _ hs hgo).1 fastVectors).2.2.2 34 (by decide +kernel)).1

end Rpc
end Libnfs
