import Libnfs.Matching
import Libnfs.Routing

/-! Replies in another order: the same PDUs are completed, each with the same record, and but for the log the context is the
same. -/
namespace Libnfs

open ByteWords Scatter Zdr RecordMark Transition

namespace Rpc

section Dropped

variable {s t : Rpc} {p q : Pdu} {x0 x : ℕ} {l m : List Pdu}

/-- The PDUs of a queue that have another number -/
def others (id : ℕ) (q : List Pdu) : List Pdu := q.filter (·.id ≠ id)

/-- The context without a PDU in its queues -/
def dropped (s : Rpc) (p : Pdu) : Rpc :=
  s.shared.withQueues (others p.id s.outqueue) (s.waitpdu.map (others p.id)) (s.waitpduLen-s.waitpdu.flatten.countP (·.id = p.id))

theorem others_eq {id : ℕ} (h : id ∉ l.map Pdu.id) : others id l = l := by
  rw [others,List.filter_eq_self]
  intro a ha
  have hne : a.id ≠ id := fun he => h (he ▸ List.mem_map_of_mem ha)
  simpa using hne

theorem others_middle : others p.id (l++p::m) = others p.id (l++m) := by simp [others]

theorem map_others {w : List (List Pdu)} {id : ℕ} (h : id ∉ w.flatten.map Pdu.id) : w.map (others id) = w := by
  have hall : ∀ q ∈ w, others id q = q := by
    intro q hq
    refine others_eq fun hin => h ?_
    obtain ⟨a,ha,hap⟩ := List.mem_map.1 hin
    exact List.mem_map.2 ⟨a,List.mem_flatten.2 ⟨q,hq,ha⟩,hap⟩
  exact (List.map_congr_left hall).trans (List.map_id _)

theorem others_comm (i j : ℕ) (q : List Pdu) : others i (others j q) = others j (others i q) := by
  rw [others,others,others,others,List.filter_filter,List.filter_filter]
  exact List.filter_congr fun y _ => Bool.and_comm _ _

theorem countP_eq_zero_of_id {id : ℕ} (h : id ∉ l.map Pdu.id) : l.countP (·.id = id) = 0 := by
  rw [List.countP_eq_zero]
  intro a ha
  have hne : a.id ≠ id := fun he => h (he ▸ List.mem_map_of_mem ha)
  simpa using hne

theorem countP_others {i j : ℕ} (h : i ≠ j) (w : List (List Pdu)) :
    (w.map (others i)).flatten.countP (·.id = j) = w.flatten.countP (·.id = j) := by
  have hflat : (w.map (others i)).flatten = others i w.flatten := List.filter_flatten.symm
  rw [hflat,others,List.countP_filter]
  refine List.countP_congr fun y _ => ?_
  simp only [Bool.and_eq_true,decide_eq_true_eq]
  exact ⟨And.left,fun hy => ⟨hy,fun hya => h (hya.symm.trans hy)⟩⟩

/-- An entry is replaced by one with the same value. -/
theorem map_set_same {α β : Type*} {f : α → β} {w : List α} {i : ℕ} {d v : α} (h : f (w.getD i d) = f v) :
    (w.set i v).map f = w.map f := by
  induction w generalizing i with
  | nil => rfl
  | cons a w ih =>
    cases i with
    | zero =>
      rw [List.getD_cons_zero] at h
      rw [List.set_cons_zero,List.map_cons,List.map_cons,h]
    | succ i =>
      rw [List.getD_cons_succ] at h
      rw [List.set_cons_succ,List.map_cons,List.map_cons,ih h]

/-- `rpc_find_pdu` takes the PDU out of the out queue, or out of one of the chains. -/
theorem rpcFindPdu_place (hw : 0 < s.waitpdu.length) (h : s.rpcFindPdu x = (some p,t)) :
    (∃ l m, s.outqueue = l++p::m ∧ t = s.withQueues (l++m) s.waitpdu s.waitpduLen) ∨
      ∃ i l m, i < s.waitpdu.length ∧ s.waitpdu.getD i [] = l++p::m ∧
        t = s.withQueues s.outqueue (s.waitpdu.set i (l++m)) (s.waitpduLen-1) := by
  unfold rpcFindPdu at h
  split at h
  · rename_i q r hf
    simp only [Prod.mk.injEq,Option.some.injEq] at h
    obtain ⟨rfl,rfl⟩ := h
    obtain ⟨-,l,m,hq,rfl,-⟩ := findXid_some hf
    exact .inl ⟨l,m,hq,rfl⟩
  · split at h
    · rename_i q r hf
      simp only [Prod.mk.injEq,Option.some.injEq] at h
      obtain ⟨rfl,rfl⟩ := h
      obtain ⟨-,l,m,hq,rfl,-⟩ := findXid_some hf
      exact .inr ⟨_,l,m,rpcHashXid_lt hw _,hq,rfl⟩
    · simp at h

/-- The search for a PDU drops it, and leaves all other PDUs where they are. -/
theorem lookup_dropped (hw : 0 < s.waitpdu.length) (hnd : s.ids.Nodup) (hf : (s.lookup x).1 = some p) :
    (s.lookup x).2.shared = s.dropped p := by
  have hfind : s.lookup x = (some p,(s.lookup x).2) := Prod.ext hf rfl
  obtain ⟨hperm,-⟩ := lookup_ids hw hfind
  have hout := (List.nodup_cons.1 (hperm.nodup_iff.1 hnd)).1
  generalize (s.lookup x).2 = t at hfind hout
  rw [ids,pool,List.map_append,List.mem_append,not_or] at hout
  rcases @rpcFindPdu_place (s.setRm1 x) t p x hw hfind with ⟨l,m,hq,rfl⟩ | ⟨i,l,m,hi,hq,rfl⟩
  · have hq : s.outqueue = l++p::m := hq
    obtain ⟨h1,h2⟩ : p.id ∉ (l++m).map Pdu.id ∧ p.id ∉ s.waitpdu.flatten.map Pdu.id := hout
    rw [dropped,hq,others_middle,others_eq h1,map_others h2,countP_eq_zero_of_id h2]
    rfl
  · have hq : s.waitpdu.getD i [] = l++p::m := hq
    obtain ⟨h1,h2⟩ : p.id ∉ s.outqueue.map Pdu.id ∧ p.id ∉ (s.waitpdu.set i (l++m)).flatten.map Pdu.id := hout
    have hone : s.waitpdu.flatten.countP (·.id = p.id) = 1 := by
      rw [(flatten_set_perm s.waitpdu i hi l m p hq).countP_eq,List.countP_cons,countP_eq_zero_of_id h2]
      simp
    have hchains : s.waitpdu.map (others p.id) = s.waitpdu.set i (l++m) := by
      have hsame : others p.id (s.waitpdu.getD i []) = others p.id (l++m) := by rw [hq,others_middle]
      rw [← map_set_same hsame,map_others h2]
    rw [dropped,others_eq h1,hchains,hone]
    rfl

/-- PDUs can be dropped in any order. -/
theorem dropped_comm (s : Rpc) (p q : Pdu) : (s.dropped p).dropped q = (s.dropped q).dropped p := by
  by_cases hid : p.id = q.id
  · have he : ∀ t : Rpc, t.dropped p = t.dropped q := by
      intro t
      rw [dropped,dropped,hid]
    rw [he,he]
  · have htwo : ∀ a b : Pdu, a.id ≠ b.id → (s.dropped a).dropped b = s.shared.withQueues (others b.id (others a.id s.outqueue))
        ((s.waitpdu.map (others a.id)).map (others b.id))
        (s.waitpduLen-s.waitpdu.flatten.countP (·.id = a.id)-s.waitpdu.flatten.countP (·.id = b.id)) := by
      intro a b hab
      rw [← countP_others hab s.waitpdu]
      rfl
    have hcomp : others q.id ∘ others p.id = others p.id ∘ others q.id := funext (others_comm _ _)
    rw [htwo p q hid,htwo q p (Ne.symm hid),others_comm,Nat.sub_right_comm,List.map_map,List.map_map,hcomp]

end Dropped

section Order

variable {s t u v : Rpc} {as bs : List Arrival} {a : Arrival} {p q : Pdu} {x0 x : ℕ}

/-- The PDU that waits for a record with the xid `x` -/
def waitsFor (s : Rpc) (x : ℕ) : Option Pdu := s.pool.find? fun p => decide (p.xid = x)

/-- The PDU of a record, with the record -/
def Arrival.answer (a : Arrival) : Option (Pdu × List UInt8) := a.found.map (·,a.body)

/-- Where the data of a READ goes -/
def vectors (p : Pdu) : List Vec := p.cursor.elim [] Cursor.ref

/-- No two PDUs that wait have memory in common. -/
def Apart (s : Rpc) : Prop :=
  ∀ p ∈ s.pool, ∀ q ∈ s.pool, p.id ≠ q.id → ∀ x ∈ addrs (vectors p), x ∉ addrs (vectors q)

/-- What the answers leave in memory -/
def remembered (v3 : Bool) (mem : ℕ → UInt8) (l : List (Pdu × List UInt8)) : ℕ → UInt8 :=
  l.foldl (fun m y => memAfter m y.1 y.2 (verdict v3 y.1 (headOf y.1 y.2))) mem

/-- The records `as` have led to `u`, and the records `bs` to `v`: the same PDUs are completed with the same records, what is in
the log differs in order only, and all else outside the reader is the same. -/
structure Reordered (s : Rpc) (as : List Arrival) (u : Rpc) (bs : List Arrival) (v : Rpc) : Prop where
  answers : (as.filterMap Arrival.answer).Perm (bs.filterMap Arrival.answer)
  log : (replies u.log).Perm (replies v.log)
  rest : u.shared = v.shared
  mem : s.Apart → u.mem = v.mem

theorem Ticketed.waitsFor_iff (h : s.Ticketed x0) (hn : s.nextId ≤ 2^32) : s.waitsFor x = some p ↔ p ∈ s.pool ∧ p.xid = x := by
  constructor
  · intro hf
    exact ⟨List.mem_of_find?_eq_some hf,by simpa using List.find?_some hf⟩
  · rintro ⟨hp,hx⟩
    have hsome : (s.waitsFor x).isSome := by
      rw [waitsFor,List.find?_isSome]
      exact ⟨p,hp,by simpa using hx⟩
    obtain ⟨q,hq⟩ := Option.isSome_iff_exists.1 hsome
    have hqx : q.xid = x := by simpa using List.find?_some (show List.find? _ s.pool = some q from hq)
    rw [hq,h.eq_of_xid hn (pool_subset_outstanding (List.mem_of_find?_eq_some hq)) (pool_subset_outstanding hp) (hqx.trans hx.symm)]

theorem Ready.lookup_eq (h : Ready x0 s) (hn : s.nextId ≤ 2^32) (hx : x < 2^32) : (s.lookup x).1 = s.waitsFor x := by
  ext p
  rw [h.ticketed.lookup_iff hn h.ok.rmXid h.ok.hashes hx,h.ticketed.waitsFor_iff hn]

theorem lookup_pool (hw : 0 < s.waitpdu.length) : s.pool.Perm ((s.lookup x).1.toList ++ (s.lookup x).2.pool) ∧
    (s.lookup x).2.nfsV3 = s.nfsV3 ∧ (s.lookup x).2.nextId = s.nextId := by
  cases hf : (s.lookup x).1 with
  | none =>
    have hsh := lookup_none hf
    refine ⟨?_,show (s.lookup x).2.shared.nfsV3 = _ by rw [hsh]; rfl,show (s.lookup x).2.shared.nextId = _ by rw [hsh]; rfl⟩
    rw [show (s.lookup x).2.pool = s.pool from show (s.lookup x).2.shared.pool = s.shared.pool by rw [hsh]]
    exact .refl _
  | some p =>
    have hfind : s.lookup x = (some p,(s.lookup x).2) := Prod.ext hf rfl
    obtain ⟨-,hn,-⟩ := lookup_ids hw hfind
    obtain ⟨-,q,w,n,ht,-,-,hperm⟩ := @rpcFindPdu_some (s.setRm1 x) (s.lookup x).2 x p hw hfind
    have hpool : (s.lookup x).2.pool = q ++ w.flatten := by
      rw [ht]
      rfl
    exact ⟨by rw [hpool]; exact hperm,(lookup_frame hw hfind).2.2,hn⟩

/-- A record that arrives without any call meanwhile takes the PDU that waits for it, and leaves all else. -/
theorem Received.free (h : Received x0 s a t) (hs : Ready x0 s) (hn : s.nextId ≤ 2^32) (hc : a.calls = []) :
    a.found = s.waitsFor a.xid ∧ a.ctx.nfsV3 = s.nfsV3 ∧ t.nfsV3 = s.nfsV3 ∧ t.nextId = s.nextId ∧
      s.pool.Perm (a.found.toList ++ t.pool) ∧ t.waitsFor = Function.update s.waitsFor a.xid none ∧
      t.shared = a.found.elim s.shared s.dropped := by
  obtain ⟨hctx,ht⟩ := (h.tracked.same hc).2 a.ctx rfl
  obtain ⟨hcr,-⟩ := h.tracked.ctx a.ctx rfl
  obtain ⟨hlook,hlsh⟩ := lookup_shared hctx hcr.ok.rmXid hs.ok.rmXid (be32_lt a.body)
  have hsh : t.shared = (s.lookup a.xid).2.shared := ht.trans hlsh
  have hfound : a.found = s.waitsFor a.xid := hlook.trans (hs.lookup_eq hn (be32_lt a.body))
  obtain ⟨hpool,hv3,hnext⟩ := lookup_pool (x := a.xid) hs.ok.hashes
  have htp : t.pool = (s.lookup a.xid).2.pool := show t.shared.pool = (s.lookup a.xid).2.shared.pool by rw [hsh]
  have htn : t.nextId = s.nextId := (show t.shared.nextId = (s.lookup a.xid).2.shared.nextId by rw [hsh]).trans hnext
  have hperm : s.pool.Perm (a.found.toList ++ t.pool) := by
    rw [hfound,← hs.lookup_eq (x := a.xid) hn (be32_lt a.body),htp]
    exact hpool
  refine ⟨hfound,show a.ctx.shared.nfsV3 = s.shared.nfsV3 by rw [hctx],
    (show t.shared.nfsV3 = (s.lookup a.xid).2.shared.nfsV3 by rw [hsh]).trans hv3,htn,hperm,?_,?_⟩
  swap
  · rw [hsh,hfound,← hs.lookup_eq (x := a.xid) hn (be32_lt a.body)]
    cases hf : (s.lookup a.xid).1 with
    | none => exact lookup_none hf
    | some p => exact lookup_dropped hs.ok.hashes hs.ticketed.ids_nodup hf
  funext y
  ext p
  rw [h.ready.ticketed.waitsFor_iff (htn.trans_le hn)]
  by_cases hy : y = a.xid
  · subst hy
    rw [Function.update_self]
    refine ⟨fun ⟨hp,hx⟩ => ?_,fun hf => by simp at hf⟩
    have hf := (hs.ticketed.waitsFor_iff hn).2 ⟨hperm.symm.subset (List.mem_append_right _ hp),hx⟩
    have hnd : (s.pool.map Pdu.id).Nodup := hs.ticketed.ids_nodup
    rw [hfound,hf] at hperm
    exact absurd hp (List.nodup_cons.1 (hperm.nodup_iff.1 hnd.of_map)).1
  · rw [Function.update_of_ne hy,hs.ticketed.waitsFor_iff hn]
    refine and_congr_left fun hx => ⟨fun hp => hperm.symm.subset (List.mem_append_right _ hp),fun hp => ?_⟩
    rcases List.mem_append.1 (hperm.subset hp) with hin | hin
    · rw [hfound] at hin
      have hpx := ((hs.ticketed.waitsFor_iff hn).1 (Option.mem_toList.1 hin)).2
      exact absurd (hx.symm.trans hpx) hy
    · exact hin

theorem answer_none (h : a.found = none) : a.answer = none := by
  rw [Arrival.answer,h]
  rfl

theorem answer_some (h : a.found = some p) : a.answer = some (p,a.body) := by
  rw [Arrival.answer,h]
  rfl

/-- The answers, by what each record finds -/
theorem filterMap_answer (as : List Arrival) : as.filterMap Arrival.answer =
    ((as.map Arrival.found).zip (as.map Arrival.body)).flatMap fun x => x.1.toList.map (·,x.2) := by
  induction as with
  | nil => rfl
  | cons a as ih =>
    rw [List.map_cons,List.map_cons,List.zip_cons_cons,List.flatMap_cons,← ih]
    cases hf : a.found with
    | none => rw [List.filterMap_cons_none (answer_none hf)]; rfl
    | some p => rw [List.filterMap_cons_some (answer_some hf)]; rfl

/-- Records in a row without any call: what each of them finds depends on the first record of each xid. -/
theorem Arrives.free (h : Arrives s as u) (hs : Ready x0 s) (hm : s.AtMarker) (hn : s.nextId ≤ 2^32) (hr : ∀ a ∈ as, a.Routable)
    (hc : ∀ a ∈ as, a.calls = []) :
    as.map Arrival.found = Matching.found be32 s.waitsFor (as.map Arrival.body) ∧
      s.pool.Perm ((as.filterMap Arrival.answer).map Prod.fst ++ u.pool) ∧
      u.mem = remembered s.nfsV3 s.mem (as.filterMap Arrival.answer) ∧
      u.shared = ((as.filterMap Arrival.answer).map Prod.fst).foldl dropped s.shared := by
  induction h with
  | nil s => exact ⟨rfl,.refl _,rfl,rfl⟩
  | @cons s t u as a rest hrec hrecv h ih =>
    have hgot := hrecv.received hs hm hrec (hr a List.mem_cons_self)
    obtain ⟨hfound,hcv,htv,htn,hperm,hupd,hsh⟩ := hgot.free hs hn (hc a List.mem_cons_self)
    obtain ⟨h1,h2,h3,h4⟩ := ih hgot.ready hgot.marker (htn.trans_le hn) (fun b hb => hr b (List.mem_cons_of_mem a hb))
      fun b hb => hc b (List.mem_cons_of_mem a hb)
    have hmem := hgot.mem
    have hall : (a::as).map Arrival.found = Matching.found be32 s.waitsFor ((a::as).map Arrival.body) := by
      rw [hupd] at h1
      rw [List.map_cons,List.map_cons,Matching.found,h1,hfound]
      rfl
    refine ⟨hall,?_⟩
    rw [htv] at h3
    rw [hsh] at h4
    unfold Arrival.remember at hmem
    cases hf : a.found with
    | none =>
      rw [hf] at hperm hmem h4
      rw [List.filterMap_cons_none (answer_none hf)]
      exact ⟨hperm.trans h2,by rw [h3,hmem]; rfl,h4⟩
    | some p =>
      rw [hf,hcv] at hmem
      rw [hf] at hperm h4
      rw [List.filterMap_cons_some (answer_some hf)]
      exact ⟨hperm.trans (h2.cons p),by rw [h3,hmem]; rfl,h4⟩

/-- The entries of the log, by the answers -/
theorem entries_answers (as : List Arrival) :
    as.flatMap Arrival.entries = (as.filterMap Arrival.answer).flatMap fun y => fullLog y.1 (headOf y.1 y.2) := by
  induction as with
  | nil => rfl
  | cons a as ih =>
    rw [List.flatMap_cons,ih,Arrival.entries]
    cases hf : a.found with
    | none => rw [List.filterMap_cons_none (answer_none hf)]; rfl
    | some p => rw [List.filterMap_cons_some (answer_some hf)]; rfl

theorem memAfter_eq (p : Pdu) (body : List UInt8) (o : Verdict) :
    ∃ bs, ∀ mem, memAfter mem p body o = scatter mem (vectors p) bs := by
  cases o with
  | data count pos => exact ⟨(body.drop pos).take count,fun _ => rfl⟩
  | crash => exact ⟨[],fun mem => (scatter_nil_bytes mem _).symm⟩
  | lost => exact ⟨[],fun mem => (scatter_nil_bytes mem _).symm⟩
  | done => exact ⟨[],fun mem => (scatter_nil_bytes mem _).symm⟩

/-- Answers to PDUs that have no memory in common can be taken in any order. -/
theorem remembered_perm {l m : List (Pdu × List UInt8)} (hp : l.Perm m) (hin : ∀ y ∈ l, y.1 ∈ s.pool)
    (hnd : (l.map fun y => y.1.id).Nodup) (ha : s.Apart) (v3 : Bool) (mem : ℕ → UInt8) :
    remembered v3 mem l = remembered v3 mem m := by
  refine hp.foldl_eq' (fun y hy z hz mem => ?_) mem
  by_cases hyz : y.1.id = z.1.id
  · rw [List.inj_on_of_nodup_map hnd hy hz hyz]
  · obtain ⟨b,hb⟩ := memAfter_eq y.1 y.2 (verdict v3 y.1 (headOf y.1 y.2))
    obtain ⟨c,hc⟩ := memAfter_eq z.1 z.2 (verdict v3 z.1 (headOf z.1 z.2))
    rw [hb,hc,hb,hc]
    exact scatter_comm mem b c (ha y.1 (hin y hy) z.1 (hin z hz) hyz)

/-- Two orders of records in which the first of each xid is the same -/
theorem Arrives.reordered (h : Arrives s as u) (k : Arrives s bs v) (hs : Ready x0 s) (hm : s.AtMarker) (hu : u.nextId ≤ 2^32)
    (hv : v.nextId ≤ 2^32) (hr : ∀ a ∈ as, a.Routable) (kr : ∀ b ∈ bs, b.Routable) (hc : ∀ a ∈ as, a.calls = [])
    (kc : ∀ b ∈ bs, b.calls = [])
    (hfirst : ∀ x, (as.map Arrival.body).find? (be32 · = x) = (bs.map Arrival.body).find? (be32 · = x)) :
    Reordered s as u bs v := by
  obtain ⟨-,-,hold,-⟩ := h.older hs hm hr
  have hn := hold.nextId.trans hu
  obtain ⟨h1,h2,h3,h4⟩ := h.free hs hm hn hr hc
  obtain ⟨k1,-,k3,k4⟩ := k.free hs hm hn kr kc
  have hperm : (as.filterMap Arrival.answer).Perm (bs.filterMap Arrival.answer) := by
    rw [filterMap_answer,filterMap_answer,h1,k1,← Matching.answers_eq,← Matching.answers_eq]
    exact Matching.answers_perm _ hfirst
  have hR := h.routed hs hm hu hr
  have kR := k.routed hs hm hv kr
  refine ⟨hperm,?_,?_,fun ha => ?_⟩
  · rw [hR.log,kR.log,entries_answers,entries_answers]
    exact (hperm.flatMap_right _).append_left _
  · rw [h4,k4]
    exact (hperm.map Prod.fst).foldl_eq' (fun p _ q _ t => dropped_comm t p q) _
  · rw [h3,k3]
    have hids : (as.filterMap Arrival.answer).map Prod.fst ++ u.pool |>.map Pdu.id |>.Nodup :=
      (h2.map Pdu.id).nodup_iff.1 hs.ticketed.ids_nodup
    rw [List.map_append,List.map_map] at hids
    have hin : ∀ y ∈ as.filterMap Arrival.answer, y.1 ∈ s.pool := fun y hy =>
      h2.symm.subset (List.mem_append_left _ (List.mem_map_of_mem hy))
    exact remembered_perm hperm hin hids.of_append_left ha _ _

end Order

section Runs

end Runs

section Demo

/-- The context behind the marker and the xid of a record -/
def afterXid (s : Rpc) (hd body : List UInt8) : Rpc := s.step (.recv (.data (hd ++ body.take 4)) .started)

def afterRest (s : Rpc) (hd body : List UInt8) : Rpc := (s.afterXid hd body).step (.recv (.data (body.drop 4)) .started)

/-- A record that comes in two chunks, the first of which ends with the xid -/
def inTwo (s : Rpc) (hd body : List UInt8) : Arrival where
  hd := hd
  body := body
  ctx := s
  turns := [(s,s.afterXid hd body),(s.afterXid hd body,s.afterRest hd body)]
  calls := []

theorem inTwo_receives {s : Rpc} {hd body : List UInt8} (hrec : Record hd body) (h : s.Accepts 8)
    (k : (s.afterXid hd body).Accepts (body.length-4)) :
    Receives s (hd++body++[]) (s.inTwo hd body).progress (s.afterRest hd body) := by
  have hlen : (hd ++ body.take 4).length = 8 := by
    rw [List.length_append,hrec.header,List.length_take,min_eq_left hrec.xid]
  have hall : (hd ++ body.take 4) ++ body.drop 4 = hd++body := by rw [List.append_assoc,List.take_append_drop]
  have h1 := Receives.start (s := s) (r := hd++body++[]) |>.chunk (hd ++ body.take 4) .started (by rw [hlen]; exact h)
    (by show hd ++ body.take 4 <+: _; rw [List.append_nil,← hall]; exact List.prefix_append _ _)
  have h2 := h1.chunk (body.drop 4) .started (by rw [List.length_drop]; exact k)
    (by show [] ++ (hd ++ body.take 4) ++ body.drop 4 <+: _; rw [List.nil_append,hall,List.append_nil])
  have hg : (Progress.start.chunk s (hd ++ body.take 4) (s.afterXid hd body)).chunk (s.afterXid hd body) (body.drop 4)
      (s.afterRest hd body) = (s.inTwo hd body).progress := by
    have hbytes : [] ++ (hd ++ body.take 4) ++ body.drop 4 = hd++body := by rw [List.nil_append,hall]
    have hfirst : 8 ≤ ([] : List UInt8).length+(hd ++ body.take 4).length := by
      rw [hlen]
      exact Nat.le_add_left 8 _
    have hsecond : ¬ ([] ++ (hd ++ body.take 4)).length < 8 := by
      rw [List.nil_append,hlen]
      exact Nat.lt_irrefl 8
    simp only [Progress.chunk,Progress.start,hbytes,hfirst,hsecond,Arrival.progress,inTwo]
    simp
  rw [← hg]
  exact h2

theorem inTwo_routable {s : Rpc} {hd body : List UInt8} (hvalid : validMarker (be32 hd) = true)
    (hroom : s.Room ((s.lookup (be32 body)).1.elim body.length fun p => roomFor p body.length))
    (hfol : ∀ p, (s.lookup (be32 body)).1 = some p → Followed s.nfsV3 p body) (h3 : (s.afterXid hd body).nfsV3 = s.nfsV3)
    (h : s.state ≠ .readPadding) (k : (s.afterXid hd body).state ≠ .readPadding) : (s.inTwo hd body).Routable := by
  have hturns : ∀ t ∈ (s.inTwo hd body).turns.map Prod.fst, t = s ∨ t = s.afterXid hd body := by
    intro t ht
    simpa [inTwo] using ht
  refine ⟨hvalid,hroom,hfol,fun t ht => ?_,fun t ht hst => ?_⟩
  · rcases hturns t ht with rfl | rfl
    · rfl
    · exact h3
  · rcases hturns t ht with rfl | rfl
    · exact absurd hst h
    · exact absurd hst k

def demoHead : List UInt8 := beBytes (2^31+48)

def demoBody : List UInt8 := beBytes 1 ++ demoReply

/-- The READ that is sent again when the connection is lost -/
def demoResent : List Event := demoConnect ++ [.setResiliency (-1) 60000 0,.queuePdu demoRead [.wrote 44]]

end Demo

end Rpc
end Libnfs
