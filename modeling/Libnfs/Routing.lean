import Libnfs.Arrival

/-! Reply routing: records with any xids arrive in any order, in chunks between which the application makes calls. Each PDU
is completed by the first record that has its xid, and what belongs to none is skipped. -/
namespace Libnfs

open ByteWords Scatter Zdr RecordMark Transition

namespace Rpc

/-- Records arrive one after the other, whatever bytes are behind them in the stream. -/
inductive Arrives : Rpc → List Arrival → Rpc → Prop
  | nil (s : Rpc) : Arrives s [] s
  | cons {s t u : Rpc} {as : List Arrival} (a : Arrival) (rest : List UInt8) (hrec : Record a.hd a.body)
      (hr : Receives s (a.hd++a.body++rest) a.progress t) (h : Arrives t as u) : Arrives s (a::as) u

/-- From `s` to `u` the records `as` have gone to the PDUs they belong to: a record finds the PDU with its xid, the first record of a
PDU that still waits finds it, the callback and the memory get what that record says, no PDU is found twice or waits again, and
a record that finds none has no effect. -/
structure Routed (s : Rpc) (as : List Arrival) (u : Rpc) : Prop where
  marker : u.AtMarker
  log : replies u.log = replies s.log ++ as.flatMap Arrival.entries
  mem : u.mem = as.foldl (fun m a => a.remember m) s.mem
  found : ∀ a ∈ as, ∀ p, a.found = some p ↔ p ∈ a.ctx.pool ∧ p.xid = a.xid
  first : ∀ l a r, as = l++a::r → ∀ p ∈ s.pool, p.xid = a.xid → (∀ b ∈ l, b.xid ≠ p.xid) →
    (∃ q, a.found = some q ∧ q.id = p.id) ∨ Withdrawn s a.ctx p.id
  once : ((as.filterMap Arrival.found).map Pdu.id).Nodup
  gone : ∀ a ∈ as, ∀ p, a.found = some p → p.id ∉ u.ids
  kept : ∀ id ∈ s.ids, id ∈ u.ids ∨ Withdrawn s u id ∨ ∃ a ∈ as, ∃ p, a.found = some p ∧ p.id = id
  unmatched : ∀ a ∈ as, a.found = none → ∀ y ∈ a.turns, Idle y.1 y.2

section Runs

variable {s t u : Rpc} {as l m : List Arrival} {a : Arrival} {p q : Pdu} {x0 x : ℕ}

theorem Arrives.cut (h : Arrives s (l++m) u) : ∃ t, Arrives s l t ∧ Arrives t m u := by
  induction l generalizing s with
  | nil => exact ⟨s,.nil s,h⟩
  | cons a l ih =>
    cases h with
    | cons _ rest hrec hr h =>
      obtain ⟨t,h1,h2⟩ := ih h
      exact ⟨t,.cons a rest hrec hr h1,h2⟩

theorem Arrives.run (h : Arrives s as u) :
    ∃ fs, u = Transition.run step s fs ∧ fs.flatMap Event.taken = as.flatMap fun a => a.hd++a.body := by
  induction h with
  | nil s => exact ⟨[],rfl,rfl⟩
  | cons a rest hrec hr h ih =>
    obtain ⟨fs,rfl,hfs⟩ := hr.run
    obtain ⟨gs,rfl,hgs⟩ := ih
    exact ⟨fs++gs,(Transition.run_append step _ fs gs).symm,by rw [List.flatMap_append,hfs,hgs]; rfl⟩

/-- The PDUs that a record finds are those with its xid. -/
theorem Received.found_iff (h : Received x0 s a t) (hn : t.nextId ≤ 2^32) :
    a.found = some p ↔ p ∈ a.ctx.pool ∧ p.xid = a.xid := by
  obtain ⟨hc,-,hold,-⟩ := h.tracked.ctx a.ctx rfl
  exact hc.ticketed.lookup_iff (hold.nextId.trans hn) hc.ok.rmXid hc.ok.hashes (be32_lt a.body)

theorem Received.ctx_older (h : Received x0 s a t) : Older s a.ctx ∧ Older a.ctx t := by
  obtain ⟨-,h1,h2,-⟩ := h.tracked.ctx a.ctx rfl
  exact ⟨h1,h2⟩

/-- The context gets older from record to record. -/
theorem Arrives.older (h : Arrives s as u) (hs : Ready x0 s) (hm : s.AtMarker) (hr : ∀ a ∈ as, a.Routable) :
    Ready x0 u ∧ u.AtMarker ∧ Older s u ∧ ∀ a ∈ as, Older s a.ctx := by
  induction h with
  | nil s => exact ⟨hs,hm,.refl s,by simp⟩
  | cons a rest hrec hrecv h ih =>
    have hgot := hrecv.received hs hm hrec (hr a List.mem_cons_self)
    obtain ⟨h1,h2,h3,h4⟩ := ih hgot.ready hgot.marker fun b hb => hr b (List.mem_cons_of_mem a hb)
    have hold := hgot.tracked.older
    refine ⟨h1,h2,hold.trans h3,fun b hb => ?_⟩
    rcases List.mem_cons.1 hb with rfl | hb
    · exact hgot.ctx_older.1
    · exact hold.trans (h4 b hb)

/-- PDUs of the same number have the same xid. -/
theorem exists_pdu (h : t.Ticketed x0) {id : ℕ} (hid : id ∈ t.ids) : ∃ q ∈ t.pool, q.id = id ∧ q.xid = (x0+id) % 2^32 := by
  obtain ⟨q,hq,rfl⟩ := List.mem_map.1 hid
  exact ⟨q,hq,rfl,(h.issued q (pool_subset_outstanding hq)).2⟩

/-- Records in a row are routed. -/
theorem Arrives.routed (h : Arrives s as u) (hs : Ready x0 s) (hm : s.AtMarker) (hn : u.nextId ≤ 2^32)
    (hr : ∀ a ∈ as, a.Routable) : Routed s as u := by
  induction h with
  | nil s =>
    exact ⟨hm,(List.append_nil _).symm,rfl,by simp,fun l a r h => by simp at h,List.nodup_nil,by simp,fun id hid => .inl hid,
      by simp⟩
  | @cons s t u as a rest hrec hrecv h ih =>
    have hgot := hrecv.received hs hm hrec (hr a List.mem_cons_self)
    have hrest : ∀ b ∈ as, b.Routable := fun b hb => hr b (List.mem_cons_of_mem a hb)
    obtain ⟨-,-,hold,hlater⟩ := h.older hgot.ready hgot.marker hrest
    have hR := ih hgot.ready hgot.marker hn hrest
    have hfound : ∀ p, a.found = some p ↔ p ∈ a.ctx.pool ∧ p.xid = a.xid := fun p => hgot.found_iff (hold.nextId.trans hn)
    obtain ⟨hcr,-,hct,hck⟩ := hgot.tracked.ctx a.ctx rfl
    -- the PDU that is found does not come back
    have hgone : ∀ p, a.found = some p → ∀ {v : Rpc}, Older t v → p.id ∉ v.ids := by
      intro p hp v hv hin
      obtain ⟨h1,h2⟩ := hgot.tracked.gone a.ctx p rfl hp
      rcases hv.fresh _ hin with hin | hge
      · exact h1 hin
      · have := hct.nextId
        omega
    refine ⟨hR.marker,?_,hR.mem.trans ?_,?_,?_,?_,?_,?_,?_⟩
    · rw [hR.log,hgot.log,List.flatMap_cons,List.append_assoc]
    · rw [hgot.mem]
      rfl
    · intro b hb
      rcases List.mem_cons.1 hb with rfl | hb
      · exact hfound
      · exact hR.found b hb
    · intro l b r hl p hp hx hlx
      have hpx : p.xid = (x0+p.id) % 2^32 := (hs.ticketed.issued p (pool_subset_outstanding hp)).2
      cases l with
      | nil =>
        simp only [List.nil_append,List.cons.injEq] at hl
        obtain ⟨rfl,-⟩ := hl
        refine (hck p.id (List.mem_map_of_mem hp)).imp_left fun hin => ?_
        obtain ⟨q,hq,hqid,hqx⟩ := exists_pdu hcr.ticketed hin
        exact ⟨q,(hfound q).2 ⟨hq,by rw [hqx,← hpx,hx]⟩,hqid⟩
      | cons c l =>
        simp only [List.cons_append,List.cons.injEq] at hl
        obtain ⟨rfl,hl⟩ := hl
        have hb : b ∈ as := by rw [hl]; simp
        rcases hgot.tracked.kept p.id (List.mem_map_of_mem hp) with hin | hw | ⟨c,q,hc,hq,hqid⟩
        · obtain ⟨q,hq,hqid,hqx⟩ := exists_pdu hgot.ready.ticketed hin
          have hqp : q.xid = p.xid := hqx.trans hpx.symm
          have hgo := hR.first l b r hl q hq (hqp.trans hx) fun c hc => by rw [hqp]; exact hlx c (List.mem_cons_of_mem _ hc)
          rw [hqid] at hgo
          exact hgo.imp_right fun hw => hw.since hgot.tracked.older
        · exact .inr (hw.older (hlater b hb))
        · obtain rfl := Option.some.inj hc
          obtain ⟨hqin,hqx⟩ := (hfound q).1 hq
          have hqx' := (hcr.ticketed.issued q (pool_subset_outstanding hqin)).2
          rw [hqid,← hpx] at hqx'
          exact absurd (hqx.symm.trans hqx') (hlx a List.mem_cons_self)
    · cases hf : a.found with
      | none =>
        rw [List.filterMap_cons_none hf]
        exact hR.once
      | some p =>
        rw [List.filterMap_cons_some hf,List.map_cons,List.nodup_cons]
        refine ⟨fun hmem => ?_,hR.once⟩
        obtain ⟨q,hq,hqid⟩ := List.mem_map.1 hmem
        obtain ⟨b,hb,hbq⟩ := List.mem_filterMap.1 hq
        have hin := ((hR.found b hb q).1 hbq).1
        exact hgone p hf (hlater b hb) (hqid ▸ List.mem_map_of_mem hin)
    · intro b hb p hp
      rcases List.mem_cons.1 hb with rfl | hb
      · exact hgone p hp hold
      · exact hR.gone b hb p hp
    · intro id hid
      rcases hgot.tracked.kept id hid with hin | hw | ⟨c,q,hc,hq,hqid⟩
      · refine (hR.kept id hin).imp_right fun hor => hor.imp (fun hw => hw.since hgot.tracked.older) ?_
        rintro ⟨b,hb,hrest⟩
        exact ⟨b,List.mem_cons_of_mem a hb,hrest⟩
      · exact .inr (.inl (hw.older hold))
      · obtain rfl := Option.some.inj hc
        exact .inr (.inr ⟨a,List.mem_cons_self,q,hq,hqid⟩)
    · intro b hb hnone
      rcases List.mem_cons.1 hb with rfl | hb
      · refine hgot.tracked.idle fun c hc => ?_
        obtain rfl := Option.some.inj hc
        exact hnone
      · exact hR.unmatched b hb hnone

end Runs

end Rpc
end Libnfs
