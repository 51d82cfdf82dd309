import Libnfs.Tickets

/-! What the application and the scan for timeouts do to a connection that lasts: PDUs come and are withdrawn, and the reader
sees nothing of it. -/
namespace Libnfs

open Zdr

variable {P : Pdu → Prop}

/-- All but the callback of a PDU that timed out -/
def LogEntry.reply : LogEntry → Bool
  | .callback _ .timeout _ => false
  | _ => true

namespace Rpc

/-- What the replies have left in the log -/
def replies (log : List LogEntry) : List LogEntry := log.filter LogEntry.reply

/-- From `s` to `t` the PDU with this number was cancelled, or it timed out. -/
def Withdrawn (s t : Rpc) (id : ℕ) : Prop :=
  (∃ l, t.cancelled = s.cancelled ++ l ∧ id ∈ l) ∨ ∃ l, t.log = s.log ++ l ∧ .callback id .timeout .null ∈ l

/-- The numbers of the PDUs that wait -/
def ids (s : Rpc) : List ℕ := s.pool.map Pdu.id

/-- From `s` to `t` the context gets older: no entry of its log and no cancellation is forgotten. -/
structure Older (s t : Rpc) : Prop where
  log : s.log <+: t.log
  cancelled : s.cancelled <+: t.cancelled
  nextId : s.nextId ≤ t.nextId
  fresh : ∀ id ∈ t.ids, id ∈ s.ids ∨ s.nextId ≤ id

/-- What the application and the scan for timeouts do: they leave the reader and the memory alone, and take back PDUs. -/
structure Quiet (s t : Rpc) : Prop extends Older s t where
  reader : t.readerPart = s.readerPart
  mem : t.mem = s.mem
  fd : t.fd = s.fd
  timeouts : ∃ l, t.log = s.log ++ l ∧ replies l = []
  kept : ∀ id ∈ s.ids, id ∈ t.ids ∨ Withdrawn s t id

section Calls

variable {s t u : Rpc}

theorem replies_append (l m : List LogEntry) : replies (l++m) = replies l ++ replies m := List.filter_append ..

theorem Older.refl (s : Rpc) : Older s s := ⟨List.prefix_rfl,List.prefix_rfl,le_refl _,fun _ h => .inl h⟩

theorem Older.trans (h : Older s t) (k : Older t u) : Older s u where
  log := h.log.trans k.log
  cancelled := h.cancelled.trans k.cancelled
  nextId := h.nextId.trans k.nextId
  fresh id hid := (k.fresh id hid).elim (h.fresh id) fun hn => .inr (h.nextId.trans hn)

theorem Withdrawn.older {id : ℕ} (hw : Withdrawn s t id) (h : Older t u) : Withdrawn s u id := by
  obtain ⟨c,hc⟩ := h.cancelled
  obtain ⟨m,hm⟩ := h.log
  rcases hw with ⟨l,hl,hid⟩ | ⟨l,hl,hid⟩
  · exact .inl ⟨l++c,by rw [← hc,hl,List.append_assoc],List.mem_append_left _ hid⟩
  · exact .inr ⟨l++m,by rw [← hm,hl,List.append_assoc],List.mem_append_left _ hid⟩

theorem Withdrawn.since {id : ℕ} (hw : Withdrawn t u id) (h : Older s t) : Withdrawn s u id := by
  obtain ⟨c,hc⟩ := h.cancelled
  obtain ⟨m,hm⟩ := h.log
  rcases hw with ⟨l,hl,hid⟩ | ⟨l,hl,hid⟩
  · exact .inl ⟨c++l,by rw [hl,← hc,List.append_assoc],List.mem_append_right _ hid⟩
  · exact .inr ⟨m++l,by rw [hl,← hm,List.append_assoc],List.mem_append_right _ hid⟩

/-- PDUs that are called back although no reply came have timed out. -/
theorem mem_timeouts {l : List LogEntry} (ht : ∀ x ∈ l, ∃ id, x = .callback id .timeout .null) {id : ℕ} (hid : id ∈ calledIn l) :
    .callback id .timeout .null ∈ l := by
  obtain ⟨x,hx,hc⟩ := List.mem_filterMap.1 hid
  obtain ⟨i,rfl⟩ := ht x hx
  simp only [Option.some.injEq] at hc
  exact hc ▸ hx

theorem replies_timeouts {l : List LogEntry} (ht : ∀ x ∈ l, ∃ id, x = .callback id .timeout .null) : replies l = [] := by
  rw [replies,List.filter_eq_nil_iff]
  intro x hx
  obtain ⟨i,rfl⟩ := ht x hx
  simp [LogEntry.reply]

/-- PDUs move in the queues, are cancelled or time out. -/
theorem Moves.quiet (h : Moves s t) (hr : t.readerPart = s.readerPart) (hm : t.mem = s.mem) (hfd : t.fd = s.fd)
    (hl : ∃ l, t.log = s.log ++ l ∧ ∀ x ∈ l, ∃ id, x = .callback id .timeout .null) : Quiet s t := by
  obtain ⟨done,can,h1,h2,h3⟩ := h.account
  obtain ⟨l,hl,ht⟩ := hl
  have hdone : done = calledIn l := by
    rw [called,called,hl,calledIn_append] at h1
    exact (List.append_cancel_left h1).symm
  have hids : s.ids.Perm (t.ids ++ (done ++ can)) := by
    rw [List.perm_iff_count] at h3 ⊢
    intro x
    have hx := h3 x
    simp only [pending,held_congr hr,List.count_append] at hx
    simp only [ids,List.count_append]
    omega
  refine ⟨⟨⟨l,hl.symm⟩,?_,h.nextId.ge,fun id hid => .inl (hids.symm.subset (List.mem_append_left _ hid))⟩,hr,hm,hfd,
    ⟨l,hl,replies_timeouts ht⟩,fun id hid => ?_⟩
  · exact ⟨can,h2.symm⟩
  · rcases List.mem_append.1 (hids.subset hid) with hin | hout
    · exact .inl hin
    · exact .inr ((List.mem_append.1 hout).symm.imp (fun hc => ⟨can,h2,hc⟩) fun hd => ⟨l,hl,mem_timeouts ht (hdone ▸ hd)⟩)

theorem Quiet.refl (s : Rpc) : Quiet s s := ⟨.refl s,rfl,rfl,rfl,⟨[],(List.append_nil _).symm,rfl⟩,fun _ h => .inl h⟩

theorem Quiet.trans (h : Quiet s t) (k : Quiet t u) : Quiet s u := by
  refine ⟨h.toOlder.trans k.toOlder,k.reader.trans h.reader,k.mem.trans h.mem,k.fd.trans h.fd,?_,fun id hid => ?_⟩
  · obtain ⟨l,hl,hr⟩ := h.timeouts
    obtain ⟨m,hm,hr'⟩ := k.timeouts
    exact ⟨l++m,by rw [hm,hl,List.append_assoc],by rw [replies_append,hr,hr',List.append_nil]⟩
  · rcases h.kept id hid with hin | hw
    · exact (k.kept id hin).imp_right fun hw => hw.since h.toOlder
    · exact .inr (hw.older k.toOlder)

/-- Nothing happens to the queues. -/
theorem Quiet.of_eq (ho : t.outqueue = s.outqueue) (hw : t.waitpdu = s.waitpdu) (hl : t.log = s.log)
    (hc : t.cancelled = s.cancelled) (hn : t.nextId = s.nextId) (hr : t.readerPart = s.readerPart) (hm : t.mem = s.mem)
    (hfd : t.fd = s.fd) : Quiet s t := by
  have hids : t.ids = s.ids := by rw [ids,ids,pool,pool,ho,hw]
  exact ⟨⟨hl ▸ List.prefix_rfl,hc ▸ List.prefix_rfl,hn.ge,fun id hid => .inl (hids ▸ hid)⟩,hr,hm,hfd,
    ⟨[],by rw [hl,List.append_nil],rfl⟩,fun id hid => .inl (hids ▸ hid)⟩

theorem rpcWriteToSocket_quiet (h : s.QueueOk P) (ws : List Writev) : Quiet s (s.rpcWriteToSocket ws).1 := by
  have hm := rpcWriteToSocket_moves h ws
  obtain ⟨q,w,n,b,he⟩ := rpcWriteToSocket_frame s ws
  rw [he] at hm ⊢
  exact hm.quiet rfl rfl rfl ⟨[],(List.append_nil _).symm,by simp⟩

theorem enqueueCall_quiet (s : Rpc) (c : Call) : Quiet s (s.enqueueCall c) := by
  obtain ⟨a,b,hnew⟩ := newPdu_eq s c
  have hid : (s.newPdu c).id = s.nextId := by
    rw [hnew]
    rfl
  have hmem : ∀ id, id ∈ (s.enqueueCall c).ids ↔ id ∈ s.ids ∨ id = s.nextId := by
    intro id
    simp only [ids,pool,enqueueCall,List.map_append,List.map_cons,List.map_nil,hid,List.mem_append,List.mem_singleton]
    tauto
  exact ⟨⟨List.prefix_rfl,List.prefix_rfl,Nat.le_succ _,fun id h => ((hmem id).1 h).imp_right Eq.ge⟩,rfl,rfl,rfl,
    ⟨[],(List.append_nil _).symm,rfl⟩,fun id h => .inl ((hmem id).2 (.inl h))⟩

theorem rpcCancelPdu_quiet (hw : 0 < s.waitpdu.length) (x : ℕ) : Quiet s (s.rpcCancelPdu x) := by
  have hm := rpcCancelPdu_moves hw x
  have hframe : ∃ q w n c, s.rpcCancelPdu x = { s.withQueues q w n with cancelled := c } := by
    unfold rpcCancelPdu
    split
    · rename_i p t hf
      obtain ⟨-,q,w,n,rfl,-⟩ := rpcFindPdu_some hw hf
      exact ⟨q,w,n,_,rfl⟩
    · rename_i t hf
      exact ⟨s.outqueue,s.waitpdu,s.waitpduLen,s.cancelled,(rpcFindPdu_none hf).symm ▸ rfl⟩
  obtain ⟨q,w,n,c,he⟩ := hframe
  rw [he] at hm ⊢
  exact hm.quiet rfl rfl rfl ⟨[],(List.append_nil _).symm,by simp⟩

/-- The scan calls back nothing but PDUs that have timed out. -/
theorem foldl_waitTimedOut_log (t : ℕ) (l : List Pdu) (u : Rpc) :
    (∃ m, (l.foldl (fun r p => r.waitTimedOut t p) u).log = u.log ++ m ∧ ∀ x ∈ m, ∃ id, x = .callback id .timeout .null) ∧
      (l.foldl (fun r p => r.waitTimedOut t p) u).mem = u.mem ∧ (l.foldl (fun r p => r.waitTimedOut t p) u).fd = u.fd := by
  induction l generalizing u with
  | nil => exact ⟨⟨[],(List.append_nil _).symm,by simp⟩,rfl,rfl⟩
  | cons p l ih =>
    obtain ⟨⟨m,hm,ht⟩,h2,h3⟩ := ih (u.waitTimedOut t p)
    rw [List.foldl_cons]
    rcases waitTimedOut_eq u t p with ⟨a,b,he⟩ | he
    · rw [he] at hm h2 h3 ⊢
      exact ⟨⟨m,hm,ht⟩,h2,h3⟩
    · rw [he] at hm h2 h3 ⊢
      refine ⟨⟨.callback p.id .timeout .null::m,?_,?_⟩,h2,h3⟩
      · rw [hm]
        simp only [callback,List.append_assoc,List.singleton_append]
      · intro x hx
        rcases List.mem_cons.1 hx with rfl | hx
        · exact ⟨p.id,rfl⟩
        · exact ht x hx

theorem rpcTimeoutScan_quiet (s : Rpc) : Quiet s s.rpcTimeoutScan.1 := by
  have hm := rpcTimeoutScan_moves s
  obtain ⟨hr,-⟩ := rpcTimeoutScan_frame s
  suffices h : (∃ l, s.rpcTimeoutScan.1.log = s.log ++ l ∧ ∀ x ∈ l, ∃ id, x = .callback id .timeout .null) ∧
      s.rpcTimeoutScan.1.mem = s.mem ∧ s.rpcTimeoutScan.1.fd = s.fd from hm.quiet hr h.2.1 h.2.2 h.1
  unfold rpcTimeoutScan
  split
  · exact ⟨⟨[],(List.append_nil _).symm,by simp⟩,rfl,rfl⟩
  · dsimp only
    generalize hu : scanOutqueue { s with lastTimeoutScan := s.clock } s.clock = u
    have hum : u.mem = s.mem ∧ u.fd = s.fd := by
      rw [← hu]
      exact ⟨rfl,rfl⟩
    have hul : ∃ l, u.log = s.log ++ l ∧ ∀ x ∈ l, ∃ id, x = .callback id .timeout .null := by
      rw [← hu]
      refine ⟨_,rfl,fun x hx => ?_⟩
      obtain ⟨p,-,rfl⟩ := List.mem_map.1 hx
      exact ⟨p.id,rfl⟩
    obtain ⟨⟨m,hm,ht⟩,h2,h3⟩ := foldl_waitTimedOut_log s.clock (u.waitpdu.flatten.filter fun p => !waiting s.clock p)
      { u with waitpdu := u.waitpdu.map fun q => q.filter (waiting s.clock) }
    obtain ⟨l,hl,ht'⟩ := hul
    refine ⟨⟨l++m,?_,fun x hx => ?_⟩,h2.trans hum.1,h3.trans hum.2⟩
    · rw [scanWaitpdu,hm]
      show u.log ++ m = _
      rw [hl,List.append_assoc]
    · exact (List.mem_append.1 hx).elim (ht' x) (ht x)

theorem act_quiet (hok : s.Ok fun _ => True) {e : Event} (h : s.Lasts e) (hr : ∀ r c, e ≠ .recv r c) : Quiet s (s.act e) := by
  cases e with
  | tick => exact .of_eq rfl rfl rfl rfl rfl rfl rfl rfl
  | memory => exact .of_eq rfl rfl rfl rfl rfl rfl rfl rfl
  | setResiliency => exact .of_eq rfl rfl rfl rfl rfl rfl rfl rfl
  | disableSocket => exact .of_eq rfl rfl rfl rfl rfl rfl rfl rfl
  | setProgram => exact .of_eq rfl rfl rfl rfl rfl rfl rfl rfl
  | queuePdu c ws =>
    simp only [act,rpcQueuePdu]
    split
    · split
      · have hq : (s.enqueueCall c).Ok fun _ => True := enqueueCall_ok hok trivial
        exact (enqueueCall_quiet s c).trans (rpcWriteToSocket_quiet hq.toQueueOk ws)
      · exact enqueueCall_quiet s c
    · exact .refl s
  | cancelPdu x => exact rpcCancelPdu_quiet hok.hashes x
  | timeoutScan conn =>
    have hs : s.rpcTimeoutScan.2 = true := h
    simp only [act,orRequeue,hs,if_true]
    exact rpcTimeoutScan_quiet s
  | write ws conn =>
    simp only [act,pollWrite]
    split
    · exact .refl s
    · rename_i hne
      rcases h with h | h
      · simp [h] at hne
      · rw [orRequeue,if_pos h]
        exact rpcWriteToSocket_quiet hok.toQueueOk ws
  | recv r c => exact absurd rfl (hr r c)
  | _ => exact h.elim

end Calls

section Lasting

variable {s t : Rpc} {x0 : ℕ}

/-- A connection that lasts: the process lives, the socket is open, and the tickets are in order. -/
structure Ready (x0 : ℕ) (s : Rpc) : Prop where
  ok : s.Ok fun _ => True
  live : s.Live
  fd : s.fd = true
  ticketed : s.Ticketed x0

theorem Ready.call (h : Ready x0 s) {e : Event} (hl : s.Lasts e) (hr : ∀ r c, e ≠ .recv r c) :
    Ready x0 (s.step e) ∧ Quiet s (s.step e) := by
  have hq : Queues (fun _ => True) e := by cases e <;> simp [Queues]
  have hquiet := act_quiet h.ok hl hr
  obtain ⟨-,hlive⟩ := lasts_quiet h.live hl hr
  rw [step_live h.live]
  exact ⟨⟨act_ok h.ok e hq hlive.2,hlive,hquiet.fd.trans h.fd,act_ticketed h.ok h.ticketed hq⟩,hquiet⟩

theorem Ready.recv (h : Ready x0 s) {r : Recv} (ht : s.recvStep r = .more t) : Ready x0 t := by
  have hok := recvStep_ok h.ok r
  have hb := recvStep_booked h.ok r
  have hk := recvStep_keeps h.ok r
  rw [ht] at hok hb hk
  have hfd := hb
  simp only [Ctl.rpc,booked,Prod.mk.injEq] at hfd
  exact ⟨hok,h.live.booked hb,hfd.2.2.2.1.trans h.fd,h.ticketed.keeps hk⟩

end Lasting

end Rpc
end Libnfs
