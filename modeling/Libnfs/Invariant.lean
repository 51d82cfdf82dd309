import Libnfs.Service

/-! What holds of every context a client can get into: the PDUs on the queues are untouched
by the reader, only the head of the out queue is half sent, and the reader is where one of
its states allows it to be. `P` is whatever was true of every request that was made. -/
namespace Libnfs

open ByteWords Scatter Zdr Transition

variable {P : Pdu → Prop}

/-- A PDU that carries its vectors through a reply, filled in part. -/
structure HeldOk (P : Pdu → Prop) (p : Pdu) : Prop where
  kept : p.discardAfterSending = false
  sized : 0 < p.totalSize
  cursor : ∀ c, p.cursor = some c → c.Sized
  room : ∀ c, p.cursor = some c → p.requestedReadCount ≤ total c.ref
  plain : p.cursor = none → p.freePdu = false
  origin : P p.request

/-- A PDU on a queue: its cursor is at the user's own vectors. -/
structure PduOk (P : Pdu → Prop) (p : Pdu) : Prop extends HeldOk P p where
  fresh : ∀ c, p.cursor = some c → c = Cursor.fresh c.ref

theorem reset_pduOk {p : Pdu} (h : HeldOk P p) : PduOk P p.reset where
  kept := h.kept
  sized := h.sized
  cursor := by
    intro c hc
    obtain ⟨d,-,rfl⟩ := Option.map_eq_some_iff.mp hc
    exact Cursor.fresh_sized d.ref
  room := by
    intro c hc
    obtain ⟨d,hd,rfl⟩ := Option.map_eq_some_iff.mp hc
    exact h.room d hd
  plain := by
    intro hc
    exact h.plain (Option.map_eq_none_iff.mp hc)
  origin := by
    have hr : p.reset.request = p.request := by
      unfold Pdu.request
      cases hp : p.cursor with
      | none => simp [Pdu.reset,hp]
      | some c => simp [Pdu.reset,hp,Cursor.rpcResetCursor,Cursor.fresh]
    rw [hr]
    exact h.origin
  fresh := by
    intro c hc
    obtain ⟨d,-,rfl⟩ := Option.map_eq_some_iff.mp hc
    rfl

/-- On a queue only the bytes sent are there to be undone. -/
theorem reset_of_pduOk {p : Pdu} (h : PduOk P p) : p.reset = { p with numDone := 0 } := by
  have hc : p.cursor.map Cursor.rpcResetCursor = p.cursor := by
    cases hp : p.cursor with
    | none => rfl
    | some c => exact congrArg some (h.fresh c hp).symm
  rw [Pdu.reset,hc]

@[simp] theorem reset_id (p : Pdu) : p.reset.id = p.id := rfl
@[simp] theorem reset_xid (p : Pdu) : p.reset.xid = p.xid := rfl
@[simp] theorem reset_out (p : Pdu) : p.reset.out = p.out := rfl
@[simp] theorem reset_numDone (p : Pdu) : p.reset.numDone = 0 := rfl
@[simp] theorem reset_record (p : Pdu) : p.reset.record = p.record := rfl
@[simp] theorem reset_totalSize (p : Pdu) : p.reset.totalSize = p.totalSize := rfl

/-- `pdu_set_timeout` writes nothing but the two times. -/
theorem pduSetTimeout_eq (rpc : Rpc) (p : Pdu) (now : ℕ) :
    ∃ a b, rpc.pduSetTimeout p now = { p with timeout := a, majorTimeout := b } := by
  unfold Rpc.pduSetTimeout
  dsimp only
  repeat' split
  all_goals exact ⟨_,_,rfl⟩

theorem pduOk_times {p : Pdu} (h : PduOk P p) (a b : ℕ) :
    PduOk P { p with timeout := a, majorTimeout := b } :=
  ⟨⟨h.kept,h.sized,h.cursor,h.room,h.plain,h.origin⟩,h.fresh⟩

theorem pduOk_numDone {p : Pdu} (h : PduOk P p) (n : ℕ) : PduOk P { p with numDone := n } :=
  ⟨⟨h.kept,h.sized,h.cursor,h.room,h.plain,h.origin⟩,h.fresh⟩

/-- The cursor may move over the same user vectors. -/
theorem HeldOk.moved {p : Pdu} (ok : HeldOk P p) {c d : Cursor} (hc : p.cursor = some c)
    (hd : d.Sized) (href : d.ref = c.ref) (n : ℕ) :
    HeldOk P { p with cursor := some d, readCount := n } := by
  refine ⟨ok.kept,ok.sized,?_,?_,fun h => by simp at h,?_⟩
  · intro e he
    exact Option.some.inj he ▸ hd
  · intro e he
    rw [← Option.some.inj he,href]
    exact ok.room c hc
  · have hr : ({ p with cursor := some d, readCount := n } : Pdu).request = p.request := by
      simp only [Pdu.request,hc,Option.map_some,Cursor.rpcResetCursor,href]
    rw [hr]
    exact ok.origin

/-- The out queue: no PDU is sent in full, and only the head in part. -/
structure OutOk (q : List Pdu) : Prop where
  unsent : ∀ p ∈ q, p.numDone < p.totalSize
  tail : ∀ p ∈ q.tail, p.numDone = 0

theorem outOk_nil : OutOk [] := ⟨by simp,by simp⟩

theorem outOk_insertAfterHead {q : List Pdu} (h : OutOk q) {p : Pdu} (hp : 0 < p.totalSize)
    (hn : p.numDone = 0) : OutOk (insertAfterHead p q) := by
  cases q with
  | nil => exact ⟨by simp [insertAfterHead,hn,hp],by simp [insertAfterHead]⟩
  | cons x xs =>
    refine ⟨?_,?_⟩
    · intro a ha
      simp only [insertAfterHead,List.mem_cons] at ha
      rcases ha with rfl | rfl | ha
      · exact h.unsent a (by simp)
      · omega
      · exact h.unsent a (by simp [ha])
    · intro a ha
      simp only [insertAfterHead,List.tail_cons,List.mem_cons] at ha
      rcases ha with rfl | ha
      · exact hn
      · exact h.tail a ha

theorem outOk_sublist {q r : List Pdu} (h : OutOk q) (hr : r.Sublist q) : OutOk r :=
  ⟨fun p hp => h.unsent p (hr.subset hp),fun p hp => h.tail p (hr.tail.subset hp)⟩

theorem outOk_append {q : List Pdu} (h : OutOk q) {p : Pdu} (hp : 0 < p.totalSize)
    (hn : p.numDone = 0) : OutOk (q ++ [p]) := by
  refine ⟨?_,?_⟩
  · intro a ha
    rcases List.mem_append.mp ha with ha | ha
    · exact h.unsent a ha
    · rw [List.mem_singleton.mp ha]
      omega
  · intro a ha
    cases q with
    | nil => simp at ha
    | cons x xs =>
      simp only [List.cons_append,List.tail_cons,List.mem_append,List.mem_singleton] at ha
      rcases ha with ha | rfl
      · exact h.tail a ha
      · exact hn

theorem mem_insertAfterHead {α : Type} {a p : α} {q : List α} :
    a ∈ insertAfterHead p q ↔ a = p ∨ a ∈ q := by
  cases q with
  | nil => simp [insertAfterHead]
  | cons x xs =>
    simp only [insertAfterHead,List.mem_cons]
    tauto

theorem insertAfterHead_perm {α : Type} (p : α) (q : List α) :
    (insertAfterHead p q).Perm (p::q) := by
  cases q with
  | nil => exact List.Perm.refl _
  | cons x xs => exact List.Perm.swap p x xs

/-- The PDU found is unlinked and nothing else changes. -/
theorem findXid_some {x : ℕ} {q r : List Pdu} {p : Pdu} (h : findXid x q = some (p,r)) :
    p.xid = x ∧ ∃ l m, q = l ++ p::m ∧ r = l ++ m ∧ ∀ a ∈ l, a.xid ≠ x := by
  induction q generalizing p r with
  | nil => simp [findXid] at h
  | cons a q ih =>
    simp only [findXid] at h
    split at h
    · rename_i hx
      simp only [Option.some.injEq,Prod.mk.injEq] at h
      obtain ⟨rfl,rfl⟩ := h
      exact ⟨hx,[],_,rfl,rfl,by simp⟩
    · rename_i hx
      obtain ⟨⟨p',r'⟩,hf,he⟩ := Option.map_eq_some_iff.mp h
      simp only [Prod.mk.injEq] at he
      obtain ⟨rfl,rfl⟩ := he
      obtain ⟨hxid,l,m,rfl,rfl,hl⟩ := ih hf
      exact ⟨hxid,a::l,m,rfl,rfl,by simpa [hx] using hl⟩

theorem findXid_none {x : ℕ} {q : List Pdu} (h : findXid x q = none) : ∀ p ∈ q, p.xid ≠ x := by
  induction q with
  | nil => simp
  | cons a q ih =>
    simp only [findXid] at h
    split at h
    · simp at h
    · rename_i hx
      simpa [hx] using ih (Option.map_eq_none_iff.mp h)

namespace Rpc

/-- The PDUs in the queues. -/
def pool (rpc : Rpc) : List Pdu := rpc.outqueue ++ rpc.waitpdu.flatten

/-- The context with other queues. -/
def withQueues (rpc : Rpc) (q : List Pdu) (w : List (List Pdu)) (n : ℕ) : Rpc :=
  { rpc with outqueue := q, waitpdu := w, waitpduLen := n }

theorem flatten_set_perm {α : Type*} (w : List (List α)) (i : ℕ) (hi : i < w.length) (l m : List α)
    (a : α) (h : w.getD i [] = l ++ a::m) :
    w.flatten.Perm (a::(w.set i (l++m)).flatten) := by
  induction w generalizing i with
  | nil => simp at hi
  | cons v w ih =>
    cases i with
    | zero =>
      simp only [List.getD_cons_zero] at h
      subst h
      simp only [List.flatten_cons,List.set_cons_zero,List.append_assoc,List.cons_append]
      exact List.perm_middle
    | succ i =>
      simp only [List.length_cons] at hi
      simp only [List.getD_cons_succ] at h
      simp only [List.flatten_cons,List.set_cons_succ]
      exact ((ih i (by omega) h).append_left v).trans List.perm_middle

theorem rpcHashXid_lt {rpc : Rpc} (h : 0 < rpc.waitpdu.length) (x : ℕ) :
    rpc.rpcHashXid x < rpc.waitpdu.length := Nat.mod_lt _ h

/-- `rpc_find_pdu`: when it finds a PDU it takes it out of the queue it is on. -/
theorem rpcFindPdu_some {rpc t : Rpc} {x : ℕ} {p : Pdu} (hw : 0 < rpc.waitpdu.length)
    (h : rpc.rpcFindPdu x = (some p,t)) :
    p.xid = x ∧ ∃ q w n, t = rpc.withQueues q w n ∧ q.Sublist rpc.outqueue ∧
      w.length = rpc.waitpdu.length ∧ rpc.pool.Perm (p::(q ++ w.flatten)) := by
  unfold rpcFindPdu at h
  split at h
  · rename_i q' r hf
    simp only [Prod.mk.injEq,Option.some.injEq] at h
    obtain ⟨rfl,rfl⟩ := h
    obtain ⟨hx,l,m,hq,rfl,-⟩ := findXid_some hf
    refine ⟨hx,l++m,rpc.waitpdu,rpc.waitpduLen,rfl,?_,rfl,?_⟩
    · rw [hq]
      exact List.Sublist.append_left (List.sublist_cons_self _ _) l
    · rw [pool,hq]
      simp only [List.append_assoc,List.cons_append]
      exact List.perm_middle
  · split at h
    · rename_i q' r hf
      simp only [Prod.mk.injEq,Option.some.injEq] at h
      obtain ⟨rfl,rfl⟩ := h
      obtain ⟨hx,l,m,hq,rfl,-⟩ := findXid_some hf
      refine ⟨hx,rpc.outqueue,_,_,rfl,List.Sublist.refl _,by simp,?_⟩
      have hp := flatten_set_perm rpc.waitpdu _ (rpcHashXid_lt hw _) l m q' hq
      exact (hp.append_left rpc.outqueue).trans List.perm_middle
    · simp at h

theorem rpcFindPdu_none {rpc t : Rpc} {x : ℕ} (h : rpc.rpcFindPdu x = (none,t)) : t = rpc := by
  unfold rpcFindPdu at h
  split at h
  · simp at h
  · split at h
    · simp at h
    · simpa using h.symm

end Rpc
end Libnfs
