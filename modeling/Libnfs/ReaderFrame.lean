import Libnfs.Reachable

/-! What a turn of the read loop does to the rest of the context: the queues change when a
marker is complete and its xid is looked up, and nothing else does. -/
namespace Libnfs

open ByteWords Scatter Zdr

def Ctl.rpc : Ctl → Rpc
  | .more t => t
  | .fail t => t
  | .fault t => t

namespace Rpc

/-- The context without the reader, the log and the application's memory. -/
def shared (s : Rpc) : Rpc :=
  { s with
    state := .readRm
    inpos := 0
    inbufSize := 0
    inbuf := []
    rmXid := []
    pduSize := 0
    pdu := none
    mem := fun _ => 0
    log := []
    lastSuccessfulRpcResponse := 0 }

theorem finished_shared (s : Rpc) : s.rpcFinishedPdu.shared = s.shared := by
  unfold rpcFinishedPdu
  dsimp only
  repeat' split
  all_goals rfl

theorem placeData_shared (s : Rpc) (p : Pdu) (c : Cursor) (n pos : ℕ) :
    (s.placeData p c n pos).rpc.shared = s.shared := by
  unfold placeData
  dsimp only
  split
  · rfl
  · split
    · rfl
    · split
      · rw [Ctl.rpc,finished_shared]
        rfl
      · rfl

theorem zeroCopyPayload_shared (s : Rpc) (p : Pdu) (c : Cursor) (pos : ℤ) :
    (s.zeroCopyPayload p c pos).rpc.shared = s.shared := by
  unfold zeroCopyPayload
  split
  · rfl
  · split
    · exact finished_shared s
    · split
      · rfl
      · rfl
      · exact placeData_shared s p c _ _

theorem rpcProcessReply_shared {s t : Rpc} {p q : Pdu} {buf : List UInt8} {pos : ℤ}
    (h : s.rpcProcessReply p buf = some (t,q,pos)) : t.shared = s.shared := by
  rcases rpcProcessReply_some h with ⟨-,b,d,-,last,st,da,rfl⟩ | ⟨-,-,b,d,-,rfl⟩
  · rfl
  · rfl

theorem payloadDone_shared (s : Rpc) : s.payloadDone.rpc.shared = s.shared := by
  unfold payloadDone
  split
  · rfl
  · dsimp only
    split
    · rfl
    · rename_i t q pos hr
      have ht := rpcProcessReply_shared hr
      split
      · rw [Ctl.rpc,finished_shared]
        exact ht
      · rw [zeroCopyPayload_shared]
        exact ht

theorem iovecDone_shared (s : Rpc) : s.iovecDone.rpc.shared = s.shared := by
  unfold iovecDone
  split
  · rfl
  · dsimp only
    split
    · rw [Ctl.rpc,finished_shared]
      rfl
    · rfl

theorem readDone_shared {s : Rpc} (hs : s.state ≠ .readRm) : s.readDone.rpc.shared = s.shared := by
  unfold readDone
  split
  · contradiction
  · exact payloadDone_shared s
  · exact iovecDone_shared s
  · exact finished_shared s
  · rfl
  · rfl

theorem readStore_shared {s t : Rpc} {bs : List UInt8} (h : s.readStore bs = some t) :
    t.shared = s.shared ∧ t.state = s.state := by
  unfold readStore at h
  split at h
  · exact Option.some.inj h ▸ ⟨rfl,rfl⟩
  · exact Option.some.inj h ▸ ⟨rfl,rfl⟩
  · exact Option.some.inj h ▸ ⟨rfl,rfl⟩
  · exact Option.some.inj h ▸ ⟨rfl,rfl⟩
  · exact Option.some.inj h ▸ ⟨rfl,rfl⟩
  · split at h
    · simp at h
    · split at h
      · simp at h
      · obtain ⟨d,-,rfl⟩ := Option.map_eq_some_iff.mp h
        exact ⟨rfl,rfl⟩

theorem readPrep_shared {s t : Rpc} (h : s.readPrep = some t) :
    t.shared = s.shared ∧ t.state = s.state := by
  obtain ⟨i,n,q,rfl,-⟩ := readPrep_frame h
  exact ⟨rfl,rfl⟩

/-- A record of a length the reader accepts. -/
def validMarker (marker : ℕ) : Bool :=
  decide (2^31 ≤ marker ∧ 8 ≤ marker-2^31 ∧ marker-2^31 ≤ maxFragmentSize)

/-- The xid that is looked up when `r` arrives: that of a record whose marker it completes. -/
def looksUp (s : Rpc) : Recv → Option ℕ
  | .data bs =>
    let rmXid := overwrite s.rmXid s.inpos bs
    if s.state = .readRm ∧ s.inpos+bs.length = 8 ∧ validMarker (be32 rmXid) then
      some (be32 (rmXid.drop 4))
    else none
  | _ => none

/-- The context after a lookup of `x` in the queues of `s`: a PDU is found and its reply will be
read, or there is no room for that and it is put back, or the record belongs to none. -/
inductive LookedUp (s : Rpc) (x : ℕ) (u : Rpc) : Prop
  | found (v t : Rpc) (p : Pdu) (hv : v.shared = s.shared) (hf : v.rpcFindPdu x = (some p,t))
      (hu : u.shared = t.shared) (hp : u.pdu = some p) (hs : u.state = .readPayload)
      (hl : u.log = s.log)
  | back (v t : Rpc) (p : Pdu) (hv : v.shared = s.shared) (hf : v.rpcFindPdu x = (some p,t))
      (hu : u.shared = (t.rpcReturnToOutqueue p).shared) (hp : u.pdu = none) (hl : u.log = s.log)
  | unknown (hu : u.shared = s.shared) (hp : u.pdu = none) (hl : u.log = s.log)

theorem matchRecord_lookedUp {s v : Rpc} {size x : ℕ} (hw : 0 < v.waitpdu.length)
    (hv : v.shared = s.shared) (hl : v.log = s.log) (hs : v.state = .readPayload) :
    LookedUp s x (v.matchRecord size x).rpc := by
  unfold matchRecord
  split
  · rename_i p t hf
    obtain ⟨-,q,w,n,ht,-⟩ := rpcFindPdu_some hw hf
    split
    · exact .back v t p hv hf rfl rfl (ht ▸ hl)
    · rename_i y hy
      obtain ⟨m,rfl,-⟩ := adjustInbuf_some hy
      exact .found v t p hv hf rfl rfl (ht ▸ hs) (ht ▸ hl)
  · rename_i t hf
    obtain rfl := rpcFindPdu_none hf
    split
    · exact .unknown hv rfl hl
    · rename_i y hy
      obtain ⟨m,rfl,-⟩ := adjustInbuf_some hy
      exact .unknown hv rfl hl

/-- A complete marker leads to a lookup if it is valid, and else to a failure. -/
theorem rmDone_lookedUp {s v : Rpc} (hw : 0 < v.waitpdu.length) (hv : v.shared = s.shared)
    (hl : v.log = s.log) :
    if validMarker (be32 v.rmXid) then LookedUp s (be32 (v.rmXid.drop 4)) v.rmDone.rpc
    else ∃ t, v.rmDone = .fail t ∧ t.shared = s.shared ∧ t.pdu = v.pdu ∧ t.log = s.log := by
  unfold rmDone
  dsimp only
  by_cases hm : be32 v.rmXid < 2^31
  · have hnot : validMarker (be32 v.rmXid) = false := by
      simp only [validMarker,decide_eq_false_iff_not]
      omega
    rw [if_pos hm,hnot]
    exact ⟨_,rfl,hv,rfl,hl⟩
  · rw [if_neg hm]
    generalize hsize : be32 v.rmXid-2^31 = size
    by_cases hbad : size < 8 ∨ maxFragmentSize < size
    · have hnot : validMarker (be32 v.rmXid) = false := by
        simp only [validMarker,decide_eq_false_iff_not,hsize]
        omega
      rw [if_pos hbad,hnot]
      exact ⟨_,rfl,hv,rfl,hl⟩
    · have hyes : validMarker (be32 v.rmXid) = true := by
        simp only [validMarker,decide_eq_true_eq,hsize]
        omega
      rw [if_neg hbad,hyes,if_pos rfl]
      exact matchRecord_lookedUp hw hv hl rfl

/-- The ways a turn of the read loop can go, from the prepared context `t`: nothing arrives, an
assertion of the cursor fails, or bytes are stored and complete what was asked for or not. -/
inductive Turn (P : Pdu → Prop) (s : Rpc) (r : Recv) : Ctl → Prop
  | none (h : s.socketDisabled = true) : Turn P s r (.more s)
  | idle (t : Rpc) (ht : s.readPrep = some t) (hp : Prepared P t) : Turn P s r (.more t)
  | lost (t : Rpc) (ht : s.readPrep = some t) (hp : Prepared P t) : Turn P s r (.fail t)
  | abort (t : Rpc) (bs : List UInt8) (hr : r = .data bs) (ht : s.readPrep = some t)
      (hp : Prepared P t) (hv : t.readStore bs = Option.none) : Turn P s r (.fault t)
  | part (t v : Rpc) (bs : List UInt8) (hr : r = .data bs) (ht : s.readPrep = some t)
      (hp : Prepared P t) (hv : t.readStore bs = some v) (hlt : v.inpos ≠ v.pduSize) :
      Turn P s r (.more v)
  | full (t v : Rpc) (bs : List UInt8) (hr : r = .data bs) (ht : s.readPrep = some t)
      (hp : Prepared P t) (hbs : 0 < bs.length) (hle : t.inpos+bs.length ≤ t.pduSize)
      (hv : t.readStore bs = some v) (heq : v.inpos = v.pduSize) : Turn P s r v.readDone

theorem readWant_some {P : Pdu → Prop} {t : Rpc} (h : Prepared P t) : ∃ n, t.readWant = some n := by
  unfold readWant
  cases h with
  | marker hs => exact ⟨_,by rw [hs]⟩
  | payload p hs => exact ⟨_,by rw [hs]⟩
  | unknown hs => exact ⟨_,by rw [hs]⟩
  | iovec p c hs hp ok hc hr hi =>
    have hsz := (ok.cursor c hc).1
    have hne : c.iov ≠ [] := ne_nil_of_total_pos (by omega)
    have hle : t.pduSize-t.inpos ≤ c.remaining := by omega
    exact ⟨total c.iov,by simp only [hs,hp,Option.bind_some,hc,hne,hle,ne_eq,not_false_eq_true,
      and_self,if_true]⟩
  | padding p hs => exact ⟨_,by rw [hs]⟩
  | stuck hs =>
    rcases hs with hs | hs
    · exact ⟨_,by rw [hs]⟩
    · exact ⟨_,by rw [hs]⟩

theorem recvStep_turn {P : Pdu → Prop} {s : Rpc} (h : s.Ok P) (r : Recv) :
    Turn P s r (s.recvStep r) := by
  obtain ⟨t,ht,hp⟩ := h.prepared
  obtain ⟨want,hwant⟩ := readWant_some hp
  unfold recvStep
  split
  · rename_i hd
    exact .none hd
  · simp only [ht,hwant]
    split
    · exact .lost t ht hp
    · rename_i h0
      split
      · rename_i bs hr
        split
        · rename_i hbs
          have hw := readWant_pos hp hwant h0
          have hle : t.inpos+bs.length ≤ t.pduSize := (Nat.add_le_add_left hbs.2 _).trans hw.2
          have hr' : r = .data bs := by
            split at hr
            · exact hr
            · simp at hr
          unfold readBytes
          split
          · rename_i hv
            exact .abort t bs hr' ht hp hv
          · rename_i v hv
            split
            · rename_i heq
              exact .full t v bs hr' ht hp hbs.1 hle hv heq
            · rename_i hne
              exact .part t v bs hr' ht hp hv hne
        · exact .idle t ht hp
      · exact .idle t ht hp
      · exact .lost t ht hp
      · exact .lost t ht hp

theorem readPrep_marker {s t : Rpc} (hs : s.state = .readRm) (ht : s.readPrep = some t) :
    t.inpos = s.inpos ∧ t.rmXid = s.rmXid ∧ t.log = s.log ∧ t.waitpdu = s.waitpdu := by
  unfold readPrep at ht
  split at ht
  · simp only [hs,Option.some.injEq] at ht
    subst ht
    exact ⟨rfl,rfl,rfl,rfl⟩
  · exact Option.some.inj ht ▸ ⟨rfl,rfl,rfl,rfl⟩

theorem readStore_marker {t v : Rpc} {bs : List UInt8} (hs : t.state = .readRm)
    (hv : t.readStore bs = some v) :
    v.rmXid = overwrite t.rmXid t.inpos bs ∧ v.inpos = t.inpos+bs.length ∧ v.log = t.log ∧
      v.waitpdu = t.waitpdu ∧ v.pduSize = t.pduSize := by
  simp only [readStore,hs,Option.some.injEq] at hv
  subst hv
  exact ⟨rfl,rfl,rfl,rfl,rfl⟩

theorem readDone_marker {v : Rpc} (hs : v.state = .readRm) : v.readDone = v.rmDone := by
  simp only [readDone,hs]

theorem readDone_payload {v : Rpc} (hs : v.state = .readPayload) : v.readDone = v.payloadDone := by
  simp only [readDone,hs]

theorem readDone_unknown {v : Rpc} (hs : v.state = .readUnknown) :
    v.readDone = .more { v with state := .readRm, inpos := 0 } := by
  simp only [readDone,hs]

theorem readDone_iovec {v : Rpc} (hs : v.state = .readIovec) : v.readDone = v.iovecDone := by
  simp only [readDone,hs]

theorem readDone_padding {v : Rpc} (hs : v.state = .readPadding) :
    v.readDone = .more v.rpcFinishedPdu := by
  simp only [readDone,hs]

/-- A turn that looks no xid up leaves the queues alone. -/
theorem recvStep_shared {P : Pdu → Prop} {s : Rpc} (h : s.Ok P) (r : Recv) :
    (s.recvStep r).rpc.shared = s.shared ∨
      ∃ x, s.looksUp r = some x ∧ LookedUp s x (s.recvStep r).rpc := by
  have hturn := recvStep_turn h r
  generalize s.recvStep r = c at hturn ⊢
  cases hturn with
  | none => exact .inl rfl
  | idle t ht => exact .inl (readPrep_shared ht).1
  | lost t ht => exact .inl (readPrep_shared ht).1
  | abort t bs hr ht => exact .inl (readPrep_shared ht).1
  | part t v bs hr ht hp hv =>
    exact .inl ((readStore_shared hv).1.trans (readPrep_shared ht).1)
  | full t v bs hr ht hp hbs hle hv heq =>
    obtain ⟨hvs,hvst⟩ := readStore_shared hv
    obtain ⟨hts,htst⟩ := readPrep_shared ht
    by_cases hs : s.state = .readRm
    · obtain ⟨hi,hrm,hl,hw⟩ := readPrep_marker hs ht
      have hsz : t.pduSize = 8 := by
        cases hp with
        | marker _ _ hsz => exact hsz
        | stuck hst => simp [htst,hs] at hst
        | _ => simp_all
      obtain ⟨hvrm,hvi,hvl,hvw,hvsz⟩ := readStore_marker (htst.trans hs) hv
      have hlook := rmDone_lookedUp (s := s) (v := v) (by rw [hvw,hw]; exact h.hashes)
        (hvs.trans hts) (hvl.trans hl)
      rw [hrm,hi] at hvrm
      rw [readDone_marker (hvst.trans (htst.trans hs))]
      split at hlook
      · rename_i hval
        refine .inr ⟨_,?_,hlook⟩
        subst hr
        rw [hvrm] at hval ⊢
        rw [looksUp,if_pos ⟨hs,by omega,hval⟩]
      · obtain ⟨u,hu,hus,-⟩ := hlook
        left
        rw [hu]
        exact hus
    · left
      have hv' : v.state ≠ .readRm := by
        rw [hvst,htst]
        exact hs
      exact (readDone_shared hv').trans (hvs.trans hts)

/-- What no turn of the read loop changes. -/
def booked (s : Rpc) :=
  (s.autoReconnect,s.cancelled,s.closedAt,s.fd,s.socketDisabled,s.destroyed,s.crashed)

theorem booked_of_shared {s t : Rpc} (h : t.shared = s.shared) : t.booked = s.booked :=
  show t.shared.booked = s.shared.booked by rw [h]

theorem recvStep_booked {P : Pdu → Prop} {s : Rpc} (h : s.Ok P) (r : Recv) :
    (s.recvStep r).rpc.booked = s.booked := by
  have hfind : ∀ {v t : Rpc} {x : ℕ} {p : Pdu}, v.shared = s.shared →
      v.rpcFindPdu x = (some p,t) → t.booked = s.booked := by
    intro v t x p hv hf
    have hvw : 0 < v.waitpdu.length := by
      rw [show v.waitpdu = s.waitpdu from show v.shared.waitpdu = s.shared.waitpdu by rw [hv]]
      exact h.hashes
    obtain ⟨-,q,w,n,ht,-⟩ := rpcFindPdu_some hvw hf
    rw [ht]
    exact show v.booked = s.booked from booked_of_shared hv
  generalize hu : (s.recvStep r).rpc = u
  rcases hu ▸ recvStep_shared h r with hsh | ⟨x,-,hl⟩
  · exact booked_of_shared hsh
  · cases hl with
    | found v t p hv hf hut => exact (booked_of_shared hut).trans (hfind hv hf)
    | back v t p hv hf hut =>
      have hb : u.booked = (t.rpcReturnToOutqueue p).booked := booked_of_shared hut
      have ht : (t.rpcReturnToOutqueue p).booked = t.booked := rfl
      exact (hb.trans ht).trans (hfind hv hf)
    | unknown hut => exact booked_of_shared hut

theorem finished_log {l : List LogEntry} {s : Rpc} (h : l <+: s.log) :
    l <+: s.rpcFinishedPdu.log := by
  unfold rpcFinishedPdu
  cases s.pdu with
  | none => exact h
  | some p =>
    dsimp only
    split
    · exact h.trans (List.prefix_append _ _)
    · exact h

theorem placeData_log (s : Rpc) (p : Pdu) (c : Cursor) (n pos : ℕ) :
    s.log <+: (s.placeData p c n pos).rpc.log := by
  unfold placeData
  dsimp only
  split
  · exact List.prefix_rfl
  · split
    · exact List.prefix_rfl
    · split
      · rw [Ctl.rpc]
        exact finished_log List.prefix_rfl
      · exact List.prefix_rfl

theorem zeroCopyPayload_log (s : Rpc) (p : Pdu) (c : Cursor) (pos : ℤ) :
    s.log <+: (s.zeroCopyPayload p c pos).rpc.log := by
  unfold zeroCopyPayload
  split
  · exact List.prefix_rfl
  · split
    · exact finished_log List.prefix_rfl
    · split
      · exact List.prefix_rfl
      · exact List.prefix_rfl
      · exact placeData_log s p c _ _

theorem payloadDone_log (s : Rpc) : s.log <+: s.payloadDone.rpc.log := by
  cases hp : s.pdu with
  | none => simp [payloadDone,hp,Ctl.rpc]
  | some p =>
    cases hr : (s.logRecord (s.inbuf.take s.pduSize)).rpcProcessReply p (s.inbuf.take s.pduSize) with
    | none => simp [payloadDone_none hp hr,Ctl.rpc]
    | some r =>
      obtain ⟨t,q,pos⟩ := r
      have ht : s.log <+: t.log := by
        rcases rpcProcessReply_some hr with ⟨-,b,d,-,last,st,da,rfl⟩ | ⟨-,-,b,d,-,rfl⟩
        · exact (List.prefix_append _ _).trans (List.prefix_append _ _)
        · exact List.prefix_append _ _
      cases hc : q.cursor with
      | none =>
        rw [payloadDone_plain hp hr hc]
        exact finished_log (s := t.holding q) ht
      | some c =>
        rw [payloadDone_zeroCopy hp hr hc]
        exact ht.trans (zeroCopyPayload_log (t.holding _) _ c pos)

/-- Where the marker is complete, the log is as it was. -/
theorem rmDone_log {s v : Rpc} (hw : 0 < v.waitpdu.length) (hv : v.shared = s.shared)
    (hl : v.log = s.log) : v.rmDone.rpc.log = s.log := by
  have hlook := rmDone_lookedUp hw hv hl
  split at hlook
  · cases hlook with
    | found _ _ _ _ _ _ _ _ h => exact h
    | back _ _ _ _ _ _ _ h => exact h
    | unknown _ _ h => exact h
  · obtain ⟨t,ht,-,-,h⟩ := hlook
    rw [ht]
    exact h

theorem readDone_log {v : Rpc} (hw : 0 < v.waitpdu.length) : v.log <+: v.readDone.rpc.log := by
  cases hs : v.state with
  | readRm =>
    rw [readDone_marker hs,rmDone_log hw rfl rfl]
  | readPayload =>
    rw [readDone_payload hs]
    exact payloadDone_log v
  | readFragment => simp [readDone,hs,Ctl.rpc]
  | readIovec =>
    rw [readDone_iovec hs]
    unfold iovecDone
    split
    · exact List.prefix_rfl
    · dsimp only
      split
      · rw [Ctl.rpc]
        exact finished_log List.prefix_rfl
      · exact List.prefix_rfl
  | readPadding =>
    rw [readDone_padding hs]
    exact finished_log List.prefix_rfl
  | readUnknown =>
    rw [readDone_unknown hs]
    exact List.prefix_rfl

theorem readPrep_log {s t : Rpc} (h : s.readPrep = some t) : t.log = s.log := by
  obtain ⟨i,n,q,rfl,-⟩ := readPrep_frame h
  rfl

theorem readStore_log {s u : Rpc} {a : List UInt8} (h : s.readStore a = some u) : u.log = s.log := by
  unfold readStore at h
  split at h
  · exact Option.some.inj h ▸ rfl
  · exact Option.some.inj h ▸ rfl
  · exact Option.some.inj h ▸ rfl
  · exact Option.some.inj h ▸ rfl
  · exact Option.some.inj h ▸ rfl
  · split at h
    · simp at h
    · split at h
      · simp at h
      · obtain ⟨d,-,rfl⟩ := Option.map_eq_some_iff.mp h
        rfl

/-- The log only grows. -/
theorem recvStep_log {P : Pdu → Prop} {s : Rpc} (h : s.Ok P) (r : Recv) :
    s.log <+: (s.recvStep r).rpc.log := by
  have hturn := recvStep_turn h r
  generalize s.recvStep r = c at hturn ⊢
  cases hturn with
  | none => exact List.prefix_rfl
  | idle t ht => exact (readPrep_log ht) ▸ List.prefix_rfl
  | lost t ht => exact (readPrep_log ht) ▸ List.prefix_rfl
  | abort t bs hr ht => exact (readPrep_log ht) ▸ List.prefix_rfl
  | part t v bs hr ht hp hv =>
    rw [Ctl.rpc,readStore_log hv,readPrep_log ht]
  | full t v bs hr ht hp hbs hle hv heq =>
    rw [← readPrep_log ht,← readStore_log hv]
    refine readDone_log ?_
    have hsh := (readStore_shared hv).1.trans (readPrep_shared ht).1
    rw [show v.waitpdu = s.waitpdu from show v.shared.waitpdu = s.shared.waitpdu by rw [hsh]]
    exact h.hashes

/-- The timeout scan works on the queues alone. -/
theorem rpcTimeoutScan_frame (s : Rpc) :
    s.rpcTimeoutScan.1.readerPart = s.readerPart ∧ s.rpcTimeoutScan.1.booked = s.booked := by
  have hscan : ∀ (l : List Pdu) (u : Rpc),
      (l.foldl (fun r p => r.waitTimedOut s.clock p) u).readerPart = u.readerPart ∧
        (l.foldl (fun r p => r.waitTimedOut s.clock p) u).booked = u.booked := by
    intro l
    induction l with
    | nil => exact fun u => ⟨rfl,rfl⟩
    | cons p l ih =>
      intro u
      obtain ⟨h1,h2⟩ := ih (u.waitTimedOut s.clock p)
      refine ⟨h1.trans (waitTimedOut_readerPart u _ p),h2.trans ?_⟩
      rcases waitTimedOut_eq u s.clock p with ⟨a,b,he⟩ | he <;> rw [he] <;> rfl
  unfold rpcTimeoutScan
  split
  · exact ⟨rfl,rfl⟩
  · exact hscan _ _

/-- A context that takes part in events. -/
def Live (s : Rpc) : Prop := s.destroyed = false ∧ s.crashed = false

theorem step_live {s : Rpc} (h : s.Live) (e : Event) : s.step e = s.act e := by
  rw [step,if_neg (by simp [h.1,h.2])]

theorem Live.booked {s t : Rpc} (h : s.Live) (hb : t.booked = s.booked) : t.Live := by
  simp only [Rpc.booked,Prod.mk.injEq] at hb
  exact ⟨hb.2.2.2.2.2.1.trans h.1,hb.2.2.2.2.2.2.trans h.2⟩

theorem rpcReadFromSocket_run {P : Pdu → Prop} {s : Rpc} (h : s.Ok P) (hl : s.Live) (last : Recv)
    (conn : Connect) (reads : List (List UInt8)) :
    ∃ es, afterRead conn (s.rpcReadFromSocket last reads) = Transition.run step s es ∧
      ∀ t, s.rpcReadFromSocket last reads = .more t → t.Live := by
  induction reads generalizing s with
  | nil =>
    refine ⟨[.recv last conn],?_,fun t ht => ?_⟩
    · rw [Transition.run,step_live hl]
      rfl
    · have hb := recvStep_booked h last
      rw [show s.recvStep last = .more t from ht] at hb
      exact hl.booked hb
  | cons bs reads ih =>
    have hstep : Transition.run step s [.recv (.data bs) conn] = afterRead conn (s.recvStep (.data bs)) := by
      rw [Transition.run,step_live hl]
      rfl
    have hb := recvStep_booked h (.data bs)
    have hok := recvStep_ok h (.data bs)
    simp only [rpcReadFromSocket]
    cases hr : s.recvStep (.data bs) with
    | more t =>
      rw [hr] at hstep hb hok
      obtain ⟨es,he,hlive⟩ := ih hok (hl.booked hb)
      refine ⟨.recv (.data bs) conn::es,?_,hlive⟩
      rw [he,Transition.run_cons,← Transition.run_nil step (s.step _),← Transition.run_cons,hstep]
      rfl
    | fail t => exact ⟨_,by rw [hstep,hr],by simp⟩
    | fault t => exact ⟨_,by rw [hstep,hr],by simp⟩

/-- `rpc_service` is a run of events. -/
theorem rpcService_run {P : Pdu → Prop} {s : Rpc} (h : s.Ok P) (hl : s.Live) (io : Poll) :
    ∃ es, s.rpcService io = Transition.run step s es := by
  have hscan : s.step (.timeoutScan io.conn) = orRequeue io.conn s.rpcTimeoutScan := step_live hl _
  have hok := rpcTimeoutScan_ok h
  have hlt := hl.booked (rpcTimeoutScan_frame s).2
  unfold rpcService
  dsimp only
  generalize s.rpcTimeoutScan = scan at hscan hok hlt ⊢
  cases hs : scan.2 with
  | false =>
    refine ⟨[.timeoutScan io.conn],?_⟩
    rw [if_pos rfl,Transition.run_cons,hscan,orRequeue,if_neg (by simp [hs])]
    rfl
  | true =>
    rw [orRequeue,if_pos hs] at hscan
    have hrun : ∀ es, Transition.run step s (.timeoutScan io.conn::es) =
        Transition.run step scan.1 es := by
      intro es
      rw [Transition.run_cons,hscan]
    rw [if_neg (by simp)]
    by_cases herr : io.err = true
    · refine ⟨[.timeoutScan io.conn,.pollError io.conn],?_⟩
      rw [if_pos herr,hrun,Transition.run_cons,step_live hlt]
      rfl
    · rw [if_neg herr]
      by_cases hconn : scan.1.isConnected = false ∧ scan.1.fd = true ∧ io.pollout = true
      · refine ⟨[.timeoutScan io.conn,.pollConnect io.soError io.conn],?_⟩
        rw [if_pos hconn,hrun,Transition.run_cons,step_live hlt,act,if_pos ⟨hconn.1,hconn.2.1⟩]
        rfl
      · rw [if_neg hconn]
        have hread : ∃ es, afterRead io.conn (if io.pollin then
            scan.1.rpcReadFromSocket io.last io.reads else .more scan.1) =
              Transition.run step scan.1 es ∧
            ∀ t, (if io.pollin then scan.1.rpcReadFromSocket io.last io.reads
              else .more scan.1) = .more t → t.Live := by
          by_cases hin : io.pollin = true
          · rw [if_pos hin]
            exact rpcReadFromSocket_run hok hlt io.last io.conn io.reads
          · rw [if_neg hin]
            exact ⟨[],rfl,fun t ht => Ctl.more.inj ht ▸ hlt⟩
        obtain ⟨es,he,hlive⟩ := hread
        generalize (if io.pollin then scan.1.rpcReadFromSocket io.last io.reads
          else .more scan.1) = c at he hlive ⊢
        cases c with
        | more t =>
          dsimp only
          by_cases hout : io.pollout = true
          · refine ⟨.timeoutScan io.conn::(es ++ [.write io.writes io.conn]),?_⟩
            rw [if_pos hout,hrun,Transition.run_append,← he,Transition.run_cons,afterRead,
              step_live (hlive t rfl)]
            rfl
          · refine ⟨.timeoutScan io.conn::es,?_⟩
            rw [if_neg hout,hrun,← he]
            rfl
        | fail t => exact ⟨.timeoutScan io.conn::es,by rw [hrun,← he]⟩
        | fault t => exact ⟨.timeoutScan io.conn::es,by rw [hrun,← he]⟩

end Rpc
end Libnfs
