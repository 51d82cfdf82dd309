import Libnfs.Invariant

/-! One specification for each part of the reader: what a processed reply does to the context
and to its PDU, and what the first bytes of READ data do. -/
namespace Libnfs

open ByteWords Scatter Zdr

/-- The vectors a READ of `n` bytes goes to. -/
def placed (vs : List Vec) (n : ℕ) : List Vec := if n < total vs then trim vs n else vs

theorem total_placed (vs : List Vec) (n : ℕ) (h : n ≤ total vs) : total (placed vs n) = n := by
  unfold placed
  split
  · exact total_trim vs n h
  · omega

theorem length_placed_le (vs : List Vec) (n : ℕ) : (placed vs n).length ≤ vs.length := by
  unfold placed
  split
  · exact Cursor.length_trim_le vs n
  · exact le_refl _

theorem scatter_placed (mem : ℕ → UInt8) (vs : List Vec) (n : ℕ) (bs : List UInt8)
    (h : bs.length ≤ n) : scatter mem (placed vs n) bs = scatter mem vs bs := by
  unfold placed
  split
  · exact scatter_trim mem vs n bs h
  · rfl

theorem ne_nil_of_total_pos {vs : List Vec} (h : 0 < total vs) : vs ≠ [] := by
  rintro rfl
  simp at h

theorem skip_ne_nil (vs : List Vec) (n : ℕ) (h : n < total vs) : skip vs n ≠ [] := by
  apply ne_nil_of_total_pos
  rw [total_skip]
  omega

/-- The assertion of the cursor functions fails when a READ fills its vectors and the last
of them are empty. -/
def Overrun (vs : List Vec) (n : ℕ) : Prop := skip (placed vs n) n ≠ []

instance (vs : List Vec) (n : ℕ) : Decidable (Overrun vs n) :=
  inferInstanceAs (Decidable (skip (placed vs n) n ≠ []))

theorem shrink_fresh (vs : List Vec) (n : ℕ) (h : n ≤ total vs) :
    (if n < (Cursor.fresh vs).remaining then (Cursor.fresh vs).rpcShrinkCursor n
      else some (Cursor.fresh vs)) = some ⟨placed vs n,n,vs⟩ := by
  by_cases hn : n < total vs
  · have hl := Cursor.length_trim_le vs n
    have he : (trim vs n).isEmpty = (n == 0) := by
      rcases Nat.eq_zero_or_pos n with rfl | hp
      · simp
      · have ht := total_trim vs n h
        rw [List.isEmpty_eq_false_iff.mpr (ne_nil_of_total_pos (by omega))]
        simp only [Bool.false_eq,beq_eq_false_iff_ne]
        omega
    rw [if_pos (show n < (Cursor.fresh vs).remaining from hn),Cursor.rpcShrinkCursor,
      if_neg (show ¬ (Cursor.fresh vs).remaining ≤ n from Nat.not_le.mpr hn),placed,if_pos hn]
    simp only [Cursor.fresh,Cursor.settle,he,hl,true_and,if_true]
  · have hn' : n = total vs := by omega
    rw [if_neg (show ¬ n < (Cursor.fresh vs).remaining from hn),placed,if_neg hn,hn']
    rfl

theorem memcpy_sized (mem : ℕ → UInt8) (vs ref : List Vec) (n : ℕ) (bs : List UInt8)
    (hn : total vs = n) (hl : vs.length ≤ ref.length) (hb : bs.length ≤ n) :
    (⟨vs,n,ref⟩ : Cursor).rpcMemcpyCursor mem bs =
      if bs.length < n ∨ skip vs n = [] then
        some (scatter mem vs bs,⟨skip vs bs.length,n-bs.length,ref⟩)
      else none := by
  have hsl := (Cursor.length_skip_le vs bs.length).trans hl
  rw [Cursor.rpcMemcpyCursor,Cursor.memcpyLoop_eq mem vs n bs (by omega)]
  simp only [Option.bind_some,Cursor.settle]
  rcases Nat.lt_or_ge bs.length n with hlt | hge
  · have he : (skip vs bs.length).isEmpty = (n-bs.length == 0) := by
      rw [List.isEmpty_eq_false_iff.mpr (skip_ne_nil vs _ (by omega))]
      simp only [Bool.false_eq,beq_eq_false_iff_ne]
      omega
    simp only [he,hsl,hlt,true_and,true_or,if_true,Option.map_some]
  · have hbn : bs.length = n := by omega
    rw [hbn] at hsl ⊢
    by_cases hs : skip vs n = []
    · simp [hs]
    · simp [hs]

namespace Rpc

/-- What is left to do of a READ whose data does not all lie in `inbuf`. -/
def toIovec (rpc : Rpc) (p : Pdu) (ref : List Vec) (readCount pos : ℕ) : Rpc :=
  ({ rpc with
    mem := scatter rpc.mem ref ((rpc.inbuf.drop pos).take (rpc.inpos-pos))
    pdu := some { p with
      cursor := some ⟨skip (placed ref readCount) (rpc.inpos-pos),readCount-(rpc.inpos-pos),ref⟩
      readCount := readCount-(rpc.inpos-pos) }
    state := .readIovec
    inpos := 0 } : Rpc).setRm0 ((rpc.rm0+2^32-(pos+(rpc.inpos-pos))) % 2^32)

/-- A READ whose data all lies in `inbuf`. -/
def allPlaced (rpc : Rpc) (p : Pdu) (ref : List Vec) (readCount pos : ℕ) : Rpc :=
  { rpc with
    mem := scatter rpc.mem ref ((rpc.inbuf.drop pos).take readCount)
    pdu := some { p with cursor := some ⟨[],0,ref⟩, readCount := readCount } }

theorem placeData_eq (rpc : Rpc) (p : Pdu) (ref : List Vec) (n pos : ℕ)
    (hroom : p.requestedReadCount ≤ total ref) (hpos : pos ≤ rpc.inpos)
    (hlen : rpc.inpos ≤ rpc.inbuf.length) :
    rpc.placeData p (Cursor.fresh ref) n pos =
      if min n p.requestedReadCount ≤ rpc.inpos-pos then
        if Overrun ref (min n p.requestedReadCount) then .fault rpc
        else .more (rpc.allPlaced p ref (min n p.requestedReadCount) pos).rpcFinishedPdu
      else .more (rpc.toIovec p ref (min n p.requestedReadCount) pos) := by
  generalize hrc : min n p.requestedReadCount = rc
  have hle : rc ≤ total ref := by omega
  have htot := total_placed ref rc hle
  have hpl := length_placed_le ref rc
  unfold placeData
  dsimp only
  rw [hrc,shrink_fresh ref rc hle]
  dsimp only
  have hdata : ((rpc.inbuf.drop pos).take (min (min (rpc.inpos-pos) rc) rc)).length =
      min (rpc.inpos-pos) rc := by
    rw [List.length_take,List.length_drop]
    omega
  rw [memcpy_sized rpc.mem _ ref rc _ htot hpl (by omega),hdata,
    scatter_placed _ _ _ _ (by omega)]
  by_cases hc : rc ≤ rpc.inpos-pos
  · have hmin : min (rpc.inpos-pos) rc = rc := by omega
    simp only [hmin,lt_irrefl,false_or,min_self,if_pos hc,Overrun]
    by_cases hs : skip (placed ref rc) rc = []
    · simp [hs,allPlaced]
    · simp [hs]
  · have hmin : min (rpc.inpos-pos) rc = rpc.inpos-pos := by omega
    have hmin' : min (rpc.inpos-pos) rc < rc := by omega
    have hne : ¬ rc-(rpc.inpos-pos) = 0 := by omega
    rw [if_neg hc,if_pos (Or.inl hmin')]
    simp only [hmin,hne,if_false]
    rfl

/-- The reply in `buf` is not an accepted call that succeeded: the server denied the call, did
not execute it, or sent something that does not decode. -/
def rejects (p : Pdu) (buf : List UInt8) : Bool :=
  match zdrReplymsg p.zdrDecodeFn p.zdrDecodeBufsize buf ⟨0,p.decodeMem⟩ with
  | (.ok msg,_) => decide (msg.stat ≠ msgAccepted ∨ msg.astat ≠ acceptSuccess)
  | (.fail,_) => true
  | (.fault,_) => false

/-- Of the PDU a processed reply changes the storage and `free_pdu`, of the context the log. The
callback is called, unless the reply is the start of a READ that succeeded. -/
theorem rpcProcessReply_some {rpc t : Rpc} {p q : Pdu} {buf : List UInt8} {pos : ℤ}
    (h : rpc.rpcProcessReply p buf = some (t,q,pos)) :
    ((p.cursor = none ∨ rejects p buf = true) ∧
      ∃ b d, q = { p with zdrDecodeBuf := b, decodeMem := d } ∧
      ∃ last status data, t = { rpc with
        lastSuccessfulRpcResponse := last
        log := rpc.log ++ [.callback p.id status data] }) ∨
    (p.cursor.isSome ∧ rejects p buf = false ∧
      ∃ b d, q = { p with zdrDecodeBuf := b, decodeMem := d, freePdu := true } ∧
      t = { rpc with lastSuccessfulRpcResponse := rpc.clock }) := by
  unfold rpcProcessReply at h
  have hbuf : ∃ b, (if 0 < p.zdrDecodeBufsize then { p with zdrDecodeBuf := true } else p) =
      { p with zdrDecodeBuf := b } := by
    split
    · exact ⟨_,rfl⟩
    · exact ⟨p.zdrDecodeBuf,rfl⟩
  obtain ⟨b,hb⟩ := hbuf
  rw [hb] at h
  dsimp only at h
  unfold rejects
  split at h
  · simp at h
  · rename_i z hz
    simp only [Option.some.injEq,Prod.mk.injEq] at h
    obtain ⟨rfl,rfl,-⟩ := h
    exact .inl ⟨.inr (by rw [hz]),_,_,rfl,_,_,_,rfl⟩
  · rename_i msg z hz
    rw [hz]
    split at h
    · rename_i hst
      simp only [Option.some.injEq,Prod.mk.injEq] at h
      obtain ⟨rfl,rfl,-⟩ := h
      exact .inl ⟨.inr (by simp [hst]),_,_,rfl,_,_,_,rfl⟩
    · rename_i hst
      split at h
      · rename_i hast
        split at h
        · rename_i hc
          simp only [Option.some.injEq,Prod.mk.injEq] at h
          obtain ⟨rfl,rfl,-⟩ := h
          exact .inr ⟨hc,by simpa [hast] using hst,_,_,rfl,rfl⟩
        · rename_i hc
          simp only [Option.some.injEq,Prod.mk.injEq] at h
          obtain ⟨rfl,rfl,-⟩ := h
          exact .inl ⟨.inl (by simpa using hc),_,_,rfl,_,_,_,rfl⟩
      · rename_i hast
        simp only [Option.some.injEq,Prod.mk.injEq] at h
        obtain ⟨rfl,rfl,-⟩ := h
        exact .inl ⟨.inr (by simp [hast]),_,_,rfl,_,_,_,rfl⟩

theorem payloadDone_none {s : Rpc} {p : Pdu} (hp : s.pdu = some p)
    (hr : (s.logRecord (s.inbuf.take s.pduSize)).rpcProcessReply p (s.inbuf.take s.pduSize) = none) :
    s.payloadDone = .fault s := by
  simp only [payloadDone,hp,hr]

theorem payloadDone_plain {s t : Rpc} {p q : Pdu} {pos : ℤ} (hp : s.pdu = some p)
    (hr : (s.logRecord (s.inbuf.take s.pduSize)).rpcProcessReply p (s.inbuf.take s.pduSize) =
      some (t,q,pos)) (hc : q.cursor = none) :
    s.payloadDone = .more (t.holding q).rpcFinishedPdu := by
  simp only [payloadDone,hp,hr,hc]

theorem payloadDone_zeroCopy {s t : Rpc} {p q : Pdu} {pos : ℤ} {c : Cursor} (hp : s.pdu = some p)
    (hr : (s.logRecord (s.inbuf.take s.pduSize)).rpcProcessReply p (s.inbuf.take s.pduSize) =
      some (t,q,pos)) (hc : q.cursor = some c) :
    s.payloadDone =
      (t.holding (q.keepZdr (s.inbuf.take s.pduSize).length)).zeroCopyPayload
        (q.keepZdr (s.inbuf.take s.pduSize).length) c pos := by
  simp only [payloadDone,hp,hr,hc]

end Rpc
end Libnfs
