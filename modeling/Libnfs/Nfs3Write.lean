import Libnfs.Lookup3Resolves
import Libnfs.Transition

/-! Writes to an open file over NFSv3: `nfs3_pwrite_async_internal` with its WRITEs and `nfs3_pwrite_mcb`, and
`nfs3_write_async`. The first requests are sent and allocations do not fail. -/
namespace Libnfs
namespace Nfs3Write

open Transition
open Lookup3 (nfsstat3ToErrno)

/-- `writemax` of a context: `nfs_set_writemax` keeps it in this range. -/
structure Nfs where
  writemax : ℕ
  max : writemax ≤ 4194304

theorem clamped_le (n : ℕ) : Max.max (Min.min n 4194304) 8192/4096*4096 ≤ 4194304 := by omega

/-- `nfs_set_writemax` -/
def nfsSetWritemax (writemax : ℕ) : Nfs where
  writemax := Max.max (Min.min writemax 4194304) 8192/4096*4096
  max := clamped_le writemax

/-- `struct nfs_mcb_data` -/
structure Mcb where
  offset : BitVec 64
  count : ℕ
  deriving DecidableEq, Repr

/-- `WRITE3args` -/
structure Write3args where
  offset : BitVec 64
  data : List UInt8
  deriving DecidableEq, Repr

/-- `struct nfs_cb_data` with the WRITEs in flight, `nfsfh->offset`, the bytes that the server has accepted, each with its offset,
and what the callback was told -/
structure St where
  usrbuf : List UInt8
  offset : BitVec 64
  maxOffset : BitVec 64
  updatePos : Bool
  error : ℤ
  cancel : Bool
  oom : Bool
  getattr : Bool
  inflight : List (Mcb × Write3args)
  position : BitVec 64
  file : List (BitVec 64 × UInt8)
  calls : List ℤ
  deriving DecidableEq, Repr

/-- The status of a WRITE and the `count` of its result, or what became of the RPC -/
inductive Reply
  | success (status : ℤ) (count : ℕ)
  | error
  | cancel
  | timeout
  deriving DecidableEq, Repr

/-- `nfs3_fill_WRITE3args` -/
def nfs3FillWRITE3args (offset : BitVec 64) (count : ℕ) (buf : List UInt8) : Write3args := ⟨offset,buf.take count⟩

/-- The loop of `nfs3_pwrite_async_internal` -/
def writeLoop (nfs : Nfs) (buf : List UInt8) (base : BitVec 64) : ℕ → ℕ → BitVec 64 → List (Mcb × Write3args)
  | 0, _, _ => []
  | fuel+1, count, offset =>
    let writecount := if count > nfs.writemax then nfs.writemax else count
    (⟨offset,writecount⟩,nfs3FillWRITE3args offset writecount (buf.drop (offset-base).toNat)) ::
      if count-writecount > 0 then writeLoop nfs buf base fuel (count-writecount) (offset+BitVec.ofNat 64 writecount) else []

/-- `nfs3_pwrite_async_internal` for a buffer of `count` bytes -/
def nfs3PwriteAsyncInternal (nfs : Nfs) (position : BitVec 64) (buf : List UInt8) (offset : BitVec 64) (updatePos : Bool) : St :=
  let count := if buf.length > nfs.writemax then nfs.writemax else buf.length
  { usrbuf := buf, offset := offset, maxOffset := offset, updatePos := updatePos, error := 0, cancel := false, oom := false
    getattr := false, inflight := writeLoop nfs buf offset (count+1) count offset, position := position, file := [], calls := [] }

/-- `nfs3_write_async` -/
def nfs3WriteAsync (nfs : Nfs) (isAppend : Bool) (position : BitVec 64) (buf : List UInt8) : St :=
  if isAppend then
    { usrbuf := buf, offset := 0, maxOffset := 0, updatePos := false, error := 0, cancel := false, oom := false
      getattr := true, inflight := [], position := position, file := [], calls := [] }
  else nfs3PwriteAsyncInternal nfs position buf position true

/-- The end of `nfs3_pwrite_mcb`: once nothing is in flight the callback is told. -/
def finish (s : St) : St :=
  if s.inflight ≠ [] then s
  else if s.oom then { s with calls := s.calls ++ [-12] }
  else if s.error ≠ 0 then { s with calls := s.calls ++ [s.error] }
  else if s.cancel then { s with calls := s.calls ++ [-4] }
  else
    { s with
      position := if s.updatePos then s.maxOffset else s.position
      calls := s.calls ++ [((s.maxOffset-s.offset).setWidth 32).toInt] }

/-- `max_offset` with another end -/
def grown (maxOffset end_ : BitVec 64) : BitVec 64 := if maxOffset.ult end_ then end_ else maxOffset

/-- `nfs3_pwrite_mcb`. A short write is sent again from where it ended if it can be queued. -/
def nfs3PwriteMcb (s : St) (mdata : Mcb) (queued : Bool) : Reply → St
  | .error => finish { s with error := -14 }
  | .cancel | .timeout => finish { s with cancel := true }
  | .success status count =>
    if status ≠ 0 then finish { s with error := nfsstat3ToErrno status }
    else if count < mdata.count then
      if count = 0 then finish { s with error := -14 }
      else
        let mdata : Mcb := ⟨mdata.offset+BitVec.ofNat 64 count,mdata.count-count⟩
        let args := nfs3FillWRITE3args mdata.offset mdata.count (s.usrbuf.drop (mdata.offset-s.offset).toNat)
        if queued then { s with inflight := s.inflight ++ [(mdata,args)] }
        else finish { s with oom := true, maxOffset := grown s.maxOffset (mdata.offset+BitVec.ofNat 64 count) }
    else
      finish { s with
        maxOffset := if count > 0 then grown s.maxOffset (mdata.offset+BitVec.ofNat 64 count) else s.maxOffset }

/-- Bytes at an offset of a file -/
def placed (offset : BitVec 64) (data : List UInt8) : List (BitVec 64 × UInt8) :=
  data.mapIdx fun i b => (offset+BitVec.ofNat 64 i,b)

/-- What the server has done with the data of a WRITE -/
def accepted (args : Write3args) : Reply → List (BitVec 64 × UInt8)
  | .success status count => if status = 0 then placed args.offset (args.data.take count) else []
  | _ => []

/-- The answer to the GETATTR of an append, with a size, or to a WRITE in flight, and whether another one can be queued -/
inductive Event
  | getattr (reply : Except ℤ (BitVec 64))
  | write (i : ℕ) (reply : Reply) (queued : Bool)

/-- `nfs3_write_append_cb`, with the error that the callback is told -/
def nfs3WriteAppendCb (nfs : Nfs) (s : St) : Except ℤ (BitVec 64) → St
  | .error err => { s with getattr := false, calls := s.calls ++ [err] }
  | .ok size => nfs3PwriteAsyncInternal nfs s.position s.usrbuf size true

def step (nfs : Nfs) (s : St) : Event → St
  | .getattr reply => if s.getattr then nfs3WriteAppendCb nfs s reply else s
  | .write i reply queued =>
    match s.inflight[i]? with
    | none => s
    | some (mdata,args) =>
      nfs3PwriteMcb { s with inflight := s.inflight.eraseIdx i, file := s.file ++ accepted args reply } mdata queued reply

/-- A server that accepts a WRITE accepts at least one of its bytes, if it has any, and no others. -/
def Served (s : St) : Event → Prop
  | .getattr _ => True
  | .write i reply _ =>
    ∀ mdata args, s.inflight[i]? = some (mdata,args) → ∀ count, reply = .success 0 count →
      count ≤ mdata.count ∧ (0 < mdata.count → 0 < count)

/-- The error that the callback is to be told for an event -/
def Event.told : Event → Option ℤ
  | .getattr _ => none
  | .write _ .error _ => some (-14)
  | .write _ .cancel _ | .write _ .timeout _ => some (-4)
  | .write _ (.success status _) queued =>
    if status ≠ 0 then some (nfsstat3ToErrno status) else if queued then none else some (-12)

/-- How many bytes are to be written -/
def total (nfs : Nfs) (buf : List UInt8) : ℕ := min buf.length nfs.writemax

/-- The server has the first bytes of the range, each of them once; and the callback was not told yet, or the whole range is written
and it was told so, or it was told an error of the run. The position is at the end of the range, or where it was. -/
def Right (nfs : Nfs) (position : BitVec 64) (buf : List UInt8) (offset : BitVec 64) (updatePos : Bool) (es : List Event) (s : St) :
    Prop :=
  (∃ k ≤ total nfs buf, s.file = placed offset (buf.take k)) ∧
    (s.calls = [] ∧ s.inflight.length = 1 ∧ s.position = position ∨
      s.calls = [(total nfs buf : ℤ)] ∧ s.inflight = [] ∧ s.file = placed offset (buf.take (total nfs buf)) ∧
        (if updatePos then s.position.toNat = offset.toNat+total nfs buf else s.position = position) ∨
      ∃ err < 0, s.calls = [err] ∧ s.inflight = [] ∧ s.position = position ∧ ∃ e ∈ es, e.told = some err)

section Run

variable {nfs : Nfs} {position offset : BitVec 64} {buf : List UInt8} {updatePos : Bool} {s : St} {k : ℕ}

theorem placed_append (offset : BitVec 64) (a b : List UInt8) :
    placed offset (a ++ b) = placed offset a ++ placed (offset+BitVec.ofNat 64 a.length) b := by
  unfold placed
  rw [List.mapIdx_append]
  congr 1
  apply List.ext_getElem?
  intro i
  rw [List.getElem?_mapIdx,List.getElem?_mapIdx]
  congr 1
  funext b
  rw [BitVec.add_assoc,← BitVec.ofNat_add,Nat.add_comm]

theorem total_le (nfs : Nfs) (buf : List UInt8) : total nfs buf ≤ buf.length ∧ total nfs buf ≤ 4194304 := by
  have := nfs.max
  unfold total
  omega

/-- `k` bytes are written, and the others in flight. -/
structure Flight (nfs : Nfs) (position : BitVec 64) (buf : List UInt8) (offset : BitVec 64) (updatePos : Bool) (k : ℕ) (s : St) :
    Prop where
  le : k ≤ total nfs buf
  lt : k < total nfs buf ∨ total nfs buf = 0
  usrbuf : s.usrbuf = buf
  base : s.offset = offset
  maxOffset : s.maxOffset = offset
  update : s.updatePos = updatePos
  clear : s.error = 0 ∧ s.cancel = false ∧ s.oom = false ∧ s.getattr = false
  inflight : s.inflight = [(⟨offset+BitVec.ofNat 64 k,total nfs buf-k⟩,
    ⟨offset+BitVec.ofNat 64 k,(buf.drop k).take (total nfs buf-k)⟩)]
  position_eq : s.position = position
  file : s.file = placed offset (buf.take k)
  calls : s.calls = []

theorem sub_base (offset : BitVec 64) (hk : k ≤ 4194304) : (offset+BitVec.ofNat 64 k-offset).toNat = k := by
  have h : offset+BitVec.ofNat 64 k-offset = BitVec.ofNat 64 k := by
    rw [BitVec.add_comm,BitVec.add_sub_cancel]
  rw [h,BitVec.toNat_ofNat,Nat.mod_eq_of_lt (by omega)]

/-- One WRITE has room for everything. -/
theorem sent_flight (nfs : Nfs) (position : BitVec 64) (buf : List UInt8) (offset : BitVec 64) (updatePos : Bool) :
    Flight nfs position buf offset updatePos 0 (nfs3PwriteAsyncInternal nfs position buf offset updatePos) := by
  have hcount : (if buf.length > nfs.writemax then nfs.writemax else buf.length) = total nfs buf := by
    unfold total
    split <;> omega
  have hle : ¬ total nfs buf > nfs.writemax := by
    unfold total
    omega
  constructor
  · omega
  · omega
  · rfl
  · rfl
  · rfl
  · rfl
  · exact ⟨rfl,rfl,rfl,rfl⟩
  · simp only [nfs3PwriteAsyncInternal,hcount,writeLoop,if_neg hle,Nat.sub_self,nfs3FillWRITE3args]
    simp
  · rfl
  · simp [nfs3PwriteAsyncInternal,placed]
  · rfl

/-- The callback was told an error. -/
structure Told (nfs : Nfs) (position : BitVec 64) (buf : List UInt8) (offset : BitVec 64) (err : ℤ) (s : St) : Prop where
  idle : s.inflight = [] ∧ s.getattr = false
  file : ∃ k ≤ total nfs buf, s.file = placed offset (buf.take k)
  position_eq : s.position = position
  calls : s.calls = [err]
  neg : err < 0

/-- Everything is written. -/
structure Done (nfs : Nfs) (position : BitVec 64) (buf : List UInt8) (offset : BitVec 64) (updatePos : Bool) (s : St) : Prop where
  idle : s.inflight = [] ∧ s.getattr = false
  file : s.file = placed offset (buf.take (total nfs buf))
  position_eq : s.position = if updatePos then offset+BitVec.ofNat 64 (total nfs buf) else position
  calls : s.calls = [(total nfs buf : ℤ)]

/-- The WRITE in flight was answered, and the handler has yet to tell. -/
structure Landed (nfs : Nfs) (position : BitVec 64) (buf : List UInt8) (offset : BitVec 64) (s : St) : Prop where
  idle : s.inflight = [] ∧ s.getattr = false
  file : ∃ k ≤ total nfs buf, s.file = placed offset (buf.take k)
  position_eq : s.position = position
  calls : s.calls = []
  clear : s.error = 0 ∧ s.cancel = false ∧ s.oom = false

theorem Landed.error {err : ℤ} (h : Landed nfs position buf offset s) (herr : err < 0) :
    Told nfs position buf offset err (finish { s with error := err }) := by
  obtain ⟨-,hcancel,hoom⟩ := h.clear
  have hfin : finish { s with error := err } = { s with error := err, calls := [err] } := by
    simp [finish,h.idle.1,hoom,h.calls,show err ≠ 0 by omega]
  rw [hfin]
  exact ⟨h.idle,h.file,h.position_eq,rfl,herr⟩

theorem Landed.cancel (h : Landed nfs position buf offset s) :
    Told nfs position buf offset (-4) (finish { s with cancel := true }) := by
  obtain ⟨herror,-,hoom⟩ := h.clear
  have hfin : finish { s with cancel := true } = { s with cancel := true, calls := [-4] } := by
    simp [finish,h.idle.1,hoom,h.calls,herror]
  rw [hfin]
  exact ⟨h.idle,h.file,h.position_eq,rfl,by norm_num⟩

theorem Landed.oom (h : Landed nfs position buf offset s) (maxOffset : BitVec 64) :
    Told nfs position buf offset (-12) (finish { s with oom := true, maxOffset := maxOffset }) := by
  have hfin : finish { s with oom := true, maxOffset := maxOffset } =
      { s with oom := true, maxOffset := maxOffset, calls := [-12] } := by
    simp [finish,h.idle.1,h.calls]
  rw [hfin]
  exact ⟨h.idle,h.file,h.position_eq,rfl,by norm_num⟩

/-- What a reply adds to the file -/
theorem file_grows {c : ℕ} (hc : c ≤ total nfs buf-k) (hk : k ≤ total nfs buf) :
    placed offset (buf.take k) ++
        placed (offset+BitVec.ofNat 64 k) (((buf.drop k).take (total nfs buf-k)).take c) =
      placed offset (buf.take (k+c)) := by
  have hlen : (buf.take k).length = k := by
    rw [List.length_take]
    have := (total_le nfs buf).1
    omega
  rw [List.take_take,Nat.min_eq_left hc,List.take_add,placed_append,hlen]

/-- The end of the range -/
theorem grown_end (hfits : offset.toNat+k < 2^64) (hk : k ≤ 4194304) :
    (if k > 0 then grown offset (offset+BitVec.ofNat 64 k) else offset) = offset+BitVec.ofNat 64 k := by
  by_cases h : k > 0
  · have hlt : offset.ult (offset+BitVec.ofNat 64 k) = true := by
      rw [BitVec.ult,decide_eq_true_eq,BitVec.toNat_add,BitVec.toNat_ofNat]
      omega
    rw [if_pos h,grown,if_pos hlt]
  · obtain rfl : k = 0 := by omega
    simp

theorem told_total (hk : k ≤ 4194304) : ((offset+BitVec.ofNat 64 k-offset).setWidth 32).toInt = (k : ℤ) := by
  have h : (offset+BitVec.ofNat 64 k-offset).setWidth 32 = BitVec.ofNat 32 k := by
    apply BitVec.eq_of_toNat_eq
    rw [BitVec.toNat_setWidth,sub_base offset hk,BitVec.toNat_ofNat]
  have hk' : (BitVec.ofNat 32 k).toNat = k := by
    rw [BitVec.toNat_ofNat,Nat.mod_eq_of_lt (by omega)]
  rw [h,BitVec.toInt_eq_toNat_of_lt (by omega),hk']

/-- One answer to a WRITE: a part is written and the rest in flight, or the write is over. -/
theorem step_flight (h : Flight nfs position buf offset updatePos k s) (hfits : offset.toNat+total nfs buf < 2^64) {e : Event}
    (hserved : Served s e) :
    (∃ k', Flight nfs position buf offset updatePos k' (step nfs s e)) ∨
      Done nfs position buf offset updatePos (step nfs s e) ∨
      ∃ err, e.told = some err ∧ Told nfs position buf offset err (step nfs s e) := by
  have hinflight := h.inflight
  have hmax := (total_le nfs buf).2
  obtain ⟨herror,hcancel,hoom,hget⟩ := h.clear
  cases e with
  | getattr reply => exact .inl ⟨k,by simpa [step,hget] using h⟩
  | write i reply queued =>
    rcases i with _ | i
    rotate_left
    · exact .inl ⟨k,by simpa [step,hinflight] using h⟩
    have hstep : step nfs s (.write 0 reply queued) = nfs3PwriteMcb
        { s with
          inflight := []
          file := s.file ++ accepted (⟨offset+BitVec.ofNat 64 k,(buf.drop k).take (total nfs buf-k)⟩ : Write3args) reply }
        ⟨offset+BitVec.ofNat 64 k,total nfs buf-k⟩ queued reply := by
      simp [step,hinflight]
    have hlanded : ∀ file, (∃ k ≤ total nfs buf, file = placed offset (buf.take k)) →
        Landed nfs position buf offset { s with inflight := [], file := file } := fun file hfile =>
      ⟨⟨rfl,hget⟩,hfile,h.position_eq,h.calls,herror,hcancel,hoom⟩
    have hsame := hlanded (s.file ++ []) ⟨k,h.le,by rw [List.append_nil,h.file]⟩
    rw [hstep]
    cases reply with
    | error => exact .inr (.inr ⟨-14,rfl,hsame.error (by norm_num)⟩)
    | cancel => exact .inr (.inr ⟨-4,rfl,hsame.cancel⟩)
    | timeout => exact .inr (.inr ⟨-4,rfl,hsame.cancel⟩)
    | success status count =>
      by_cases hstatus : status ≠ 0
      · have hacc : accepted (⟨offset+BitVec.ofNat 64 k,(buf.drop k).take (total nfs buf-k)⟩ : Write3args)
            (.success status count) = [] := if_neg hstatus
        refine .inr (.inr ⟨_,if_pos hstatus,?_⟩)
        rw [hacc,nfs3PwriteMcb,if_pos hstatus]
        exact hsame.error (Resolution.nfsstat3ToErrno_neg hstatus).1
      · obtain rfl : status = 0 := by simpa using hstatus
        obtain ⟨hcle,hcpos⟩ := hserved _ _ (by rw [hinflight]; rfl) count rfl
        dsimp only at hcle hcpos
        have hgrows : s.file ++ accepted (⟨offset+BitVec.ofNat 64 k,(buf.drop k).take (total nfs buf-k)⟩ : Write3args)
            (.success 0 count) = placed offset (buf.take (k+count)) := by
          rw [h.file]
          exact file_grows hcle h.le
        rw [hgrows]
        have hpart := hlanded _ ⟨k+count,by have := h.le; omega,rfl⟩
        rw [nfs3PwriteMcb,if_neg hstatus]
        by_cases hshort : count < total nfs buf-k
        · have hzero : count ≠ 0 := by omega
          have hbase : offset+BitVec.ofNat 64 k+BitVec.ofNat 64 count = offset+BitVec.ofNat 64 (k+count) := by
            rw [BitVec.add_assoc,← BitVec.ofNat_add]
          rw [if_pos hshort,if_neg hzero]
          dsimp only
          cases queued with
          | false => exact .inr (.inr ⟨-12,rfl,hpart.oom _⟩)
          | true =>
            rw [if_pos rfl]
            left
            refine ⟨k+count,?_⟩
            constructor
            · omega
            · omega
            · exact h.usrbuf
            · exact h.base
            · exact h.maxOffset
            · exact h.update
            · exact ⟨herror,hcancel,hoom,hget⟩
            · simp only [List.nil_append,nfs3FillWRITE3args,h.usrbuf,h.base,hbase,
                sub_base offset (show k+count ≤ 4194304 by omega),Nat.sub_sub]
            · exact h.position_eq
            · rfl
            · exact h.calls
        · rw [if_neg hshort]
          right
          left
          have hall : k+count = total nfs buf := by
            have := h.le
            omega
          have hmaxOffset : (if count > 0 then grown s.maxOffset (offset+BitVec.ofNat 64 k+BitVec.ofNat 64 count) else s.maxOffset) =
              offset+BitVec.ofNat 64 (total nfs buf) := by
            have hpos : count > 0 ↔ total nfs buf > 0 := by
              have := h.lt
              omega
            rw [h.maxOffset,BitVec.add_assoc,← BitVec.ofNat_add,hall]
            simp only [hpos]
            exact grown_end hfits hmax
          dsimp only
          rw [hmaxOffset,hall]
          have hfin : finish { s with
                inflight := []
                file := placed offset (buf.take (total nfs buf))
                maxOffset := offset+BitVec.ofNat 64 (total nfs buf) } =
              { s with
                inflight := []
                file := placed offset (buf.take (total nfs buf))
                maxOffset := offset+BitVec.ofNat 64 (total nfs buf)
                position := if updatePos then offset+BitVec.ofNat 64 (total nfs buf) else position
                calls := [(total nfs buf : ℤ)] } := by
            simp only [finish,hoom,herror,hcancel,h.calls,h.base,h.update,h.position_eq,told_total hmax,List.nil_append,ne_eq,
              not_true_eq_false,Bool.false_eq_true,if_false]
          rw [hfin]
          exact ⟨⟨rfl,hget⟩,rfl,rfl,rfl⟩

/-- Nothing happens any more. -/
theorem step_idle (h : s.inflight = [] ∧ s.getattr = false) (e : Event) : step nfs s e = s := by
  cases e with
  | getattr reply => simp [step,h.2]
  | write i reply queued => simp [step,h.1]

theorem run_idle (h : s.inflight = [] ∧ s.getattr = false) (es : List Event) : run (step nfs) s es = s := by
  induction es with
  | nil => rfl
  | cons e es ih => rw [run_cons,step_idle h,ih]

/-- After any answers of a server that accepts a part of each WRITE, or fails -/
theorem run_cases (hfits : offset.toNat+total nfs buf < 2^64) {es : List Event} (h : Flight nfs position buf offset updatePos k s)
    (hserved : Guarded (step nfs) Served s es) :
    (∃ k', Flight nfs position buf offset updatePos k' (run (step nfs) s es)) ∨
      Done nfs position buf offset updatePos (run (step nfs) s es) ∨
      ∃ err, (∃ e ∈ es, e.told = some err) ∧ Told nfs position buf offset err (run (step nfs) s es) := by
  induction es generalizing k s with
  | nil => exact .inl ⟨k,h⟩
  | cons e es ih =>
    rw [run_cons]
    rcases step_flight h hfits hserved.1 with ⟨k',hk'⟩ | hdone | ⟨err,herr,htold⟩
    · rcases ih hk' hserved.2 with hf | hd | ⟨err,⟨e',he',herr⟩,ht⟩
      · exact .inl hf
      · exact .inr (.inl hd)
      · exact .inr (.inr ⟨err,⟨e',List.mem_cons_of_mem e he',herr⟩,ht⟩)
    · rw [run_idle hdone.idle]
      exact .inr (.inl hdone)
    · rw [run_idle htold.idle]
      exact .inr (.inr ⟨err,⟨e,List.mem_cons_self,herr⟩,htold⟩)

theorem run_right (hfits : offset.toNat+total nfs buf < 2^64) {es : List Event} (h : Flight nfs position buf offset updatePos k s)
    (hserved : Guarded (step nfs) Served s es) :
    Right nfs position buf offset updatePos es (run (step nfs) s es) := by
  rcases run_cases hfits h hserved with ⟨k',hf⟩ | hd | ⟨err,hmem,ht⟩
  · exact ⟨⟨k',hf.le,hf.file⟩,.inl ⟨hf.calls,by rw [hf.inflight]; rfl,hf.position_eq⟩⟩
  · refine ⟨⟨total nfs buf,le_rfl,hd.file⟩,.inr (.inl ⟨hd.calls,hd.idle.1,hd.file,?_⟩)⟩
    rw [hd.position_eq]
    have hmax := (total_le nfs buf).2
    cases updatePos with
    | false => rfl
    | true =>
      simp only [if_true,BitVec.toNat_add,BitVec.toNat_ofNat]
      omega
  · exact ⟨ht.file,.inr (.inr ⟨err,ht.neg,ht.calls,ht.idle.1,ht.position_eq,hmem⟩)⟩

/-- At the end of all offsets `max_offset` does not grow: the callback is told that nothing was written. -/
theorem wrapped_calls (hwraps : ¬ offset.toNat+total nfs buf < 2^64) :
    (step nfs (nfs3PwriteAsyncInternal nfs position buf offset updatePos)
      (.write 0 (.success 0 (total nfs buf)) true)).calls = [0] := by
  have h := sent_flight nfs position buf offset updatePos
  generalize nfs3PwriteAsyncInternal nfs position buf offset updatePos = s at h
  have hmax := (total_le nfs buf).2
  have hlt := offset.isLt
  obtain ⟨herror,hcancel,hoom,-⟩ := h.clear
  have hnot : offset.ult (offset+BitVec.ofNat 64 (total nfs buf)) = false := by
    rw [BitVec.ult,decide_eq_false_iff_not,BitVec.toNat_add,BitVec.toNat_ofNat]
    omega
  simp [step,h.inflight,nfs3PwriteMcb,finish,hoom,herror,hcancel,h.calls,h.maxOffset,h.base,grown,hnot]

end Run

/-- A write at an offset is right, whatever parts of it the server accepts, exactly if its range ends at an offset. A write at the
position is one there, and an append one at the size that the GETATTR tells, or told its error. -/
theorem write_completes (nfs : Nfs) (position : BitVec 64) (buf : List UInt8) :
    (∀ offset updatePos,
      (∀ es, Guarded (step nfs) Served (nfs3PwriteAsyncInternal nfs position buf offset updatePos) es →
        Right nfs position buf offset updatePos es
          (run (step nfs) (nfs3PwriteAsyncInternal nfs position buf offset updatePos) es)) ↔
      offset.toNat+total nfs buf < 2^64) ∧
    nfs3WriteAsync nfs false position buf = nfs3PwriteAsyncInternal nfs position buf position true ∧
    (∀ size, step nfs (nfs3WriteAsync nfs true position buf) (.getattr (.ok size)) =
      nfs3PwriteAsyncInternal nfs position buf size true) ∧
    ∀ err es, let s := run (step nfs) (nfs3WriteAsync nfs true position buf) (.getattr (.error err) :: es)
      s.calls = [err] ∧ s.inflight = [] ∧ s.file = [] ∧ s.position = position := by
  refine ⟨fun offset updatePos => ⟨fun h => ?_,fun hfits es hserved => run_right hfits (sent_flight _ _ _ _ _) hserved⟩,
    rfl,fun size => rfl,fun err es => ?_⟩
  · by_contra hwraps
    have hlt := offset.isLt
    have hserved : Guarded (step nfs) Served (nfs3PwriteAsyncInternal nfs position buf offset updatePos)
        [.write 0 (.success 0 (total nfs buf)) true] := by
      refine ⟨fun mdata args hi count hcount => ?_,trivial⟩
      rw [(sent_flight nfs position buf offset updatePos).inflight] at hi
      obtain ⟨rfl,-⟩ := Prod.mk.inj (Option.some.inj hi)
      obtain rfl := (Reply.success.inj hcount).2
      simp only [Nat.sub_zero]
      omega
    have hcalls := @wrapped_calls nfs position offset buf updatePos hwraps
    rcases (h _ hserved).2 with ⟨hc,-⟩ | ⟨hc,-⟩ | ⟨err,herr,hc,-⟩
    all_goals
      rw [run_cons,run_nil,hcalls] at hc
    · simp at hc
    · simp only [List.cons.injEq,and_true] at hc
      omega
    · simp only [List.cons.injEq,and_true] at hc
      omega
  · rw [run_cons,run_idle ⟨rfl,rfl⟩]
    exact ⟨rfl,rfl,rfl,rfl⟩

/-- A byte at the last offset: it is written, and the callback is told `0`. -/
theorem write_completes_wraps :
    Guarded (step (nfsSetWritemax 4096)) Served (nfs3PwriteAsyncInternal (nfsSetWritemax 4096) 0 [7] (-1) false)
      [.write 0 (.success 0 1) true] ∧
    (run (step (nfsSetWritemax 4096)) (nfs3PwriteAsyncInternal (nfsSetWritemax 4096) 0 [7] (-1) false)
      [.write 0 (.success 0 1) true]).calls = [0] ∧
    ¬ Right (nfsSetWritemax 4096) 0 [7] (-1) false [.write 0 (.success 0 1) true]
      (run (step (nfsSetWritemax 4096)) (nfs3PwriteAsyncInternal (nfsSetWritemax 4096) 0 [7] (-1) false)
        [.write 0 (.success 0 1) true]) := by
  have hcalls : (run (step (nfsSetWritemax 4096)) (nfs3PwriteAsyncInternal (nfsSetWritemax 4096) 0 [7] (-1) false)
      [.write 0 (.success 0 1) true]).calls = [0] := by rfl
  have htotal : total (nfsSetWritemax 4096) [7] = 1 := by rfl
  refine ⟨⟨fun mdata args hi count hcount => ?_,trivial⟩,hcalls,?_⟩
  · have hflight := (sent_flight (nfsSetWritemax 4096) 0 [7] (-1) false).inflight
    rw [hflight] at hi
    obtain ⟨rfl,-⟩ := Prod.mk.inj (Option.some.inj hi)
    obtain rfl := (Reply.success.inj hcount).2
    simp [htotal]
  · rintro ⟨-,⟨hc,-⟩ | ⟨hc,-⟩ | ⟨err,herr,hc,-⟩⟩
    · rw [hcalls] at hc
      simp at hc
    · rw [hcalls,htotal] at hc
      simp at hc
    · rw [hcalls] at hc
      simp only [List.cons.injEq,and_true] at hc
      omega

end Nfs3Write
end Libnfs
