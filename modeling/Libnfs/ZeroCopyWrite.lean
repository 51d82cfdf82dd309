import Libnfs.RpcMsg
import Libnfs.Marshal

/-! The zero-copy WRITE: `rpc_nfs3_writev_task` of `nfs/nfs.c` and `rpc_nfs4_writev_task` of `nfs4/nfs4.c`, with
`rpc_allocate_pdu2`, `rpc_add_iovector` and `rpc_queue_pdu` as far as they fill the out vectors. Built without krb5 and TLS;
there is memory for the PDU. -/
namespace Libnfs
namespace ZeroCopyWrite

open ByteWords Zdr Zdrmem

/-- A `struct rpc_iovec`: the record marker, `len` bytes of the encode buffer, or `len` bytes of a buffer of the caller. -/
inductive Iovec
  | recordmarker
  | outdata (off : ℤ) (len : ℕ)
  | data (buf : List UInt8) (len : ℕ)

def Iovec.len : Iovec → ℕ
  | .recordmarker => 4
  | .outdata _ len => len
  | .data _ len => len

/-- An `int` that is stored as a `size_t` -/
def sizeT (n : ℤ) : ℕ := (toInt n % 2^64).toNat

/-- `out`, the record marker and `zdr` of a `struct rpc_pdu` -/
structure Pdu where
  iovCapacity : ℕ
  iov : List Iovec
  recordmarker : List UInt8
  zdr : Zdrs

/-- What of `struct rpc_context` goes into a call -/
structure Ctx where
  xid : UInt32
  cred : OpaqueAuth
  verf : OpaqueAuth
  isUdp : Bool

variable {α β : Type}

/-- An error is handed on. -/
def andThen (r : Res α) (f : α → Res β) : Res β :=
  match r with
  | .ok a => f a
  | .fail => .fail
  | .fault => .fault

/-- `rpc_add_iovector` -/
def rpcAddIovector (pdu : Pdu) (v : Iovec) : Res Pdu :=
  if pdu.iov.length ≥ pdu.iovCapacity then .fail else .ok { pdu with iov := pdu.iov ++ [v] }

def addAll (pdu : Pdu) : List Iovec → Res Pdu
  | [] => .ok pdu
  | v :: vs => andThen (rpcAddIovector pdu v) fun pdu => addAll pdu vs

/-- `RPC_FAST_VECTORS` and `RPC_MAX_VECTORS` -/
def rpcFastVectors : ℕ := 8
def rpcMaxVectors : ℕ := 1024

/-- `ZDR_ENCODEBUF_MINSIZE`, less the record marker -/
def encodebufSize : ℕ := 4092

/-- The vectors that `rpc_allocate_pdu2` makes room for -/
def capacity (iovcntHint : ℕ) : ℕ := if iovcntHint > rpcFastVectors then iovcntHint else rpcFastVectors

/-- The encode buffer of a new PDU -/
def encodebuf : Zdrs := zdrmemCreate (List.replicate encodebufSize 0) encodebufSize

/-- The header of a call -/
def header (ctx : Ctx) (prog vers proc : UInt32) : Zop Unit :=
  (zdrCallmsg zdrVoid).enc (.call ctx.xid ⟨2,prog,vers,proc,ctx.cred,ctx.verf⟩)

/-- `rpc_allocate_pdu2`. Its two vectors always have room. -/
def rpcAllocatePdu2 (header : Zop Unit) (iovcntHint : ℕ) : Res Pdu :=
  match header encodebuf with
  | (.ok (),z) => .ok ⟨capacity iovcntHint,[.recordmarker,.outdata 0 (sizeT z.pos)],[0,0,0,0],z⟩
  | (.fail,_) => .fail
  | (.fault,_) => .fault

/-- `size | 0x80000000` -/
def lastFragment (size : ℤ) : ℕ :=
  let u := (size % 2^32).toNat
  if u < 2^31 then u+2^31 else u

/-- `rpc_queue_pdu`, up to the record marker -/
def rpcQueuePdu (pdu : Pdu) : Res Pdu :=
  let pos := pdu.zdr.pos
  let size := toInt ((pdu.iov.drop 1).map Iovec.len).sum
  if pos > size then
    andThen (rpcAddIovector pdu (.outdata size (sizeT (pos-size)))) fun pdu =>
      .ok { pdu with recordmarker := beBytes (lastFragment pos) }
  else .ok { pdu with recordmarker := beBytes (lastFragment size) }

/-- The length of the data, as the `uint32_t` that is sent -/
def dataLen (iov : List (List UInt8)) : ℕ := (iov.map List.length).sum % 2^32

/-- The padding, if it is needed -/
def zeroPadding (len : ℕ) : List Iovec :=
  if len % 4 = 0 then [] else [.data [0,0,0,0] (4-len%4)]

/-- The vectors of the data, with the length in front and the padding behind -/
def dataVectors (start : ℤ) (iov : List (List UInt8)) : List Iovec :=
  .outdata start 4 :: (iov.map (fun buf => .data buf (sizeT buf.length)) ++ zeroPadding (dataLen iov))

/-- What the two tasks have in common; what `zdr_u_int` returns for the length is not looked at. -/
def writevTask (header args : Zop Unit) (iovcntHint : ℕ) (iov : List (List UInt8)) : Res Pdu :=
  andThen (rpcAllocatePdu2 header iovcntHint) fun pdu =>
    match args pdu.zdr with
    | (.fail,_) => .fail
    | (.fault,_) => .fault
    | (.ok (),z) =>
      andThen (rpcAddIovector pdu (.outdata pdu.zdr.pos (sizeT (z.pos-pdu.zdr.pos)))) fun pdu =>
        match zdrUIntEncode (dataLen iov) z with
        | (.fault,_) => .fault
        | (_,z') => andThen (addAll { pdu with zdr := z' } (dataVectors z.pos iov)) rpcQueuePdu

/-- `struct WRITE3args` -/
structure Write3Args where
  file : List UInt8
  offset : UInt64
  count : UInt32
  stable : UInt32
  data : List UInt8

/-- `zdr_WRITE3args_zerocopy` -/
def zdrWRITE3argsZerocopy (args : Write3Args) : Zop Unit := do
  zdrBytes.enc args.file
  zdrUInt64.enc args.offset
  zdrUInt.enc args.count
  zdrEnum.enc args.stable

/-- `zdr_WRITE3args`, its encoding half -/
def zdrWRITE3args (args : Write3Args) : Zop Unit := do
  zdrWRITE3argsZerocopy args
  zdrBytes.enc args.data

/-- `rpc_nfs3_writev_task`; no vectors are a NULL `iov`. -/
def rpcNfs3WritevTask (ctx : Ctx) (args : Write3Args) (iov : List (List UInt8)) : Res Pdu :=
  if iov ≠ [] ∧ args.data ≠ [] then .fail
  else if iov ≠ [] ∧ ctx.isUdp then .fail
  else writevTask (header ctx 100003 3 7) (zdrWRITE3argsZerocopy args) (iov.length+4)
    (if iov = [] then [args.data] else iov)

/-- `struct WRITE4args` without its data -/
structure Write4Args where
  seqid : UInt32
  other : List UInt8
  offset : UInt64
  stable : UInt32
  other_length : other.length = 12

/-- `OP_WRITE` with `zdr_WRITE4args` -/
def zdrOpWrite (w : Write4Args) : Zop Unit := do
  zdrEnum.enc 38
  zdrUInt.enc w.seqid
  zdrOpaqueEncode w.other
  zdrUInt64.enc w.offset
  zdrEnum.enc w.stable

/-- `struct COMPOUND4args` with a WRITE as its last operation; `β` are the operations before it. -/
structure Compound4Args (β : Type) where
  tag : List UInt8
  minorversion : UInt32
  ops : List β
  write : Write4Args

/-- `zdr_nfs_argop4`; `argop` encodes the other operations. -/
def zdrNfsArgop4 (argop : β → Zop Unit) : β ⊕ Write4Args → Zop Unit
  | .inl op => argop op
  | .inr w => zdrOpWrite w

/-- `zdr_COMPOUND4args`; `argopSize` is the size of a `nfs_argop4`. -/
def zdrCOMPOUND4args (argop : β → Zop Unit) (argopSize : ℕ) (args : Compound4Args β) : Zop Unit := do
  zdrBytes.enc args.tag
  zdrUInt.enc args.minorversion
  zdrArrayEncode argopSize (zdrNfsArgop4 argop) (args.ops.map Sum.inl ++ [Sum.inr args.write])

/-- `rpc_nfs4_writev_task` -/
def rpcNfs4WritevTask (ctx : Ctx) (argop : β → Zop Unit) (argopSize : ℕ) (args : Compound4Args β)
    (iov : List (List UInt8)) : Res Pdu :=
  if iov = [] then .fail
  else if iov.length > 1 ∧ ctx.isUdp then .fail
  else writevTask (header ctx 100003 4 1) (zdrCOMPOUND4args argop argopSize args) iov.length iov

/-- The call of `zdr_WRITE3args` with all of the data -/
def plainWrite3 (ctx : Ctx) (args : Write3Args) (iov : List (List UInt8)) : Zop Unit := do
  header ctx 100003 3 7
  zdrWRITE3args { args with data := iov.flatten }

/-- `zdr_nfs_argop4` with `zzdr_WRITE4args`, which takes the data along -/
def plainArgop4 (argop : β → Zop Unit) (iov : List (List UInt8)) : β ⊕ Write4Args → Zop Unit
  | .inl op => argop op
  | .inr w => do
    zdrOpWrite w
    zdrBytes.enc iov.flatten

/-- The call of `zdr_COMPOUND4args` with all of the data -/
def plainCompound4 (ctx : Ctx) (argop : β → Zop Unit) (argopSize : ℕ) (args : Compound4Args β)
    (iov : List (List UInt8)) : Zop Unit := do
  header ctx 100003 4 1
  zdrBytes.enc args.tag
  zdrUInt.enc args.minorversion
  zdrArrayEncode argopSize (plainArgop4 argop iov) (args.ops.map Sum.inl ++ [Sum.inr args.write])

/-- The bytes of a vector when they are gathered; `none` is a read behind the memory of the PDU or of the caller. -/
def Iovec.bytes (pdu : Pdu) : Iovec → Option (List UInt8)
  | .recordmarker => some pdu.recordmarker
  | .outdata off len =>
    if 0 ≤ off ∧ off+len ≤ pdu.zdr.buf.length then some ((pdu.zdr.buf.drop off.toNat).take len) else none
  | .data buf len => if len ≤ buf.length then some (buf.take len) else none

def gatherAll (pdu : Pdu) : List Iovec → Option (List UInt8)
  | [] => some []
  | v :: vs => (v.bytes pdu).bind fun a => (gatherAll pdu vs).map (a ++ ·)

/-- The record as `writev` gathers it -/
def gather (pdu : Pdu) : Option (List UInt8) := gatherAll pdu pdu.iov

/-- The task succeeds with a record of a marker and these bytes, and the marker tells their number. -/
def Sends (r : Res Pdu) (bs : List UInt8) : Prop :=
  ∃ pdu marker, r = .ok pdu ∧ gather pdu = some (marker ++ bs) ∧ marker.length = 4 ∧ be32 marker = 2^31+bs.length

/-- The vectors for the padding -/
def padCount (iov : List (List UInt8)) : ℕ := if iov.flatten.length % 4 = 0 then 0 else 1

theorem sizeT_nat {n : ℕ} (h : n < 2^31) : sizeT n = n := by
  unfold sizeT
  rw [toInt_eq (by omega) (by omega)]
  omega

theorem encodebuf_buf : encodebuf.buf.length = 4092 := by
  rw [encodebuf,zdrmemCreate,List.length_replicate]
  rfl

theorem encodebuf_size : encodebuf.size = 4092 := by
  rw [encodebuf,zdrmemCreate]
  exact @toInt_eq ((4092 : ℕ) : ℤ) (by decide) (by decide)

theorem encodebuf_pos : encodebuf.pos = 0 := rfl

theorem encodebuf_whole : Whole encodebuf :=
  ⟨by rw [encodebuf_pos],by rw [encodebuf_pos,encodebuf_size]; decide,by rw [encodebuf_size,encodebuf_buf]; rfl,
    by rw [encodebuf_size]; decide⟩

theorem addAll_eq {pdu : Pdu} (vs : List Iovec) (h : pdu.iov.length ≤ pdu.iovCapacity) : addAll pdu vs =
    if pdu.iov.length+vs.length ≤ pdu.iovCapacity then .ok { pdu with iov := pdu.iov ++ vs } else .fail := by
  induction vs generalizing pdu with
  | nil =>
    rw [addAll,if_pos (by simpa using h),List.append_nil]
  | cons v vs ih =>
    unfold addAll rpcAddIovector
    by_cases hfull : pdu.iov.length ≥ pdu.iovCapacity
    · rw [if_pos hfull,if_neg (by rw [List.length_cons]; omega)]
      rfl
    · rw [if_neg hfull]
      have := @ih { pdu with iov := pdu.iov ++ [v] } (by simp only [List.length_append,List.length_singleton]; omega)
      simp only [andThen,this,List.length_append,List.length_cons,List.length_nil,List.append_assoc,
        List.singleton_append]
      congr 1
      exact propext ⟨fun h => by omega,fun h => by omega⟩

theorem gatherAll_append (pdu : Pdu) {us vs : List Iovec} {a b : List UInt8} (hu : gatherAll pdu us = some a)
    (hv : gatherAll pdu vs = some b) : gatherAll pdu (us ++ vs) = some (a ++ b) := by
  induction us generalizing a with
  | nil =>
    obtain rfl := Option.some.inj hu
    exact hv
  | cons u us ih =>
    rw [gatherAll] at hu
    obtain ⟨x,hx,hu⟩ := Option.bind_eq_some_iff.mp hu
    obtain ⟨y,hy,rfl⟩ := Option.map_eq_some_iff.mp hu
    rw [List.cons_append,gatherAll,hx,ih hy]
    simp

theorem gatherAll_cons {pdu : Pdu} {v : Iovec} {vs : List Iovec} {a b : List UInt8} (hv : v.bytes pdu = some a)
    (hvs : gatherAll pdu vs = some b) : gatherAll pdu (v :: vs) = some (a ++ b) := by
  rw [gatherAll,hv,hvs]
  rfl

/-- What is gathered is gathered from every vector. -/
theorem gatherAll_mem {pdu : Pdu} {v : Iovec} {vs : List Iovec} {bs : List UInt8} (h : gatherAll pdu vs = some bs)
    (hv : v ∈ vs) : ∃ a, v.bytes pdu = some a := by
  induction vs generalizing bs with
  | nil => simp at hv
  | cons u us ih =>
    rw [gatherAll] at h
    obtain ⟨x,hx,h⟩ := Option.bind_eq_some_iff.mp h
    obtain ⟨y,hy,-⟩ := Option.map_eq_some_iff.mp h
    rcases List.mem_cons.mp hv with rfl | hv
    · exact ⟨x,hx⟩
    · exact ih hy hv

theorem gatherAll_data (pdu : Pdu) {iov : List (List UInt8)} (h : iov.flatten.length < 2^31) :
    gatherAll pdu (iov.map fun buf => .data buf (sizeT buf.length)) = some iov.flatten := by
  induction iov with
  | nil => rfl
  | cons buf iov ih =>
    rw [List.flatten_cons,List.length_append] at h
    have hbuf : (Iovec.data buf (sizeT buf.length)).bytes pdu = some buf := by
      rw [sizeT_nat (by omega),Iovec.bytes,if_pos le_rfl,List.take_length]
    exact gatherAll_cons hbuf (ih (by omega))

theorem gatherAll_padding (pdu : Pdu) (len : ℕ) : gatherAll pdu (zeroPadding len) = some (pad len) := by
  unfold zeroPadding pad padLen
  by_cases h : len % 4 = 0
  · rw [if_pos h,h]
    rfl
  · rw [if_neg h]
    have hlt : (4-len%4)%4 = 4-len%4 := by omega
    have hle : 4-len%4 ≤ [(0 : UInt8),0,0,0].length := by
      simp only [List.length_cons,List.length_nil]
      omega
    rw [hlt]
    have hbytes : (Iovec.data [0,0,0,0] (4-len%4)).bytes pdu = some (List.replicate (4-len%4) 0) := by
      rw [Iovec.bytes,if_pos hle]
      have hzero : [(0 : UInt8),0,0,0] = List.replicate 4 0 := rfl
      rw [hzero,List.take_replicate]
      congr 2
      omega
    have := @gatherAll_cons pdu _ [] _ [] hbytes rfl
    rwa [List.append_nil] at this

theorem dataLen_eq {iov : List (List UInt8)} (h : iov.flatten.length < 2^32) : dataLen iov = iov.flatten.length := by
  rw [dataLen,← List.length_flatten,Nat.mod_eq_of_lt h]

theorem dataVectors_length (start : ℤ) (iov : List (List UInt8)) : (dataVectors start iov).length = 1+iov.length+padCount iov := by
  unfold dataVectors zeroPadding padCount
  have hmod : dataLen iov % 4 = iov.flatten.length % 4 := by
    rw [dataLen,← List.length_flatten]
    omega
  rw [hmod]
  by_cases h : iov.flatten.length % 4 = 0
  · simp only [if_pos h,List.length_cons,List.length_append,List.length_map,List.length_nil]
    omega
  · simp only [if_neg h,List.length_cons,List.length_append,List.length_map,List.length_nil]
    omega

section Writev

variable {hdr args : Zop Unit} {H A : List UInt8} {hint : ℕ} {iov : List (List UInt8)}

/-- The PDU in front of `rpc_queue_pdu` -/
def filled (hint : ℕ) (H A : List UInt8) (iov : List (List UInt8)) (z : Zdrs) : Pdu where
  iovCapacity := capacity hint
  iov := [.recordmarker,.outdata 0 (sizeT H.length),.outdata H.length (sizeT A.length)] ++
    dataVectors ((H.length+A.length : ℕ) : ℤ) iov
  recordmarker := [0,0,0,0]
  zdr := z

theorem capacity_ge (hint : ℕ) : 8 ≤ capacity hint := by
  unfold capacity rpcFastVectors
  split <;> omega

/-- The vector of the arguments -/
theorem add_args {y z : Zdrs} (hy : y.pos = H.length) (hz : z.pos = (H.length+A.length : ℕ)) :
    rpcAddIovector ⟨capacity hint,[.recordmarker,.outdata 0 (sizeT y.pos)],[0,0,0,0],y⟩
      (.outdata y.pos (sizeT (z.pos-y.pos))) = .ok ⟨capacity hint,[.recordmarker,.outdata 0 (sizeT H.length),
        .outdata H.length (sizeT A.length)],[0,0,0,0],y⟩ := by
  have hdiff : z.pos-y.pos = A.length := by
    rw [hz,hy]
    omega
  have hcap := capacity_ge hint
  rw [rpcAddIovector,if_neg (by simp only [List.length_cons,List.length_nil]; omega),hdiff,hy]
  rfl

/-- A task that comes to its end has marshalled the header and the arguments, and has had a vector for everything. -/
theorem writevTask_ok {pdu : Pdu} (hH : Marshals hdr H) (hA : Marshals args A)
    (h : writevTask hdr args hint iov = .ok pdu) :
    ∃ z z', Wrote encodebuf (H ++ A) z ∧ Fit encodebuf (H ++ A).length ∧ Whole z ∧
      (zdrUIntEncode (dataLen iov) z = (.ok (),z') ∨ zdrUIntEncode (dataLen iov) z = (.fail,z')) ∧
      4+iov.length+padCount iov ≤ capacity hint ∧ rpcQueuePdu (filled hint H A iov z') = .ok pdu := by
  unfold writevTask rpcAllocatePdu2 at h
  cases hh : hdr encodebuf with
  | mk r y =>
    rw [hh] at h
    cases r with
    | fail => simp [andThen] at h
    | fault => simp [andThen] at h
    | ok _ =>
      obtain ⟨hfit,hw⟩ := hH.wrote encodebuf_whole (by rw [encodebuf_pos]; exact ⟨0,rfl⟩) hh
      have hy := encodebuf_whole.wrote hw hfit
      have hypos : y.pos = H.length := by
        rw [hw.pos,encodebuf_pos]
        omega
      simp only [andThen] at h
      cases ha : args y with
      | mk r z =>
        rw [ha] at h
        cases r with
        | fail => simp at h
        | fault => simp at h
        | ok _ =>
          obtain ⟨hfit',hw'⟩ := hA.wrote hy (hw.aligned (by rw [encodebuf_pos]; exact ⟨0,rfl⟩) hH.aligned) ha
          have hz := hy.wrote hw' hfit'
          have hzpos : z.pos = (H.length+A.length : ℕ) := by
            rw [hw'.pos,hypos]
            omega
          have hcap := capacity_ge hint
          have hfitHA : Fit encodebuf (H ++ A).length := by
            have h1 := hfit'.room
            rw [hypos,hw.size] at h1
            refine encodebuf_whole.fit ?_
            rw [encodebuf_pos,List.length_append]
            omega
          simp only [add_args hypos hzpos] at h
          have hlen := dataVectors_length ((H.length+A.length : ℕ) : ℤ) iov
          have hall : ∀ z', andThen (addAll ⟨capacity hint,[.recordmarker,.outdata 0 (sizeT H.length),
              .outdata H.length (sizeT A.length)],[0,0,0,0],z'⟩ (dataVectors z.pos iov)) rpcQueuePdu = .ok pdu →
              4+iov.length+padCount iov ≤ capacity hint ∧ rpcQueuePdu (filled hint H A iov z') = .ok pdu := by
            intro z' h
            rw [addAll_eq _ (by simp only [List.length_cons,List.length_nil]; omega),hzpos,hlen] at h
            by_cases hroom : 3+(1+iov.length+padCount iov) ≤ capacity hint
            · rw [if_pos (by simpa using hroom)] at h
              exact ⟨by omega,h⟩
            · rw [if_neg (by simpa using hroom)] at h
              simp [andThen] at h
          cases hu : zdrUIntEncode (dataLen iov) z with
          | mk r z' =>
            rw [hu] at h
            refine ⟨z,z',hw.trans hfit hw',hfitHA,hz,?_⟩
            cases r with
            | fault => simp at h
            | ok _ => exact ⟨.inl hu,hall z' h⟩
            | fail => exact ⟨.inr hu,hall z' h⟩

/-- The converse: with room in the buffer and for the vectors the task comes to `rpc_queue_pdu`. -/
theorem writevTask_fits (hH : Marshals hdr H) (hA : Marshals args A) (hfit : H.length+A.length+4 ≤ 4092)
    (hcap : 4+iov.length+padCount iov ≤ capacity hint) :
    ∃ z, Wrote encodebuf (H ++ A ++ beBytes (dataLen iov)) z ∧
      writevTask hdr args hint iov = rpcQueuePdu (filled hint H A iov z) := by
  have halign : 4 ∣ encodebuf.pos := by
    rw [encodebuf_pos]
    exact ⟨0,rfl⟩
  have hfits : ∀ {n : ℕ}, n ≤ 4092 → Fit encodebuf n := by
    intro n hn
    refine encodebuf_whole.fit ?_
    rw [encodebuf_pos,encodebuf_size]
    omega
  obtain ⟨y,hy,hw⟩ := hH.writes encodebuf halign (hfits (by omega))
  have hypos : y.pos = H.length := by
    rw [hw.pos,encodebuf_pos]
    omega
  have hfity : Fit y (A.length+4) := hw.fit (hfits (by omega))
  have haligny := hw.aligned halign hH.aligned
  obtain ⟨z,hz,hw'⟩ := hA.writes y haligny (hfity.le (by omega))
  have hzpos : z.pos = (H.length+A.length : ℕ) := by
    rw [hw'.pos,hypos]
    omega
  have hfitz : Fit z 4 := hw'.fit hfity
  obtain ⟨x,hx,hw''⟩ := zdrUIntEncode_encodes (dataLen iov) hfitz
  have hHA : Fit encodebuf (H ++ A).length := hfits (by rw [List.length_append]; omega)
  refine ⟨x,(hw.trans (hfits (by omega)) hw').trans hHA hw'',?_⟩
  have h8 := capacity_ge hint
  have hlen := dataVectors_length ((H.length+A.length : ℕ) : ℤ) iov
  unfold writevTask rpcAllocatePdu2
  simp only [hy,andThen,hz,add_args hypos hzpos,hx]
  rw [hzpos,addAll_eq _ (by simp only [List.length_cons,List.length_nil]; omega),
    if_pos (by simp only [List.length_cons,List.length_nil,hlen]; omega)]
  rfl

/-- The record of the filled PDU -/
theorem filled_gather {z : Zdrs} (hw : Wrote encodebuf (H ++ A ++ beBytes (dataLen iov)) z)
    (hfit : H.length+A.length+4 ≤ 4092) (hint31 : iov.flatten.length < 2^31) (marker : List UInt8) :
    gather { filled hint H A iov z with recordmarker := marker } =
      some (marker ++ (H ++ A ++ Format.sized iov.flatten)) := by
  have hbuf : ∃ rest, z.buf = H ++ A ++ beBytes (dataLen iov) ++ rest := by
    refine ⟨encodebuf.buf.drop (0+(H ++ A ++ beBytes (dataLen iov)).length),?_⟩
    rw [hw.buf,encodebuf_pos,overwrite]
    simp
  have hlen : z.buf.length = 4092 := by
    have := (encodebuf_whole.wrote hw (encodebuf_whole.fit (by
      rw [encodebuf_pos,encodebuf_size]
      simp only [List.length_append,beBytes_length]
      omega))).alloc
    rw [hw.size,encodebuf_size] at this
    omega
  obtain ⟨rest,hbuf⟩ := hbuf
  have hout : ∀ (pdu : Pdu) (off len : ℕ), pdu.zdr = z → off+len ≤ 4092 →
      (Iovec.outdata off (sizeT len)).bytes pdu = some ((z.buf.drop off).take len) := by
    intro pdu off len hp hle
    rw [sizeT_nat (by omega),Iovec.bytes,hp,if_pos (by omega)]
    rfl
  unfold gather filled
  generalize hpdu : ({ iovCapacity := _, iov := _, recordmarker := marker, zdr := z } : Pdu) = pdu
  have hz : pdu.zdr = z := by rw [← hpdu]
  have hm : Iovec.recordmarker.bytes pdu = some marker := by rw [← hpdu]; rfl
  have h1 := hout pdu 0 H.length hz (by omega)
  have h2 := hout pdu H.length A.length hz (by omega)
  have h3 := hout pdu (H.length+A.length) 4 hz (by omega)
  have e1 : (z.buf.drop 0).take H.length = H := by
    rw [hbuf]
    simp
  have e2 : (z.buf.drop H.length).take A.length = A := by
    rw [hbuf]
    simp
  have e3 : (z.buf.drop (H.length+A.length)).take 4 = beBytes (dataLen iov) := by
    rw [hbuf,← List.length_append,List.append_assoc (H ++ A),List.drop_left]
    exact List.take_left' rfl
  have hdata := gatherAll_append pdu (gatherAll_data pdu hint31) (gatherAll_padding pdu (dataLen iov))
  have hall := gatherAll_cons hm (gatherAll_cons h1 (gatherAll_cons h2 (gatherAll_cons h3 hdata)))
  rw [e1,e2,e3] at hall
  have hiov : pdu.iov = .recordmarker :: .outdata 0 (sizeT H.length) :: .outdata H.length (sizeT A.length) ::
      .outdata ((H.length+A.length : ℕ) : ℤ) (sizeT 4) ::
        (iov.map (fun buf => .data buf (sizeT buf.length)) ++ zeroPadding (dataLen iov)) := by
    rw [← hpdu]
    rfl
  rw [hiov]
  refine hall.trans ?_
  rw [dataLen_eq (by omega),Format.sized]
  simp

theorem sum_data {f : ℤ → ℕ} {iov : List (List UInt8)} (hf : ∀ n : ℕ, n ≤ iov.flatten.length → f n = n) :
    ((iov.map fun buf => Iovec.data buf (f buf.length)).map Iovec.len).sum = iov.flatten.length := by
  induction iov with
  | nil => rfl
  | cons buf iov ih =>
    rw [List.flatten_cons,List.length_append] at hf ⊢
    simp only [List.map_cons,List.sum_cons,Iovec.len]
    rw [ih fun n hn => hf n (by omega),hf _ (by omega)]

theorem sum_padding (len : ℕ) : ((zeroPadding len).map Iovec.len).sum = padLen len := by
  unfold zeroPadding padLen
  by_cases h : len % 4 = 0
  · rw [if_pos h,h]
    rfl
  · rw [if_neg h]
    simp only [List.map_cons,List.map_nil,List.sum_cons,List.sum_nil,Iovec.len]
    omega

/-- The vectors behind the record marker -/
theorem sum_filled {f : ℤ → ℕ} {start start' : ℤ} {h a : ℕ}
    (hf : ∀ n : ℕ, n ≤ h+a+iov.flatten.length → f n = n) :
    ((Iovec.outdata 0 (f h) :: Iovec.outdata start (f a) :: Iovec.outdata start' 4 ::
      (iov.map (fun buf => Iovec.data buf (f buf.length)) ++ zeroPadding iov.flatten.length)).map Iovec.len).sum =
      h+a+(4+(iov.flatten.length+padLen iov.flatten.length)) := by
  have hdata := @sum_data f iov fun n hn => hf n (by omega)
  have hpad := sum_padding iov.flatten.length
  simp only [List.map_cons,List.map_append,List.sum_cons,List.sum_append,hdata,hpad,Iovec.len]
  rw [hf h (by omega),hf a (by omega)]
  omega

/-- The record marker of the filled PDU -/
theorem filled_queue {z : Zdrs} (hw : Wrote encodebuf (H ++ A ++ beBytes (dataLen iov)) z)
    (hlen : (H ++ A ++ Format.sized iov.flatten).length < 2^31) : rpcQueuePdu (filled hint H A iov z) =
      .ok { filled hint H A iov z with
        recordmarker := beBytes (2^31+(H ++ A ++ Format.sized iov.flatten).length) } := by
  have hsize : (H ++ A ++ Format.sized iov.flatten).length =
      H.length+A.length+(4+(iov.flatten.length+padLen iov.flatten.length)) := by
    rw [List.length_append,List.length_append,sized_length]
  rw [hsize] at hlen ⊢
  have hpos : z.pos = (H.length+A.length+4 : ℕ) := by
    rw [hw.pos,encodebuf_pos]
    simp only [List.length_append,beBytes_length]
    omega
  have hsum : (((filled hint H A iov z).iov.drop 1).map Iovec.len).sum =
      H.length+A.length+(4+(iov.flatten.length+padLen iov.flatten.length)) := by
    have hdata : dataLen iov = iov.flatten.length := dataLen_eq (by omega)
    have hdrop : (filled hint H A iov z).iov.drop 1 = Iovec.outdata 0 (sizeT H.length) ::
        Iovec.outdata H.length (sizeT A.length) :: Iovec.outdata ((H.length+A.length : ℕ) : ℤ) 4 ::
          (iov.map (fun buf => Iovec.data buf (sizeT buf.length)) ++ zeroPadding (dataLen iov)) := rfl
    rw [hdrop,hdata]
    exact sum_filled fun n hn => sizeT_nat (by omega)
  unfold rpcQueuePdu
  simp only [hsum]
  have hto : toInt ((H.length+A.length+(4+(iov.flatten.length+padLen iov.flatten.length)) : ℕ) : ℤ) =
      (H.length+A.length+(4+(iov.flatten.length+padLen iov.flatten.length)) : ℕ) :=
    toInt_eq (by omega) (by omega)
  have hzdr : (filled hint H A iov z).zdr = z := rfl
  rw [hto]
  have hle : ¬ (filled hint H A iov z).zdr.pos > ((H.length+A.length+(4+(iov.flatten.length+padLen iov.flatten.length)) : ℕ) : ℤ) := by
    show ¬ z.pos > _
    rw [hpos]
    omega
  rw [if_neg hle]
  have hlast : lastFragment ((H.length+A.length+(4+(iov.flatten.length+padLen iov.flatten.length)) : ℕ) : ℤ) =
      2^31+(H.length+A.length+(4+(iov.flatten.length+padLen iov.flatten.length))) := by
    unfold lastFragment
    rw [if_pos (by omega)]
    omega
  rw [hlast]

/-- What `rpc_queue_pdu` leaves alone -/
theorem queue_keeps {pdu pdu' : Pdu} (h : rpcQueuePdu pdu = .ok pdu') : pdu'.zdr = pdu.zdr ∧ ∀ v ∈ pdu.iov, v ∈ pdu'.iov := by
  unfold rpcQueuePdu rpcAddIovector at h
  simp only at h
  split at h
  · split at h
    · simp [andThen] at h
    · simp only [andThen,Res.ok.injEq] at h
      subst h
      exact ⟨rfl,fun v hv => List.mem_append_left _ hv⟩
  · simp only [Res.ok.injEq] at h
    subst h
    exact ⟨rfl,fun v hv => hv⟩

theorem word_fails {z z' : Zdrs} {u : ℕ} (h : zdrUIntEncode u z = (.fail,z')) : z' = z := by
  by_cases hr : toInt (z.pos+4) > z.size
  · rw [zdrUIntEncode_full u hr] at h
    exact (Prod.mk.inj h).2.symm
  · by_cases hi : Inside z z.pos 4
    · rw [zdrUIntEncode_pass u hr hi] at h
      simp at h
    · rw [zdrUIntEncode_outside u hr hi] at h
      simp at h

/-- The task sends the record exactly if there is room in the encode buffer for all but the data, a record can be that long, and
there is a vector for every part of it. -/
theorem writevTask_sends (hH : Marshals hdr H) (hA : Marshals args A) :
    Sends (writevTask hdr args hint iov) (H ++ A ++ Format.sized iov.flatten) ↔
      H.length+A.length+4 ≤ 4092 ∧ (H ++ A ++ Format.sized iov.flatten).length < 2^31 ∧
        4+iov.length+padCount iov ≤ capacity hint := by
  constructor
  · rintro ⟨pdu,marker,hok,hgather,-,hmarker⟩
    obtain ⟨z,z',hw,hfit,hz,hword,hcap,hqueue⟩ := writevTask_ok hH hA hok
    obtain ⟨hzdr,hmem⟩ := queue_keeps hqueue
    have hlt := be32_lt marker
    have hpos : z.pos = (H.length+A.length : ℕ) := by
      rw [hw.pos,encodebuf_pos,List.length_append]
      omega
    have hsize : z.size = 4092 := by rw [hw.size,encodebuf_size]
    refine ⟨?_,by omega,hcap⟩
    rcases hword with hword | hword
    · have halign : 4 ∣ z.pos := by
        rw [hpos]
        exact Int.natCast_dvd_natCast.mpr (hH.aligned.add hA.aligned)
      have hroom := ((Marshals.word _).wrote hz halign hword).1.room
      rw [beBytes_length] at hroom
      omega
    · obtain rfl := word_fails hword
      have hv : Iovec.outdata ((H.length+A.length : ℕ) : ℤ) 4 ∈ pdu.iov := hmem _ (by simp [filled,dataVectors])
      obtain ⟨a,ha⟩ := gatherAll_mem hgather hv
      have hbuf : pdu.zdr.buf.length = 4092 := by
        have hal := hz.alloc
        rw [hzdr]
        show z'.buf.length = 4092
        omega
      rw [Iovec.bytes,hbuf] at ha
      by_contra hno
      rw [if_neg (by omega)] at ha
      simp at ha
  · rintro ⟨hfit,hlen,hcap⟩
    obtain ⟨z,hw,htask⟩ := writevTask_fits hH hA hfit hcap
    have hflat : iov.flatten.length < 2^31 := by
      rw [List.length_append,sized_length] at hlen
      omega
    refine ⟨_,_,htask.trans (filled_queue hw hlen),filled_gather hw hfit hflat _,beBytes_length _,?_⟩
    exact be32_beBytes_self _ (by omega)

end Writev

def headerBytes (ctx : Ctx) (prog vers proc : UInt32) : List UInt8 :=
  Format.word ctx.xid ++ (Format.word 0 ++ Format.callBody.bytes ⟨2,prog,vers,proc,ctx.cred,ctx.verf⟩)

def write3Bytes (args : Write3Args) : List UInt8 :=
  Format.sized args.file ++ (Format.uInt64.bytes args.offset ++ (Format.word args.count ++ Format.word args.stable))

def opWriteBytes (w : Write4Args) : List UInt8 :=
  Format.word 38 ++ (Format.word w.seqid ++ (w.other ++ (Format.uInt64.bytes w.offset ++ Format.word w.stable)))

def compound4Bytes (opBytes : β → List UInt8) (args : Compound4Args β) : List UInt8 :=
  Format.sized args.tag ++ (Format.word args.minorversion ++ (beBytes (args.ops.length+1) ++
    (args.ops.flatMap opBytes ++ opWriteBytes args.write)))

/-- The plain marshalling of the calls -/
def write3Record (ctx : Ctx) (args : Write3Args) (iov : List (List UInt8)) : List UInt8 :=
  headerBytes ctx 100003 3 7 ++ write3Bytes args ++ Format.sized iov.flatten

def compound4Record (ctx : Ctx) (opBytes : β → List UInt8) (args : Compound4Args β) (iov : List (List UInt8)) :
    List UInt8 :=
  headerBytes ctx 100003 4 1 ++ compound4Bytes opBytes args ++ Format.sized iov.flatten

theorem marshals_auth (a : OpaqueAuth) : Marshals (libnfsOpaqueCred.enc a) (Format.auth a) :=
  (Marshals.uInt a.oaFlavor).bind (Marshals.bytes a.oaBase)

theorem marshals_header (ctx : Ctx) (prog vers proc : UInt32) :
    Marshals (header ctx prog vers proc) (headerBytes ctx prog vers proc) := by
  have hauth := (marshals_auth ctx.cred).bind (marshals_auth ctx.verf)
  have hbody := (Marshals.uInt 2).bind ((Marshals.uInt prog).bind ((Marshals.uInt vers).bind
    ((Marshals.uInt proc).bind hauth)))
  exact (Marshals.uInt ctx.xid).bind ((Marshals.uInt 0).bind hbody)

theorem marshals_write3 (args : Write3Args) : Marshals (zdrWRITE3argsZerocopy args) (write3Bytes args) :=
  (Marshals.bytes args.file).bind ((Marshals.uInt64 args.offset).bind
    ((Marshals.uInt args.count).bind (Marshals.enum args.stable)))

theorem marshals_opWrite (w : Write4Args) : Marshals (zdrOpWrite w) (opWriteBytes w) := by
  have hother := Marshals.fixed w.other (by rw [w.other_length]; decide)
  exact (Marshals.enum 38).bind ((Marshals.uInt w.seqid).bind
    (hother.bind ((Marshals.uInt64 w.offset).bind (Marshals.enum w.stable))))

theorem marshals_plainWrite3 (ctx : Ctx) (args : Write3Args) (iov : List (List UInt8)) :
    Marshals (plainWrite3 ctx args iov) (write3Record ctx args iov) := by
  unfold write3Record
  have h := (marshals_header ctx 100003 3 7).bind ((marshals_write3 args).bind (Marshals.bytes iov.flatten))
  rw [← List.append_assoc] at h
  exact h

section Compound

variable {argop : β → Zop Unit} {opBytes : β → List UInt8} {argopSize : ℕ} {args : Compound4Args β}

/-- The operations with the WRITE, whose encoder may take the data along -/
theorem marshals_ops (proc : β ⊕ Write4Args → Zop Unit) {W : List UInt8}
    (hargop : ∀ op ∈ args.ops, Marshals (proc (.inl op)) (opBytes op)) (hwrite : Marshals (proc (.inr args.write)) W)
    (h2 : 2 ≤ argopSize) (hsize : (args.ops.length+1)*argopSize < 2^32) :
    Marshals (zdrArrayEncode argopSize proc (args.ops.map Sum.inl ++ [Sum.inr args.write]))
      (beBytes (args.ops.length+1) ++ (args.ops.flatMap opBytes ++ W)) := by
  have hlen : (args.ops.map Sum.inl ++ [Sum.inr args.write]).length = args.ops.length+1 := by simp
  have hdiv : args.ops.length+1 ≤ (2^32-1)/argopSize := (Nat.le_div_iff_mul_le (by omega)).mpr (by omega)
  have hhalf : (args.ops.length+1)*2 ≤ (args.ops.length+1)*argopSize := Nat.mul_le_mul_left _ h2
  have hall : ∀ x ∈ args.ops.map Sum.inl ++ [Sum.inr args.write], Marshals (proc x)
      (Sum.elim opBytes (fun _ => W) x) := by
    intro x hx
    rcases List.mem_append.mp hx with hx | hx
    · obtain ⟨op,hop,rfl⟩ := List.mem_map.mp hx
      exact hargop op hop
    · obtain rfl := List.mem_singleton.mp hx
      exact hwrite
  have harr := @Marshals.array _ proc _ _ argopSize hall (by omega) (by omega)
  have hflat : (args.ops.map Sum.inl ++ [Sum.inr args.write]).flatMap
      (Sum.elim opBytes fun _ => W) = args.ops.flatMap opBytes ++ W := by
    rw [List.flatMap_append,List.flatMap_map]
    simp
  rwa [hlen,hflat] at harr

theorem marshals_compound4 (hargop : ∀ op ∈ args.ops, Marshals (argop op) (opBytes op)) (h2 : 2 ≤ argopSize)
    (hsize : (args.ops.length+1)*argopSize < 2^32) :
    Marshals (zdrCOMPOUND4args argop argopSize args) (compound4Bytes opBytes args) :=
  (Marshals.bytes args.tag).bind ((Marshals.uInt args.minorversion).bind
    (marshals_ops (zdrNfsArgop4 argop) hargop (marshals_opWrite args.write) h2 hsize))

theorem marshals_plainCompound4 (ctx : Ctx) (iov : List (List UInt8))
    (hargop : ∀ op ∈ args.ops, Marshals (argop op) (opBytes op)) (h2 : 2 ≤ argopSize)
    (hsize : (args.ops.length+1)*argopSize < 2^32) :
    Marshals (plainCompound4 ctx argop argopSize args iov) (compound4Record ctx opBytes args iov) := by
  have hwrite := (marshals_opWrite args.write).bind (Marshals.bytes iov.flatten)
  have hops := marshals_ops (plainArgop4 argop iov) hargop hwrite h2 hsize
  have h := (marshals_header ctx 100003 4 1).bind ((Marshals.bytes args.tag).bind
    ((Marshals.uInt args.minorversion).bind hops))
  have hbytes : compound4Record ctx opBytes args iov =
      headerBytes ctx 100003 4 1 ++ (Format.sized args.tag ++ (Format.word args.minorversion ++
        (beBytes (args.ops.length+1) ++ (args.ops.flatMap opBytes ++
          (opWriteBytes args.write ++ Format.sized iov.flatten))))) := by
    simp only [compound4Record,compound4Bytes,List.append_assoc]
  rw [hbytes]
  exact h

end Compound

theorem not_sends_fail (bs : List UInt8) : ¬ Sends .fail bs := by
  rintro ⟨pdu,marker,h,-⟩
  cases h

theorem padCount_le (iov : List (List UInt8)) : padCount iov = 0 ∨ padCount iov = 1 := by
  unfold padCount
  split
  · exact .inl rfl
  · exact .inr rfl

theorem rpcNfs3WritevTask_sends (ctx : Ctx) (args : Write3Args) {iov : List (List UInt8)} (hiov : iov ≠ []) :
    Sends (rpcNfs3WritevTask ctx args iov) (write3Record ctx args iov) ↔
      args.data = [] ∧ ctx.isUdp = false ∧ (headerBytes ctx 100003 3 7).length+(write3Bytes args).length+4 ≤ 4092 ∧
        (write3Record ctx args iov).length < 2^31 ∧ (iov.length ≤ 3 ∨ padCount iov = 0) := by
  unfold rpcNfs3WritevTask write3Record
  by_cases hdata : args.data = []
  · cases hudp : ctx.isUdp with
    | true =>
      rw [if_neg (by simp [hdata]),if_pos ⟨hiov,rfl⟩]
      simp [not_sends_fail]
    | false =>
      rw [if_neg (by simp [hdata]),if_neg (by simp),if_neg hiov,
        writevTask_sends (marshals_header ctx 100003 3 7) (marshals_write3 args)]
      have hpad := padCount_le iov
      have hcap : 4+iov.length+padCount iov ≤ capacity (iov.length+4) ↔ (iov.length ≤ 3 ∨ padCount iov = 0) := by
        unfold capacity rpcFastVectors
        split <;> omega
      rw [hcap]
      simp [hdata]
  · rw [if_pos ⟨hiov,hdata⟩]
    simp [not_sends_fail,hdata]

theorem rpcNfs4WritevTask_sends (ctx : Ctx) {argop : β → Zop Unit} {opBytes : β → List UInt8} {argopSize : ℕ}
    {args : Compound4Args β} (hargop : ∀ op ∈ args.ops, Marshals (argop op) (opBytes op)) (h2 : 2 ≤ argopSize)
    (hsize : (args.ops.length+1)*argopSize < 2^32) {iov : List (List UInt8)} (hiov : iov ≠ []) :
    Sends (rpcNfs4WritevTask ctx argop argopSize args iov) (compound4Record ctx opBytes args iov) ↔
      (iov.length = 1 ∨ ctx.isUdp = false) ∧
        (headerBytes ctx 100003 4 1).length+(compound4Bytes opBytes args).length+4 ≤ 4092 ∧
        (compound4Record ctx opBytes args iov).length < 2^31 ∧ iov.length+padCount iov ≤ 4 := by
  unfold rpcNfs4WritevTask compound4Record
  rw [if_neg hiov]
  have hpos := List.length_pos_iff.mpr hiov
  by_cases hudp : iov.length > 1 ∧ ctx.isUdp = true
  · rw [if_pos hudp]
    have hlen : ¬ iov.length = 1 := by omega
    simp [not_sends_fail,hudp.2,hlen]
  · rw [if_neg hudp,writevTask_sends (marshals_header ctx 100003 4 1) (marshals_compound4 hargop h2 hsize)]
    have hpad := padCount_le iov
    have hcap : 4+iov.length+padCount iov ≤ capacity iov.length ↔ iov.length+padCount iov ≤ 4 := by
      unfold capacity rpcFastVectors
      split <;> omega
    have hside : iov.length = 1 ∨ ctx.isUdp = false := by
      cases hu : ctx.isUdp with
      | true => exact .inl (by simp [hu] at hudp; omega)
      | false => exact .inr rfl
    rw [hcap]
    simp [hside]

/-- The zero-copy WRITE sends what the plain marshalling of the call with the concatenated data writes exactly if the hint was
enough for all the vectors: NFSv3 fails with four vectors or more and padding, NFSv4 with more than four for data and padding. -/
theorem writev_marshalled (ctx : Ctx) (args3 : Write3Args) {argop : β → Zop Unit} {opBytes : β → List UInt8}
    {argopSize : ℕ} {args4 : Compound4Args β} (hargop : ∀ op ∈ args4.ops, Marshals (argop op) (opBytes op))
    (h2 : 2 ≤ argopSize) (hsize : (args4.ops.length+1)*argopSize < 2^32) {iov : List (List UInt8)} (hiov : iov ≠ []) :
    (Marshals (plainWrite3 ctx args3 iov) (write3Record ctx args3 iov) ∧
      (Sends (rpcNfs3WritevTask ctx args3 iov) (write3Record ctx args3 iov) ↔
        args3.data = [] ∧ ctx.isUdp = false ∧
        (headerBytes ctx 100003 3 7).length+(write3Bytes args3).length+4 ≤ 4092 ∧
        (write3Record ctx args3 iov).length < 2^31 ∧ (iov.length ≤ 3 ∨ padCount iov = 0))) ∧
    Marshals (plainCompound4 ctx argop argopSize args4 iov) (compound4Record ctx opBytes args4 iov) ∧
      (Sends (rpcNfs4WritevTask ctx argop argopSize args4 iov) (compound4Record ctx opBytes args4 iov) ↔
        (iov.length = 1 ∨ ctx.isUdp = false) ∧
        (headerBytes ctx 100003 4 1).length+(compound4Bytes opBytes args4).length+4 ≤ 4092 ∧
        (compound4Record ctx opBytes args4 iov).length < 2^31 ∧ iov.length+padCount iov ≤ 4) :=
  ⟨⟨marshals_plainWrite3 ctx args3 iov,rpcNfs3WritevTask_sends ctx args3 hiov⟩,
    marshals_plainCompound4 ctx iov hargop h2 hsize,rpcNfs4WritevTask_sends ctx hargop h2 hsize hiov⟩

/-- `OP_PUTFH` with `zdr_PUTFH4args` -/
def zdrOpPutfh (fh : List UInt8) : Zop Unit := do
  zdrEnum.enc 22
  zdrBytes.enc fh

def opPutfhBytes (fh : List UInt8) : List UInt8 := Format.word 22 ++ Format.sized fh

theorem marshals_opPutfh (fh : List UInt8) : Marshals (zdrOpPutfh fh) (opPutfhBytes fh) :=
  (Marshals.enum 22).bind (Marshals.bytes fh)

def exampleCtx : Ctx := ⟨7,⟨0,[]⟩,⟨0,[]⟩,false⟩

def exampleWrite3 : Write3Args := ⟨[1,2,3,4],0,5,2,[]⟩

def exampleCompound4 : Compound4Args (List UInt8) :=
  ⟨[],0,[[1,2,3,4]],⟨0,List.replicate 12 0,0,2,rfl⟩⟩

/-- Two vectors of five bytes and their padding are sent by both. -/
theorem writev_marshalled_two :
    Sends (rpcNfs3WritevTask exampleCtx exampleWrite3 [[1,2],[3,4,5]])
      (write3Record exampleCtx exampleWrite3 [[1,2],[3,4,5]]) ∧
    Sends (rpcNfs4WritevTask exampleCtx zdrOpPutfh 88 exampleCompound4 [[1,2],[3,4,5]])
      (compound4Record exampleCtx opPutfhBytes exampleCompound4 [[1,2],[3,4,5]]) := by
  have h := @writev_marshalled _ exampleCtx exampleWrite3 zdrOpPutfh opPutfhBytes 88 exampleCompound4
    (fun op _ => marshals_opPutfh op) (by decide) (by decide) [[1,2],[3,4,5]] (by decide)
  exact ⟨h.1.2.mpr (by decide),h.2.2.mpr (by decide)⟩

/-- Four vectors of five bytes need a ninth vector of eight for NFSv3, five vectors of eight bytes a ninth for NFSv4. -/
theorem writev_too_many_vectors :
    (∀ pdu, rpcNfs3WritevTask exampleCtx exampleWrite3 [[1],[2],[3],[4,5]] ≠ .ok pdu) ∧
    ∀ pdu, rpcNfs4WritevTask exampleCtx zdrOpPutfh 88 exampleCompound4 [[1],[2],[3],[4],[5,6,7,8]] ≠ .ok pdu := by
  have h3 : rpcNfs3WritevTask exampleCtx exampleWrite3 [[1],[2],[3],[4,5]] = writevTask (header exampleCtx 100003 3 7)
    (zdrWRITE3argsZerocopy exampleWrite3) 8 [[1],[2],[3],[4,5]] := rfl
  have h4 : rpcNfs4WritevTask exampleCtx zdrOpPutfh 88 exampleCompound4 [[1],[2],[3],[4],[5,6,7,8]] =
    writevTask (header exampleCtx 100003 4 1) (zdrCOMPOUND4args zdrOpPutfh 88 exampleCompound4) 5
      [[1],[2],[3],[4],[5,6,7,8]] := rfl
  refine ⟨fun pdu h => ?_,fun pdu h => ?_⟩
  · rw [h3] at h
    obtain ⟨_,_,_,_,_,_,hcap,_⟩ := writevTask_ok (marshals_header _ _ _ _) (marshals_write3 _) h
    exact absurd hcap (by decide)
  · rw [h4] at h
    obtain ⟨_,_,_,_,_,_,hcap,_⟩ := writevTask_ok (marshals_header _ _ _ _)
      (marshals_compound4 (fun op _ => marshals_opPutfh op) (by decide) (by decide)) h
    exact absurd hcap (by decide)

end ZeroCopyWrite
end Libnfs
