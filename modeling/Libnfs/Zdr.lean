import Libnfs.ByteWords

/-! The ZDR decoder of `lib/libnfs-zdr.c` on a receive buffer, the RPC reply message and
the zero-copy `READ3res` of `nfs/nfs.c`. Built without krb5.

`pos` is the signed `int` of `struct ZDR`: a length of 2^31 or more moves it backwards.
A load outside the buffer is undefined behaviour and is the outcome `fault`. -/
namespace Libnfs
namespace Zdr

open ByteWords

/-- A decoded `char *` that points into the receive buffer. -/
structure Slice where
  off : ℤ
  len : ℕ
  deriving DecidableEq, Repr

/-- The storage behind `pdu->zdr_decode_buf`: its first word, the scalars in decoding
order, the fields stored by reference, and bytes copied over its front. -/
structure DecodeBuf where
  status : ℕ := 0
  words : List ℕ := []
  refs : List Slice := []
  raw : List UInt8 := []
  deriving DecidableEq, Repr

/-- What a decoder changes: the cursor and the storage it decodes into. -/
structure State where
  pos : ℤ
  store : DecodeBuf
  deriving DecidableEq, Repr

inductive Res (α : Type)
  | ok (a : α) | fail | fault
  deriving DecidableEq, Repr

/-- A decoder over a fixed buffer; a failed one leaves the cursor where it stopped. -/
def Dec (α : Type) := List UInt8 → State → Res α × State

namespace Dec

variable {α β : Type}

def pure (a : α) : Dec α := fun _ z => (.ok a,z)

def bind (m : Dec α) (f : α → Dec β) : Dec β := fun buf z =>
  match m buf z with
  | (.ok a,z') => f a buf z'
  | (.fail,z') => (.fail,z')
  | (.fault,z') => (.fault,z')

instance : Monad Dec where
  pure := pure
  bind := bind

/-- `return FALSE` -/
def fail : Dec α := fun _ z => (.fail,z)

def modifyStore (f : DecodeBuf → DecodeBuf) : Dec Unit := fun _ z =>
  (.ok (),{ z with store := f z.store })

end Dec

/-- `(int)n` for a `uint32_t`. -/
def sint32 (n : ℕ) : ℤ := if n < 2^31 then n else (n : ℤ)-2^32

/-- `libnfs_zdr_u_int`, also `zdr_uint32_t`, `zdr_enum` and `zdr_bool` -/
def zdrUInt : Dec ℕ := fun buf z =>
  if z.pos+4 > buf.length then (.fail,z)
  else if z.pos < 0 then (.fault,z)
  else (.ok (be32 (buf.drop z.pos.toNat)),{ z with pos := z.pos+4 })

/-- `libnfs_zdr_uint64_t` -/
def zdrUInt64 : Dec ℕ := fun buf z =>
  if z.pos+8 > buf.length then (.fail,z)
  else if z.pos < 0 then (.fault,z)
  else (.ok (be32 (buf.drop z.pos.toNat)*2^32+be32 (buf.drop (z.pos.toNat+4))),
    { z with pos := z.pos+8 })

/-- `libnfs_zdr_bytes` with `*bufp == NULL`: the field is a pointer into the buffer. -/
def zdrBytes : Dec Slice := do
  let size ← zdrUInt
  fun buf z =>
    if z.pos+sint32 size > buf.length then (.fail,z)
    else (.ok ⟨z.pos,size⟩,{ z with pos := (z.pos+sint32 size+3)/4*4 })

/-- Bytes copied over the front of the storage; the first word is a host word. -/
def DecodeBuf.copyOver (d : DecodeBuf) (bs : List UInt8) : DecodeBuf :=
  { d with status := le32 (bs.take 4 ++ (leBytes d.status).drop bs.length), raw := bs }

/-- `libnfs_zdr_bytes` with `*bufp` pointing at a storage of `bufsize` bytes, which the
copy must not overrun. -/
def zdrBytesInto (bufsize : ℕ) : Dec Unit := do
  let size ← zdrUInt
  fun buf z =>
    if z.pos+sint32 size > buf.length then (.fail,z)
    else if bufsize < size then (.fault,z)
    else (.ok (),⟨(z.pos+sint32 size+3)/4*4,
      z.store.copyOver ((buf.drop z.pos.toNat).take size)⟩)

/-- The two fields of the decoded `struct rpc_msg` that `rpc_process_reply` looks at:
`body.rbody.stat` and `body.rbody.reply.areply.stat`. -/
structure Reply where
  stat : ℕ
  astat : ℕ
  deriving DecidableEq, Repr

def msgCall : ℕ := 0
def msgReply : ℕ := 1
def msgAccepted : ℕ := 0
def msgDenied : ℕ := 1
def acceptSuccess : ℕ := 0
def acceptProgUnavail : ℕ := 1
def acceptProgMismatch : ℕ := 2
def acceptProcUnavail : ℕ := 3
def acceptGarbageArgs : ℕ := 4
def acceptSystemErr : ℕ := 5

/-- `libnfs_opaque_verf` -/
def libnfsOpaqueVerf : Dec Unit := do
  let _ ← zdrUInt
  let _ ← zdrBytes
  pure ()

/-- `libnfs_accepted_reply`, with `results.proc` the decoder of the PDU -/
def libnfsAcceptedReply (proc : Dec Unit) : Dec ℕ := do
  libnfsOpaqueVerf
  let stat ← zdrUInt
  if stat = acceptSuccess then
    proc
    pure stat
  else if stat = acceptProgMismatch then
    let _ ← zdrUInt
    let _ ← zdrUInt
    pure stat
  else pure stat

/-- `libnfs_rejected_reply` -/
def libnfsRejectedReply : Dec Unit := do
  let stat ← zdrUInt
  if stat = 0 then
    let _ ← zdrUInt
    let _ ← zdrUInt
    pure ()
  else if stat = 1 then
    let _ ← zdrUInt
    pure ()
  else pure ()

/-- `libnfs_rpc_reply_body` -/
def libnfsRpcReplyBody (proc : Dec Unit) : Dec Reply := do
  let stat ← zdrUInt
  if stat = msgAccepted then
    let astat ← libnfsAcceptedReply proc
    pure ⟨stat,astat⟩
  else if stat = msgDenied then
    libnfsRejectedReply
    pure ⟨stat,0⟩
  else Dec.fail

/-- `libnfs_rpc_call_body`, reached by a reply record whose direction word says CALL. The
call is decoded over the union that was prepared for a reply. In the LP64 layout
`cbody.rpcvers` lies on `rbody.stat`, `cbody.verf.oa_flavor` on `areply.stat` and
`cbody.verf.oa_base` on `results.where`, so that the verifier's body is copied into the
storage of the PDU. -/
def libnfsRpcCallBody (bufsize : ℕ) : Dec Reply := do
  let rpcvers ← zdrUInt
  let _prog ← zdrUInt
  let _vers ← zdrUInt
  let _proc ← zdrUInt
  let _flavor ← zdrUInt
  let _cred ← zdrBytes
  let flavor ← zdrUInt
  if bufsize = 0 then
    let _ ← zdrBytes
    pure ⟨rpcvers,flavor⟩
  else
    zdrBytesInto bufsize
    pure ⟨rpcvers,flavor⟩

/-- `libnfs_rpc_msg`, that is `zdr_replymsg` -/
def zdrReplymsg (proc : Dec Unit) (bufsize : ℕ) : Dec Reply := do
  let _xid ← zdrUInt
  let direction ← zdrUInt
  if direction = msgCall then libnfsRpcCallBody bufsize
  else if direction = msgReply then libnfsRpcReplyBody proc
  else Dec.fail

def putWord (w : ℕ) : Dec Unit := Dec.modifyStore fun d => { d with words := d.words ++ [w] }

/-- `n` scalars of four bytes -/
def zdrWords : ℕ → Dec Unit
  | 0 => pure ()
  | n+1 => do
    let w ← zdrUInt
    putWord w
    zdrWords n

def zdrHypers : ℕ → Dec Unit
  | 0 => pure ()
  | n+1 => do
    let w ← zdrUInt64
    putWord w
    zdrHypers n

/-- `zdr_fattr3`: type, mode, nlink, uid, gid; size, used; rdev; fsid, fileid; three times -/
def zdrFattr3 : Dec Unit := do
  zdrWords 5
  zdrHypers 2
  zdrWords 2
  zdrHypers 2
  zdrWords 6

/-- `zdr_post_op_attr` -/
def zdrPostOpAttr : Dec Unit := do
  let follows ← zdrUInt
  putWord follows
  if follows = 1 then zdrFattr3
  else if follows = 0 then pure ()
  else Dec.fail

/-- `zdr_READ3res_zero_copy` with `zdr_READ3resok_zero_copy` and `zdr_READ3resfail`: all
of the result up to the length word of the data. -/
def zdrREAD3resZeroCopy : Dec Unit := do
  let status ← zdrUInt
  Dec.modifyStore fun _ => { status := status, words := [status] }
  if status = 0 then
    zdrPostOpAttr
    zdrWords 2
  else zdrPostOpAttr

def getPos : Dec ℤ := fun _ z => (.ok z.pos,z)
def setPos (pos : ℤ) : Dec Unit := fun _ z => (.ok (),{ z with pos := pos })
def putRef (r : Slice) : Dec Unit := Dec.modifyStore fun d => { d with refs := d.refs ++ [r] }

/-- The loop of `libnfs_zdr_array` -/
def zdrElements (proc : Dec Unit) : ℕ → Dec Unit
  | 0 => pure ()
  | n+1 => do
    proc
    zdrElements proc n

/-- `libnfs_zdr_array`, with enough memory -/
def zdrArray (elsize : ℕ) (proc : Dec Unit) : Dec Unit := do
  let size ← zdrUInt
  putWord size
  if (2^32-1)/elsize < size then Dec.fail
  else zdrElements proc size

/-- `zdr_READ4resok`: the length word is looked at and left for the reader. -/
def zdrREAD4resok : Dec Unit := do
  let eof ← zdrUInt
  putWord eof
  let pos ← getPos
  let len ← zdrUInt
  putWord len
  setPos pos

/-- `zdr_READ4res` -/
def zdrREAD4res : Dec Unit := do
  let status ← zdrUInt
  putWord status
  if status = 0 then zdrREAD4resok
  else pure ()

def opPutfh : ℕ := 22
def opRead : ℕ := 25

/-- `zdr_nfs_resop4` on the operations of a READ; `other` decodes the results of the others. -/
def zdrNfsResop4 (other : ℕ → Dec Unit) : Dec Unit := do
  let op ← zdrUInt
  putWord op
  if op = opPutfh then zdrWords 1
  else if op = opRead then zdrREAD4res
  else other op

/-- `zdr_COMPOUND4res`; `elsize` is the size of a `nfs_resop4`. -/
def zdrCOMPOUND4res (elsize : ℕ) (other : ℕ → Dec Unit) : Dec Unit := do
  let status ← zdrUInt
  Dec.modifyStore fun _ => { status := status, words := [status] }
  let tag ← zdrBytes
  putRef tag
  zdrArray elsize (zdrNfsResop4 other)

/-- A word that decodes lies inside the buffer. -/
theorem zdrUInt_ok {buf : List UInt8} {z z' : State} {n : ℕ} (h : zdrUInt buf z = (.ok n,z')) :
    0 ≤ z.pos ∧ z.pos+4 ≤ buf.length ∧ n = be32 (buf.drop z.pos.toNat) ∧
      z' = { z with pos := z.pos+4 } := by
  unfold zdrUInt at h
  split at h
  · simp at h
  · split at h
    · simp at h
    · simp only [Prod.mk.injEq,Res.ok.injEq] at h
      refine ⟨by omega,by omega,h.1.symm,h.2.symm⟩

end Zdr
end Libnfs
