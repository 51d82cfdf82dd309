import Libnfs.Zdr

/-! The combinators of `lib/libnfs-zdr.c` over a memory buffer, in both directions. Built without
krb5, for LP64.

`pos` and `size` are the signed `int`s of `struct ZDR`, so that arithmetic on them wraps; a load or
store outside the memory behind `buf` is undefined behaviour and is the outcome `fault`. -/
namespace Libnfs
namespace Zdrmem

open ByteWords Zdr

/-- The value of `n` as an `int`. -/
def toInt (n : ℤ) : ℤ := Int.bmod n (2^32)

/-- `(pos + 3) & ~3` -/
def roundUp (pos : ℤ) : ℤ := toInt (pos+3)/4*4

/-- What a call asks for, in the order of the calls: a word, the data behind a length word, the
data of a fixed length, a block of memory. -/
inductive Step
  | word (pos : ℤ) (len : ℕ)
  | sized (pos : ℤ) (len : ℕ)
  | fixed (pos : ℤ) (len : ℕ)
  | block (size : ℕ)
  deriving DecidableEq, Repr

/-- `struct ZDR`. `buf` is the memory from `zdrs->buf` to the end of its allocation. `steps` and
`refs` are ghosts: what was asked for, and the pointers into the buffer that were handed out. -/
structure Zdrs where
  buf : List UInt8
  size : ℤ
  pos : ℤ
  steps : List Step := []
  refs : List Slice := []
  deriving DecidableEq, Repr

/-- `libnfs_zdrmem_create` -/
def zdrmemCreate (buf : List UInt8) (size : ℕ) : Zdrs := { buf := buf, size := toInt size, pos := 0 }

/-- A call that may return FALSE or run into undefined behaviour. -/
def Zop (α : Type) := Zdrs → Res α × Zdrs

namespace Zop

variable {α β : Type}

def pure (a : α) : Zop α := fun z => (.ok a,z)

def bind (m : Zop α) (f : α → Zop β) : Zop β := fun z =>
  match m z with
  | (.ok a,z') => f a z'
  | (.fail,z') => (.fail,z')
  | (.fault,z') => (.fault,z')

instance : Monad Zop where
  pure := pure
  bind := bind

/-- `return FALSE` -/
def fail : Zop α := fun z => (.fail,z)

def fault : Zop α := fun z => (.fault,z)

end Zop

def note (s : Step) : Zop Unit := fun z => (.ok (),{ z with steps := z.steps ++ [s] })

def setPos (pos : ℤ) : Zop Unit := fun z => (.ok (),{ z with pos := pos })

/-- Whether `len` bytes from `pos` on are inside the memory. -/
def Inside (z : Zdrs) (pos : ℤ) (len : ℕ) : Prop := len = 0 ∨ 0 ≤ pos ∧ pos+len ≤ z.buf.length

instance (z : Zdrs) (pos : ℤ) (len : ℕ) : Decidable (Inside z pos len) :=
  inferInstanceAs (Decidable (_ ∨ _))

def load (pos : ℤ) (len : ℕ) : Zop (List UInt8) := fun z =>
  if Inside z pos len then (.ok ((z.buf.drop pos.toNat).take len),z) else (.fault,z)

def store (pos : ℤ) (bs : List UInt8) : Zop Unit := fun z =>
  if Inside z pos bs.length then
    (.ok (),{ z with buf := overwrite z.buf pos.toNat bs })
  else (.fault,z)

/-- `memcpy` from and to the cursor -/
def loadHere (len : ℕ) : Zop (List UInt8) := fun z => load z.pos len z
def storeHere (bs : List UInt8) : Zop Unit := fun z => store z.pos bs z

/-- `zdr_malloc`. `mem_size` is an `int`; the block has a header of 12 bytes. When it is negative
`malloc` fails and the header is written through NULL, and when it is less than 12 the header
does not fit. -/
def zdrMalloc (size : ℕ) : Zop Unit := do
  note (.block size)
  if toInt (12+size) < 12 then Zop.fault else pure ()

/-- `zdrs->pos + len > zdrs->size` for the `len` bytes of a word -/
def room (len : ℕ) : Zop Unit := fun z =>
  if toInt (z.pos+len) > z.size then (.fail,z)
  else (.ok (),{ z with steps := z.steps ++ [.word z.pos len] })

/-- `zdrs->pos += len` -/
def advance (len : ℕ) : Zop Unit := fun z => (.ok (),{ z with pos := toInt (z.pos+len) })

/-- The encoding half of `libnfs_zdr_u_int` -/
def zdrUIntEncode (u : ℕ) : Zop Unit := do
  room 4
  storeHere (beBytes u)
  advance 4

/-- The decoding half of `libnfs_zdr_u_int` -/
def zdrUIntDecode : Zop ℕ := do
  room 4
  let bs ← loadHere 4
  advance 4
  return be32 bs

/-- The encoding half of `libnfs_zdr_uint64_t` -/
def zdrUInt64Encode (u : ℕ) : Zop Unit := do
  room 8
  storeHere (beBytes (u/2^32))
  advance 4
  storeHere (beBytes u)
  advance 4

/-- The decoding half of `libnfs_zdr_uint64_t` -/
def zdrUInt64Decode : Zop ℕ := do
  room 8
  let hi ← loadHere 4
  advance 4
  let lo ← loadHere 4
  advance 4
  return be32 hi*2^32+be32 lo

/-- `zdrs->pos + (int)len > zdrs->size` -/
def checkLen (len : ℕ) : Zop Unit := fun z =>
  let z' := { z with steps := z.steps ++ [.sized z.pos len] }
  if toInt (z.pos+sint32 len) > z.size then (.fail,z') else (.ok (),z')

/-- The bytes that round `pos` up to a multiple of four: `(4 - (pos & 3)) & 3` -/
def padding (pos : ℤ) : ℕ := ((4-pos%4)%4).toNat

/-- The zero bytes of `libnfs_zdr_bytes` -/
def padHere : Zop Unit := fun z =>
  if padding z.pos = 0 then (.ok (),z)
  else (do
    storeHere (List.replicate (padding z.pos) 0)
    advance (padding z.pos)) z

/-- The encoding half of `libnfs_zdr_bytes`; `bs` are the `*size` bytes at `*bufp`. -/
def zdrBytesEncode (bs : List UInt8) : Zop Unit := do
  zdrUIntEncode bs.length
  checkLen bs.length
  storeHere bs
  advance bs.length
  padHere

/-- `zdrs->pos += len; zdrs->pos = (zdrs->pos + 3) & ~3` -/
def skip (len : ℕ) : Zop Unit := fun z => (.ok (),{ z with pos := roundUp (toInt (z.pos+len)) })

/-- A pointer to `len` bytes of the buffer is handed out. -/
def handOut (len : ℕ) : Zop Slice := fun z =>
  (.ok ⟨z.pos,len⟩,{ z with refs := z.refs ++ [⟨z.pos,len⟩] })

/-- The decoding half of `libnfs_zdr_bytes` with `*bufp == NULL` -/
def zdrBytesDecode : Zop Slice := do
  let size ← zdrUIntDecode
  checkLen size
  let r ← handOut size
  skip size
  return r

/-- The decoding half of `libnfs_zdr_bytes` with a buffer of the caller in `*bufp` -/
def zdrBytesInto : Zop (List UInt8) := do
  let size ← zdrUIntDecode
  checkLen size
  let bs ← loadHere size
  skip size
  return bs

def noteFixed (len : ℕ) : Zop Unit := fun z => note (.fixed z.pos len) z

/-- The zero bytes of `libnfs_zdr_opaque` -/
def zeroHere : Zop Unit := fun z =>
  if z.pos%4 = 0 then (.ok (),z) else storeHere (List.replicate (4-z.pos%4).toNat 0) z

/-- The encoding half of `libnfs_zdr_opaque` -/
def zdrOpaqueEncode (bs : List UInt8) : Zop Unit := do
  noteFixed bs.length
  storeHere bs
  advance bs.length
  zeroHere
  skip 0

/-- The decoding half of `libnfs_zdr_opaque` -/
def zdrOpaqueDecode (size : ℕ) : Zop (List UInt8) := do
  noteFixed size
  let bs ← loadHere size
  skip size
  return bs

/-- The bytes of a C string -/
def cString (s : List UInt8) : List UInt8 := s.takeWhile (· ≠ 0)

/-- The encoding half of `libnfs_zdr_string`; `size` is a `uint32_t`. -/
def zdrStringEncode (s : List UInt8) : Zop Unit := do
  let size := (cString s).length % 2^32
  zdrUIntEncode size
  checkLen size
  zdrOpaqueEncode ((cString s).take size)

/-- Whether the string of `size` bytes at `pos` ends in a null byte in the buffer. The index
`zdrs->pos + size` is a `uint32_t`. -/
def terminated (size : ℕ) : Zop Bool := fun z =>
  if z.size > toInt (z.pos+sint32 size) then
    (do
      let b ← load ((z.pos+size)%2^32) 1
      return decide (b = [0])) z
  else (.ok false,z)

/-- The bytes behind a pointer into the buffer -/
def view (r : Slice) : Zop (List UInt8) := fun z => (.ok ((z.buf.drop r.off.toNat).take r.len),z)

/-- `(*strp)[size] = 0` -/
def terminate (size : ℕ) : Zop Unit := fun z => store (z.pos+size) [0] z

/-- The string where it lies in the buffer -/
def stringInPlace (size : ℕ) : Zop (List UInt8) := do
  let r ← handOut size
  terminate size
  skip size
  view r

/-- A copy of the string with room for the null byte; `size + 1` is a `uint32_t`, and the byte is
written at the index `size`. -/
def stringCopy (size : ℕ) : Zop (List UInt8) := do
  zdrMalloc ((size+1)%2^32)
  if (size+1)%2^32 ≤ size then Zop.fault else zdrOpaqueDecode size

/-- The decoding half of `libnfs_zdr_string` -/
def zdrStringDecode : Zop (List UInt8) := do
  let size ← zdrUIntDecode
  checkLen size
  let t ← terminated size
  if t then stringInPlace size else stringCopy size

/-- The decoding half of `libnfs_zdr_pointer`, with an object of `size` bytes behind it -/
def zdrPointerDecode {α : Type} (size : ℕ) (proc : Zop α) : Zop (Option α) := do
  let more ← zdrUIntDecode
  if more = 0 then return none
  else
    zdrMalloc size
    let a ← proc
    return some a

/-- The decoding loop of `libnfs_zdr_array` and `libnfs_zdr_vector` -/
def zdrVectorDecode {α : Type} (proc : Zop α) : ℕ → Zop (List α)
  | 0 => pure []
  | n+1 => do
    let a ← proc
    let as ← zdrVectorDecode proc n
    return a::as

/-- The decoding half of `libnfs_zdr_array`; `i` and the bound of the loop are `int`s. -/
def zdrArrayDecode {α : Type} (elsize : ℕ) (proc : Zop α) : Zop (List α) := do
  let size ← zdrUIntDecode
  if (2^32-1)/elsize < size then Zop.fail
  else
    zdrMalloc (size*elsize)
    zdrVectorDecode proc (sint32 size).toNat

/-- The encoding loop of `libnfs_zdr_array` and `libnfs_zdr_vector` -/
def zdrVectorEncode {α : Type} (proc : α → Zop Unit) : List α → Zop Unit
  | [] => pure ()
  | a::as => do
    proc a
    zdrVectorEncode proc as

/-- The encoding half of `libnfs_zdr_array` -/
def zdrArrayEncode {α : Type} (elsize : ℕ) (proc : α → Zop Unit) (as : List α) : Zop Unit := do
  zdrUIntEncode as.length
  if (2^32-1)/elsize < as.length then Zop.fail
  else zdrVectorEncode proc (as.take (sint32 as.length).toNat)

/-- The encoding half of `libnfs_zdr_pointer` -/
def zdrPointerEncode {α : Type} (proc : α → Zop Unit) : Option α → Zop Unit
  | none => zdrUIntEncode 0
  | some a => do
    zdrUIntEncode 1
    proc a

/-- What a call with a bounded stack returns; `none` says that the stack was too small. -/
def Bounded (α : Type) := Zdrs → Option (Res α) × Zdrs

/-- A pointer, and behind its object the rest of the chain. -/
def chainLink {α : Type} (ptr : Zop (Option α)) (rest : Bounded (List α)) : Bounded (List α) := fun z =>
  match ptr z with
  | (.ok none,z) => (some (.ok []),z)
  | (.ok (some a),z) =>
    match rest z with
    | (some (.ok as),z) => (some (.ok (a::as)),z)
    | r => r
  | (.fail,z) => (some .fail,z)
  | (.fault,z) => (some .fault,z)

/-- A chain of elements, each `proc` and a pointer to the next, as `libnfs_zdr_pointer` decodes it.
Each element is a call inside the last one; there is room for `fuel` of them on the stack. -/
def zdrChainDecode {α : Type} (size : ℕ) (proc : Zop α) : ℕ → Bounded (List α)
  | 0 => fun z => (none,z)
  | fuel+1 => chainLink (zdrPointerDecode size proc) (zdrChainDecode size proc fuel)

/-- Without room on the stack a call crashes. -/
def Bounded.call {α : Type} (m : Bounded α) : Zop α := fun z =>
  match m z with
  | (some r,z) => (r,z)
  | (none,z) => (.fault,z)

/-- The chain as `libnfs_zdr_pointer` encodes it. -/
def zdrChainEncode {α : Type} (proc : α → Zop Unit) : List α → Zop Unit
  | [] => zdrUIntEncode 0
  | a::as => do
    zdrUIntEncode 1
    proc a
    zdrChainEncode proc as

/-- A `zdrproc_t`, its encoding and its decoding half. Decoding has room on the stack for `fuel`
calls that are nested in each other. -/
structure Codec (α : Type) where
  enc : α → Zop Unit
  dec : ℕ → Zop α

/-- `libnfs_zdr_u_int` -/
def zdrUInt : Codec UInt32 where
  enc u := zdrUIntEncode u.toNat
  dec _ := do return UInt32.ofNat (← zdrUIntDecode)

/-- `libnfs_zdr_int` -/
def zdrInt : Codec Int32 where
  enc i := zdrUInt.enc i.toUInt32
  dec fuel := do return (← zdrUInt.dec fuel).toInt32

/-- `libnfs_zdr_enum`: an `enum_t` is a `uint32_t`, passed on as an `int32_t`. -/
def zdrEnum : Codec UInt32 where
  enc e := zdrInt.enc e.toInt32
  dec fuel := do return (← zdrInt.dec fuel).toUInt32

/-- `libnfs_zdr_bool`: a `bool_t` is a `uint32_t`. -/
def zdrBool : Codec UInt32 := zdrUInt

/-- `libnfs_zdr_uint64_t` -/
def zdrUInt64 : Codec UInt64 where
  enc u := zdrUInt64Encode u.toNat
  dec _ := do return UInt64.ofNat (← zdrUInt64Decode)

/-- `libnfs_zdr_int64_t` -/
def zdrInt64 : Codec Int64 where
  enc i := zdrUInt64.enc i.toUInt64
  dec fuel := do return (← zdrUInt64.dec fuel).toInt64

/-- `libnfs_zdr_bytes` into zeroed storage -/
def zdrBytes : Codec (List UInt8) where
  enc := zdrBytesEncode
  dec _ := do view (← zdrBytesDecode)

/-- `libnfs_zdr_string` -/
def zdrString : Codec (List UInt8) where
  enc := zdrStringEncode
  dec _ := zdrStringDecode

/-- `libnfs_zdr_opaque` -/
def zdrOpaque (size : ℕ) : Codec (List UInt8) where
  enc := zdrOpaqueEncode
  dec _ := zdrOpaqueDecode size

/-- `libnfs_zdr_void` -/
def zdrVoid : Codec Unit where
  enc _ := pure ()
  dec _ := pure ()

/-- Two fields of a structure, one after the other -/
def zdrSeq {α β : Type} (c : Codec α) (d : Codec β) : Codec (α × β) where
  enc v := do
    c.enc v.1
    d.enc v.2
  dec fuel := do
    let a ← c.dec fuel
    let b ← d.dec fuel
    return (a,b)

/-- `libnfs_zdr_pointer` -/
def zdrPointer {α : Type} (size : ℕ) (proc : Codec α) : Codec (Option α) where
  enc := zdrPointerEncode proc.enc
  dec fuel := zdrPointerDecode size (proc.dec fuel)

/-- `libnfs_zdr_array` -/
def zdrArray {α : Type} (elsize : ℕ) (proc : Codec α) : Codec (List α) where
  enc := zdrArrayEncode elsize proc.enc
  dec fuel := zdrArrayDecode elsize (proc.dec fuel)

/-- `libnfs_zdr_vector` -/
def zdrVector {α : Type} (size : ℕ) (proc : Codec α) : Codec (List α) where
  enc := zdrVectorEncode proc.enc
  dec fuel := zdrVectorDecode (proc.dec fuel) size

/-- A linked list of elements of `size` bytes, each `proc` and a pointer to the next. -/
def zdrChain {α : Type} (size : ℕ) (proc : Codec α) : Codec (List α) where
  enc := zdrChainEncode proc.enc
  dec fuel := (zdrChainDecode size (proc.dec fuel) fuel).call

end Zdrmem
end Libnfs
