import Mathlib.Tactic

/-! What `lib/nfs_v4.c` reads in the `fattr4` of a reply: `nfs_parse_attributes`, `nfs_parse_rwmax` and
`nfs_parse_statvfs64`. -/
namespace Libnfs
namespace Attributes

/-- `attrlist4`: the memory from its first byte on, and its length, as the `int` that is handed over -/
structure Attrlist where
  mem : ℤ → UInt8
  len : ℤ

/-- The attributes of a result that has none: the decoder leaves zeros there. -/
def Attrlist.empty : Attrlist := ⟨fun _ => 0,0⟩

def Attrlist.ofBytes (bytes : List UInt8) : Attrlist := ⟨fun i => bytes.getD i.toNat 0,bytes.length⟩

/-- `struct nfs_stat_64` -/
structure Stat64 where
  dev : ℕ
  ino : ℕ
  mode : ℕ
  nlink : ℕ
  uid : ℕ
  gid : ℕ
  rdev : ℕ
  size : ℕ
  blksize : ℕ
  blocks : ℕ
  atime : ℕ
  mtime : ℕ
  ctime : ℕ
  atimeNsec : ℕ
  mtimeNsec : ℕ
  ctimeNsec : ℕ
  used : ℕ
  deriving DecidableEq, Repr

/-- After the `memset` -/
def Stat64.zero : Stat64 := ⟨0,0,0,0,0,0,0,0,0,0,0,0,0,0,0,0,0⟩

/-- `buf` as an offset, and `len` -/
structure Cur where
  buf : ℤ
  len : ℤ

/-- What a function has read, and whether it has failed -/
abbrev Parse (σ : Type) := OptionT (StateM (Cur × σ))

variable {σ : Type}

/-- `CHECK_GETATTR_BUF_SPACE` -/
def checkGetattrBufSpace (size : ℤ) : Parse σ Unit := do
  if (← get).1.len < size then failure

/-- `buf += n`, and `len -= m` -/
def advance (n m : ℤ) : Parse σ Unit := modify fun s => (⟨s.1.buf+n,s.1.len-m⟩,s.2)

def fill (f : σ → σ) : Parse σ Unit := modify fun s => (s.1,f s.2)

/-- `ntohl` and `nfs_pntoh64`: the first `n` bytes, the most significant in front -/
def ntoh (mem : ℤ → UInt8) (buf : ℤ) : ℕ → ℕ
  | 0 => 0
  | n+1 => ntoh mem buf n*256+(mem (buf+n)).toNat

/-- The same in the order of the host, the least significant in front -/
def host (mem : ℤ → UInt8) (buf : ℤ) : ℕ → ℕ
  | 0 => 0
  | n+1 => (mem buf).toNat+256*host mem (buf+1) n

/-- An integer of `n` bytes, behind the check that it fits -/
def number (mem : ℤ → UInt8) (n : ℕ) : Parse σ ℕ := do
  checkGetattrBufSpace n
  let buf := (← get).1.buf
  advance n n
  return ntoh mem buf n

/-- What an `int` takes of a number -/
def int32 (n : ℤ) : ℤ := n.bmod (2^32)

/-- What a `uint64_t` takes of an `int` -/
def uint64 (n : ℤ) : ℕ := (n % 2^64).toNat

/-- `getpwnam` for the name that starts at an address: its `pw_uid` and `pw_gid` -/
abbrev Getpwnam := (ℕ → UInt8) → Option (ℤ × ℤ)

/-- The loop of `nfs_get_ugid`, which runs `slen` times unless it finds something that is no digit -/
def getUgid (getpwnam : Getpwnam) (mem : ℤ → UInt8) (name : ℤ) (isUser : Bool) : ℕ → ℤ → ℤ → ℤ
  | 0, _, ugid => ugid
  | slen+1, buf, ugid =>
    if 48 ≤ mem buf ∧ mem buf ≤ 57 then
      getUgid getpwnam mem name isUser slen (buf+1) (int32 (int32 (ugid*10)+((mem buf).toNat-48)))
    else
      match getpwnam fun i => mem (name+i) with
      | some pw => if isUser then pw.1 else pw.2
      | none => 65534

/-- `nfs_get_ugid`. A negative `slen` counts down until it wraps around. -/
def nfsGetUgid (getpwnam : Getpwnam) (mem : ℤ → UInt8) (buf slen : ℤ) (isUser : Bool) : ℤ :=
  getUgid getpwnam mem buf isUser (slen % 2^32).toNat buf 0

/-- The `S_IFMT` bits of an `nfs_ftype4` -/
def typeBits (type : ℕ) : ℕ :=
  if type = 1 then 0o100000
  else if type = 2 then 0o040000
  else if type = 3 then 0o060000
  else if type = 4 then 0o020000
  else if type = 5 then 0o120000
  else if type = 6 then 0o140000
  else if type = 7 then 0o010000
  else 0

/-- The owner or the group. `len` is not reduced by the length of the string. -/
def ugid (getpwnam : Getpwnam) (mem : ℤ → UInt8) (isUser : Bool) : Parse σ ℤ := do
  let slen := int32 (← number mem 4)
  let pad := -slen % 4
  checkGetattrBufSpace slen
  let id := nfsGetUgid getpwnam mem (← get).1.buf slen isUser
  advance slen 0
  checkGetattrBufSpace pad
  advance pad pad
  return id

/-- Seconds and nanoseconds -/
def time (mem : ℤ → UInt8) : Parse σ (ℕ × ℕ) := do
  checkGetattrBufSpace 12
  let sec ← number mem 8
  let nsec ← number mem 4
  return (sec,nsec)

/-- The body of `nfs_parse_attributes` -/
def parseAttributes (getpwnam : Getpwnam) (mem : ℤ → UInt8) : Parse Stat64 Unit := do
  let type ← number mem 4
  let size ← number mem 8
  fill fun st => { st with size := size }
  checkGetattrBufSpace 16
  let buf := (← get).1.buf
  fill fun st => { st with dev := host mem buf 8 ^^^ host mem (buf+8) 8 }
  advance 16 16
  let ino ← number mem 8
  fill fun st => { st with ino := ino }
  let mode ← number mem 4
  fill fun st => { st with mode := mode ||| typeBits type }
  let nlink ← number mem 4
  fill fun st => { st with nlink := nlink }
  let uid ← ugid getpwnam mem true
  fill fun st => { st with uid := uint64 uid }
  let gid ← ugid getpwnam mem false
  fill fun st => { st with gid := uint64 gid }
  let rdev ← number mem 8
  fill fun st => { st with rdev := rdev }
  let used ← number mem 8
  fill fun st => { st with used := used }
  let atime ← time mem
  fill fun st => { st with atime := atime.1, atimeNsec := atime.2 }
  let ctime ← time mem
  fill fun st => { st with ctime := ctime.1, ctimeNsec := ctime.2 }
  let mtime ← time mem
  fill fun st => { st with mtime := mtime.1, mtimeNsec := mtime.2 }
  fill fun st => { st with blksize := 4096, blocks := (st.used+4095) % 2^64/4096 }

/-- `nfs_parse_attributes` into an empty `struct nfs_stat_64`: whether it returns 0, and what it has filled in -/
def nfsParseAttributes (getpwnam : Getpwnam) (attrs : Attrlist) : Bool × Stat64 :=
  let r := (parseAttributes getpwnam attrs.mem).run (⟨0,attrs.len⟩,Stat64.zero)
  (r.1.isSome,r.2.2)

/-- `(st.nfs_mode & S_IFMT) == S_IFLNK` -/
def Stat64.isLink (st : Stat64) : Bool := st.mode &&& 0o170000 = 0o120000

/-- `nfs_parse_rwmax`: `maxread` and `maxwrite`, if it returns 0 -/
def nfsParseRwmax (attrs : Attrlist) : Option (ℕ × ℕ) :=
  let r := (do
    let readmax ← number attrs.mem 8
    let writemax ← number attrs.mem 8
    return (readmax,writemax) : Parse Unit (ℕ × ℕ)).run (⟨0,attrs.len⟩,())
  r.1

/-- `struct nfs_statvfs_64`, as far as it is read in a reply -/
structure Statvfs64 where
  fsid : ℕ
  favail : ℕ
  ffree : ℕ
  files : ℕ
  namemax : ℕ
  bavail : ℕ
  bfree : ℕ
  blocks : ℕ
  deriving DecidableEq, Repr

/-- `nfs_parse_statvfs64`, if it returns 0. `nfs_parse_statvfs` reads the same. -/
def nfsParseStatvfs64 (attrs : Attrlist) : Option Statvfs64 :=
  let mem := attrs.mem
  let r := (do
    checkGetattrBufSpace 16
    let fsid0 ← number mem 8
    let fsid1 ← number mem 8
    let favail ← number mem 8
    let ffree ← number mem 8
    let files ← number mem 8
    let namemax ← number mem 4
    let bavail ← number mem 8
    let bfree ← number mem 8
    let blocks ← number mem 8
    return ⟨fsid0 ||| fsid1,favail,ffree,files,namemax,bavail/4096,bfree/4096,blocks/4096⟩ :
      Parse Unit Statvfs64).run (⟨0,attrs.len⟩,())
  r.1

end Attributes
end Libnfs
