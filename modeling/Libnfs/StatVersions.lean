import Libnfs.Fattr4
import Libnfs.RpcMsg

/-! The `struct nfs_stat_64` of one file as NFSv3 and as NFSv4 deliver it: `zdr_fattr3` and `nfs3_stat64_1_cb` on one side,
`nfs_parse_attributes` on the other. -/
namespace Libnfs
namespace StatVersions

open ByteWords Zdrmem Attributes

variable {α : Type}

/-- `ftype3` -/
inductive Ftype3
  | reg | dir | blk | chr | lnk | sock | fifo
  deriving DecidableEq, Repr

def Ftype3.num : Ftype3 → UInt32
  | reg => 1
  | dir => 2
  | blk => 3
  | chr => 4
  | lnk => 5
  | sock => 6
  | fifo => 7

/-- `struct fattr3` -/
structure Fattr3 where
  type : UInt32
  mode : UInt32
  nlink : UInt32
  uid : UInt32
  gid : UInt32
  size : UInt64
  used : UInt64
  rdev : UInt32 × UInt32
  fsid : UInt64
  fileid : UInt64
  atime : UInt32 × UInt32
  mtime : UInt32 × UInt32
  ctime : UInt32 × UInt32

/-- `zdr_nfstime3` and `zdr_specdata3` -/
def zdrPair : Zop (UInt32 × UInt32) := do
  let a ← zdrUInt.dec 0
  let b ← zdrUInt.dec 0
  return (a,b)

/-- `zdr_fattr3` -/
def zdrFattr3 : Zop Fattr3 := do
  let type ← zdrEnum.dec 0
  let mode ← zdrUInt.dec 0
  let nlink ← zdrUInt.dec 0
  let uid ← zdrUInt.dec 0
  let gid ← zdrUInt.dec 0
  let size ← zdrUInt64.dec 0
  let used ← zdrUInt64.dec 0
  let rdev ← zdrPair
  let fsid ← zdrUInt64.dec 0
  let fileid ← zdrUInt64.dec 0
  let atime ← zdrPair
  let mtime ← zdrPair
  let ctime ← zdrPair
  return ⟨type,mode,nlink,uid,gid,size,used,rdev,fsid,fileid,atime,mtime,ctime⟩

/-- The `switch` over the type in `nfs3_stat64_1_cb` -/
def typeBits3 (type : UInt32) : ℕ :=
  if type = 1 then 0o100000
  else if type = 2 then 0o040000
  else if type = 3 then 0o060000
  else if type = 4 then 0o020000
  else if type = 5 then 0o120000
  else if type = 6 then 0o140000
  else if type = 7 then 0o010000
  else 0

/-- `nfs3_stat64_1_cb` for a reply with attributes -/
def nfs3Stat64 (a : Fattr3) : Stat64 where
  dev := a.fsid.toNat
  ino := a.fileid.toNat
  mode := a.mode.toNat ||| typeBits3 a.type
  nlink := a.nlink.toNat
  uid := a.uid.toNat
  gid := a.gid.toNat
  rdev := a.rdev.1.toNat*2^32+a.rdev.2.toNat
  size := a.size.toNat
  blksize := 4096
  blocks := (a.used.toNat+511) % 2^64/512
  atime := a.atime.1.toNat
  mtime := a.mtime.1.toNat
  ctime := a.ctime.1.toNat
  atimeNsec := a.atime.2.toNat
  mtimeNsec := a.mtime.2.toNat
  ctimeNsec := a.ctime.2.toNat
  used := a.used.toNat

/-- The attributes, if they can be decoded -/
def decoded : Zdr.Res Fattr3 → Option Fattr3
  | .ok a => some a
  | _ => none

/-- What the application gets of a `fattr3` -/
def stat3 (bytes : List UInt8) : Option Stat64 :=
  (decoded (zdrFattr3 (zdrmemCreate bytes bytes.length)).1).map nfs3Stat64

/-- What the application gets of a `fattr4` -/
def stat4 (getpwnam : Getpwnam) (bytes : List UInt8) : Option Stat64 :=
  let r := nfsParseAttributes getpwnam (Attrlist.ofBytes bytes)
  if r.1 then some r.2 else none

/-- The attributes of a file that both versions can send -/
structure FileAttrs where
  type : Ftype3
  mode : UInt32
  nlink : UInt32
  uid : UInt32
  gid : UInt32
  size : UInt64
  used : UInt64
  rdev : UInt32 × UInt32
  fsid : UInt64
  fileid : UInt64
  atime : UInt32 × UInt32
  mtime : UInt32 × UInt32
  ctime : UInt32 × UInt32

def FileAttrs.fattr3 (r : FileAttrs) : Fattr3 :=
  ⟨r.type.num,r.mode,r.nlink,r.uid,r.gid,r.size,r.used,r.rdev,r.fsid,r.fileid,r.atime,r.mtime,r.ctime⟩

def ftype4 : Ftype3 → Ftype4
  | .reg => .reg
  | .dir => .dir
  | .blk => .blk
  | .chr => .chr
  | .lnk => .lnk
  | .sock => .sock
  | .fifo => .fifo

/-- The seconds of an `nfstime4` are a hyper. The minor half of an `fsid4` is anything. -/
def FileAttrs.fattr4 (r : FileAttrs) (fsidMinor : UInt64) : Fattr4 where
  type := ftype4 r.type
  size := r.size
  fsidMajor := r.fsid
  fsidMinor := fsidMinor
  fileid := r.fileid
  mode := r.mode
  numlinks := r.nlink
  owner := r.uid
  ownerGroup := r.gid
  rawdev := r.rdev
  spaceUsed := r.used
  atime := (r.atime.1.toUInt64,r.atime.2)
  ctime := (r.ctime.1.toUInt64,r.ctime.2)
  mtime := (r.mtime.1.toUInt64,r.mtime.2)

/-- The encoding of a `specdata3` or an `nfstime3` -/
def pair (t : UInt32 × UInt32) : List UInt8 := Format.word t.1 ++ Format.word t.2

def Fattr3.bytes (a : Fattr3) : List UInt8 :=
  Format.word a.type ++ (Format.word a.mode ++ (Format.word a.nlink ++ (Format.word a.uid ++ (Format.word a.gid ++
    (hyper a.size.toNat ++ (hyper a.used.toNat ++ (pair a.rdev ++ (hyper a.fsid.toNat ++ (hyper a.fileid.toNat ++
    (pair a.atime ++ (pair a.mtime ++ pair a.ctime)))))))))))

theorem reads_pair (t : UInt32 × UInt32) : Reads zdrPair t (pair t) fun _ => [] :=
  Reads.uInt (Reads.lastUInt rfl)

theorem pair_aligned (t : UInt32 × UInt32) : 4 ∣ (pair t).length := ⟨2,rfl⟩

theorem reads_hyper {k : UInt64 → Zop α} {u : UInt64} {a : α} {bs : List UInt8} {p : Option UInt8 → List ℕ}
    (hk : Reads (k u) a bs p) : Reads (zdrUInt64.dec 0 >>= k) a (hyper u.toNat ++ bs) p :=
  Reads.bind (meets_uInt64.reads u 0 trivial (Nat.zero_le _)) ⟨2,rfl⟩ hk

theorem reads_nextPair {k : UInt32 × UInt32 → Zop α} {t : UInt32 × UInt32} {a : α} {bs : List UInt8}
    {p : Option UInt8 → List ℕ} (hk : Reads (k t) a bs p) : Reads (zdrPair >>= k) a (pair t ++ bs) p :=
  Reads.bind (reads_pair t) (pair_aligned t) hk

theorem reads_fattr3 (a : Fattr3) : Reads zdrFattr3 a a.bytes fun _ => [] := by
  refine Reads.bind (meets_enum.reads a.type 0 trivial (Nat.zero_le _)) ⟨1,rfl⟩ ?_
  refine Reads.uInt (Reads.uInt (Reads.uInt (Reads.uInt ?_)))
  refine reads_hyper (reads_hyper (reads_nextPair (reads_hyper (reads_hyper ?_))))
  refine reads_nextPair (reads_nextPair ?_)
  exact (reads_pair a.ctime).map _

theorem fattr3_length (a : Fattr3) : a.bytes.length = 84 := by
  simp [Fattr3.bytes,pair,Format.word]

/-- What `nfs3_stat64_1_cb` makes of a record -/
theorem stat3_bytes (a : Fattr3) : stat3 a.bytes = some (nfs3Stat64 a) := by
  have hlen := fattr3_length a
  have hreads := reads_fattr3 a
  generalize a.bytes = bs at hlen hreads ⊢
  have hsize : toInt (bs.length : ℕ) = bs.length := toInt_eq (by omega) (by omega)
  have hfit : Fit (zdrmemCreate bs bs.length) bs.length := by
    refine ⟨by simp [zdrmemCreate],?_,?_,?_⟩
    all_goals
      simp only [zdrmemCreate,hsize]
      omega
  have hahead : Ahead (zdrmemCreate bs bs.length) bs := ⟨[],by simp [zdrmemCreate]⟩
  obtain ⟨z',hdec,-⟩ := (hreads _ (by simp [zdrmemCreate]) hfit hahead).ok allocated_nil
  simp only [stat3,hdec,decoded,Option.map_some]

/-- What `nfs_parse_attributes` makes of it -/
theorem stat4_bytes (getpwnam : Getpwnam) (r : Fattr4) : ∃ dev, stat4 getpwnam r.bytes = some (r.stat64 dev) := by
  obtain ⟨dev,h⟩ := nfsParseAttributes_bytes getpwnam r
  refine ⟨dev,?_⟩
  rw [stat4,h]
  rfl

/-- Both versions return 0, and what they return differs in `nfs_dev` at most. -/
def Agree (getpwnam : Getpwnam) (r : FileAttrs) (fsidMinor : UInt64) : Prop :=
  ∃ st3 st4, stat3 r.fattr3.bytes = some st3 ∧ stat4 getpwnam (r.fattr4 fsidMinor).bytes = some st4 ∧
    { st4 with dev := st3.dev } = st3

theorem typeBits3_num (t : Ftype3) : typeBits3 t.num = typeBits (ftype4 t).num := by cases t <;> rfl

/-- 512 bytes and 4096 bytes are as many blocks only up to one. -/
theorem blocks_eq {used : ℕ} (h : used < 2^64) :
    (used+4095) % 2^64/4096 = (used+511) % 2^64/512 ↔ used ≤ 512 ∨ 2^64-511 ≤ used := by omega

/-- The two structures, field by field -/
theorem stat64_eq_iff (r : FileAttrs) (fsidMinor : UInt64) (dev : ℕ) :
    { (r.fattr4 fsidMinor).stat64 dev with dev := (nfs3Stat64 r.fattr3).dev } = nfs3Stat64 r.fattr3 ↔
      r.uid.toNat < 2^31 ∧ r.gid.toNat < 2^31 ∧ (r.used.toNat ≤ 512 ∨ 2^64-511 ≤ r.used.toNat) := by
  have hu := uint64_int32 r.uid.toNat_lt
  have hg := uint64_int32 r.gid.toNat_lt
  have hb := blocks_eq r.used.toNat_lt
  unfold Fattr4.stat64 nfs3Stat64 FileAttrs.fattr4 FileAttrs.fattr3
  simp only [Stat64.mk.injEq,typeBits3_num]
  have hsec : ∀ t : UInt32, t.toUInt64.toNat = t.toNat := fun t => UInt32.toNat_toUInt64 t
  rw [hu,hg,hb]
  simp only [hsec,true_and,and_true]

/-- The two versions agree on a file exactly if it takes up one block at most, and its ids are not negative as an `int`. -/
theorem stat_agree_iff (getpwnam : Getpwnam) (r : FileAttrs) (fsidMinor : UInt64) : Agree getpwnam r fsidMinor ↔
    r.uid.toNat < 2^31 ∧ r.gid.toNat < 2^31 ∧ (r.used.toNat ≤ 512 ∨ 2^64-511 ≤ r.used.toNat) := by
  obtain ⟨dev,h4⟩ := stat4_bytes getpwnam (r.fattr4 fsidMinor)
  have h3 := stat3_bytes r.fattr3
  unfold Agree
  rw [h3,h4,← stat64_eq_iff r fsidMinor dev]
  constructor
  · rintro ⟨st3,st4,e3,e4,he⟩
    obtain rfl := Option.some.inj e3
    obtain rfl := Option.some.inj e4
    exact he
  · intro he
    exact ⟨_,_,rfl,rfl,he⟩

/-- A file of 4096 bytes -/
def onePage : FileAttrs := ⟨.reg,0o644,1,0,0,4096,4096,(0,0),0,2,(0,0),(0,0),(0,0)⟩

/-- It takes up eight blocks for NFSv3 and one for NFSv4. -/
theorem stat_differ : (stat3 onePage.fattr3.bytes).map Stat64.blocks = some 8 ∧
    (∀ getpwnam, (stat4 getpwnam (onePage.fattr4 0).bytes).map Stat64.blocks = some 1) ∧
    ∀ getpwnam, ¬ Agree getpwnam onePage 0 := by
  have h3 := stat3_bytes onePage.fattr3
  have hblocks : (nfs3Stat64 onePage.fattr3).blocks = 8 := by decide
  refine ⟨by rw [h3,Option.map_some,hblocks],?_,?_⟩
  · intro getpwnam
    obtain ⟨dev,h4⟩ := stat4_bytes getpwnam (onePage.fattr4 0)
    have hone : ((onePage.fattr4 0).stat64 dev).blocks = 1 := by rfl
    rw [h4,Option.map_some,hone]
  · rintro getpwnam ⟨st3,st4,e3,e4,he⟩
    obtain ⟨dev,h4⟩ := stat4_bytes getpwnam (onePage.fattr4 0)
    rw [h3] at e3
    rw [h4] at e4
    obtain rfl := Option.some.inj e3
    obtain rfl := Option.some.inj e4
    have h := (stat64_eq_iff onePage 0 dev).1 he
    revert h
    decide

end StatVersions
end Libnfs
