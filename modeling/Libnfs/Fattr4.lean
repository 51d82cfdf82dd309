import Libnfs.AttributeBounds
import Libnfs.Sattr

/-! The `fattr4` that a server sends for the attributes libnfs asks for, and what `nfs_parse_attributes` makes of it. -/
namespace Libnfs
namespace Attributes

open ByteWords

/-- `nfs_ftype4` -/
inductive Ftype4
  | reg | dir | blk | chr | lnk | sock | fifo | attrdir | namedattr
  deriving DecidableEq, Repr

def Ftype4.num : Ftype4 → ℕ
  | reg => 1
  | dir => 2
  | blk => 3
  | chr => 4
  | lnk => 5
  | sock => 6
  | fifo => 7
  | attrdir => 8
  | namedattr => 9

/-- The attributes that `nfs_parse_attributes` expects, the owner and the group as ids -/
structure Fattr4 where
  type : Ftype4
  size : UInt64
  fsidMajor : UInt64
  fsidMinor : UInt64
  fileid : UInt64
  mode : UInt32
  numlinks : UInt32
  owner : UInt32
  ownerGroup : UInt32
  rawdev : UInt32 × UInt32
  spaceUsed : UInt64
  atime : UInt64 × UInt32
  ctime : UInt64 × UInt32
  mtime : UInt64 × UInt32

/-- A hyper of XDR -/
def hyper (n : ℕ) : List UInt8 := beBytes (n/2^32) ++ beBytes n

/-- `nfstime4` -/
def nfstime4 (t : UInt64 × UInt32) : List UInt8 := hyper t.1.toNat ++ beBytes t.2.toNat

/-- The attributes one after another, in the order of their bits. The owner and the group are sent as the decimal form of the id. -/
def Fattr4.bytes (r : Fattr4) : List UInt8 :=
  beBytes r.type.num ++ (hyper r.size.toNat ++ ((hyper r.fsidMajor.toNat ++ hyper r.fsidMinor.toNat) ++ (hyper r.fileid.toNat ++
    (beBytes r.mode.toNat ++ (beBytes r.numlinks.toNat ++ (Sattr.field (Sattr.decimal r.owner.toNat) ++
    (Sattr.field (Sattr.decimal r.ownerGroup.toNat) ++ ((beBytes r.rawdev.1.toNat ++ beBytes r.rawdev.2.toNat) ++
    (hyper r.spaceUsed.toNat ++ (nfstime4 r.atime ++ (nfstime4 r.ctime ++ nfstime4 r.mtime)))))))))))

/-- The `struct nfs_stat_64` that is filled in -/
def Fattr4.stat64 (r : Fattr4) (dev : ℕ) : Stat64 where
  dev := dev
  ino := r.fileid.toNat
  mode := r.mode.toNat ||| typeBits r.type.num
  nlink := r.numlinks.toNat
  uid := uint64 (int32 r.owner.toNat)
  gid := uint64 (int32 r.ownerGroup.toNat)
  rdev := r.rawdev.1.toNat*2^32+r.rawdev.2.toNat
  size := r.size.toNat
  blksize := 4096
  blocks := (r.spaceUsed.toNat+4095) % 2^64/4096
  atime := r.atime.1.toNat
  mtime := r.mtime.1.toNat
  ctime := r.ctime.1.toNat
  atimeNsec := r.atime.2.toNat
  mtimeNsec := r.mtime.2.toNat
  ctimeNsec := r.ctime.2.toNat
  used := r.spaceUsed.toNat

/-- `bs` lies in the memory from `b` on. -/
def At (mem : ℤ → UInt8) (b : ℤ) (bs : List UInt8) : Prop := ∀ i (h : i < bs.length), mem (b+i) = bs[i]

section At

variable {mem : ℤ → UInt8} {b : ℤ} {xs ys : List UInt8}

theorem at_append : At mem b (xs++ys) ↔ At mem b xs ∧ At mem (b+xs.length) ys := by
  constructor
  · intro h
    constructor
    · intro i hi
      rw [h i (by simp; omega),List.getElem_append_left hi]
    · intro i hi
      have hx := h (xs.length+i) (by simp; omega)
      rw [List.getElem_append_right (by omega)] at hx
      simp only [Nat.add_sub_cancel_left,Nat.cast_add,← add_assoc] at hx
      exact hx
  · rintro ⟨hx,hy⟩ i hi
    by_cases hlt : i < xs.length
    · rw [hx i hlt,List.getElem_append_left hlt]
    · rw [List.getElem_append_right (by omega),← hy (i-xs.length) (by simp at hi; omega)]
      congr 1
      omega

theorem at_ofBytes (bs : List UInt8) : At (Attrlist.ofBytes bs).mem 0 bs := by
  intro i hi
  simp [Attrlist.ofBytes,hi]

theorem ntoh_beBytes {n : ℕ} (h : At mem b (beBytes n)) (hn : n < 2^32) : ntoh mem b 4 = n := by
  have h0 := h 0 (by simp)
  have h1 := h 1 (by simp)
  have h2 := h 2 (by simp)
  have h3 := h 3 (by simp)
  simp only [beBytes,List.getElem_cons_zero,List.getElem_cons_succ] at h0 h1 h2 h3
  simp only [ntoh,h0,h1,h2,h3,UInt8.toNat_ofNat']
  omega

theorem ntoh_append (n m : ℕ) : ntoh mem b (n+m) = ntoh mem b n*256^m+ntoh mem (b+n) m := by
  induction m with
  | zero => simp [ntoh]
  | succ m ih =>
    rw [← add_assoc,ntoh,ntoh,ih,pow_succ,show b+((n+m : ℕ) : ℤ) = b+n+m by push_cast; ring]
    ring

/-- Two words, the first in front -/
theorem ntoh_words {n m : ℕ} (h : At mem b (beBytes n ++ beBytes m)) (hn : n < 2^32) (hm : m < 2^32) :
    ntoh mem b 8 = n*2^32+m := by
  obtain ⟨h1,h2⟩ := at_append.1 h
  rw [beBytes_length] at h2
  rw [show (8:ℕ) = 4+4 from rfl,ntoh_append,ntoh_beBytes h1 hn,ntoh_beBytes h2 hm]
  norm_num

theorem ntoh_hyper {n : ℕ} (h : At mem b (hyper n)) (hn : n < 2^64) : ntoh mem b 8 = n := by
  have hb : hyper n = beBytes (n/2^32) ++ beBytes (n%2^32) := by rw [beBytes_mod,hyper]
  rw [hb] at h
  rw [ntoh_words h (by omega) (by omega)]
  omega

end At

section Run

variable {σ α β : Type} {mem : ℤ → UInt8} {b c : ℤ} {st : σ}

theorem check_run {n : ℤ} (f : Unit → Parse σ β) (h : n ≤ c) :
    (checkGetattrBufSpace n >>= f).run (⟨b,c⟩,st) = (f ()).run (⟨b,c⟩,st) := by
  rw [run_bind,checkGetattrBufSpace_run,if_neg (show ¬c < n by omega)]

theorem get_run (f : Cur × σ → Parse σ β) (s : Cur × σ) : (get >>= f).run s = (f s).run s := rfl

theorem advance_run (n m : ℤ) (f : Unit → Parse σ β) :
    (advance n m >>= f).run (⟨b,c⟩,st) = (f ()).run (⟨b+n,c-m⟩,st) := rfl

theorem fill_run (g : σ → σ) (f : Unit → Parse σ β) (s : Cur × σ) : (fill g >>= f).run s = (f ()).run (s.1,g s.2) := rfl

theorem fill_last (g : σ → σ) (s : Cur × σ) : (fill g).run s = (some (),(s.1,g s.2)) := rfl

theorem number_run {n : ℕ} (f : ℕ → Parse σ β) (h : n ≤ c) :
    (number mem n >>= f).run (⟨b,c⟩,st) = (f (ntoh mem b n)).run (⟨b+n,c-n⟩,st) := by
  unfold number
  simp only [bind_assoc]
  rw [check_run _ h]
  rfl

theorem time_run {t : UInt64 × UInt32} (f : ℕ × ℕ → Parse σ β) (h : 12 ≤ c) (ht : At mem b (nfstime4 t)) :
    (time mem >>= f).run (⟨b,c⟩,st) = (f (t.1.toNat,t.2.toNat)).run (⟨b+12,c-12⟩,st) := by
  obtain ⟨h1,h2⟩ := at_append.1 ht
  have hs := ntoh_hyper h1 t.1.toNat_lt
  have hn := ntoh_beBytes h2 t.2.toNat_lt
  unfold time
  simp only [bind_assoc]
  rw [check_run _ h,number_run _ (by omega),number_run _ (by omega),hs]
  have hb : ((hyper t.1.toNat).length : ℤ) = (8:ℕ) := by simp [hyper]
  rw [hb] at hn
  rw [hn]
  have hcur : (⟨b+(8:ℕ)+(4:ℕ),c-(8:ℕ)-(4:ℕ)⟩ : Cur) = ⟨b+12,c-12⟩ := by
    rw [Cur.mk.injEq]
    omega
  rw [hcur]
  rfl

/-- The loop of `nfs_get_ugid` over digits -/
theorem getUgid_digits (getpwnam : Getpwnam) (name : ℤ) (isUser : Bool) {ds : List Char} (hd : ∀ c ∈ ds, c.isDigit)
    {buf : ℤ} (h : At mem buf (ds.map fun c => UInt8.ofNat c.toNat)) (v : ℕ) :
    getUgid getpwnam mem name isUser ds.length buf (int32 v) = int32 (Nat.ofDigitChars 10 ds v) := by
  induction ds generalizing buf v with
  | nil => rfl
  | cons d ds ih =>
    have hdig := hd d (List.mem_cons_self ..)
    simp only [Char.isDigit,Bool.and_eq_true,decide_eq_true_eq] at hdig
    have h1 : 48 ≤ d.toNat := hdig.1
    have h2 : d.toNat ≤ 57 := hdig.2
    have h0 := h 0 (by simp)
    simp only [List.map_cons,List.getElem_cons_zero,Nat.cast_zero,add_zero] at h0
    have hnat : (mem buf).toNat = d.toNat := by
      rw [h0,UInt8.toNat_ofNat']
      omega
    have htail : At mem (buf+1) (ds.map fun c => UInt8.ofNat c.toNat) := by
      have hcons : At mem buf ([UInt8.ofNat d.toNat] ++ ds.map fun c => UInt8.ofNat c.toNat) := h
      exact (at_append.1 hcons).2
    have hstep : int32 (int32 (int32 v*10)+(((mem buf).toNat : ℤ)-48)) = int32 ((10*v+(d.toNat-Char.toNat '0') : ℕ) : ℤ) := by
      have hz : Char.toNat '0' = 48 := rfl
      rw [hnat,hz,show ((10*v+(d.toNat-48) : ℕ) : ℤ) = v*10+((d.toNat : ℤ)-48) by omega]
      simp [int32]
    rw [List.length_cons,getUgid,if_pos ⟨by rw [UInt8.le_iff_toNat_le,hnat]; exact h1,by rw [UInt8.le_iff_toNat_le,hnat]; exact h2⟩,
      hstep,ih (fun c hc => hd c (List.mem_cons_of_mem _ hc)) htail,Nat.ofDigitChars_cons]

/-- The bytes behind the end of a string -/
def padOf (s : List UInt8) : ℕ := (4-s.length%4)%4

theorem field_length (s : List UInt8) : (Sattr.field s).length = 4+s.length+padOf s := by
  simp only [Sattr.field,List.length_append,beBytes_length,List.length_replicate,padOf]

theorem id_length (id : UInt32) : (Sattr.decimal id.toNat).length ≤ 10 := by
  have h := id.toNat_lt
  exact Sattr.decimal_length (by omega)

theorem ugid_run {getpwnam : Getpwnam} {isUser : Bool} {id : UInt32} (f : ℤ → Parse σ β)
    (h : At mem b (Sattr.field (Sattr.decimal id.toNat))) (hc : 16 ≤ c) :
    (ugid getpwnam mem isUser >>= f).run (⟨b,c⟩,st) = (f (int32 id.toNat)).run
      (⟨b+(Sattr.field (Sattr.decimal id.toNat)).length,c-4-padOf (Sattr.decimal id.toNat)⟩,st) := by
  have hlen := id_length id
  have hfield := field_length (Sattr.decimal id.toNat)
  obtain ⟨h1,-⟩ := at_append.1 h
  obtain ⟨hword,hs⟩ := at_append.1 h1
  rw [beBytes_length] at hs
  have hid : nfsGetUgid getpwnam mem (b+(4:ℕ)) (Sattr.decimal id.toNat).length isUser = int32 id.toNat := by
    have hrun := getUgid_digits getpwnam (b+(4:ℕ)) isUser
      (fun c hc => Nat.isDigit_of_mem_toDigits (by norm_num) (by norm_num) hc) hs 0
    rw [Nat.ofDigitChars_ten_toDigits] at hrun
    unfold nfsGetUgid
    rw [show ((Sattr.decimal id.toNat).length % 2^32 : ℤ).toNat = (Nat.toDigits 10 id.toNat).length by
      rw [show (Nat.toDigits 10 id.toNat).length = (Sattr.decimal id.toNat).length by simp [Sattr.decimal]]
      omega]
    exact hrun
  have hpad : -((Sattr.decimal id.toNat).length : ℤ) % 4 = padOf (Sattr.decimal id.toNat) := by
    unfold padOf
    omega
  have hpad4 : padOf (Sattr.decimal id.toNat) < 4 := by
    unfold padOf
    omega
  unfold ugid
  simp only [bind_assoc]
  rw [number_run _ (by omega),ntoh_beBytes hword (by omega),int32_of_lt (by omega),check_run _ (by omega),
    get_run,advance_run,hpad,check_run _ (by omega),advance_run,hid]
  have hcur : (⟨b+(4:ℕ)+(Sattr.decimal id.toNat).length+padOf (Sattr.decimal id.toNat),
      c-(4:ℕ)-0-padOf (Sattr.decimal id.toNat)⟩ : Cur) =
      ⟨b+(Sattr.field (Sattr.decimal id.toNat)).length,c-4-padOf (Sattr.decimal id.toNat)⟩ := by
    rw [Cur.mk.injEq]
    omega
  rw [hcur]
  rfl

@[simp] theorem hyper_length (n : ℕ) : (hyper n).length = 8 := rfl

@[simp] theorem nfstime4_length (t : UInt64 × UInt32) : (nfstime4 t).length = 12 := rfl

theorem Ftype4.num_lt (t : Ftype4) : t.num < 2^32 := by cases t <;> decide

/-- What `nfs_parse_attributes` makes of a record -/
theorem nfsParseAttributes_bytes (getpwnam : Getpwnam) (r : Fattr4) :
    ∃ dev, nfsParseAttributes getpwnam (Attrlist.ofBytes r.bytes) = (true,r.stat64 dev) := by
  refine ⟨host (Attrlist.ofBytes r.bytes).mem 12 8 ^^^ host (Attrlist.ofBytes r.bytes).mem (12+8) 8,?_⟩
  have hat := at_ofBytes r.bytes
  have hlen : (Attrlist.ofBytes r.bytes).len = 44+(Sattr.field (Sattr.decimal r.owner.toNat)).length+
      (Sattr.field (Sattr.decimal r.ownerGroup.toNat)).length+52 := by
    simp [Attrlist.ofBytes,Fattr4.bytes]
    ring
  have ho := field_length (Sattr.decimal r.owner.toNat)
  have hg := field_length (Sattr.decimal r.ownerGroup.toNat)
  have hpo : padOf (Sattr.decimal r.owner.toNat) < 4 := by
    unfold padOf
    omega
  have hpg : padOf (Sattr.decimal r.ownerGroup.toNat) < 4 := by
    unfold padOf
    omega
  unfold nfsParseAttributes
  generalize (Attrlist.ofBytes r.bytes).mem = mem at hat ⊢
  rw [hlen]
  simp only [Fattr4.bytes,at_append,List.length_append,beBytes_length,hyper_length,nfstime4_length,zero_add] at hat
  norm_num only at hat
  obtain ⟨htype,hsize,-,hino,hmode,hlinks,howner,hgroup,⟨hmajor,hminor⟩,hused,hatime,hctime,hmtime⟩ := hat
  have hrdev := ntoh_words (at_append.2 ⟨hmajor,hminor⟩) r.rawdev.1.toNat_lt r.rawdev.2.toNat_lt
  replace htype := ntoh_beBytes htype r.type.num_lt
  replace hsize := ntoh_hyper hsize r.size.toNat_lt
  replace hino := ntoh_hyper hino r.fileid.toNat_lt
  replace hmode := ntoh_beBytes hmode r.mode.toNat_lt
  replace hlinks := ntoh_beBytes hlinks r.numlinks.toNat_lt
  replace hused := ntoh_hyper hused r.spaceUsed.toNat_lt
  unfold parseAttributes
  rw [number_run _ (by omega),number_run _ (by omega),fill_run,check_run _ (by omega),get_run,fill_run,advance_run,
    number_run _ (by omega),fill_run,number_run _ (by omega),fill_run,number_run _ (by omega),fill_run]
  simp only []
  norm_num only
  rw [htype,hsize,hino,hmode,hlinks]
  rw [ugid_run _ howner (by omega),fill_run,ugid_run _ hgroup (by omega),fill_run,number_run _ (by omega),fill_run,hrdev,
    number_run _ (by omega),fill_run]
  simp only []
  norm_num only
  rw [hused,time_run _ (by omega) hatime,fill_run,time_run _ (by omega) hctime,fill_run,time_run _ (by omega) hmtime,fill_run,
    fill_last]
  unfold Fattr4.stat64 Stat64.zero
  norm_num only
  simp

end Run

/-- `S_IFMT` -/
def sIfmt : ℕ := 0o170000

/-- The type that a mode says -/
def ftypeOf (mode : ℕ) : Option Ftype4 :=
  if mode &&& sIfmt = 0o100000 then some .reg
  else if mode &&& sIfmt = 0o040000 then some .dir
  else if mode &&& sIfmt = 0o060000 then some .blk
  else if mode &&& sIfmt = 0o020000 then some .chr
  else if mode &&& sIfmt = 0o120000 then some .lnk
  else if mode &&& sIfmt = 0o140000 then some .sock
  else if mode &&& sIfmt = 0o010000 then some .fifo
  else none

/-- What is returned is what was sent: the type and the mode in the bits of `nfs_mode`, everything else in a field of its own. -/
structure Returns (r : Fattr4) (res : Bool × Stat64) : Prop where
  ok : res.1 = true
  type : ftypeOf res.2.mode = some r.type
  mode : res.2.mode &&& (2^32-1-sIfmt) = r.mode.toNat &&& (2^32-1-sIfmt)
  size : res.2.size = r.size.toNat
  ino : res.2.ino = r.fileid.toNat
  nlink : res.2.nlink = r.numlinks.toNat
  uid : res.2.uid = r.owner.toNat
  gid : res.2.gid = r.ownerGroup.toNat
  used : res.2.used = r.spaceUsed.toNat
  atime : (res.2.atime,res.2.atimeNsec) = (r.atime.1.toNat,r.atime.2.toNat)
  ctime : (res.2.ctime,res.2.ctimeNsec) = (r.ctime.1.toNat,r.ctime.2.toNat)
  mtime : (res.2.mtime,res.2.mtimeNsec) = (r.mtime.1.toNat,r.mtime.2.toNat)

/-- The type has bits, the mode has none that are another type's, and the ids are not negative as an `int`. -/
structure Fattr4.Fits (r : Fattr4) : Prop where
  type : r.type ≠ .attrdir ∧ r.type ≠ .namedattr
  mode : (r.mode.toNat ||| typeBits r.type.num) &&& sIfmt = typeBits r.type.num
  owner : r.owner.toNat < 2^31
  ownerGroup : r.ownerGroup.toNat < 2^31

theorem uint64_int32 {n : ℕ} (h : n < 2^32) : uint64 (int32 n) = n ↔ n < 2^31 := by
  rcases Nat.lt_or_ge n (2^31) with hn | hn
  · rw [int32_of_lt hn]
    unfold uint64
    omega
  · have hneg := int32_neg hn h
    have hle : -2^31 ≤ int32 n := by
      unfold int32
      exact Int.le_bmod (by norm_num)
    unfold uint64
    omega

theorem ftypeOf_eq_some (mode : ℕ) (t : Ftype4) :
    ftypeOf mode = some t ↔ (t ≠ .attrdir ∧ t ≠ .namedattr) ∧ mode &&& sIfmt = typeBits t.num := by
  unfold ftypeOf
  generalize mode &&& sIfmt = n
  cases t <;> simp [Ftype4.num,typeBits] <;> grind

theorem typeBits_outside (t : Ftype4) : typeBits t.num &&& (2^32-1-sIfmt) = 0 := by cases t <;> decide

theorem stat64_uid (r : Fattr4) (dev : ℕ) : (r.stat64 dev).uid = uint64 (int32 r.owner.toNat) := by simp only [Fattr4.stat64]

theorem stat64_gid (r : Fattr4) (dev : ℕ) : (r.stat64 dev).gid = uint64 (int32 r.ownerGroup.toNat) := by
  simp only [Fattr4.stat64]

theorem returns_iff (r : Fattr4) (dev : ℕ) : Returns r (true,r.stat64 dev) ↔ r.Fits := by
  constructor
  · intro h
    obtain ⟨ht,hm⟩ := (ftypeOf_eq_some _ _).1 h.type
    have huid := h.uid
    have hgid := h.gid
    rw [stat64_uid] at huid
    rw [stat64_gid] at hgid
    exact ⟨ht,hm,(uint64_int32 r.owner.toNat_lt).1 huid,(uint64_int32 r.ownerGroup.toNat_lt).1 hgid⟩
  · intro h
    have hmode : (r.stat64 dev).mode = r.mode.toNat ||| typeBits r.type.num := rfl
    refine ⟨rfl,?_,?_,rfl,rfl,rfl,?_,?_,rfl,rfl,rfl,rfl⟩
    · rw [hmode]
      exact (ftypeOf_eq_some _ _).2 ⟨h.type,h.mode⟩
    · rw [hmode,Nat.and_or_distrib_right,typeBits_outside,Nat.or_zero]
    · rw [stat64_uid]
      exact (uint64_int32 r.owner.toNat_lt).2 h.owner
    · rw [stat64_gid]
      exact (uint64_int32 r.ownerGroup.toNat_lt).2 h.ownerGroup

/-- `nfs_parse_attributes` stays inside the buffer unless the length it has left is too large by the strings it has passed,
and returns a record as it was sent unless an id is negative as an `int`. -/
theorem nfsParseAttributes_right_iff (getpwnam : Getpwnam) :
    (∀ (mem : ℤ → UInt8) (len : Int32), ReadsInside getpwnam ⟨mem,len.toInt⟩ ↔ Fine ⟨mem,len.toInt⟩) ∧
      ∀ r : Fattr4, Returns r (nfsParseAttributes getpwnam (Attrlist.ofBytes r.bytes)) ↔ r.Fits := by
  constructor
  · intro mem len
    exact readsInside_iff getpwnam len.toInt_lt
  · intro r
    obtain ⟨dev,h⟩ := nfsParseAttributes_bytes getpwnam r
    rw [h]
    exact returns_iff r dev

/-- 52 bytes that end behind an owner of four digits -/
def shortAttrs : Attrlist := Attrlist.ofBytes (List.replicate 44 0 ++ Sattr.field [48,48,48,48])

/-- A file of user 3000000000 -/
def largeOwner : Fattr4 := ⟨.reg,0,0,0,2,0o644,1,3000000000,0,(0,0),0,(0,0),(0,0),(0,0)⟩

/-- The length of the group is read behind the 52 bytes. A large owner comes out with its sign. -/
theorem nfsParseAttributes_wrong : ¬ ReadsInside (fun _ => none) shortAttrs ∧
    ¬ Returns largeOwner (nfsParseAttributes (fun _ => none) (Attrlist.ofBytes largeOwner.bytes)) := by
  constructor
  · intro h
    exact h (by rfl)
  · intro h
    obtain ⟨dev,he⟩ := nfsParseAttributes_bytes (fun _ => none) largeOwner
    rw [he,returns_iff] at h
    exact absurd h.owner (by decide)

end Attributes
end Libnfs
