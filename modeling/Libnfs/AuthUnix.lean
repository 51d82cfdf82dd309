import Libnfs.CStrings
import Libnfs.RpcbindDb

/-! The credential of AUTH_UNIX: `libnfs_authunix_create` of `lib/libnfs-zdr.c`. -/
namespace Libnfs
namespace AuthUnix

open ByteWords CString
open Zdrmem (toInt pad padLen pad_length)
open Rpcbind (zdrString zdrUInt Reader readWord readString Takes takes_word takes_string)

/-- Which of the two `calloc` find memory: the one for the `struct AUTH` and the one for the blob -/
structure Memory where
  auth : Bool
  blob : Bool

/-- `struct opaque_auth` -/
structure OpaqueAuth where
  oaFlavor : ℕ
  oaLength : UInt32
  oaBase : Option (List UInt8)

/-- `struct AUTH` -/
structure Auth where
  ahCred : OpaqueAuth
  ahVerf : OpaqueAuth

/-- `buf`, and `idx` -/
structure Words where
  buf : Option (List UInt8)
  idx : ℤ

/-- `buf[idx++] = htonl(w)` -/
def Words.put (w : UInt32) (b : Words) : Option Words := do
  let bytes ← b.buf
  if b.idx < 0 then none
  else
    let bytes ← memcpy bytes (4*b.idx.toNat) (beBytes w.toNat)
    return ⟨some bytes,b.idx+1⟩

/-- `memcpy(&buf[2],host,strlen(host))`, and `idx` behind its words -/
def Words.putHost (host : CStr) (b : Words) : Option Words := do
  let bytes ← b.buf
  let bytes ← memcpy bytes 8 host.1
  return ⟨some bytes,toInt (b.idx+((host.1.length+3)/4 : ℕ))⟩

/-- The loop over `len` groups -/
def Words.putGroups : ℕ → List UInt32 → Words → Option Words
  | 0, _, b => some b
  | _+1, [], _ => none
  | len+1, g::groups, b => b.put g >>= putGroups len groups

/-- The blob that `buf` is -/
def fill (now : ℕ) (host : CStr) (uid gid len : UInt32) (groups : List UInt32) (buf : Option (List UInt8)) :
    Option Words := do
  let b ← Words.put (UInt32.ofNat now) ⟨buf,0⟩
  let b ← b.put (UInt32.ofNat host.1.length)
  let b ← b.putHost host
  let b ← b.put uid
  let b ← b.put gid
  let b ← b.put len
  b.putGroups len.toNat groups

/-- `size`, an `int` -/
def size (host : CStr) (len : UInt32) : ℤ :=
  toInt ((4+4+(host.1.length+3)/4*4+4+4+4+(len*4).toNat : ℕ) : ℤ)

def AUTH_NONE : ℕ := 0
def AUTH_UNIX : ℕ := 1

/-- `libnfs_authunix_create`, with `idx` at its end. It is `none` where a store is outside of the blob, and `some none`
where the function returns NULL. -/
def libnfsAuthunixCreate (mem : Memory) (now : ℕ) (host : CStr) (uid gid len : UInt32) (groups : List UInt32) :
    Option (Option (Auth × ℤ)) :=
  if 16 < len then some none
  else if mem.auth = false then some none
  else do
    let size := size host len
    let b ← fill now host uid gid len groups (calloc mem.blob (size % 2^64).toNat)
    return some (⟨⟨AUTH_UNIX,UInt32.ofNat (size % 2^32).toNat,b.buf⟩,⟨AUTH_NONE,0,none⟩⟩,b.idx)

/-- What an AUTH_SYS credential says -/
structure AuthSys where
  stamp : UInt32
  machinename : List UInt8
  uid : UInt32
  gid : UInt32
  gids : List UInt32
  deriving DecidableEq

def readGids : ℕ → Reader (List UInt32)
  | 0 => return []
  | n+1 => do
    let g ← readWord
    let gids ← readGids n
    return UInt32.ofNat g::gids

/-- How its body is decoded -/
def readAuthSys : Reader AuthSys := do
  let stamp ← readWord
  let machinename ← readString
  let uid ← readWord
  let gid ← readWord
  let n ← readWord
  let gids ← readGids n
  return ⟨UInt32.ofNat stamp,machinename,UInt32.ofNat uid,UInt32.ofNat gid,gids⟩

/-- What its body is -/
def zdrAuthSys (c : AuthSys) : List UInt8 :=
  zdrUInt c.stamp ++ (zdrString c.machinename ++ (zdrUInt c.uid ++ (zdrUInt c.gid ++
    (beBytes c.gids.length ++ c.gids.flatMap zdrUInt))))

theorem takes_gids (gids : List UInt32) : Takes (readGids gids.length) gids (gids.flatMap zdrUInt) := by
  induction gids with
  | nil => exact Takes.pure []
  | cons g gids ih =>
    have hg := ih.map fun gids => g::gids
    refine (takes_word g.toNat_lt).bind ?_
    simp only [UInt32.ofNat_toNat]
    exact hg

theorem takes_authSys {c : AuthSys} (hname : c.machinename.length < 2^32) (hgids : c.gids.length < 2^32) :
    Takes readAuthSys c (zdrAuthSys c) := by
  refine (takes_word c.stamp.toNat_lt).bind <| (takes_string hname).bind <| (takes_word c.uid.toNat_lt).bind <|
    (takes_word c.gid.toNat_lt).bind <| (takes_word hgids).bind ?_
  have hlast := (takes_gids c.gids).map (AuthSys.mk c.stamp c.machinename c.uid c.gid)
  simp only [UInt32.ofNat_toNat]
  exact hlast

/-- The bytes `a` of the blob are stored, and `n` more are free. -/
def room (a : List UInt8) (n : ℕ) : Words := ⟨some (a ++ List.replicate n 0),(a.length/4 : ℕ)⟩

variable {a : List UInt8} {mem : Memory} {now : ℕ} {host : CStr} {uid gid w : UInt32} {groups : List UInt32} {n : ℕ}

theorem bind_room {o : Option Words} {b : Words} {next : Words → Option Words} (h : o = some b) :
    (o >>= next) = next b := by
  rw [h]
  rfl

theorem memcpy_room (bs : List UInt8) : memcpy (a ++ List.replicate (bs.length+n) 0) a.length bs =
    some (a ++ bs ++ List.replicate n 0) := by
  rw [List.replicate_add,← List.append_assoc]
  exact memcpy_append List.length_replicate

theorem Words.put_some {bytes : List UInt8} {k : ℕ} : Words.put w ⟨some bytes,k⟩ =
    (memcpy bytes (4*k) (beBytes w.toNat)).map fun bytes => ⟨some bytes,(k+1 : ℕ)⟩ := by
  have hk : ¬ (k : ℤ) < 0 := by omega
  rw [Words.put]
  simp only [Option.bind_eq_bind,Option.bind_some,hk,if_false,Int.toNat_natCast]
  cases memcpy bytes (4*k) (beBytes w.toNat) <;> rfl

theorem put_room (h : 4 ∣ a.length) : (room a (4+n)).put w = some (room (a ++ zdrUInt w) n) := by
  have hidx : 4*(a.length/4) = a.length := by omega
  have hnext : a.length/4+1 = (a ++ zdrUInt w).length/4 := by
    rw [List.length_append,zdrUInt,beBytes_length]
    omega
  have hcopy := @memcpy_room a n (beBytes w.toNat)
  rw [beBytes_length] at hcopy
  rw [room,Words.put_some,hidx,hcopy,hnext]
  rfl

theorem putHost_room (h : a.length = 8) (hlt : host.1.length < 2^31) :
    (room a (host.1.length+padLen host.1.length+n)).putHost host = some (room (a ++ (host.1 ++ pad host.1.length)) n) := by
  have hidx : toInt (((a.length/4 : ℕ) : ℤ)+((host.1.length+3)/4 : ℕ)) =
      ((a ++ (host.1 ++ pad host.1.length)).length/4 : ℕ) := by
    rw [List.length_append,List.length_append,pad_length,toInt,Int.bmod_eq_of_le (by omega) (by omega),h]
    unfold padLen
    omega
  have hcopy := @memcpy_room a (padLen host.1.length+n) host.1
  rw [h,← Nat.add_assoc] at hcopy
  simp only [room,Words.putHost,Option.bind_eq_bind,Option.bind_some]
  rw [hidx,hcopy,List.replicate_add]
  simp [pad]

theorem putGroups_room (h : 4 ∣ a.length) :
    (room a (4*groups.length+n)).putGroups groups.length groups = some (room (a ++ groups.flatMap zdrUInt) n) := by
  induction groups generalizing a with
  | nil => simp [Words.putGroups]
  | cons g groups ih =>
    have hbytes : 4*(g::groups).length+n = 4+(4*groups.length+n) := by
      rw [List.length_cons]
      omega
    have ha : 4 ∣ (a ++ zdrUInt g).length := by
      rw [List.length_append,zdrUInt,beBytes_length]
      omega
    rw [hbytes,List.length_cons,Words.putGroups,put_room h]
    rw [List.flatMap_cons,← List.append_assoc]
    exact ih ha

/-- What the blob is to say -/
def credential (now : ℕ) (host : CStr) (uid gid : UInt32) (groups : List UInt32) : AuthSys :=
  ⟨UInt32.ofNat now,host.1,uid,gid,groups⟩

/-- How many bytes that takes -/
def bodySize (host : CStr) (groups : List UInt32) : ℕ := 20+(host.1.length+3)/4*4+4*groups.length

theorem length_flatMap_zdrUInt (gids : List UInt32) : (gids.flatMap zdrUInt).length = 4*gids.length := by
  induction gids with
  | nil => rfl
  | cons g gids ih =>
    rw [List.flatMap_cons,List.length_append,ih,zdrUInt,beBytes_length,List.length_cons]
    omega

theorem length_zdrAuthSys : (zdrAuthSys (credential now host uid gid groups)).length = bodySize host groups := by
  simp only [zdrAuthSys,credential,List.length_append,zdrUInt,beBytes_length,zdrString,pad_length,length_flatMap_zdrUInt,
    bodySize]
  unfold padLen
  omega

theorem dvd_room (h : 4 ∣ a.length) : 4 ∣ (a ++ zdrUInt w).length := by
  rw [List.length_append,zdrUInt,beBytes_length]
  omega

/-- A blob as large as the body holds the body. -/
theorem fill_room (hgroups : groups.length ≤ 16) (hsize : bodySize host groups < 2^31) :
    fill now host uid gid (UInt32.ofNat groups.length) groups (some (List.replicate (bodySize host groups) 0)) =
      some (room (zdrAuthSys (credential now host uid gid groups)) 0) := by
  have hsplit : bodySize host groups =
      4+(4+(host.1.length+padLen host.1.length+(4+(4+(4+(4*groups.length+0)))))) := by
    unfold bodySize padLen
    omega
  have hlt : host.1.length < 2^31 := by
    unfold bodySize at hsize
    omega
  have hhost : zdrUInt (UInt32.ofNat host.1.length) = beBytes host.1.length := by
    rw [zdrUInt,UInt32.toNat_ofNat',Nat.mod_eq_of_lt (by omega)]
  have hlen : (UInt32.ofNat groups.length).toNat = groups.length := by
    rw [UInt32.toNat_ofNat',Nat.mod_eq_of_lt (by omega)]
  have hcount : zdrUInt (UInt32.ofNat groups.length) = beBytes groups.length := by rw [zdrUInt,hlen]
  have hbody : zdrAuthSys (credential now host uid gid groups) =
      [] ++ zdrUInt (UInt32.ofNat now) ++ zdrUInt (UInt32.ofNat host.1.length) ++ (host.1 ++ pad host.1.length) ++
        zdrUInt uid ++ zdrUInt gid ++ zdrUInt (UInt32.ofNat groups.length) ++ groups.flatMap zdrUInt := by
    rw [hhost,hcount]
    simp [zdrAuthSys,credential,zdrString]
  have h₂ : 4 ∣ ([] ++ zdrUInt (UInt32.ofNat now) ++ zdrUInt (UInt32.ofNat host.1.length) ++
      (host.1 ++ pad host.1.length)).length := by
    have hdvd := Zdrmem.padLen_dvd host.1.length
    simp only [List.length_append,zdrUInt,beBytes_length,List.length_nil,pad_length]
    omega
  have h₃ := @dvd_room _ uid h₂
  have h₄ := @dvd_room _ gid h₃
  rw [hsplit,hbody,fill,hlen]
  refine (bind_room (@put_room [] _ _ (dvd_zero 4))).trans <| (bind_room (put_room (by simp [zdrUInt]))).trans <|
    (bind_room (putHost_room (by simp [zdrUInt]) hlt)).trans <| (bind_room (put_room h₂)).trans <|
    (bind_room (put_room h₃)).trans <| (bind_room (put_room h₄)).trans <| putGroups_room (dvd_room h₄)

/-- What is stored is stored in place. -/
theorem Words.put_length {b b' : Words} (h : b.put w = some b') {bytes : List UInt8} (hb : b.buf = some bytes) :
    ∃ bytes', b'.buf = some bytes' ∧ bytes'.length = bytes.length := by
  unfold Words.put at h
  rw [hb] at h
  simp only [Option.bind_eq_bind,Option.bind_some] at h
  split at h
  · simp at h
  · obtain ⟨bytes',hcopy,hb'⟩ := Option.bind_eq_some_iff.1 h
    rw [← Option.some.inj hb']
    exact ⟨bytes',rfl,memcpy_length hcopy⟩

/-- A blob that is filled holds the name. -/
theorem fits_of_fill {len : UInt32} {bytes : List UInt8} {b : Words}
    (h : fill now host uid gid len groups (some bytes) = some b) :
    8+host.1.length ≤ bytes.length := by
  unfold fill at h
  obtain ⟨b₁,h₁,h⟩ := Option.bind_eq_some_iff.1 h
  obtain ⟨b₂,h₂,h⟩ := Option.bind_eq_some_iff.1 h
  obtain ⟨b₃,h₃,-⟩ := Option.bind_eq_some_iff.1 h
  obtain ⟨bytes₁,hb₁,hlen₁⟩ := Words.put_length h₁ rfl
  obtain ⟨bytes₂,hb₂,hlen₂⟩ := Words.put_length h₂ hb₁
  unfold Words.putHost at h₃
  rw [hb₂] at h₃
  simp only [Option.bind_eq_bind,Option.bind_some] at h₃
  obtain ⟨bytes₃,hcopy,-⟩ := Option.bind_eq_some_iff.1 h₃
  unfold memcpy at hcopy
  split at hcopy
  · omega
  · simp at hcopy

theorem fill_null {len : UInt32} : fill now host uid gid len groups none = none := rfl

theorem size_eq (hgroups : groups.length ≤ 16) : size host (UInt32.ofNat groups.length) = toInt (bodySize host groups) := by
  have hlen : (UInt32.ofNat groups.length*4).toNat = 4*groups.length := by
    rw [UInt32.toNat_mul,UInt32.toNat_ofNat',Nat.mod_eq_of_lt (by omega : groups.length < 2^32)]
    show groups.length*4 % 2^32 = _
    omega
  rw [size,hlen,bodySize]
  congr 2
  omega

theorem size_small (hgroups : groups.length ≤ 16) (hsize : bodySize host groups < 2^31) :
    size host (UInt32.ofNat groups.length) = bodySize host groups := by
  rw [size_eq hgroups,toInt,Int.bmod_eq_of_le (by omega) (by omega)]

/-- A size that is no `int` is none of which a `calloc` returns as many bytes. -/
theorem calloc_wrapped (hgroups : groups.length ≤ 16) (hsize : 2^31 ≤ bodySize host groups) {free : Bool}
    {bytes : List UInt8} (h : calloc free (size host (UInt32.ofNat groups.length) % 2^64).toNat = some bytes) :
    bytes.length < 8+host.1.length := by
  rw [size_eq hgroups] at h
  unfold calloc at h
  split at h
  · rename_i hfree
    rw [← Option.some.inj h,List.length_replicate]
    have hge := @Int.le_bmod (bodySize host groups) (2^32) (by norm_num)
    have hmod := @Int.bmod_def (bodySize host groups) (2^32)
    rw [toInt] at hfree ⊢
    generalize Int.bmod (bodySize host groups) (2^32) = size at hge hmod hfree
    unfold bodySize at hmod hsize
    split at hmod <;> omega
  · simp at h

/-- What an outcome is right for: no store is outside, and the blob is all stored and says the credential. It is NULL only
where there is no memory for the `struct AUTH`. -/
def Right (mem : Memory) (now : ℕ) (host : CStr) (uid gid : UInt32) (groups : List UInt32) : Prop :=
  match libnfsAuthunixCreate mem now host uid gid (UInt32.ofNat groups.length) groups with
  | none => False
  | some none => mem.auth = false
  | some (some (auth,idx)) => ∃ blob, auth.ahCred.oaBase = some blob ∧ auth.ahCred.oaLength.toNat = blob.length ∧
      (blob.length : ℤ) = 4*idx ∧ readAuthSys blob = some (⟨UInt32.ofNat now,host.1,uid,gid,groups⟩,[])

theorem small_count (hgroups : groups.length ≤ 16) : ¬ 16 < UInt32.ofNat groups.length := by
  rw [UInt32.lt_iff_toNat_lt,UInt32.toNat_ofNat',Nat.mod_eq_of_lt (by omega : groups.length < 2^32)]
  exact Nat.not_lt.2 hgroups

/-- Without memory for the blob, or with a size that is no `int`, a store is outside. -/
theorem create_outside (hgroups : groups.length ≤ 16) (hauth : mem.auth = true)
    (h : ¬ (mem.blob = true ∧ bodySize host groups < 2^31)) :
    libnfsAuthunixCreate mem now host uid gid (UInt32.ofNat groups.length) groups = none := by
  rw [libnfsAuthunixCreate,if_neg (small_count hgroups),if_neg (by simp [hauth])]
  have hfill : fill now host uid gid (UInt32.ofNat groups.length) groups
      (calloc mem.blob (size host (UInt32.ofNat groups.length) % 2^64).toNat) = none := by
    cases hblob : mem.blob with
    | false => exact fill_null
    | true =>
      cases hc : calloc true (size host (UInt32.ofNat groups.length) % 2^64).toNat with
      | none => exact fill_null
      | some bytes =>
        have hshort := calloc_wrapped hgroups (Nat.not_lt.1 fun hsize => h ⟨hblob,hsize⟩) hc
        by_contra hb
        obtain ⟨b,hb⟩ := Option.ne_none_iff_exists'.1 hb
        have hfits := fits_of_fill hb
        omega
  simp only [hfill]
  rfl

theorem create_filled (hgroups : groups.length ≤ 16) (hauth : mem.auth = true) (hblob : mem.blob = true)
    (hsize : bodySize host groups < 2^31) :
    libnfsAuthunixCreate mem now host uid gid (UInt32.ofNat groups.length) groups =
      some (some (⟨⟨AUTH_UNIX,UInt32.ofNat (bodySize host groups),some (zdrAuthSys (credential now host uid gid groups))⟩,
        ⟨AUTH_NONE,0,none⟩⟩,((bodySize host groups/4 : ℕ) : ℤ))) := by
  have hbytes : calloc mem.blob (size host (UInt32.ofNat groups.length) % 2^64).toNat =
      some (List.replicate (bodySize host groups) 0) := by
    have hnat : (size host (UInt32.ofNat groups.length) % 2^64).toNat = bodySize host groups := by
      rw [size_small hgroups hsize]
      omega
    rw [hnat,calloc,if_pos ⟨hblob,by omega⟩]
  have hlength : (size host (UInt32.ofNat groups.length) % 2^32).toNat = bodySize host groups := by
    rw [size_small hgroups hsize]
    omega
  rw [libnfsAuthunixCreate,if_neg (small_count hgroups),if_neg (by simp [hauth])]
  simp only [hbytes,hlength,fill_room hgroups hsize]
  simp [room,length_zdrAuthSys]

theorem right_of_filled (hgroups : groups.length ≤ 16) (hauth : mem.auth = true) (hblob : mem.blob = true)
    (hsize : bodySize host groups < 2^31) : Right mem now host uid gid groups := by
  have hdvd : 4 ∣ bodySize host groups := by
    unfold bodySize
    omega
  have hname : (credential now host uid gid groups).machinename.length < 2^32 := by
    unfold bodySize at hsize
    show host.1.length < 2^32
    omega
  have hcount : (credential now host uid gid groups).gids.length < 2^32 := by
    show groups.length < 2^32
    omega
  have hread := takes_authSys hname hcount []
  rw [List.append_nil] at hread
  unfold Right
  rw [create_filled hgroups hauth hblob hsize]
  refine ⟨_,rfl,?_,?_,hread⟩
  · rw [length_zdrAuthSys,UInt32.toNat_ofNat',Nat.mod_eq_of_lt (by omega)]
  · rw [length_zdrAuthSys]
    omega

theorem not_right_of (hgroups : groups.length ≤ 16) (hauth : mem.auth = true)
    (h : ¬ (mem.blob = true ∧ bodySize host groups < 2^31)) : ¬ Right mem now host uid gid groups := by
  unfold Right
  rw [create_outside hgroups hauth h]
  exact id

/-- The credential is right exactly if the blob has memory and a size that an `int` holds, or if there is no credential. -/
theorem credential_right_iff (hgroups : groups.length ≤ 16) : Right mem now host uid gid groups ↔
    mem.auth = false ∨ mem.blob = true ∧ 20+(host.1.length+3)/4*4+4*groups.length < 2^31 := by
  cases hauth : mem.auth with
  | false =>
    have hnull : libnfsAuthunixCreate mem now host uid gid (UInt32.ofNat groups.length) groups = some none := by
      rw [libnfsAuthunixCreate,if_neg (small_count hgroups),if_pos hauth]
    unfold Right
    rw [hnull]
    simp [hauth]
  | true =>
    constructor
    · intro hright
      exact .inr (by_contra fun h => not_right_of hgroups hauth h hright)
    · rintro (h | ⟨hblob,hsize⟩)
      · simp at h
      · exact right_of_filled hgroups hauth hblob hsize

/-- The name that `libnfs_authunix_create_default` gives -/
def libnfs : CStr := ⟨[108,105,98,110,102,115],by decide⟩

/-- A name of `n` bytes -/
def name (n : ℕ) : CStr := ⟨List.replicate n 97,fun h => absurd (List.eq_of_mem_replicate h) (by decide)⟩

theorem name_length (n : ℕ) : (name n).1.length = n := List.length_replicate

theorem right_libnfs : Right ⟨true,true⟩ 1700000000 libnfs 1000 100 [4,24,27] :=
  (credential_right_iff (by decide)).2 (.inr ⟨rfl,by norm_num [libnfs]⟩)

theorem not_right_wrapped (h : host.1.length = 2^32) : ¬ Right ⟨true,true⟩ now host uid gid [] := by
  refine not_right_of (by decide) rfl fun hsize => ?_
  have hlt := hsize.2
  unfold bodySize at hlt
  omega

/-- The second `calloc` is not looked at, and the size of a long name wraps around. -/
theorem credential_not_right :
    ¬ Right ⟨true,false⟩ 0 libnfs 0 0 [] ∧ ¬ Right ⟨true,true⟩ 0 (name (2^32)) 0 0 [] :=
  ⟨not_right_of (by decide) rfl fun h => Bool.false_ne_true h.1,not_right_wrapped (name_length _)⟩

end AuthUnix
end Libnfs
