import Libnfs.ByteWords
import Mathlib.Tactic

/-! What a chmod, a chown and a utimes set: the `sattr3` of `lib/nfs_v3.c`, and the `fattr4` of `lib/nfs_v4.c` as a server
reads it. -/
namespace Libnfs
namespace Sattr

open ByteWords

/-- `struct timeval` -/
structure Timeval where
  tvSec : BitVec 64
  tvUsec : BitVec 64
  deriving DecidableEq, Repr

/-- The attributes that the three operations are called with -/
inductive Setter
  | chmod (mode : BitVec 32)
  | chown (uid gid : BitVec 32)
  | utimes (times : Option (Timeval × Timeval))
  deriving DecidableEq, Repr

/-- `SET_TO_SERVER_TIME`, or `SET_TO_CLIENT_TIME` with the seconds and the nanoseconds -/
inductive SetTime
  | server
  | client (seconds nseconds : ℕ)
  deriving DecidableEq, Repr

/-- What a SETATTR sets. An owner is the string of its number. -/
structure Sets where
  mode : Option ℕ
  owner : Option (List UInt8)
  ownerGroup : Option (List UInt8)
  atime : Option SetTime
  mtime : Option SetTime
  deriving DecidableEq, Repr

/-- `%u` -/
def decimal (n : ℕ) : List UInt8 := (Nat.toDigits 10 n).map fun c => UInt8.ofNat c.toNat

/-- `%d` -/
def signed (n : ℤ) : List UInt8 := if n < 0 then 45 :: decimal n.natAbs else decimal n.natAbs

/-- The `new_attributes` of `nfs3_chmod_continue_internal`, `nfs3_chown_continue_internal` and
`nfs3_utimes_continue_internal` -/
def sattr3 : Setter → Sets
  | .chmod mode => ⟨some mode.toNat,none,none,none,none⟩
  | .chown uid gid =>
    ⟨none,if uid ≠ -1 then some (decimal uid.toNat) else none,if gid ≠ -1 then some (decimal gid.toNat) else none,none,none⟩
  | .utimes none => ⟨none,none,none,some .server,some .server⟩
  | .utimes (some (atime,mtime)) =>
    ⟨none,none,none,some (.client (atime.tvSec.toNat % 2^32) ((atime.tvUsec*1000).toNat % 2^32)),
      some (.client (mtime.tvSec.toNat % 2^32) ((mtime.tvUsec*1000).toNat % 2^32))⟩

/-- A string behind its length, padded to a multiple of four bytes -/
def field (s : List UInt8) : List UInt8 := beBytes s.length ++ s ++ List.replicate ((4-s.length%4)%4) 0

/-- `nfs4_create_chown_buffer` -/
def nfs4CreateChownBuffer (uid gid : BitVec 32) : List UInt8 := field (signed uid.toInt) ++ field (signed gid.toInt)

/-- `nfs_hton64` -/
def nfsHton64 (n : BitVec 64) : List UInt8 := beBytes (n.toNat/2^32) ++ beBytes n.toNat

/-- `SET_TO_CLIENT_TIME4`, and the time -/
def clientTime (time : Timeval) : List UInt8 := beBytes 1 ++ nfsHton64 time.tvSec ++ beBytes (time.tvUsec*1000).toNat

/-- The second word of the mask of `nfs4_op_chmod`, `nfs4_op_chown` and `nfs4_op_utimes`; the first one is zero. -/
def attrmask : Setter → ℕ
  | .chmod _ => 1 <<< (33-32)
  | .chown _ _ => 1 <<< (36-32) ||| 1 <<< (37-32)
  | .utimes _ => 1 <<< (48-32) ||| 1 <<< (54-32)

/-- `filler.blob3` -/
def attrVals : Setter → List UInt8
  | .chmod mode => beBytes mode.toNat
  | .chown uid gid => nfs4CreateChownBuffer uid gid
  | .utimes none => beBytes 0 ++ beBytes 0
  | .utimes (some (atime,mtime)) => clientTime atime ++ clientTime mtime

/-- The attributes at the front are read one after the other, in the order of their bits. -/
abbrev Reader := StateM (List UInt8)

def word : Reader ℕ := fun vals => (be32 vals,vals.drop 4)

def string : Reader (List UInt8) := do
  let len ← word
  let s := (← get).take len
  modify (List.drop (len+(4-len%4)%4))
  return s

def settime4 : Reader SetTime := do
  if (← word) = 1 then
    let high ← word
    let low ← word
    let nseconds ← word
    return .client (high*2^32+low) nseconds
  else return .server

/-- An attribute is there if its bit is set in the mask. -/
def present {α : Type} (mask bit : ℕ) (read : Reader α) : Reader (Option α) :=
  if mask.testBit (bit-32) then some <$> read else pure none

/-- `FATTR4_MODE`, `FATTR4_OWNER`, `FATTR4_OWNER_GROUP`, `FATTR4_TIME_ACCESS_SET` and `FATTR4_TIME_MODIFY_SET` -/
def fattr4 (mask : ℕ) : Reader Sets := do
  let mode ← present mask 33 word
  let owner ← present mask 36 string
  let ownerGroup ← present mask 37 string
  let atime ← present mask 48 settime4
  let mtime ← present mask 54 settime4
  return ⟨mode,owner,ownerGroup,atime,mtime⟩

/-- What the SETATTR of a version 4 server sets -/
def sattr4 (setter : Setter) : Sets := (fattr4 (attrmask setter) (attrVals setter)).1

section Read

variable {rest : List UInt8} {n : ℕ}

theorem word_beBytes (h : n < 2^32) (rest : List UInt8) : word (beBytes n ++ rest) = (n,rest) := by
  unfold word
  rw [be32_beBytes n h]
  rfl

theorem string_field {s : List UInt8} (h : s.length < 2^32) (rest : List UInt8) : string (field s ++ rest) = (s,rest) := by
  have hw := word_beBytes h (s ++ (List.replicate ((4-s.length%4)%4) 0 ++ rest))
  have hsplit : field s ++ rest = beBytes s.length ++ (s ++ (List.replicate ((4-s.length%4)%4) 0 ++ rest)) := by
    simp [field]
  have hdrop : (s ++ (List.replicate ((4-s.length%4)%4) 0 ++ rest)).drop (s.length+(4-s.length%4)%4) = rest := by
    rw [← List.drop_drop,List.drop_left,List.drop_left' (by simp)]
  rw [hsplit]
  simp only [string,bind,StateT.bind,hw]
  show ((s ++ (List.replicate ((4-s.length%4)%4) 0 ++ rest)).take s.length,
    (s ++ (List.replicate ((4-s.length%4)%4) 0 ++ rest)).drop (s.length+(4-s.length%4)%4)) = _
  rw [List.take_left,hdrop]

theorem beBytes_word (n : BitVec 64) (rest : List UInt8) : word (beBytes n.toNat ++ rest) = (n.toNat % 2^32,rest) := by
  rw [← beBytes_mod,word_beBytes (Nat.mod_lt _ (by norm_num))]

theorem settime4_client (time : Timeval) (rest : List UInt8) : settime4 (clientTime time ++ rest) =
    (.client time.tvSec.toNat ((time.tvUsec*1000).toNat % 2^32),rest) := by
  have hsec := time.tvSec.isLt
  have h1 := word_beBytes (show (1 : ℕ) < 2^32 by norm_num)
  have h2 : ∀ rest, word (beBytes (time.tvSec.toNat/2^32) ++ rest) = (time.tvSec.toNat/2^32,rest) :=
    word_beBytes (by omega)
  have hassoc : clientTime time ++ rest = beBytes 1 ++ (beBytes (time.tvSec.toNat/2^32) ++
      (beBytes time.tvSec.toNat ++ (beBytes (time.tvUsec*1000).toNat ++ rest))) := by
    simp [clientTime,nfsHton64]
  rw [hassoc]
  simp only [settime4,bind,StateT.bind,h1,h2,beBytes_word,if_true]
  show (_,_) = (_,_)
  congr 2
  omega

/-- The attributes that the bits of the three masks tell -/
theorem fattr4_mode (vals : List UInt8) : (fattr4 2 vals).1 = ⟨some (word vals).1,none,none,none,none⟩ := rfl

theorem fattr4_owners (vals : List UInt8) :
    (fattr4 48 vals).1 = ⟨none,some (string vals).1,some (string (string vals).2).1,none,none⟩ := rfl

theorem fattr4_times (vals : List UInt8) :
    (fattr4 4259840 vals).1 = ⟨none,none,none,some (settime4 vals).1,some (settime4 (settime4 vals).2).1⟩ := rfl

end Read

section Agree

theorem decimal_length {n : ℕ} (h : n < 10^10) : (decimal n).length ≤ 10 := by
  rw [decimal,List.length_map]
  exact (Nat.length_toDigits_le_iff (by norm_num) (by norm_num)).mpr h

theorem signed_length (n : BitVec 32) : (signed n.toInt).length < 2^32 := by
  have h := n.isLt
  have hn : n.toInt.natAbs < 10^10 := by
    rw [BitVec.toInt_eq_toNat_cond]
    split <;> omega
  have hlen := decimal_length hn
  unfold signed
  split
  · simp only [List.length_cons]
    omega
  · omega

theorem minus_notMem (n : ℕ) : 45 ∉ decimal n := by
  intro h
  obtain ⟨c,hc,he⟩ := List.mem_map.mp h
  have hd := Nat.isDigit_of_mem_toDigits (by norm_num) (by norm_num) hc
  simp only [Char.isDigit,Bool.and_eq_true,decide_eq_true_eq] at hd
  have hn := congrArg UInt8.toNat he
  have h1 : 48 ≤ c.toNat := hd.1
  have h2 : c.toNat ≤ 57 := hd.2
  rw [UInt8.toNat_ofNat',show (45 : UInt8).toNat = 45 from rfl] at hn
  omega

/-- The number of an owner is written as the same string only if it is not negative. -/
theorem signed_eq_decimal (n : BitVec 32) : some (signed n.toInt) = (if n ≠ -1 then some (decimal n.toNat) else none) ↔
    0 ≤ n.toInt := by
  by_cases h : 0 ≤ n.toInt
  · have hne : n ≠ -1 := by
      rintro rfl
      revert h
      decide
    have hn : n.toInt.natAbs = n.toNat := by
      have := n.isLt
      rw [BitVec.toInt_eq_toNat_cond] at h ⊢
      split at h <;> omega
    rw [if_pos hne,signed,if_neg (by omega),hn]
    simpa using h
  · refine ⟨fun he => ?_,fun h' => absurd h' h⟩
    rw [signed,if_pos (by omega)] at he
    split at he
    · exact absurd (Option.some.inj he ▸ List.mem_cons_self) (minus_notMem n.toNat)
    · simp at he

theorem sattr4_chown (uid gid : BitVec 32) :
    sattr4 (.chown uid gid) = ⟨none,some (signed uid.toInt),some (signed gid.toInt),none,none⟩ := by
  have h1 := string_field (signed_length uid) (field (signed gid.toInt))
  have h2 := string_field (signed_length gid) []
  rw [List.append_nil] at h2
  have hm : attrmask (.chown uid gid) = 48 := rfl
  rw [sattr4,hm,attrVals,nfs4CreateChownBuffer,fattr4_owners,h1,h2]

theorem sattr4_chmod (mode : BitVec 32) : sattr4 (.chmod mode) = ⟨some mode.toNat,none,none,none,none⟩ := by
  have h := word_beBytes mode.isLt []
  rw [List.append_nil] at h
  have hm : attrmask (.chmod mode) = 2 := rfl
  rw [sattr4,hm,attrVals,fattr4_mode,h]

theorem sattr4_utimes (atime mtime : Timeval) : sattr4 (.utimes (some (atime,mtime))) =
    ⟨none,none,none,some (.client atime.tvSec.toNat ((atime.tvUsec*1000).toNat % 2^32)),
      some (.client mtime.tvSec.toNat ((mtime.tvUsec*1000).toNat % 2^32))⟩ := by
  have h1 := settime4_client atime (clientTime mtime)
  have h2 := settime4_client mtime []
  rw [List.append_nil] at h2
  have hm : attrmask (.utimes (some (atime,mtime))) = 4259840 := rfl
  rw [sattr4,hm,attrVals,fattr4_times,h1,h2]

/-- Where both versions set the same: no owner is negative, and version 3 has room for the seconds. -/
def Setter.Fits : Setter → Prop
  | .chmod _ | .utimes none => True
  | .chown uid gid => 0 ≤ uid.toInt ∧ 0 ≤ gid.toInt
  | .utimes (some (atime,mtime)) => atime.tvSec.toNat < 2^32 ∧ mtime.tvSec.toNat < 2^32

theorem sets_agree (setter : Setter) : sattr4 setter = sattr3 setter ↔ setter.Fits := by
  cases setter with
  | chmod mode => simp [sattr4_chmod,sattr3,Setter.Fits]
  | chown uid gid =>
    rw [sattr4_chown,sattr3,Sets.mk.injEq]
    simp only [true_and,and_true,signed_eq_decimal,Setter.Fits]
  | utimes times =>
    cases times with
    | none => exact iff_of_true (by rfl) trivial
    | some times =>
      obtain ⟨atime,mtime⟩ := times
      simp only [sattr4_utimes,sattr3,Setter.Fits,Sets.mk.injEq,Option.some.injEq,SetTime.client.injEq,true_and,and_true]
      omega

end Agree

end Sattr
end Libnfs
