import Libnfs.ByteWords

/-! Reads of an open file over NFSv3: `nfs_pread_async` and `nfs_read_async` of `lib/libnfs.c` on top of
`nfs3_pread_async_internal` and `nfs3_pread_cb`. A call runs to its callback; memory and sends do not
fail. -/
namespace Libnfs
namespace Pread

open ByteWords

/-- `readmax` of a context: `nfs_set_readmax` keeps it in this range. -/
structure Nfs where
  readmax : ℕ
  min : 8192 ≤ readmax
  max : readmax ≤ 4194304

/-- `nfs_set_readmax` -/
def nfsSetReadmax (readmax : ℕ) : Nfs where
  readmax := Max.max (Min.min readmax 4194304) 8192/4096*4096
  min := by omega
  max := by omega

/-- The file, and what the server does with the `k`-th READ: an error, or at most so many bytes -/
structure Server where
  file : List UInt8
  reply : ℕ → Except ℤ ℕ
  small : file.length < 2^64

/-- The offset of the `nfsfh` and the buffer of the caller -/
structure St where
  offset : UInt64
  buf : List UInt8
  deriving DecidableEq, Repr

/-- The data of the `k`-th READ -/
def Server.read (srv : Server) (k : ℕ) (offset : UInt64) (count : ℕ) : Except ℤ (List UInt8) :=
  (srv.reply k).map fun n => (srv.file.drop offset.toNat).take (Min.min n count)

/-- `nfs3_pread_async_internal` to the buffer at `at_`, and `nfs3_pread_cb` with the status it reports -/
def nfs3Pread (nfs : Nfs) (srv : Server) (k at_ count : ℕ) (offset : UInt64) (updatePos : Bool) (s : St) : ℤ × St :=
  let count := if count > nfs.readmax then nfs.readmax else count
  match srv.read k offset count with
  | .error status => (status,s)
  | .ok data =>
    (if data.length > count then count else data.length,
      { offset := if updatePos then offset+UInt64.ofNat data.length else s.offset
        buf := overwrite s.buf at_ data })

/-- `struct rw_data`; `at_` is how far `buf` has moved. -/
structure RwData where
  at_ : ℕ
  count : ℕ
  remaining : ℕ
  offset : UInt64

/-- A `size_t` passed as an `int` -/
def toInt (n : ℕ) : ℤ := Int.bmod n (2^32)

/-- `r_cb` with the status of the `k`-th READ. `update_pos` is 0. -/
def rCb (nfs : Nfs) (srv : Server) : ℕ → ℕ → ℤ → RwData → St → Option (ℤ × St)
  | 0, _, _, _, _ => none
  | fuel+1, k, status, rw, s =>
    if status < 0 then some (status,s)
    else
      let n := if status.toNat > rw.remaining then rw.remaining else status.toNat
      let rw := { rw with at_ := rw.at_+n, offset := rw.offset+UInt64.ofNat n, remaining := rw.remaining-n }
      if rw.remaining = 0 ∨ n < nfs.readmax then some (toInt (rw.count-rw.remaining),s)
      else
        let cnt := if nfs.readmax ≠ 0 ∧ rw.remaining > nfs.readmax then nfs.readmax else rw.remaining
        let r := nfs3Pread nfs srv (k+1) rw.at_ cnt rw.offset false s
        rCb nfs srv fuel (k+1) r.1 rw r.2

/-- `_nfs_pread_async` -/
def nfsPread (nfs : Nfs) (srv : Server) (fuel count : ℕ) (offset : UInt64) (updatePos : Bool) (s : St) :
    Option (ℤ × St) :=
  if count < nfs.readmax then some (nfs3Pread nfs srv 0 0 count offset updatePos s)
  else
    let cnt := if nfs.readmax ≠ 0 ∧ count > nfs.readmax then nfs.readmax else count
    let r := nfs3Pread nfs srv 0 0 cnt offset false s
    rCb nfs srv fuel 0 r.1 ⟨0,count,count,offset⟩ r.2

/-- `nfs_pread_async` -/
def nfsPreadAsync (nfs : Nfs) (srv : Server) (fuel count : ℕ) (offset : UInt64) (s : St) : Option (ℤ × St) :=
  nfsPread nfs srv fuel count offset false s

/-- `nfs_read_async` -/
def nfsReadAsync (nfs : Nfs) (srv : Server) (fuel count : ℕ) (s : St) : Option (ℤ × St) :=
  nfsPread nfs srv fuel count s.offset true s

/-- The server that never fails and returns at most `len k` bytes for the `k`-th READ -/
def serving (file : List UInt8) (h : file.length < 2^64) (len : ℕ → ℕ) : Server := ⟨file,fun k => .ok (len k),h⟩

variable {nfs : Nfs} {file : List UInt8} {h : file.length < 2^64} {len : ℕ → ℕ}

/-- The first `n` bytes of the file from `off` on -/
def bytesAt (file : List UInt8) (off n : ℕ) : List UInt8 := (file.drop off).take n

theorem bytesAt_length {off n : ℕ} (hn : n ≤ file.length-off) : (bytesAt file off n).length = n := by
  simp [bytesAt,hn]

theorem bytesAt_append (off n m : ℕ) : bytesAt file off n ++ bytesAt file (off+n) m = bytesAt file off (n+m) := by
  rw [bytesAt,bytesAt,bytesAt,List.take_add,List.drop_drop]

/-- How many bytes the `k`-th READ brings -/
def served (file : List UInt8) (len : ℕ → ℕ) (k off count : ℕ) : ℕ := min (min (len k) count) (file.length-off)

/-- A READ of no more than `readmax` bytes -/
theorem nfs3Pread_serving (k at_ : ℕ) {count : ℕ} (offset : UInt64) (hc : count ≤ nfs.readmax) (u : Bool) (s : St) :
    nfs3Pread nfs (serving file h len) k at_ count offset u s =
      ((served file len k offset.toNat count : ℤ),
        ({ offset := if u then offset+UInt64.ofNat (served file len k offset.toNat count) else s.offset
           buf := overwrite s.buf at_ (bytesAt file offset.toNat (served file len k offset.toNat count)) } : St)) := by
  have hn : (bytesAt file offset.toNat (min (len k) count)).length = served file len k offset.toNat count := by
    simp [bytesAt,served]
  have hb : bytesAt file offset.toNat (min (len k) count) =
      bytesAt file offset.toNat (served file len k offset.toNat count) := by
    rw [bytesAt,bytesAt,served,← List.length_drop]
    generalize file.drop offset.toNat = rest
    rcases Nat.le_total (min (len k) count) rest.length with hl | hl
    · rw [min_eq_left hl]
    · rw [min_eq_right hl,List.take_length,List.take_of_length_le hl]
  have hle : ¬ served file len k offset.toNat count > count := by
    unfold served
    omega
  have hread : (serving file h len).read k offset count = .ok (bytesAt file offset.toNat (min (len k) count)) := rfl
  unfold nfs3Pread
  rw [if_neg (by omega : ¬ count > nfs.readmax)]
  simp only [hread,hn]
  rw [if_neg hle,hb]

/-- The offset behind bytes that the file has -/
theorem offset_toNat {offset : UInt64} {d : ℕ} (hf : file.length < 2^64) (hd : d ≤ file.length-offset.toNat) :
    (offset+UInt64.ofNat d).toNat = offset.toNat+d := by
  have hlt := offset.toNat_lt
  rw [UInt64.toNat_add,UInt64.toNat_ofNat']
  omega

/-- From a reply of `n` bytes behind `at_` others on: the call ends with `d` bytes of the file. -/
theorem rCb_serving {offset : UInt64} {b : List UInt8} {count : ℕ} (fuel k : ℕ) {at_ n : ℕ} {s : St}
    (hn : at_+n ≤ count) (hfile : at_+n ≤ file.length-offset.toNat)
    (hbuf : s.buf = overwrite b 0 (bytesAt file offset.toNat (at_+n))) (hf : count-at_ < fuel) :
    ∃ d t, rCb nfs (serving file h len) fuel k n ⟨at_,count,count-at_,offset+UInt64.ofNat at_⟩ s = some (toInt d,t) ∧
      at_+n ≤ d ∧ d ≤ count ∧ d ≤ file.length-offset.toNat ∧
      t.buf = overwrite b 0 (bytesAt file offset.toNat d) ∧ t.offset = s.offset ∧ (n = 0 → d = at_) := by
  induction fuel generalizing k at_ n s with
  | zero => omega
  | succ fuel ih =>
    have hmin := nfs.min
    have hle : ¬ n > count-at_ := by omega
    rw [rCb,if_neg (by omega : ¬ (n : ℤ) < 0)]
    simp only [Int.toNat_natCast,if_neg hle]
    by_cases hstop : count-at_-n = 0 ∨ n < nfs.readmax
    · rw [if_pos hstop]
      refine ⟨at_+n,s,?_,le_refl _,hn,hfile,hbuf,rfl,fun h => by omega⟩
      congr 3
      omega
    · rw [if_neg hstop]
      simp only [not_or,Nat.not_lt] at hstop
      have hcnt : ∃ cnt, (if nfs.readmax ≠ 0 ∧ count-at_-n > nfs.readmax then nfs.readmax else count-at_-n) = cnt ∧
          cnt ≤ nfs.readmax ∧ cnt ≤ count-at_-n := by
        refine ⟨_,rfl,?_,?_⟩ <;> split <;> omega
      obtain ⟨cnt,hcnt,hc,hc'⟩ := hcnt
      have hoff : offset+UInt64.ofNat at_+UInt64.ofNat n = offset+UInt64.ofNat (at_+n) := by
        rw [UInt64.ofNat_add,UInt64.add_assoc]
      have hnat := offset_toNat h hfile
      rw [hcnt,hoff,nfs3Pread_serving (k+1) (at_+n) _ hc,hnat]
      generalize hm : served file len (k+1) (offset.toNat+(at_+n)) cnt = m
      have hm1 : m ≤ cnt := by
        rw [← hm,served]
        omega
      have hm2 : m ≤ file.length-(offset.toNat+(at_+n)) := by
        rw [← hm,served]
        omega
      have hwrite : overwrite s.buf (at_+n) (bytesAt file (offset.toNat+(at_+n)) m) =
          overwrite b 0 (bytesAt file offset.toNat (at_+n+m)) := by
        have hlen := bytesAt_length hfile
        have ho := overwrite_overwrite b 0 (bytesAt file offset.toNat (at_+n))
          (bytesAt file (offset.toNat+(at_+n)) m) (Nat.zero_le _)
        rw [hlen,Nat.zero_add] at ho
        rw [hbuf,ho,bytesAt_append]
      have hsub : count-at_-n = count-(at_+n) := by omega
      rw [hwrite,hsub]
      obtain ⟨d,t,hd,hle,hcount,hlen,hb,ht,-⟩ := @ih (k+1) (at_+n) m
        { offset := s.offset, buf := overwrite b 0 (bytesAt file offset.toNat (at_+n+m)) }
        (by omega) (by omega) rfl (by omega)
      exact ⟨d,t,hd,by omega,hcount,hlen,hb,ht,fun hz => by omega⟩

/-- The first READ of a long call, and the rest -/
theorem nfsPread_long (offset : UInt64) {count : ℕ} (hc : ¬ count < nfs.readmax) (u : Bool) (s : St) {fuel : ℕ}
    (hf : count < fuel) :
    ∃ d t, nfsPread nfs (serving file h len) fuel count offset u s = some (toInt d,t) ∧ d ≤ count ∧
      d ≤ file.length-offset.toNat ∧ t.buf = overwrite s.buf 0 (bytesAt file offset.toNat d) ∧ t.offset = s.offset ∧
      (d = 0 ↔ served file len 0 offset.toNat (min count nfs.readmax) = 0) := by
  have hmin := nfs.min
  have hcnt : (if nfs.readmax ≠ 0 ∧ count > nfs.readmax then nfs.readmax else count) = min count nfs.readmax := by
    split <;> omega
  have hzero : (⟨0,count,count,offset⟩ : RwData) = ⟨0,count,count-0,offset+UInt64.ofNat 0⟩ := by
    simp
  unfold nfsPread
  rw [if_neg hc]
  simp only [hcnt,nfs3Pread_serving 0 0 offset (min_le_right count nfs.readmax)]
  generalize hm : served file len 0 offset.toNat (min count nfs.readmax) = m
  have hm1 : m ≤ count := by
    rw [← hm,served]
    omega
  have hm2 : m ≤ file.length-offset.toNat := by
    rw [← hm,served]
    omega
  rw [hzero]
  obtain ⟨d,t,hd,hle,hcount,hfile,hb,ht,hz⟩ := @rCb_serving nfs file h len offset s.buf count fuel 0 0 m
    { offset := s.offset, buf := overwrite s.buf 0 (bytesAt file offset.toNat m) }
    (by omega) (by omega) (by rw [Nat.zero_add]) (by omega)
  exact ⟨d,t,hd,hcount,hfile,hb,ht,fun h => by omega,hz⟩

/-- A short call is one READ. -/
theorem nfsPread_short (offset : UInt64) {count : ℕ} (hc : count < nfs.readmax) (u : Bool) (s : St) (fuel : ℕ) :
    nfsPread nfs (serving file h len) fuel count offset u s =
      some ((served file len 0 offset.toNat count : ℤ),
        ({ offset := if u then offset+UInt64.ofNat (served file len 0 offset.toNat count) else s.offset
           buf := overwrite s.buf 0 (bytesAt file offset.toNat (served file len 0 offset.toNat count)) } : St)) := by
  rw [nfsPread,if_pos hc,nfs3Pread_serving 0 0 offset hc.le]

theorem toInt_eq_iff {d : ℕ} : toInt d = d ↔ d < 2^31 := by
  constructor
  · intro he
    have hlt := @Int.bmod_lt d (2^32) (by norm_num)
    rw [show Int.bmod d (2^32) = d from he] at hlt
    norm_num at hlt ⊢
    omega
  · intro hd
    unfold toInt
    apply Int.bmod_eq_of_le <;> omega

end Pread
end Libnfs
