import Libnfs.Scatter

/-! The scatter cursor of zero-copy READs, `struct rpc_iovec_cursor` in `lib/init.c`.
A failed assertion is `none`. -/
namespace Libnfs

open Scatter

/-- `iov` holds the `iovcnt` vectors still to be filled, `ref` the user's own vectors. -/
structure Cursor where
  iov : List Vec
  remaining : ℕ
  ref : List Vec
  deriving DecidableEq, Repr

namespace Cursor

/-- The cursor `rpc_nfs3_readv_task` and `rpc_nfs4_readv_task` build. -/
def fresh (iov : List Vec) : Cursor := ⟨iov,total iov,iov⟩

/-- The assertions at the end of the cursor functions: `remaining_size` is 0 exactly when
`iovcnt` is, and `iovcnt <= iovcnt_ref`. -/
def settle (c : Cursor) : Option Cursor :=
  if c.iov.isEmpty = (c.remaining == 0) ∧ c.iov.length ≤ c.ref.length then some c else none

/-- The loop of `rpc_advance_cursor`. -/
def advanceLoop : List Vec → ℕ → ℕ → Option (List Vec × ℕ)
  | vs, rem, 0 => some (vs,rem)
  | [], _, _+1 => none
  | v::vs, rem, n+1 =>
    if rem < v.len then none
    else if n+1 < v.len then some (⟨v.base+(n+1),v.len-(n+1)⟩::vs,rem-(n+1))
    else advanceLoop vs (rem-v.len) (n+1-v.len)

/-- `rpc_advance_cursor` -/
def rpcAdvanceCursor (c : Cursor) (n : ℕ) : Option Cursor :=
  (advanceLoop c.iov c.remaining n).bind fun r => settle { c with iov := r.1, remaining := r.2 }

/-- `rpc_shrink_cursor` -/
def rpcShrinkCursor (c : Cursor) (newLen : ℕ) : Option Cursor :=
  if c.remaining ≤ newLen then some c
  else settle { c with iov := trim c.iov newLen, remaining := newLen }

/-- The loop of `rpc_memcpy_cursor`. -/
def memcpyLoop (mem : ℕ → UInt8) : List Vec → ℕ → List UInt8 → Option ((ℕ → UInt8) × List Vec × ℕ)
  | vs, rem, [] => some (mem,vs,rem)
  | [], _, _::_ => none
  | v::vs, rem, b::bs =>
    if (b::bs).length < v.len then
      some (poke mem v.base (b::bs),⟨v.base+(b::bs).length,v.len-(b::bs).length⟩::vs,
        rem-(b::bs).length)
    else memcpyLoop (poke mem v.base ((b::bs).take v.len)) vs (rem-v.len) ((b::bs).drop v.len)

/-- `rpc_memcpy_cursor` -/
def rpcMemcpyCursor (mem : ℕ → UInt8) (c : Cursor) (src : List UInt8) :
    Option ((ℕ → UInt8) × Cursor) :=
  (memcpyLoop mem c.iov c.remaining src).bind fun r =>
    (settle { c with iov := r.2.1, remaining := r.2.2 }).map fun d => (r.1,d)

/-- `rpc_reset_cursor` -/
def rpcResetCursor (c : Cursor) : Cursor := fresh c.ref

@[simp] theorem rpcResetCursor_ref (c : Cursor) : c.rpcResetCursor.ref = c.ref := rfl

/-- `remaining_size` is the sum of the vectors left. -/
def Sized (c : Cursor) : Prop := c.remaining = total c.iov ∧ c.iov.length ≤ c.ref.length

theorem fresh_sized (iov : List Vec) : (fresh iov).Sized := ⟨rfl,le_refl _⟩

theorem advanceLoop_eq (vs : List Vec) (n : ℕ) (h : n ≤ total vs) :
    advanceLoop vs (total vs) n = some (skip vs n,total vs-n) := by
  induction vs generalizing n with
  | nil =>
    have hn : n = 0 := by simpa using h
    simp [hn,advanceLoop]
  | cons v vs ih =>
    cases n with
    | zero => simp [advanceLoop]
    | succ n =>
      simp only [total_cons] at h
      simp only [advanceLoop,total_cons,skip]
      rw [if_neg (by omega)]
      split
      · rfl
      · have hr : v.len+total vs-v.len = total vs := by omega
        rw [hr,ih (n+1-v.len) (by omega)]
        congr 2
        omega

theorem memcpyLoop_eq (mem : ℕ → UInt8) (vs : List Vec) (rem : ℕ) (bs : List UInt8)
    (h : bs.length ≤ total vs) :
    memcpyLoop mem vs rem bs = some (scatter mem vs bs,skip vs bs.length,rem-bs.length) := by
  induction vs generalizing mem rem bs with
  | nil =>
    have hb : bs = [] := List.length_eq_zero_iff.mp (by simpa using h)
    simp [hb,memcpyLoop,scatter]
  | cons v vs ih =>
    cases bs with
    | nil => simp [memcpyLoop,scatter_nil_bytes]
    | cons b bs =>
      simp only [total_cons] at h
      rw [skip_cons v vs _ (by simp)]
      simp only [memcpyLoop]
      split
      · rename_i hlt
        have ht : (b::bs).take v.len = b::bs := List.take_of_length_le (by omega)
        have hd : (b::bs).drop v.len = [] := List.drop_of_length_le (by omega)
        simp only [scatter,ht,hd,scatter_nil_bytes]
      · rename_i hge
        rw [ih _ _ _ (by simp only [List.length_drop]; omega)]
        simp only [scatter,List.length_drop]
        congr 3
        omega

theorem length_skip_le (vs : List Vec) (n : ℕ) : (skip vs n).length ≤ vs.length := by
  induction vs generalizing n with
  | nil => simp
  | cons v vs ih =>
    cases n with
    | zero => simp
    | succ n =>
      simp only [skip]
      split
      · simp
      · exact (ih _).trans (by simp)

theorem length_trim_le (vs : List Vec) (n : ℕ) : (trim vs n).length ≤ vs.length := by
  induction vs generalizing n with
  | nil => simp
  | cons v vs ih =>
    cases n with
    | zero => simp
    | succ n =>
      simp only [trim]
      split
      · simpa using ih _
      · simp

/-- The cursor after `n` bytes. -/
def advanced (c : Cursor) (n : ℕ) : Cursor :=
  { c with iov := skip c.iov n, remaining := c.remaining-n }

theorem advanced_sized {c : Cursor} (hc : c.Sized) (n : ℕ) : (c.advanced n).Sized := by
  refine ⟨?_,(length_skip_le _ _).trans hc.2⟩
  rw [advanced,total_skip,hc.1]

/-- Part of a byte string may be stored without the closing assertions failing. -/
theorem rpcAdvanceCursor_of_lt (c : Cursor) (hc : c.Sized) (n : ℕ) (h : n < c.remaining) :
    c.rpcAdvanceCursor n = some (c.advanced n) := by
  obtain ⟨hr,hl⟩ := hc
  have hne : skip c.iov n ≠ [] := by
    intro he
    have ht := total_skip c.iov n
    rw [he] at ht
    simp only [total_nil] at ht
    omega
  have hsk := length_skip_le c.iov n
  have he : (skip c.iov n).isEmpty = (c.remaining-n == 0) := by
    rw [List.isEmpty_eq_false_iff.mpr hne]
    simp only [Bool.false_eq,beq_eq_false_iff_ne,ne_eq]
    omega
  rw [rpcAdvanceCursor,hr,advanceLoop_eq _ _ (by omega),Option.bind_some,← hr]
  simp only [settle,he,true_and,hsk.trans hl,if_true,advanced]

theorem rpcAdvanceCursor_some {c d : Cursor} (hc : c.Sized) {n : ℕ} (h : n ≤ c.remaining)
    (hd : c.rpcAdvanceCursor n = some d) : d = c.advanced n := by
  obtain ⟨hr,-⟩ := hc
  rw [rpcAdvanceCursor,hr,advanceLoop_eq _ _ (by omega),Option.bind_some,← hr,settle] at hd
  split at hd
  · exact (Option.some.inj hd).symm
  · simp at hd

/-- Filling the cursor in two parts is filling it at once, failed assertions included. -/
theorem rpcAdvanceCursor_add (c : Cursor) (hc : c.Sized) (m n : ℕ) (h : m+n ≤ c.remaining) :
    (c.advanced m).rpcAdvanceCursor n = c.rpcAdvanceCursor (m+n) := by
  obtain ⟨hr,hl⟩ := hc
  have ht : total (skip c.iov m) = c.remaining-m := by rw [total_skip,hr]
  simp only [rpcAdvanceCursor,advanced]
  rw [← ht,advanceLoop_eq _ _ (by omega),hr,advanceLoop_eq _ _ (by omega)]
  simp only [Option.bind_some,skip_skip,total_skip,Nat.sub_sub]

end Cursor
end Libnfs
