import Libnfs.Cursor

/-! `struct rpc_iovec_cursor` with its array: the vectors that are filled in the first half of it, and the user's own in the
second. The cursor functions of `lib/init.c` work in place; what they do to the vectors that are left is the cursor of `Cursor`. A
failed assertion, or an index outside of the array, is `none`. -/
namespace Libnfs

open Scatter

/-- `iov` and `iov_ref` are indices into the array at `base`. -/
structure IovecCursor where
  base : List Vec
  iov : ℕ
  iovcnt : ℕ
  remainingSize : ℕ
  iovRef : ℕ
  iovcntRef : ℕ
  deriving DecidableEq, Repr

namespace IovecCursor

/-- The cursor that `rpc_nfs3_readv_task` and `rpc_nfs4_readv_task` build -/
def readvTask (iov : List Vec) : IovecCursor := ⟨iov++iov,0,iov.length,total iov,iov.length,iov.length⟩

/-- The assertions at the end of the cursor functions -/
def settle (v : IovecCursor) : Option IovecCursor :=
  if (v.iovcnt = 0 ↔ v.remainingSize = 0) ∧ v.iovcnt ≤ v.iovcntRef ∧ v.iov ≤ v.iovRef ∧ v.iovRef = v.iovcntRef then some v
  else none

/-- The loop of `rpc_advance_cursor`: the array, `iov`, `iovcnt` and `remaining_size` -/
def advanceFrom : ℕ → List Vec → ℕ → ℕ → ℕ → Option (List Vec × ℕ × ℕ × ℕ)
  | iovcnt, base, iov, rem, 0 => some (base,iov,iovcnt,rem)
  | 0, _, _, _, _+1 => none
  | iovcnt+1, base, iov, rem, n+1 => do
    let v ← base[iov]?
    if rem < v.len then none
    else if n+1 < v.len then some (base.set iov ⟨v.base+(n+1),v.len-(n+1)⟩,iov,iovcnt+1,rem-(n+1))
    else advanceFrom iovcnt base (iov+1) (rem-v.len) (n+1-v.len)

/-- `rpc_advance_cursor` -/
def rpcAdvanceCursor (v : IovecCursor) (len : ℕ) : Option IovecCursor := do
  let (base,iov,iovcnt,rem) ← advanceFrom v.iovcnt v.base v.iov v.remainingSize len
  settle { v with base := base, iov := iov, iovcnt := iovcnt, remainingSize := rem }

/-- The loop of `rpc_shrink_cursor` from `i` on, with the vectors that are left of `iovcnt`: the array and `i` -/
def shrinkFrom (newLen iov : ℕ) : ℕ → List Vec → ℕ → ℕ → Option (List Vec × ℕ)
  | 0, base, i, _ => some (base,i)
  | n+1, base, i, numDone =>
    if numDone < newLen then do
      let v ← base[iov+i]?
      if v.len ≤ newLen-numDone then shrinkFrom newLen iov n base (i+1) (numDone+v.len)
      else shrinkFrom newLen iov n (base.set (iov+i) ⟨v.base,newLen-numDone⟩) (i+1) newLen
    else some (base,i)

/-- `rpc_shrink_cursor` -/
def rpcShrinkCursor (v : IovecCursor) (newLen : ℕ) : Option IovecCursor :=
  if v.remainingSize ≤ newLen then some v
  else do
    let (base,i) ← shrinkFrom newLen v.iov v.iovcnt v.base 0 0
    settle { v with base := base, iovcnt := i, remainingSize := newLen }

/-- The loop of `rpc_memcpy_cursor` -/
def memcpyFrom : ℕ → (ℕ → UInt8) → List Vec → ℕ → ℕ → List UInt8 → Option ((ℕ → UInt8) × List Vec × ℕ × ℕ × ℕ)
  | iovcnt, mem, base, iov, rem, [] => some (mem,base,iov,iovcnt,rem)
  | 0, _, _, _, _, _::_ => none
  | iovcnt+1, mem, base, iov, rem, b::bs => do
    let v ← base[iov]?
    if (b::bs).length < v.len then
      some (poke mem v.base (b::bs),base.set iov ⟨v.base+(b::bs).length,v.len-(b::bs).length⟩,iov,iovcnt+1,
        rem-(b::bs).length)
    else memcpyFrom iovcnt (poke mem v.base ((b::bs).take v.len)) base (iov+1) (rem-v.len) ((b::bs).drop v.len)

/-- `rpc_memcpy_cursor` -/
def rpcMemcpyCursor (mem : ℕ → UInt8) (v : IovecCursor) (src : List UInt8) : Option ((ℕ → UInt8) × IovecCursor) := do
  let (mem,base,iov,iovcnt,rem) ← memcpyFrom v.iovcnt mem v.base v.iov v.remainingSize src
  let v ← settle { v with base := base, iov := iov, iovcnt := iovcnt, remainingSize := rem }
  some (mem,v)

/-- The loop of `rpc_reset_cursor` from `i` on: the array and `remaining_size` -/
def resetFrom (iov iovRef : ℕ) : ℕ → List Vec → ℕ → ℕ → Option (List Vec × ℕ)
  | 0, base, _, rem => some (base,rem)
  | n+1, base, i, rem => do
    let v ← base[iovRef+i]?
    resetFrom iov iovRef n (base.set (iov+i) v) (i+1) (rem+v.len)

/-- `rpc_reset_cursor` -/
def rpcResetCursor (v : IovecCursor) : Option IovecCursor :=
  if v.iovcnt ≤ v.iovcntRef ∧ v.iov ≤ v.iovRef ∧ v.iovRef = v.iovcntRef then do
    let (base,rem) ← resetFrom 0 v.iovRef v.iovcntRef v.base 0 0
    some { v with base := base, iov := 0, iovcnt := v.iovcntRef, remainingSize := rem }
  else none

/-- The vectors that `readv` is given -/
def left (v : IovecCursor) : List Vec := (v.base.drop v.iov).take v.iovcnt

/-- What is done to the cursor: bytes are copied into it, `readv` stores bytes and it is advanced by them, or it is shrunk. -/
inductive Op
  | memcpy (src : List UInt8)
  | readv (bs : List UInt8)
  | shrink (newLen : ℕ)

/-- The bytes that go into the buffers -/
def Op.data : Op → List UInt8
  | .memcpy src => src
  | .readv bs => bs
  | .shrink _ => []

def step (mem : ℕ → UInt8) (v : IovecCursor) : Op → Option ((ℕ → UInt8) × IovecCursor)
  | .memcpy src => rpcMemcpyCursor mem v src
  | .readv bs => (rpcAdvanceCursor v bs.length).map fun v' => (scatter mem v.left bs,v')
  | .shrink newLen => (rpcShrinkCursor v newLen).map fun v' => (mem,v')

def run (mem : ℕ → UInt8) (v : IovecCursor) : List Op → Option ((ℕ → UInt8) × IovecCursor)
  | [] => some (mem,v)
  | op::ops => do
    let (mem,v) ← step mem v op
    run mem v ops

/-- No call stores more than `remaining_size`, from `rem` on. -/
def Within : ℕ → List Op → Prop
  | _, [] => True
  | rem, .memcpy src::ops => src.length ≤ rem ∧ Within (rem-src.length) ops
  | rem, .readv bs::ops => bs.length ≤ rem ∧ Within (rem-bs.length) ops
  | rem, .shrink newLen::ops => Within (min rem newLen) ops

/-- After the calls no assertion has failed, `remaining_size` is the sum of the vectors that are left, the bytes lie in the user's
buffers one after the other, and `rpc_reset_cursor` restores the cursor. -/
def Right (mem : ℕ → UInt8) (iov : List Vec) (ops : List Op) : Prop :=
  ∃ mem' v, run mem (readvTask iov) ops = some (mem',v) ∧ v.remainingSize = total v.left ∧
    mem' = scatter mem iov (ops.flatMap Op.data) ∧
    (∀ a, a ∉ (addrs iov).take (ops.flatMap Op.data).length → mem' a = mem a) ∧
    ((addrs iov).Nodup → (addrs iov).map mem' =
      ops.flatMap Op.data ++ ((addrs iov).drop (ops.flatMap Op.data).length).map mem) ∧
    rpcResetCursor v = some (readvTask iov)

/-- In the array of `v` the vectors `vs` are left, and the user's own are `ref`. -/
def Rep (v : IovecCursor) (vs ref : List Vec) (rem : ℕ) : Prop :=
  ∃ pre post, v = ⟨pre++(vs++(post++ref)),pre.length,vs.length,rem,ref.length,ref.length⟩ ∧
    pre.length + vs.length + post.length = ref.length

theorem readvTask_rep (iov : List Vec) : Rep (readvTask iov) iov iov (total iov) := ⟨[],[],by simp [readvTask],by simp⟩

section Rep

variable {v : IovecCursor} {vs ref : List Vec} {rem : ℕ}

theorem Rep.left (h : Rep v vs ref rem) : v.left = vs := by
  obtain ⟨pre,post,rfl,-⟩ := h
  simp [IovecCursor.left]

theorem Rep.remainingSize (h : Rep v vs ref rem) : v.remainingSize = rem := by
  obtain ⟨pre,post,rfl,-⟩ := h
  rfl

/-- The assertions hold where vectors are left exactly if bytes are. -/
theorem Rep.settle (h : Rep v vs ref rem) : settle v = if vs = [] ↔ rem = 0 then some v else none := by
  obtain ⟨pre,post,rfl,hlen⟩ := h
  have h₁ : vs.length ≤ ref.length := by omega
  have h₂ : pre.length ≤ ref.length := by omega
  simp [IovecCursor.settle,h₁,h₂]

theorem advanceFrom_refines (vs tail pre : List Vec) {rem n : ℕ} {vs' : List Vec} {rem' : ℕ}
    (h : Cursor.advanceLoop vs rem n = some (vs',rem')) :
    ∃ pre', advanceFrom vs.length (pre++(vs++tail)) pre.length rem n = some (pre'++(vs'++tail),pre'.length,vs'.length,rem') ∧
      pre'.length + vs'.length = pre.length + vs.length := by
  induction vs generalizing pre rem n with
  | nil =>
    cases n with
    | zero =>
      obtain ⟨rfl,rfl⟩ : [] = vs' ∧ rem = rem' := by simpa [Cursor.advanceLoop] using h
      exact ⟨pre,rfl,rfl⟩
    | succ n => simp [Cursor.advanceLoop] at h
  | cons w vs ih =>
    cases n with
    | zero =>
      obtain ⟨rfl,rfl⟩ : w::vs = vs' ∧ rem = rem' := by simpa [Cursor.advanceLoop] using h
      exact ⟨pre,rfl,rfl⟩
    | succ n =>
      have hget : (pre++(w::vs++tail))[pre.length]? = some w := by simp
      rw [Cursor.advanceLoop] at h
      rw [List.length_cons,advanceFrom,hget]
      by_cases hr : rem < w.len
      · simp [hr] at h
      · rw [if_neg hr] at h
        by_cases hlt : n+1 < w.len
        · rw [if_pos hlt] at h
          obtain ⟨rfl,rfl⟩ : ⟨w.base+(n+1),w.len-(n+1)⟩::vs = vs' ∧ rem-(n+1) = rem' := by simpa using h
          exact ⟨pre,by simp [hr,hlt],rfl⟩
        · rw [if_neg hlt] at h
          obtain ⟨pre',hrec,hlen⟩ := ih (pre++[w]) h
          rw [List.append_assoc,List.singleton_append,List.length_append,List.length_singleton] at hrec
          refine ⟨pre',?_,by simpa [Nat.add_assoc,Nat.add_comm 1] using hlen⟩
          simpa [hr,hlt] using hrec

theorem rpcAdvanceCursor_rep (h : Rep v vs ref (total vs)) {n : ℕ} (hn : n ≤ total vs) :
    ∃ v', Rep v' (skip vs n) ref (total vs-n) ∧
      rpcAdvanceCursor v n = if skip vs n = [] ↔ total vs-n = 0 then some v' else none := by
  obtain ⟨pre,post,rfl,hlen⟩ := h
  obtain ⟨pre',hloop,hlen'⟩ := advanceFrom_refines vs (post++ref) pre (Cursor.advanceLoop_eq vs n hn)
  have hrep : Rep ⟨pre'++(skip vs n++(post++ref)),pre'.length,(skip vs n).length,total vs-n,ref.length,ref.length⟩
      (skip vs n) ref (total vs-n) := ⟨pre',post,rfl,by omega⟩
  refine ⟨_,hrep,?_⟩
  rw [← hrep.settle]
  simp [rpcAdvanceCursor,hloop]

theorem memcpyFrom_refines (vs tail pre : List Vec) {mem : ℕ → UInt8} {rem : ℕ} {bs : List UInt8} {mem' : ℕ → UInt8}
    {vs' : List Vec} {rem' : ℕ} (h : Cursor.memcpyLoop mem vs rem bs = some (mem',vs',rem')) :
    ∃ pre', memcpyFrom vs.length mem (pre++(vs++tail)) pre.length rem bs =
        some (mem',pre'++(vs'++tail),pre'.length,vs'.length,rem') ∧
      pre'.length + vs'.length = pre.length + vs.length := by
  induction vs generalizing pre mem rem bs with
  | nil =>
    cases bs with
    | nil =>
      obtain ⟨rfl,rfl,rfl⟩ : mem = mem' ∧ [] = vs' ∧ rem = rem' := by simpa [Cursor.memcpyLoop] using h
      exact ⟨pre,rfl,rfl⟩
    | cons b bs => simp [Cursor.memcpyLoop] at h
  | cons w vs ih =>
    cases bs with
    | nil =>
      obtain ⟨rfl,rfl,rfl⟩ : mem = mem' ∧ w::vs = vs' ∧ rem = rem' := by simpa [Cursor.memcpyLoop] using h
      exact ⟨pre,rfl,rfl⟩
    | cons b bs =>
      have hget : (pre++(w::vs++tail))[pre.length]? = some w := by simp
      rw [Cursor.memcpyLoop] at h
      rw [List.length_cons,memcpyFrom,hget]
      by_cases hlt : (b::bs).length < w.len
      · rw [if_pos hlt] at h
        obtain ⟨rfl,rfl,rfl⟩ : poke mem w.base (b::bs) = mem' ∧
            ⟨w.base+(b::bs).length,w.len-(b::bs).length⟩::vs = vs' ∧ rem-(b::bs).length = rem' := by simpa using h
        refine ⟨pre,?_,rfl⟩
        simp only [Option.bind_eq_bind,Option.bind_some,if_pos hlt]
        simp
      · rw [if_neg hlt] at h
        obtain ⟨pre',hrec,hlen⟩ := ih (pre++[w]) h
        rw [List.append_assoc,List.singleton_append,List.length_append,List.length_singleton] at hrec
        refine ⟨pre',?_,by simpa [Nat.add_assoc,Nat.add_comm 1] using hlen⟩
        simp only [Option.bind_eq_bind,Option.bind_some,if_neg hlt]
        exact hrec

theorem rpcMemcpyCursor_rep (h : Rep v vs ref (total vs)) (mem : ℕ → UInt8) {bs : List UInt8} (hbs : bs.length ≤ total vs) :
    ∃ v', Rep v' (skip vs bs.length) ref (total vs-bs.length) ∧
      rpcMemcpyCursor mem v bs =
        if skip vs bs.length = [] ↔ total vs-bs.length = 0 then some (scatter mem vs bs,v') else none := by
  obtain ⟨pre,post,rfl,hlen⟩ := h
  obtain ⟨pre',hloop,hlen'⟩ := memcpyFrom_refines vs (post++ref) pre (Cursor.memcpyLoop_eq mem vs (total vs) bs hbs)
  have hrep : Rep ⟨pre'++(skip vs bs.length++(post++ref)),pre'.length,(skip vs bs.length).length,total vs-bs.length,
      ref.length,ref.length⟩ (skip vs bs.length) ref (total vs-bs.length) := ⟨pre',post,rfl,by omega⟩
  refine ⟨_,hrep,?_⟩
  have hsettle := hrep.settle
  by_cases hc : skip vs bs.length = [] ↔ total vs-bs.length = 0
  · rw [if_pos hc] at hsettle ⊢
    simp [rpcMemcpyCursor,hloop,hsettle]
  · rw [if_neg hc] at hsettle ⊢
    simp [rpcMemcpyCursor,hloop,hsettle]

/-- The loop cuts the vectors down to the length that is left. -/
theorem shrinkFrom_refines (newLen : ℕ) (vs tail pre mid : List Vec) {numDone : ℕ} (h : numDone ≤ newLen) :
    ∃ post, shrinkFrom newLen pre.length vs.length (pre++(mid++(vs++tail))) mid.length numDone =
        some (pre++(mid++(trim vs (newLen-numDone)++(post++tail))),mid.length+(trim vs (newLen-numDone)).length) ∧
      (trim vs (newLen-numDone)).length + post.length = vs.length := by
  induction vs generalizing mid numDone with
  | nil => exact ⟨[],by simp [shrinkFrom],by simp⟩
  | cons w vs ih =>
    rw [List.length_cons,shrinkFrom]
    by_cases hd : numDone < newLen
    · have hget : (pre++(mid++(w::vs++tail)))[pre.length+mid.length]? = some w := by
        rw [← List.append_assoc,List.getElem?_append_right (by simp)]
        simp
      rw [if_pos hd,hget,trim_cons w vs _ (by omega)]
      simp only [Option.bind_eq_bind,Option.bind_some]
      by_cases hle : w.len ≤ newLen-numDone
      · obtain ⟨post,hrec,hlen⟩ := ih (mid++[w]) (show numDone+w.len ≤ newLen by omega)
        rw [List.append_assoc,List.singleton_append,List.length_append,List.length_singleton,← Nat.sub_sub] at hrec
        rw [if_pos hle,if_pos hle]
        refine ⟨post,?_,by simpa [Nat.add_right_comm,Nat.sub_sub] using hlen⟩
        rw [show mid++(w::vs++tail) = mid++w::(vs++tail) from rfl,hrec]
        simp [Nat.add_assoc,Nat.add_comm 1]
      · obtain ⟨post,hrec,hlen⟩ := ih (mid++[⟨w.base,newLen-numDone⟩]) (le_refl newLen)
        rw [List.append_assoc,List.singleton_append,List.length_append,List.length_singleton,Nat.sub_self,trim_zero] at hrec
        rw [if_neg hle,if_neg hle]
        have hset : (pre++(mid++(w::vs++tail))).set (pre.length+mid.length) ⟨w.base,newLen-numDone⟩ =
            pre++(mid++⟨w.base,newLen-numDone⟩::(vs++tail)) := by
          rw [List.set_append_right _ _ (by omega),Nat.add_sub_cancel_left,List.set_append_right _ _ (by omega),Nat.sub_self]
          rfl
        rw [Nat.sub_self,trim_zero] at hlen
        refine ⟨post,?_,by simpa [Nat.add_comm] using hlen⟩
        rw [hset,hrec]
        simp
    · have hz : newLen-numDone = 0 := by omega
      rw [if_neg hd,hz,trim_zero]
      exact ⟨w::vs,by simp,by simp⟩

theorem rpcShrinkCursor_rep (h : Rep v vs ref (total vs)) {n : ℕ} (hn : n < total vs) :
    ∃ v', Rep v' (trim vs n) ref n ∧ rpcShrinkCursor v n = if trim vs n = [] ↔ n = 0 then some v' else none := by
  obtain ⟨pre,post,rfl,hlen⟩ := h
  obtain ⟨post',hloop,hlen'⟩ := shrinkFrom_refines n vs (post++ref) pre [] (Nat.zero_le n)
  rw [Nat.sub_zero,List.length_nil,Nat.zero_add,List.nil_append,List.nil_append,← List.append_assoc post'] at hloop
  rw [Nat.sub_zero] at hlen'
  have hrep : Rep ⟨pre++(trim vs n++((post'++post)++ref)),pre.length,(trim vs n).length,n,ref.length,ref.length⟩
      (trim vs n) ref n := ⟨pre,post'++post,rfl,by simp; omega⟩
  refine ⟨_,hrep,?_⟩
  rw [← hrep.settle,rpcShrinkCursor,if_neg (by dsimp only; omega)]
  dsimp only
  rw [hloop]
  rfl

theorem resetFrom_eq (pre mid rest : List Vec) (hmid : mid.length = rest.length) (rem : ℕ) :
    resetFrom 0 (pre++rest).length rest.length (pre++(mid++(pre++rest))) pre.length rem =
      some ((pre++rest)++(pre++rest),rem+total rest) := by
  induction rest generalizing pre mid rem with
  | nil =>
    obtain rfl : mid = [] := List.eq_nil_of_length_eq_zero hmid
    simp [resetFrom]
  | cons w rest ih =>
    obtain ⟨x,mid,rfl⟩ : ∃ x l, mid = x::l := List.exists_cons_of_length_eq_add_one hmid
    have hget : (pre++(x::mid++(pre++w::rest)))[(pre++w::rest).length+pre.length]? = some w := by
      have hidx : (pre++w::rest).length+pre.length = (pre++(x::mid++pre)).length := by
        simp only [List.length_append,List.length_cons] at hmid ⊢
        omega
      rw [show pre++(x::mid++(pre++w::rest)) = (pre++(x::mid++pre))++w::rest by simp,hidx,List.getElem?_append_right le_rfl,
        Nat.sub_self]
      rfl
    have hrec := ih (pre++[w]) mid (by simpa using hmid) (rem+w.len)
    rw [List.length_cons,resetFrom,hget]
    simp only [List.append_assoc,List.singleton_append,List.length_append,List.length_cons,List.length_nil,
      Option.bind_eq_bind,Option.bind_some,Nat.zero_add] at hrec ⊢
    rw [show (pre++(x::mid++(pre++w::rest))).set pre.length w = pre++w::(mid++(pre++w::rest)) by
      rw [List.set_append_right _ _ le_rfl,Nat.sub_self]
      rfl,hrec]
    simp [Nat.add_assoc]

/-- The cursor is as it was at first. -/
theorem rpcResetCursor_rep (h : Rep v vs ref rem) : rpcResetCursor v = some (readvTask ref) := by
  obtain ⟨pre,post,rfl,hlen⟩ := h
  have hloop := resetFrom_eq [] (pre++vs++post) ref (by simp; omega) 0
  simp only [List.nil_append,List.length_nil,Nat.zero_add] at hloop
  rw [rpcResetCursor,if_pos (by dsimp only; omega)]
  dsimp only
  rw [show pre++(vs++(post++ref)) = pre++vs++post++ref by simp,hloop]
  rfl

end Rep

/-- What holds of the cursor after bytes are stored, `data` of them, when the user's vectors do not end in an empty one -/
def Inv (mem₀ : ℕ → UInt8) (iov : List Vec) (data : List UInt8) (mem : ℕ → UInt8) (v : IovecCursor) (rem : ℕ) : Prop :=
  Rep v (trim (skip iov data.length) rem) iov rem ∧ data.length + rem ≤ total iov ∧ mem = scatter mem₀ iov data

section Runs

variable {mem₀ mem : ℕ → UInt8} {iov : List Vec} {data : List UInt8} {v : IovecCursor} {rem : ℕ}

theorem Inv.total (h : Inv mem₀ iov data mem v rem) : total (trim (skip iov data.length) rem) = rem := by
  obtain ⟨-,hle,-⟩ := h
  exact total_trim _ _ (by rw [total_skip]; omega)

/-- Vectors are left exactly where bytes are. -/
theorem trim_eq_nil_iff {vs : List Vec} {n : ℕ} (h : n ≤ Scatter.total vs) : trim vs n = [] ↔ n = 0 := by
  constructor
  · intro he
    have ht := total_trim vs n h
    rw [he] at ht
    exact ht.symm
  · rintro rfl
    exact trim_zero vs

/-- Bytes that fit are stored behind the others. -/
theorem Inv.scatter (h : Inv mem₀ iov data mem v rem) {bs : List UInt8} (hbs : bs.length ≤ rem) :
    scatter mem (trim (skip iov data.length) rem) bs = scatter mem₀ iov (data++bs) := by
  obtain ⟨-,-,rfl⟩ := h
  rw [scatter_trim _ _ _ _ hbs,scatter_append]

theorem skip_left (iov : List Vec) (d : ℕ) {n rem : ℕ} (hn : n ≤ rem) :
    skip (trim (skip iov d) rem) n = trim (skip iov (d+n)) (rem-n) := by
  rw [skip_trim _ hn,skip_skip]

theorem Inv.stored (h : Inv mem₀ iov data mem v rem) {bs : List UInt8} (hbs : bs.length ≤ rem) {v' : IovecCursor}
    (h' : Rep v' (skip (trim (skip iov data.length) rem) bs.length) iov (rem-bs.length)) :
    Inv mem₀ iov (data++bs) (Scatter.scatter mem (trim (skip iov data.length) rem) bs) v' (rem-bs.length) := by
  have hle := h.2.1
  rw [skip_left _ _ hbs] at h'
  rw [h.scatter hbs]
  refine ⟨?_,by rw [List.length_append]; omega,rfl⟩
  rw [List.length_append]
  exact h'

theorem step_inv (h : Inv mem₀ iov data mem v rem) {op : Op} {ops : List Op} (hw : Within rem (op::ops)) :
    ∃ mem' v' rem', step mem v op = some (mem',v') ∧ Inv mem₀ iov (data++op.data) mem' v' rem' ∧ Within rem' ops := by
  have ht := h.total
  have hle := h.2.1
  have hrep : Rep v (trim (skip iov data.length) rem) iov (Scatter.total (trim (skip iov data.length) rem)) := by
    rw [ht]
    exact h.1
  have hfits : ∀ {n : ℕ}, n ≤ rem → (skip (trim (skip iov data.length) rem) n = [] ↔
      Scatter.total (trim (skip iov data.length) rem) - n = 0) := by
    intro n hn
    rw [skip_left _ _ hn,ht]
    exact trim_eq_nil_iff (by rw [total_skip]; omega)
  cases op with
  | memcpy src =>
    obtain ⟨hn,hw⟩ := hw
    obtain ⟨v',hrep',hcall⟩ := rpcMemcpyCursor_rep hrep mem (ht.symm ▸ hn)
    rw [if_pos (hfits hn)] at hcall
    rw [ht] at hrep'
    exact ⟨_,v',_,hcall,h.stored hn hrep',hw⟩
  | readv bs =>
    obtain ⟨hn,hw⟩ := hw
    obtain ⟨v',hrep',hcall⟩ := rpcAdvanceCursor_rep hrep (ht.symm ▸ hn)
    rw [if_pos (hfits hn)] at hcall
    rw [ht] at hrep'
    refine ⟨_,v',_,?_,h.stored hn hrep',hw⟩
    rw [step,hcall,h.1.left]
    rfl
  | shrink newLen =>
    have hw : Within (min rem newLen) ops := hw
    by_cases hn : newLen < rem
    · obtain ⟨v',hrep',hcall⟩ := rpcShrinkCursor_rep hrep (ht.symm ▸ hn)
      rw [trim_trim _ (by omega)] at hrep' hcall
      rw [if_pos (trim_eq_nil_iff (by rw [total_skip]; omega))] at hcall
      refine ⟨mem,v',newLen,?_,⟨?_,by simp [Op.data]; omega,?_⟩,Nat.min_eq_right hn.le ▸ hw⟩
      · rw [step,hcall]
        rfl
      · simpa [Op.data] using hrep'
      · simpa [Op.data] using h.2.2
    · refine ⟨mem,v,rem,?_,by simpa [Op.data] using h,Nat.min_eq_left (by omega : rem ≤ newLen) ▸ hw⟩
      have hr : v.remainingSize ≤ newLen := by
        rw [h.1.remainingSize]
        omega
      simp [step,rpcShrinkCursor,hr]

theorem run_inv (h : Inv mem₀ iov data mem v rem) {ops : List Op} (hw : Within rem ops) :
    ∃ mem' v' rem', run mem v ops = some (mem',v') ∧ Inv mem₀ iov (data++ops.flatMap Op.data) mem' v' rem' := by
  induction ops generalizing data mem v rem with
  | nil => exact ⟨mem,v,rem,rfl,by simpa using h⟩
  | cons op ops ih =>
    obtain ⟨mem₁,v₁,rem₁,hstep,h₁,hw₁⟩ := step_inv h hw
    obtain ⟨mem₂,v₂,rem₂,hrun,h₂⟩ := ih h₁ hw₁
    exact ⟨mem₂,v₂,rem₂,by simp [run,hstep,hrun],by simpa using h₂⟩

theorem inv_readvTask (mem : ℕ → UInt8) (h : Tight iov) : Inv mem iov [] mem (readvTask iov) (Scatter.total iov) := by
  refine ⟨?_,by simp,(scatter_nil_bytes mem iov).symm⟩
  rw [List.length_nil,skip_zero,trim_total h]
  exact readvTask_rep iov

end Runs

/-- Whatever the sizes of the vectors and of the calls, all of it holds exactly if the last vector is not empty. -/
theorem cursor_right_iff (mem : ℕ → UInt8) (iov : List Vec) :
    (∀ ops, Within (total iov) ops → Right mem iov ops) ↔ ∀ v, iov.getLast? = some v → 0 < v.len := by
  constructor
  · intro h v hv
    by_contra hlen
    obtain ⟨mem',v',hrun,-⟩ := h [.memcpy (List.replicate (total iov) 0)] ⟨by simp,trivial⟩
    have hle : (List.replicate (total iov) (0:UInt8)).length ≤ total iov := by simp
    obtain ⟨v'',-,hcall⟩ := rpcMemcpyCursor_rep (readvTask_rep iov) mem hle
    rw [List.length_replicate,Nat.sub_self,if_neg] at hcall
    · simp [run,step,hcall] at hrun
    · simp [skip_total_ne_nil hv (by omega)]
  · intro h ops hw
    obtain ⟨mem',v,rem,hrun,hinv⟩ := run_inv (inv_readvTask mem h) hw
    rw [List.nil_append] at hinv
    obtain ⟨hrep,hle,rfl⟩ := hinv
    have hfit : (ops.flatMap Op.data).length ≤ total iov := by omega
    refine ⟨_,v,hrun,?_,rfl,fun a ha => scatter_of_notMem mem iov _ ha,fun hnd => gather_scatter mem iov _ hnd hfit,
      rpcResetCursor_rep hrep⟩
    rw [hrep.left,hrep.remainingSize,total_trim]
    rw [total_skip]
    omega

/-- A vector of one byte and an empty one behind it: one byte is copied, and a vector is left though no byte is. -/
theorem cursor_wrong :
    Within (total [⟨0,1⟩,⟨1,0⟩]) [.memcpy [7]] ∧ run (fun _ => 0) (readvTask [⟨0,1⟩,⟨1,0⟩]) [.memcpy [7]] = none ∧
      ¬ Right (fun _ => 0) [⟨0,1⟩,⟨1,0⟩] [.memcpy [7]] := by
  have hnone : run (fun _ => 0) (readvTask [⟨0,1⟩,⟨1,0⟩]) [.memcpy [7]] = none := by rfl
  refine ⟨⟨by decide,trivial⟩,hnone,?_⟩
  rintro ⟨mem',v,hrun,-⟩
  rw [hnone] at hrun
  cases hrun

end IovecCursor
end Libnfs
