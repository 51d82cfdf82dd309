import Libnfs.Nfs3Async

/-! What the argument that an operation keeps in `continue_int` does to its path lookup in `lib/nfs_v3.c`: two lookups
of one path, request by request. -/
namespace Libnfs
namespace LookupPayload

open Paths Normalize NestedMounts Lookup3

/-- What the server is asked for on the way -/
inductive Request
  | lookup (fh : Fh) (name : Path)
  | readlink (fh : Fh)
  deriving DecidableEq, Repr

variable {α : Type}

/-- The requests that are answered one after the other, and how the lookup ends -/
def observe (sv : Server α) (mounted : Mounted) (flags : Flags) : ℕ → Next α → List Request × Option (Result α)
  | 0, _ => ([],none)
  | _+1, .done r => ([],some r)
  | fuel+1, .lookup d fh name =>
    let o := observe sv mounted flags fuel (nfs3LookupPath1Cb sv flags d (sv.lookup fh name))
    (.lookup fh name :: o.1,o.2)
  | fuel+1, .readlink d fh =>
    let o := observe sv mounted flags fuel (nfs3LookupPath2Cb sv mounted flags d (sv.readlink fh))
    (.readlink fh :: o.1,o.2)

/-- `lookup` with its requests -/
def observeLookup (sv : Server α) (mounted : Mounted) (flags : Flags) (fuel : ℕ) (cwd path : Path) :
    List Request × Option (Result α) :=
  match nfs3LookuppathAsync cwd mounted.nestedMounts path with
  | .error _ => ([],some .refused)
  | .ok s => observe sv mounted flags fuel (first sv mounted flags s)

/-- The operations that have an argument for `continue_int`, or one that they keep elsewhere -/
inductive Operation
  | truncate | chmod | mkdir | access | mknod
  deriving DecidableEq, Repr

/-- `continue_int` for the argument; a mode is an `int`. `nfs3_mknod_async` passes 0. -/
def Operation.continueInt : Operation → BitVec 64 → BitVec 64
  | .truncate, length => length
  | .chmod, mode => (mode.setWidth 32).signExtend 64
  | .mkdir, mode => (mode.setWidth 32).signExtend 64
  | .access, mode => (mode.setWidth 32).signExtend 64 &&& 7
  | .mknod, _ => 0

/-- `O_NOFOLLOW` -/
def oNofollow : BitVec 64 := 0o400000

/-- The test in `nfs3_lookup_path_async_internal` -/
def hasNofollow (continueInt : BitVec 64) : Bool := continueInt &&& oNofollow ≠ 0

theorem hasNofollow_eq (v : BitVec 64) : hasNofollow v = v.getLsbD 17 := by
  have hbit : oNofollow = BitVec.twoPow 64 17 := by decide
  unfold hasNofollow
  rw [hbit,BitVec.and_twoPow]
  cases v.getLsbD 17 <;> decide

/-- An argument of `nfs_access` and `nfs_mknod` has no such bit. -/
theorem hasNofollow_continueInt (op : Operation) (a : BitVec 64) :
    hasNofollow (op.continueInt a) = (decide (op ∈ [Operation.truncate,.chmod,.mkdir]) && a.getLsbD 17) := by
  have hmode : ((a.setWidth 32).signExtend 64).getLsbD 17 = a.getLsbD 17 := by
    rw [BitVec.getLsbD_signExtend,BitVec.getLsbD_setWidth]
    rfl
  rw [hasNofollow_eq]
  cases op with
  | truncate => simp [Operation.continueInt]
  | chmod => simpa [Operation.continueInt] using hmode
  | mkdir => simpa [Operation.continueInt] using hmode
  | access => simp [Operation.continueInt]
  | mknod => simp [Operation.continueInt]

/-- The operations as `Nfs3.Cont` has them -/
def Operation.cont : Operation → ℕ → Nfs3.Cont
  | .truncate, length => .final (.truncate length)
  | .chmod, mode => .final (.chmod mode)
  | .mkdir, mode => .final (.mkdir mode)
  | .access, mode => .final (.access mode)
  | .mknod, mode => .final (.mknod mode)

theorem cont_oNofollow (op : Operation) (a : BitVec 64) :
    (op.cont a.toNat).oNofollow = hasNofollow (op.continueInt a) := by
  rw [hasNofollow_continueInt]
  cases op <;> simp [Operation.cont,Nfs3.Cont.oNofollow,BitVec.getLsbD]

section Runs

variable {sv : Server α} {mounted : Mounted} {flags : Flags} {d : Data} {fh : Fh} {attr : Option α} {noFollow : Bool}

theorem observe_result (fuel : ℕ) (n : Next α) : (observe sv mounted flags fuel n).2 = run sv mounted flags fuel n := by
  induction fuel generalizing n with
  | zero => rfl
  | succ fuel ih =>
    cases n with
    | done r => rfl
    | lookup d fh name => exact ih _
    | readlink d fh => exact ih _

/-- Where no symbolic link is met the flags are not looked at. -/
theorem observe_straight {flags' : Flags} (fuel : ℕ) (ha : ¬ attr.any sv.isLink)
    (hs : sv.Straight fh (components '/' d.path)) :
    observe sv mounted flags fuel (nfs3LookupPathAsyncInternal sv flags attr d fh) =
      observe sv mounted flags' fuel (nfs3LookupPathAsyncInternal sv flags' attr d fh) := by
  induction fuel generalizing d fh attr with
  | zero => rfl
  | succ fuel ih =>
    rw [internal_plain ha,internal_plain ha]
    rw [← components_dropWhile] at hs
    rcases @nextName_components (d.path.dropWhile (· = '/')) with ⟨hn,-⟩ | ⟨name,rest,hn,hc,-⟩
    · rw [hn]
      rfl
    · rw [hn]
      rw [hc,Server.Straight] at hs
      simp only [observe]
      cases hl : sv.lookup fh name with
      | error st => cases fuel <;> rfl
      | ok res =>
        obtain ⟨fh2,attr2⟩ := res
        rw [hl] at hs
        have hrest := @ih { d with path := rest } fh2 (some attr2) (by simpa using hs.1) hs.2
        simp only [nfs3LookupPath1Cb,hrest]

/-- At a symbolic link the bit decides between `-ELOOP` and going on. -/
theorem observe_link (ha : attr.any sv.isLink) (hd : d.linkCount < maxLinkCount) :
    observe sv mounted ⟨noFollow,true⟩ 1 (nfs3LookupPathAsyncInternal sv ⟨noFollow,true⟩ attr d fh) = ([],some (.called (-40))) ∧
    observe sv mounted ⟨noFollow,false⟩ 1 (nfs3LookupPathAsyncInternal sv ⟨noFollow,false⟩ attr d fh) ≠
      ([],some (.called (-40))) := by
  constructor
  · unfold nfs3LookupPathAsyncInternal
    rw [if_pos ⟨ha,rfl⟩]
    rfl
  · unfold nfs3LookupPathAsyncInternal
    rw [if_neg (by simp)]
    split
    · rw [if_neg (by simpa using hd)]
      simp [observe]
    · rename_i hno
      have hempty : d.path.dropWhile (· = '/') = [] := by
        by_contra hne
        exact hno ⟨ha,.inr hne⟩
      have hnext : nextName (d.path.dropWhile (· = '/')) = none := by rw [hempty]; rfl
      simp only [hnext,observe]
      simp

/-- A lookup that meets a symbolic link shows the bit. -/
theorem observe_not_straight (ha : ¬ attr.any sv.isLink) (hd : d.linkCount < maxLinkCount)
    (hs : ¬ sv.Straight fh (components '/' d.path)) : ∃ fuel,
    observe sv mounted ⟨noFollow,true⟩ fuel (nfs3LookupPathAsyncInternal sv ⟨noFollow,true⟩ attr d fh) ≠
      observe sv mounted ⟨noFollow,false⟩ fuel (nfs3LookupPathAsyncInternal sv ⟨noFollow,false⟩ attr d fh) := by
  induction hc : components '/' d.path generalizing d fh attr with
  | nil =>
    rw [hc] at hs
    exact absurd trivial hs
  | cons c cs ih =>
    rw [internal_plain ha,internal_plain ha]
    rw [← components_dropWhile] at hc hs
    rcases @nextName_components (d.path.dropWhile (· = '/')) with ⟨-,hnil⟩ | ⟨name,rest,hn,hcc,-⟩
    · rw [hnil] at hc
      cases hc
    · rw [hn]
      obtain ⟨rfl,rfl⟩ := List.cons.inj (hcc.symm.trans hc)
      rw [hcc,Server.Straight] at hs
      cases hl : sv.lookup fh name with
      | error st =>
        rw [hl] at hs
        exact absurd trivial hs
      | ok res =>
        obtain ⟨fh2,attr2⟩ := res
        rw [hl] at hs
        by_cases hlink : sv.isLink attr2
        · obtain ⟨htrue,hfalse⟩ := @observe_link _ sv mounted { d with path := rest } fh2 (some attr2) noFollow hlink hd
          refine ⟨2,fun h => hfalse ?_⟩
          simp only [observe,hl,nfs3LookupPath1Cb,Prod.mk.injEq,List.cons.injEq,true_and] at h
          rw [← htrue]
          exact (Prod.ext h.1 h.2).symm
        · have hrest : ¬ sv.Straight fh2 (components '/' rest) := fun h => hs ⟨hlink,h⟩
          obtain ⟨fuel,hne⟩ := @ih { d with path := rest } fh2 (some attr2) (by simpa using hlink) hd hrest rfl
          refine ⟨fuel+1,fun h => hne ?_⟩
          simp only [observe,hl,nfs3LookupPath1Cb,Prod.mk.injEq,List.cons.injEq,true_and] at h
          exact Prod.ext h.1 h.2

/-- The same from the start of the lookup -/
theorem first_straight_iff (s : Start) :
    (∀ fuel, observe sv mounted ⟨noFollow,true⟩ fuel (first sv mounted ⟨noFollow,true⟩ s) =
      observe sv mounted ⟨noFollow,false⟩ fuel (first sv mounted ⟨noFollow,false⟩ s)) ↔ sv.StraightFrom mounted s := by
  unfold first Server.StraightFrom
  simp only [Start.names_eq]
  cases hfh : s.fh with
  | some mnt =>
    constructor
    · intro h
      by_contra hs
      obtain ⟨fuel,hne⟩ := @observe_not_straight _ sv mounted ⟨s.savedPath,s.savedPath,0⟩ mnt.fh none noFollow (by simp)
        (Nat.zero_lt_succ _) hs
      exact hne (h fuel)
    · intro hs fuel
      exact observe_straight fuel (by simp) hs
  | none =>
    by_cases he : s.savedPath = []
    · simp only [he,ne_eq,not_true_eq_false,if_false,true_implies]
      cases hg : sv.getattr mounted.rootfh with
      | error st =>
        refine iff_of_true (fun fuel => ?_) ⟨by simp,trivial⟩
        cases fuel <;> rfl
      | ok attr =>
        simp only [nfs3LookupPathGetattrCb,Except.ok.injEq,forall_eq']
        by_cases hlink : sv.isLink attr
        · refine iff_of_false (fun h => ?_) fun h => h.1 hlink
          obtain ⟨htrue,hfalse⟩ := @observe_link _ sv mounted ⟨[],[],0⟩ mounted.rootfh (some attr) noFollow hlink (by decide)
          exact hfalse ((h 1).symm.trans htrue)
        · exact iff_of_true (fun fuel => observe_straight fuel (by simpa using hlink) trivial) ⟨hlink,trivial⟩
    · simp only [he,ne_eq,not_false_eq_true,if_true,false_implies,true_and]
      constructor
      · intro h
        by_contra hs
        obtain ⟨fuel,hne⟩ := @observe_not_straight _ sv mounted ⟨s.savedPath,s.savedPath,0⟩ mounted.rootfh none noFollow
          (by simp) (Nat.zero_lt_succ _) hs
        exact hne (h fuel)
      · intro hs fuel
        exact observe_straight fuel (by simp) hs

end Runs

/-- Two arguments of the operation lead to the same LOOKUPs and READLINKs, in the same order, and to the same end. -/
def SameLookup (sv : Server α) (mounted : Mounted) (noFollow : Bool) (cwd path : Path) (op : Operation)
    (a b : BitVec 64) : Prop :=
  ∀ fuel, observeLookup sv mounted ⟨noFollow,hasNofollow (op.continueInt a)⟩ fuel cwd path =
    observeLookup sv mounted ⟨noFollow,hasNofollow (op.continueInt b)⟩ fuel cwd path

theorem sameLookup_iff {sv : Server α} {mounted : Mounted} {noFollow : Bool} {cwd path : Path} {op : Operation}
    {a b : BitVec 64} : SameLookup sv mounted noFollow cwd path op a b ↔
      (op ∈ [Operation.truncate,.chmod,.mkdir] → a.getLsbD 17 = b.getLsbD 17) ∨
        ∀ s, nfs3LookuppathAsync cwd mounted.nestedMounts path = .ok s → sv.StraightFrom mounted s := by
  have hbits : (op ∈ [Operation.truncate,.chmod,.mkdir] → a.getLsbD 17 = b.getLsbD 17) ↔
      hasNofollow (op.continueInt a) = hasNofollow (op.continueInt b) := by
    rw [hasNofollow_continueInt,hasNofollow_continueInt]
    by_cases hop : op ∈ [Operation.truncate,.chmod,.mkdir] <;> simp only [hop] <;> simp
  rw [hbits]
  unfold SameLookup observeLookup
  generalize hasNofollow (op.continueInt a) = x
  generalize hasNofollow (op.continueInt b) = y
  cases hstart : nfs3LookuppathAsync cwd mounted.nestedMounts path with
  | error e => simp
  | ok s =>
    simp only [Except.ok.injEq,forall_eq']
    rw [← @first_straight_iff _ sv mounted noFollow s]
    cases x <;> cases y <;> simp [eq_comm]

/-- The lookup of an operation is the same for two of its arguments exactly if it does not look at the bit of
`O_NOFOLLOW` in them, or they agree in it, or no symbolic link is met. -/
theorem sameLookup_iff_nofollow_bit (sv : Server α) (mounted : Mounted) (noFollow : Bool) (cwd path : Path) (op : Operation)
    (a b : BitVec 64) : SameLookup sv mounted noFollow cwd path op a b ↔
      (op ∈ [Operation.truncate,.chmod,.mkdir] → a.getLsbD 17 = b.getLsbD 17) ∨
        ∀ s, nfs3LookuppathAsync cwd mounted.nestedMounts path = .ok s → sv.StraightFrom mounted s :=
  sameLookup_iff

/-- A link at every name of the root, to a file next to it -/
def linked : Server Bool where
  lookup _ name := if name = ['f'] then .ok ([1],false) else .ok ([2],true)
  readlink _ := .ok ['f']
  getattr _ := .ok false
  isLink b := b

/-- Through a link a file can be truncated to 0 bytes, but not to 131072. -/
theorem truncate_by_length :
    ¬ ∀ (sv : Server Bool) (mounted : Mounted) (noFollow : Bool) (cwd path : Path) (op : Operation) (a b : BitVec 64),
      SameLookup sv mounted noFollow cwd path op a b := by
  intro h
  have h3 := congrArg Prod.fst (h linked ⟨[0],['/','e'],[]⟩ false ['/'] ['/','l'] .truncate 0 131072 2)
  have h0 : (observeLookup linked ⟨[0],['/','e'],[]⟩ ⟨false,false⟩ 2 ['/'] ['/','l']).1 =
      [.lookup [0] ['l'],.readlink [2]] := by rfl
  have h1 : (observeLookup linked ⟨[0],['/','e'],[]⟩ ⟨false,true⟩ 2 ['/'] ['/','l']).1 = [.lookup [0] ['l']] := by rfl
  exact absurd (h0.symm.trans (h3.trans h1)) (by decide)

end LookupPayload
end Libnfs
