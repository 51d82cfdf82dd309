import Libnfs.NestedMounts

/-! The path lookup of `lib/nfs_v3.c` behind its start: `nfs3_lookup_path_async_internal` with the handlers of LOOKUP,
READLINK and GETATTR. RPCs and allocations do not fail. -/
namespace Libnfs
namespace Lookup3

open Paths Normalize NestedMounts

abbrev Fh := List UInt8

/-- `nfsstat3_to_errno` -/
def errnos : List (ℤ × ℤ) :=
  [(0,0),(1,-1),(2,-2),(5,-5),(6,-6),(13,-13),(17,-17),(18,-18),(19,-19),(20,-20),(21,-21),(22,-22),(27,-27),(28,-28),
    (30,-30),(31,-31),(63,-36),(66,-39),(69,-34),(70,-116),(71,-5),(10001,-5),(10002,-5),(10003,-5),(10004,-22),
    (10005,-5),(10006,-5),(10007,-22),(10008,-11)]

def nfsstat3ToErrno (status : ℤ) : ℤ := (errnos.lookup status).getD (-34)

/-- `MAX_LINK_COUNT` -/
def maxLinkCount : ℕ := 40

/-- What the server answers, with an `nfsstat3` or with a result. A LOOKUP that tells no attributes counts as one that
tells zeros, and these are not those of a symbolic link. -/
structure Server (α : Type) where
  lookup : Fh → Path → Except ℤ (Fh × α)
  readlink : Fh → Except ℤ Path
  getattr : Fh → Except ℤ α
  isLink : α → Bool

/-- What a mount leaves in `struct nfs_context_internal` -/
structure Mounted where
  rootfh : Fh
  export_ : Path
  nestedMounts : List NestedMount

/-- `no_follow`, and `O_NOFOLLOW` in `continue_int` -/
structure Flags where
  noFollow : Bool
  oNoFollow : Bool

/-- `struct nfs_cb_data`; `path` is the rest of `savedPath`. -/
structure Data where
  savedPath : Path
  path : Path
  linkCount : ℕ

variable {α : Type}

/-- How a lookup ends: the call itself returns an error, the callback is told one, or `continue_cb` takes over. -/
inductive Result (α : Type)
  | refused
  | called (err : ℤ)
  | continued (fh : Fh) (attr : Option α) (savedPath : Path)

/-- The next request, if there is one -/
inductive Next (α : Type)
  | done (r : Result α)
  | lookup (d : Data) (fh : Fh) (name : Path)
  | readlink (d : Data) (fh : Fh)

/-- `nfs3_lookup_path_async_internal` -/
def nfs3LookupPathAsyncInternal (sv : Server α) (flags : Flags) (attr : Option α) (d : Data) (fh : Fh) : Next α :=
  let d := { d with path := d.path.dropWhile (· = '/') }
  if attr.any sv.isLink ∧ flags.oNoFollow then .done (.called (-40))
  else if attr.any sv.isLink ∧ (¬ flags.noFollow ∨ d.path ≠ []) then
    if d.linkCount ≥ maxLinkCount then .done (.called (-40)) else .readlink { d with linkCount := d.linkCount+1 } fh
  else
    match nextName d.path with
    | none => .done (.continued fh attr d.savedPath)
    | some (name,path) => .lookup { d with path := path } fh name

/-- `nfs3_lookup_path_1_cb` -/
def nfs3LookupPath1Cb (sv : Server α) (flags : Flags) (d : Data) : Except ℤ (Fh × α) → Next α
  | .error status => .done (.called (nfsstat3ToErrno status))
  | .ok (fh,attr) => nfs3LookupPathAsyncInternal sv flags (some attr) d fh

/-- The path with the target of a symbolic link in it; what follows the link is not in it if the target is absolute. -/
def newPath (export_ : Path) (d : Data) (target : Path) : Option Path :=
  if target.head? = some '/' then
    if ¬ export_ <+: target then none
    else
      match target.drop export_.length with
      | [] => some ['/']
      | c :: ptr => if c = '/' then some (c :: ptr) else none
  else if d.path ≠ [] then
    some (d.savedPath.take (d.savedPath.length-d.path.length-1) ++ ['/','.','.','/'] ++ target ++ '/' :: d.path)
  else some (d.savedPath ++ ['/','.','.','/'] ++ target)

/-- `nfs3_lookup_path_2_cb` -/
def nfs3LookupPath2Cb (sv : Server α) (mounted : Mounted) (flags : Flags) (d : Data) : Except ℤ Path → Next α
  | .error status => .done (.called (nfsstat3ToErrno status))
  | .ok target =>
    match newPath mounted.export_ d target with
    | none => .done (.called (-2))
    | some newPath =>
      match nfsNormalizePath newPath with
      | .error _ => .done (.called (-2))
      | .ok path => nfs3LookupPathAsyncInternal sv flags none { d with savedPath := path, path := path } mounted.rootfh

/-- `nfs3_lookup_path_getattr_cb` -/
def nfs3LookupPathGetattrCb (sv : Server α) (mounted : Mounted) (flags : Flags) (d : Data) : Except ℤ α → Next α
  | .error status => .done (.called (nfsstat3ToErrno status))
  | .ok attr => nfs3LookupPathAsyncInternal sv flags (some attr) d mounted.rootfh

/-- The requests are answered one after the other. -/
def run (sv : Server α) (mounted : Mounted) (flags : Flags) : ℕ → Next α → Option (Result α)
  | 0, _ => none
  | _+1, .done r => some r
  | fuel+1, .lookup d fh name => run sv mounted flags fuel (nfs3LookupPath1Cb sv flags d (sv.lookup fh name))
  | fuel+1, .readlink d fh => run sv mounted flags fuel (nfs3LookupPath2Cb sv mounted flags d (sv.readlink fh))

/-- What `nfs3_lookuppath_async` does first where it starts; only an empty path stays at the `rootfh` and is asked for. -/
def first (sv : Server α) (mounted : Mounted) (flags : Flags) (s : Start) : Next α :=
  let d : Data := ⟨s.savedPath,s.savedPath,0⟩
  match s.fh with
  | some mnt => nfs3LookupPathAsyncInternal sv flags none d mnt.fh
  | none =>
    if s.savedPath ≠ [] then nfs3LookupPathAsyncInternal sv flags none d mounted.rootfh
    else nfs3LookupPathGetattrCb sv mounted flags d (sv.getattr mounted.rootfh)

/-- The lookup of a path -/
def lookup (sv : Server α) (mounted : Mounted) (flags : Flags) (fuel : ℕ) (cwd path : Path) : Option (Result α) :=
  match nfs3LookuppathAsync cwd mounted.nestedMounts path with
  | .error _ => some .refused
  | .ok s => run sv mounted flags fuel (first sv mounted flags s)

/-- `nfs3_chdir_async` with `nfs3_chdir_continue_internal`, for a call that succeeds: the new `cwd` -/
def nfs3Chdir (sv : Server α) (mounted : Mounted) (fuel : ℕ) (cwd path : Path) : Option Path :=
  match lookup sv mounted ⟨false,false⟩ fuel cwd path with
  | some (.continued _ _ savedPath) => some savedPath
  | _ => none

/-- No symbolic link is met on the way. -/
def Server.Straight (sv : Server α) : Fh → List Path → Prop
  | _, [] => True
  | fh, c :: cs =>
    match sv.lookup fh c with
    | .error _ => True
    | .ok (fh,attr) => ¬ sv.isLink attr ∧ sv.Straight fh cs

variable {sv : Server α} {mounted : Mounted} {flags : Flags} {d : Data} {fh : Fh} {attr : Option α}

theorem internal_plain (h : ¬ attr.any sv.isLink) : nfs3LookupPathAsyncInternal sv flags attr d fh =
    match nextName (d.path.dropWhile (· = '/')) with
    | none => .done (.continued fh attr d.savedPath)
    | some (name,path) => .lookup { d with path := path } fh name := by
  unfold nfs3LookupPathAsyncInternal
  rw [if_neg (fun hl => h hl.1),if_neg (fun hl => h hl.1)]

/-- Without a link on the way the path that the lookup ends with is the one that it started with. -/
theorem run_straight {fuel : ℕ} {fh' : Fh} {attr' : Option α} {savedPath : Path} (ha : ¬ attr.any sv.isLink)
    (hs : sv.Straight fh (components '/' d.path))
    (h : run sv mounted flags fuel (nfs3LookupPathAsyncInternal sv flags attr d fh) =
      some (.continued fh' attr' savedPath)) : savedPath = d.savedPath := by
  induction fuel generalizing d fh attr with
  | zero => simp [run] at h
  | succ fuel ih =>
    rw [internal_plain ha] at h
    rw [← components_dropWhile] at hs
    rcases @nextName_components (d.path.dropWhile (· = '/')) with ⟨hn,-⟩ | ⟨name,rest,hn,hc,-⟩
    · rw [hn] at h
      simp only [run,Option.some.injEq,Result.continued.injEq] at h
      exact h.2.2.symm
    · rw [hn] at h
      rw [hc,Server.Straight] at hs
      simp only [run] at h
      cases hl : sv.lookup fh name with
      | error st =>
        rw [hl] at h
        cases fuel <;> simp [run,nfs3LookupPath1Cb] at h
      | ok res =>
        obtain ⟨fh2,attr2⟩ := res
        rw [hl] at h hs
        exact @ih { d with path := rest } fh2 (some attr2) (by simpa using hs.1) hs.2 h

/-- The lookup is straight from its start on. -/
def Server.StraightFrom (sv : Server α) (mounted : Mounted) (s : Start) : Prop :=
  match s.fh with
  | some mnt => sv.Straight mnt.fh s.names
  | none => (s.savedPath = [] → ∀ attr, sv.getattr mounted.rootfh = .ok attr → ¬ sv.isLink attr) ∧
      sv.Straight mounted.rootfh s.names

theorem first_straight {s : Start} {fuel : ℕ} {fh' : Fh} {attr' : Option α} {savedPath : Path}
    (hs : sv.StraightFrom mounted s)
    (h : run sv mounted flags fuel (first sv mounted flags s) = some (.continued fh' attr' savedPath)) :
    savedPath = s.savedPath := by
  unfold first at h
  unfold Server.StraightFrom at hs
  simp only [Start.names_eq] at hs
  cases hfh : s.fh with
  | some mnt =>
    simp only [hfh] at h hs
    exact run_straight (by simp) hs h
  | none =>
    simp only [hfh] at h hs
    by_cases he : s.savedPath = []
    · rw [if_neg (not_not.mpr he)] at h
      cases hg : sv.getattr mounted.rootfh with
      | error st =>
        rw [hg] at h
        cases fuel <;> simp [run,nfs3LookupPathGetattrCb] at h
      | ok attr =>
        rw [hg] at h
        have hlink := hs.1 he attr hg
        exact run_straight (by simpa using hlink) hs.2 h
    · rw [if_pos he] at h
      exact run_straight (by simp) hs.2 h

end Lookup3
end Libnfs
