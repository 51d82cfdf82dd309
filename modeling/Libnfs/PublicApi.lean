import Libnfs.Nfs4Readonly

/-! The asynchronous functions of `lib/libnfs.c` that work on a mounted context, and what a readonly context lets through. -/
namespace Libnfs
namespace PublicApi

open Normalize Async Transition
open Nfs3 (OpenFlags Nfsfh Result)
open Nfs4 (FcntlOp Flock Times)
open OpenState (LockOp)

/-- The functions and their arguments. `pread` is `__nfs_pread_async`, which `nfs_pread_async`, `nfs_read_async` and `r_cb`
call, and `preadv` is `nfs_readv_async`, too. -/
inductive Api
  | stat (path : Path)
  | stat64 (path : Path)
  | lstat64 (path : Path)
  | open2 (path : Path) (flags : OpenFlags) (mode : ℕ)
  | chdir (path : Path)
  | pread (nfsfh : Nfsfh) (count offset : ℕ)
  | preadv (nfsfh : Nfsfh) (lens : List ℕ) (offset : ℕ)
  | pwrite (nfsfh : Nfsfh) (count offset : ℕ)
  | write (nfsfh : Nfsfh) (count : ℕ)
  | close (nfsfh : Nfsfh)
  | fstat (nfsfh : Nfsfh)
  | fstat64 (nfsfh : Nfsfh)
  | fsync (nfsfh : Nfsfh)
  | ftruncate (nfsfh : Nfsfh) (length : ℕ)
  | truncate (path : Path) (length : ℕ)
  | mkdir2 (path : Path) (mode : ℕ)
  | rmdir (path : Path)
  | creat (path : Path) (mode : ℕ)
  | unlink (path : Path)
  | mknod (path : Path) (mode : ℕ) (dev : ℤ)
  | opendir (path : Path)
  | lseek (nfsfh : Nfsfh) (offset : ℤ) (whence : ℕ)
  | lockf (nfsfh : Nfsfh) (op : LockOp) (count : ℕ)
  | fcntl (nfsfh : Nfsfh) (cmd : Option FcntlOp) (fl : Flock)
  | statvfs (path : Path)
  | statvfs64 (path : Path)
  | readlink (path : Path)
  | chmod (path : Path) (mode : ℕ)
  | lchmod (path : Path) (mode : ℕ)
  | fchmod (nfsfh : Nfsfh) (mode : ℕ)
  | chown (path : Path) (uid gid : ℤ)
  | lchown (path : Path) (uid gid : ℤ)
  | fchown (nfsfh : Nfsfh) (uid gid : ℤ)
  | utimes (path : Path) (times : Option Times)
  | lutimes (path : Path) (times : Option Times)
  | utime (path : Path) (times : Option (ℕ × ℕ))
  | access (path : Path) (mode : ℕ)
  | access2 (path : Path)
  | symlink (target newpath : Path)
  | rename (oldpath newpath : Path)
  | link (oldpath newpath : Path)

/-- The `case NFS_V3` of each function; none is the `default`. -/
def Api.v3 (readmax : ℕ) : Api → Option Nfs3.Op
  | .stat path => some (.stat path)
  | .stat64 path => some (.stat64 path false)
  | .lstat64 path => some (.stat64 path true)
  | .open2 path flags mode => some (.open path flags mode)
  | .chdir path => some (.chdir path)
  | .pread _ count _ => some (.pread count readmax)
  | .preadv _ lens _ => some (.preadv lens readmax)
  | .pwrite _ count offset => some (.pwrite count offset)
  | .write nfsfh count => some (.write nfsfh count)
  | .close nfsfh => some (.close nfsfh)
  | .fstat _ => some .fstat
  | .fstat64 _ => some .fstat64
  | .fsync _ => some .fsync
  | .ftruncate _ _ => some .ftruncate
  | .truncate path length => some (.truncate path length)
  | .mkdir2 path mode => some (.mkdir2 path mode)
  | .rmdir path => some (.rmdir path)
  | .creat path mode => some (.creat path mode)
  | .unlink path => some (.unlink path)
  | .mknod path mode _ => some (.mknod path mode)
  | .opendir path => some (.opendir path)
  | .lseek nfsfh offset whence => some (.lseek nfsfh offset whence)
  | .lockf _ _ _ => none
  | .fcntl _ _ _ => none
  | .statvfs path => some (.statvfs path)
  | .statvfs64 path => some (.statvfs64 path)
  | .readlink path => some (.readlink path)
  | .chmod path mode => some (.chmod path false mode)
  | .lchmod path mode => some (.chmod path true mode)
  | .fchmod _ _ => some .fchmod
  | .chown path _ _ => some (.chown path false)
  | .lchown path _ _ => some (.chown path true)
  | .fchown _ _ _ => some .fchown
  | .utimes path times => some (.utimes path false times.isSome)
  | .lutimes path times => some (.utimes path true times.isSome)
  | .utime path times => some (.utime path times.isSome)
  | .access path mode => some (.access path mode)
  | .access2 path => some (.access2 path)
  | .symlink _ newpath => some (.symlink newpath)
  | .rename oldpath newpath => some (.rename oldpath newpath)
  | .link oldpath newpath => some (.link oldpath newpath)

/-- The `case NFS_V4` of each function; none is the `default`. -/
def Api.v4 : Api → Option Nfs4.Op
  | .stat _ => none
  | .stat64 path => some (.stat64 path false)
  | .lstat64 path => some (.stat64 path true)
  | .open2 path flags mode => some (.open path flags mode)
  | .chdir path => some (.chdir path)
  | .pread nfsfh count offset => some (.pread nfsfh count offset)
  | .preadv nfsfh lens offset => some (.preadv nfsfh lens offset)
  | .pwrite nfsfh count offset => some (.pwrite nfsfh count offset)
  | .write nfsfh count => some (.write nfsfh count)
  | .close nfsfh => some (.close nfsfh)
  | .fstat _ => none
  | .fstat64 nfsfh => some (.fstat64 nfsfh)
  | .fsync nfsfh => some (.fsync nfsfh)
  | .ftruncate nfsfh length => some (.ftruncate nfsfh length)
  | .truncate path length => some (.truncate path length)
  | .mkdir2 path mode => some (.mkdir2 path mode)
  | .rmdir path => some (.rmdir path)
  | .creat path mode => some (.creat path mode)
  | .unlink path => some (.unlink path)
  | .mknod path mode dev => some (.mknod path mode dev)
  | .opendir path => some (.opendir path)
  | .lseek nfsfh offset whence => some (.lseek nfsfh offset whence)
  | .lockf nfsfh op count => some (.lockf nfsfh op count)
  | .fcntl nfsfh cmd fl => some (.fcntl nfsfh cmd fl)
  | .statvfs path => some (.statvfs path)
  | .statvfs64 path => some (.statvfs64 path)
  | .readlink path => some (.readlink path)
  | .chmod path mode => some (.chmod path false mode)
  | .lchmod path mode => some (.chmod path true mode)
  | .fchmod nfsfh mode => some (.fchmod nfsfh mode)
  | .chown path uid gid => some (.chown path false uid gid)
  | .lchown path uid gid => some (.chown path true uid gid)
  | .fchown nfsfh uid gid => some (.fchown nfsfh uid gid)
  | .utimes path times => some (.utimes path false times)
  | .lutimes path times => some (.utimes path true times)
  | .utime path times => some (.utime path times)
  | .access path mode => some (.access path mode)
  | .access2 path => some (.access2 path)
  | .symlink target newpath => some (.symlink target newpath)
  | .rename oldpath newpath => some (.rename oldpath newpath)
  | .link oldpath newpath => some (.link oldpath newpath)

/-- What a function looks at before its `switch`: nothing, `nfsi->readonly`, or `is_readonly` of the handle -/
inductive Check
  | nothing | context
  | handle (nfsfh : Nfsfh)

def Api.check : Api → Check
  | .open2 _ flags _ =>
    if flags.wronly ∨ flags.rdwr ∨ flags.append ∨ flags.creat ∨ flags.trunc then .context else .nothing
  | .pwrite nfsfh _ _ | .write nfsfh _ | .ftruncate nfsfh _ => .handle nfsfh
  | .truncate .. | .mkdir2 .. | .rmdir _ | .creat .. | .unlink _ | .mknod .. | .chmod .. | .lchmod .. | .fchmod ..
  | .chown .. | .lchown .. | .fchown .. | .utimes .. | .lutimes .. | .utime .. | .rename .. | .link .. => .context
  | _ => .nothing

/-- A version of the protocol: what a call and an answer read, the operation of a call, and how it goes on -/
structure Dialect where
  Site : Type
  Request : Type
  Stage : Type
  Shared : Type
  Ctx : Type
  Input : Type
  init : World Request Result Stage Shared
  case : Ctx → Api → Option (Act Site Request Result Stage Shared ℤ)
  handle : Stage → Input → Act Site Request Result Stage Shared Unit
  modifies : Request → Bool

inductive Version
  | v3 | v4
  deriving DecidableEq, Repr

/-- The context of a v3 call is the one of its operation and `readmax`. -/
def Version.dialect : Version → Dialect
  | .v3 =>
    { Site := Nfs3.Site
      Request := Nfs3.Rpc
      Stage := Nfs3.Stage
      Shared := Nfs3.Shared
      Ctx := Nfs3.Ctx × ℕ
      Input := Nfs3.Ctx × Nfs3.Reply
      init := Nfs3.World.init
      case := fun ctx api => (api.v3 ctx.2).map fun op => op.call ctx.1
      handle := Nfs3.Stage.handle
      modifies := Nfs3.Rpc.modifies }
  | .v4 =>
    { Site := Nfs4.Site
      Request := Nfs4.Request
      Stage := Nfs4.Stage
      Shared := Nfs4.Shared
      Ctx := Nfs4.Ctx
      Input := Nfs4.Ctx × Nfs4.Reply
      init := Nfs4.World.init
      case := fun ctx api => api.v4.map fun op => op.call ctx
      handle := Nfs4.Stage.handle
      modifies := Nfs4.Request.modifies }

namespace Dialect

variable (d : Dialect)

abbrev Program := Act d.Site d.Request Result d.Stage d.Shared ℤ

abbrev State := World d.Request Result d.Stage d.Shared

/-- A call of a function, with the context that it finds, or an answer -/
abbrev Event := Turn (d.Ctx × Api) d.Input d.Site

/-- The `switch`. A version that has no case for the function is not supported. -/
def switch (ctx : d.Ctx) (api : Api) : d.Program := (d.case ctx api).getD (return -1)

/-- The function: its check, and the `switch`. `EROFS` is 30. -/
def call (readonly : Bool) (ctx : d.Ctx) (api : Api) : d.Program :=
  match api.check with
  | .nothing => d.switch ctx api
  | .context =>
    if readonly then do
      Act.tell (.ofErr (-30))
      return 0
    else d.switch ctx api
  | .handle nfsfh => if nfsfh.isReadonly then return -1 else d.switch ctx api

/-- The operations of a context, each with what it has sent and told -/
def step (readonly : Bool) : List d.State → d.Event → List d.State :=
  turn (fun op => d.call readonly op.1 op.2) d.init d.handle

end Dialect

/-- The handle that a function is given -/
def Api.nfsfh : Api → Option Nfsfh
  | .pread nfsfh _ _ | .preadv nfsfh _ _ | .pwrite nfsfh _ _ | .write nfsfh _ | .close nfsfh | .fstat nfsfh | .fstat64 nfsfh
  | .fsync nfsfh | .ftruncate nfsfh _ | .lseek nfsfh _ _ | .lockf nfsfh _ _ | .fcntl nfsfh _ _ | .fchmod nfsfh _
  | .fchown nfsfh _ _ => some nfsfh
  | _ => none

/-- The handle comes from an open; its offset and `is_dirty` may have changed since. -/
def Opened {κ σ γ : Type} (ws : List (World κ Result σ γ)) (nfsfh : Nfsfh) : Prop :=
  ∃ w ∈ ws, ∃ r ∈ w.calls, ∃ nfsfh', r.nfsfh = some nfsfh' ∧
    nfsfh = { nfsfh' with offset := nfsfh.offset, isDirty := nfsfh.isDirty }

/-- The functions that modify the file system of the server, and the opens that could -/
def Api.modifies : Api → Bool
  | .open2 _ flags _ => flags.wronly || flags.rdwr || flags.creat || flags.trunc
  | .pwrite .. | .write .. | .ftruncate .. | .truncate .. | .mkdir2 .. | .rmdir _ | .creat .. | .unlink _ | .mknod ..
  | .chmod .. | .lchmod .. | .fchmod .. | .chown .. | .lchown .. | .fchown .. | .utimes .. | .lutimes .. | .utime ..
  | .symlink .. | .rename .. | .link .. => true
  | _ => false

/-- The functions whose check is there: not the one of a symlink, and over NFSv4 no open with `O_EXCL` -/
def Version.Checks (v : Version) : Api → Prop
  | .symlink .. => False
  | .open2 _ flags _ => v = .v4 → flags.excl = false
  | _ => True

/-- The calls have handles of this context, and functions that are checked. -/
def Version.Allowed (v : Version) (ws : List v.dialect.State) : v.dialect.Event → Prop
  | .call op _ => (∀ nfsfh, op.2.nfsfh = some nfsfh → Opened ws nfsfh) ∧ v.Checks op.2
  | .answer .. => True

/-- The callback is told `-EROFS`, or -1 is returned, and nothing is sent. -/
def Refused {κ σ γ : Type} (r : ℤ × ℕ × World κ Result σ γ) : Prop :=
  (r.1 = 0 ∧ r.2.2.calls = [.ofErr (-30)] ∨ r.1 = -1 ∧ r.2.2.calls = []) ∧ r.2.2.sent = [] ∧ r.2.2.pending = []

/-- What the operations of a readonly context keep -/
def Version.stageReadonly : (v : Version) → v.dialect.Stage → Prop
  | .v3 => Nfs3.Stage.Readonly
  | .v4 => Nfs4.Stage.Readonly

abbrev Version.Reads {α : Type} (v : Version) (m : Act v.dialect.Site v.dialect.Request Result v.dialect.Stage v.dialect.Shared α) :
    Prop := Keeps (fun r => v.dialect.modifies r = false) Nfs3.Result.Readonly v.stageReadonly m

/-- What passes without a check only reads. -/
theorem v3_readonly {api : Api} {readmax : ℕ} {op : Nfs3.Op} (hop : api.v3 readmax = some op) (hc : api.check = .nothing)
    (hs : Version.v3.Checks api) : op.Readonly := by
  cases api with
  | open2 path flags mode =>
    cases hop
    by_cases h : flags.wronly ∨ flags.rdwr ∨ flags.append ∨ flags.creat ∨ flags.trunc
    · simp [Api.check,h] at hc
    · simp only [not_or,Bool.not_eq_true] at h
      exact ⟨h.1,h.2.1,h.2.2.2.1,h.2.2.2.2⟩
  | symlink target newpath => exact hs.elim
  | lockf | fcntl => cases hop
  | _ =>
    cases hop
    first
    | exact trivial
    | cases hc

theorem v4_readonly {api : Api} {op : Nfs4.Op} (hop : api.v4 = some op) (hc : api.check = .nothing)
    (hs : Version.v4.Checks api) : op.Readonly := by
  cases api with
  | open2 path flags mode =>
    cases hop
    by_cases h : flags.wronly ∨ flags.rdwr ∨ flags.append ∨ flags.creat ∨ flags.trunc
    · simp [Api.check,h] at hc
    · simp only [not_or,Bool.not_eq_true] at h
      exact ⟨⟨h.1,h.2.1,h.2.2.2.1,h.2.2.2.2⟩,hs rfl⟩
  | symlink target newpath => exact hs.elim
  | stat | fstat => cases hop
  | _ =>
    cases hop
    first
    | exact trivial
    | cases hc

theorem check_handle {api : Api} {nfsfh : Nfsfh} (h : api.check = .handle nfsfh) : api.nfsfh = some nfsfh := by
  cases api with
  | open2 path flags mode =>
    simp only [Api.check] at h
    split at h <;> cases h
  | pwrite | write | ftruncate =>
    cases h
    rfl
  | _ => cases h

/-- Every function that modifies anything has a check, except for the ones that are missing. -/
theorem modifies_checked {v : Version} {api : Api} (h : api.modifies = true) (hs : v.Checks api) :
    api.check = .context ∨ ∃ nfsfh, api.check = .handle nfsfh := by
  cases api with
  | open2 path flags mode =>
    refine .inl (if_pos ?_)
    simp only [Api.modifies,Bool.or_eq_true] at h
    tauto
  | symlink target newpath => exact hs.elim
  | pwrite nfsfh | write nfsfh | ftruncate nfsfh => exact .inr ⟨nfsfh,rfl⟩
  | _ =>
    first
    | exact .inl rfl
    | cases h

section Readonly

variable {v : Version} {ctx : v.dialect.Ctx} {api : Api}

theorem switch_reads (hc : api.check = .nothing) (hs : v.Checks api) : v.Reads (v.dialect.switch ctx api) := by
  unfold Dialect.switch
  cases v with
  | v3 =>
    cases hop : api.v3 ctx.2 with
    | none =>
      have hcase : Version.v3.dialect.case ctx api = none := by simp [Version.dialect,hop]
      rw [hcase]
      exact .pure _
    | some op =>
      have hcase : Version.v3.dialect.case ctx api = some (op.call ctx.1) := by simp [Version.dialect,hop]
      rw [hcase]
      exact Nfs3.Op.call_reads (v3_readonly hop hc hs)
  | v4 =>
    cases hop : api.v4 with
    | none =>
      have hcase : Version.v4.dialect.case ctx api = none := by simp [Version.dialect,hop]
      rw [hcase]
      exact .pure _
    | some op =>
      have hcase : Version.v4.dialect.case ctx api = some (op.call ctx) := by simp [Version.dialect,hop]
      rw [hcase]
      exact Nfs4.Op.call_reads (v4_readonly hop hc hs)

/-- On a readonly context a function does not modify anything. -/
theorem call_reads (hfh : ∀ nfsfh, api.nfsfh = some nfsfh → nfsfh.isReadonly = true) (hs : v.Checks api) :
    v.Reads (v.dialect.call true ctx api) := by
  unfold Dialect.call
  cases hc : api.check with
  | nothing => exact switch_reads hc hs
  | context => exact (Keeps.tell (Nfs3.readonly_ofErr _)).bind fun _ => .pure _
  | handle nfsfh =>
    refine Keeps.ite (fun _ => .pure _) fun h => ?_
    exact absurd (hfh nfsfh (check_handle hc)) h

theorem call_refused (env : Env v.dialect.Site) (hfh : ∀ nfsfh, api.nfsfh = some nfsfh → nfsfh.isReadonly = true)
    (hm : api.modifies = true) (hs : v.Checks api) : Refused (v.dialect.call true ctx api env 0 v.dialect.init) := by
  have hinit : v.dialect.init.sent = [] ∧ v.dialect.init.calls = [] ∧ v.dialect.init.pending = [] := by
    cases v with
    | v3 | v4 => exact ⟨rfl,rfl,rfl⟩
  unfold Dialect.call
  rcases modifies_checked hm hs with hc | ⟨nfsfh,hc⟩
  · rw [hc]
    exact ⟨.inl ⟨rfl,congrArg _ hinit.2.1⟩,hinit.1,hinit.2.2⟩
  · rw [hc]
    dsimp only
    rw [if_pos (hfh nfsfh (check_handle hc))]
    exact ⟨.inr ⟨rfl,hinit.2.1⟩,hinit.1,hinit.2.2⟩

/-- The handles of a context that has told only such handles -/
theorem opened_readonly {ws : List v.dialect.State}
    (hws : ∀ w ∈ ws, World.Within (fun r => v.dialect.modifies r = false) Nfs3.Result.Readonly v.stageReadonly w) {nfsfh : Nfsfh}
    (h : Opened ws nfsfh) : nfsfh.isReadonly = true := by
  obtain ⟨w,hw,r,hr,nfsfh',hnfsfh,hsame⟩ := h
  rw [hsame]
  exact (hws w hw).calls r hr nfsfh' hnfsfh

theorem handle_reads (stage : v.dialect.Stage) (input : v.dialect.Input) (hs : v.stageReadonly stage) :
    v.Reads (v.dialect.handle stage input) := by
  cases v with
  | v3 => exact Nfs3.Stage.handle_reads hs input
  | v4 => exact Nfs4.Stage.handle_reads hs input

/-- The operations of a readonly context, in every run -/
theorem session_within {es : List v.dialect.Event} (hg : Guarded (v.dialect.step true) v.Allowed [] es) :
    ∀ w ∈ run (v.dialect.step true) [] es,
      World.Within (fun r => v.dialect.modifies r = false) Nfs3.Result.Readonly v.stageReadonly w := by
  refine turns_within hg ?_ (fun ws op env hws hallowed => ?_) handle_reads
  · cases v with
    | v3 | v4 => exact ⟨fun _ h => absurd h List.not_mem_nil,fun _ h => absurd h List.not_mem_nil,fun _ h => absurd h List.not_mem_nil⟩
  · exact call_reads (fun nfsfh hn => opened_readonly hws (hallowed.1 nfsfh hn)) hallowed.2

end Readonly

/-- After any run of a readonly context nothing that it has sent modifies the file system, and the functions that would are
refused. -/
def Protects (v : Version) (es : List v.dialect.Event) : Prop :=
  let ws := run (v.dialect.step true) [] es
  (∀ w ∈ ws, ∀ r ∈ w.sent, v.dialect.modifies r = false) ∧
    ∀ ctx api env, api.modifies = true → (∀ nfsfh, api.nfsfh = some nfsfh → Opened ws nfsfh) → v.Checks api →
      Refused (v.dialect.call true ctx api env 0 v.dialect.init)

/-- A context with an empty `cwd` and without nested mounts -/
def plain3 : Nfs3.Ctx := ⟨[],⟨[],[],[]⟩,4096,fun _ => none,fun _ _ => none⟩

/-- The reply that has attributes of a directory, or the access to read -/
def directory : Nfs3.Reply := .success (.ok ⟨[1],⟨2,0,(0,0)⟩,[],1,0,true,[],0,0⟩)

/-- `O_RDONLY` -/
def rdonly : OpenFlags := ⟨false,false,false,false,false,false,false,false⟩

def opened3 : Nfsfh := ⟨[],0,false,false,true,false⟩

/-- The current directory is opened, and written. -/
def openAndWrite : List Version.v3.dialect.Event :=
  [.call ((plain3,4096),.open2 ['.'] rdonly 0) fun _ _ => true,
    .answer 0 ⟨0,(plain3,directory),fun _ _ => true⟩,
    .answer 0 ⟨0,(plain3,directory),fun _ _ => true⟩,
    .call ((plain3,4096),.pwrite opened3 1 0) fun _ _ => true]

def plain4 : Nfs4.Ctx := ⟨[],[],fun _ => none,fun _ => true⟩

/-- A COMPOUND that has opened a file -/
def openedReply : Nfs4.Reply := .success ⟨0,[.access 1 1,.open 0 false,.getfh [1]]⟩

end PublicApi
end Libnfs
