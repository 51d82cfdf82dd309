import Libnfs.Async
import Libnfs.Lookup3

/-! The asynchronous operations of `lib/nfs_v3.c` that take a path or a file handle: what each of them allocates and submits,
and how it goes on with each answer. The arguments of a request are left out. -/
namespace Libnfs
namespace Nfs3

open Paths Normalize NestedMounts Lookup3 Async

inductive Rpc
  | getattr | setattr | lookup | access | readlink | read | write | create | mkdir | symlink | mknod | remove | rmdir
  | rename | link | readdir | readdirplus | fsstat | commit | getacl
  deriving DecidableEq, Repr

/-- Where it can fail: at an allocation that is looked at, at one that is not, at the `nfs_cb_data` of a lookup whose
`continue_data` has no `free_continue_data`, at a submission -/
inductive Site
  | alloc | unchecked | cbData | task (r : Rpc)
  deriving DecidableEq, Repr

/-- What the operations look at in `struct nfs_attr` -/
structure Attr where
  type : ℕ
  size : ℕ
  mtime : ℕ × ℕ
  deriving DecidableEq, Repr

/-- Which of the bits are set in the flags of an open -/
structure OpenFlags where
  wronly : Bool
  rdwr : Bool
  creat : Bool
  excl : Bool
  trunc : Bool
  append : Bool
  sync : Bool
  nofollow : Bool
  deriving DecidableEq, Repr

/-- `struct nfsfh` -/
structure Nfsfh where
  fh : Fh
  offset : ℕ
  isSync : Bool
  isAppend : Bool
  isReadonly : Bool
  isDirty : Bool
  deriving DecidableEq, Repr

/-- What a callback is told: `err`, and the handle that an open returns -/
structure Result where
  err : ℤ
  nfsfh : Option Nfsfh
  deriving DecidableEq, Repr

def Result.ofErr (err : ℤ) : Result := ⟨err,none⟩

/-- An entry of a READDIR or READDIRPLUS, with its attributes if they follow -/
structure Entry where
  name : Path
  type : Option ℕ

/-- `struct nfsdirent` -/
structure Dirent where
  name : Path
  type : ℕ
  deriving DecidableEq, Repr

/-- What the `resok` of a reply has for the operations -/
structure Resok where
  fh : Fh
  attr : Attr
  target : Path
  access : ℕ
  count : ℕ
  eof : Bool
  entries : List Entry
  aceCount : ℕ
  defaultAceCount : ℕ

/-- The status of the RPC, and the `nfsstat3` or the result -/
inductive Reply
  | error | cancel | timeout
  | success (res : Except ℤ Resok)

/-- What the operations read of the context -/
structure Ctx where
  cwd : Path
  mounted : Mounted
  writemax : ℕ
  /-- The time of the cached directory -/
  dircache : Fh → Option (ℕ × ℕ)
  /-- The type of the nested mount at an entry of the directory -/
  mountType : Path → Path → Option ℕ

/-- The answers come as replies; a lookup asks here for symbolic links only. -/
def server : Server Attr where
  lookup _ _ := .error 0
  readlink _ := .error 0
  getattr _ := .error 0
  isLink attr := attr.type = 5

/-- `struct open_cb_data` -/
structure OpenCbData where
  path : Path
  flags : OpenFlags
  mode : ℕ

/-- The callback of the user, or the one that `nfs3_close_async` or `nfs3_initial_open_cb` puts in front of it -/
inductive BaseCb
  | user | close | openCreate

/-- The `cb` of a `struct nfs_cb_data` -/
inductive Cb
  | base (cb : BaseCb)
  | initialOpen (o : OpenCbData)

/-- The `continue_cb` of a lookup behind which no other lookup follows, with what it reads of `continue_data` -/
inductive Final
  | link2 | rename2 | symlink | access2 | access (mode : ℕ) | utimes | chown | chmod (mode : ℕ) | readlink | statvfs
  | opendir | mknod (mode : ℕ) | unlink | rmdir | mkdir (mode : ℕ) | truncate (length : ℕ) | stat64 | stat | chdir
  | open (flags : OpenFlags) | create (o : OpenCbData)

inductive Cont
  | final (c : Final)
  | link1 (newparent : Path)
  | rename1 (newparent : Path)

/-- `continue_int & O_NOFOLLOW`. It is looked at for every operation. -/
def Cont.oNofollow : Cont → Bool
  | .final (.chmod mode) | .final (.mkdir mode) => mode.testBit 17
  | .final (.truncate length) => length.testBit 17
  | .final (.open flags) => flags.nofollow
  | _ => false

/-- What a lookup keeps in its `struct nfs_cb_data` -/
structure Look where
  noFollow : Bool
  cb : Cb
  cont : Cont

def Look.flags (l : Look) : Flags := ⟨l.noFollow,l.cont.oNofollow⟩

/-- The handlers that tell the result of the reply and are done -/
inductive Simple
  | link | rename | symlink | access2 | access (mode : ℕ) | utimes | chown | chmod | readlink | statvfs | mknod | unlink
  | rmdir | mkdir | ftruncate | fsync | stat | stat64 | lseek (offset : ℤ) | pread (requested : ℕ)

/-- The handler that a request waits for, with what it reads of its data -/
inductive Stage
  | lookupPath1 (l : Look) (d : Data)
  | lookupPath2 (l : Look) (d : Data)
  | lookupPathGetattr (l : Look) (d : Data)
  | simple (h : Simple) (cb : Cb)
  | getacl (cb : Cb)
  | opendir (cb : Cb) (savedPath : Path) (entries : List Dirent)
  | opendir2 (cb : Cb) (entries : List Dirent)
  | opendir3 (cb : Cb)
  | writeAppend (count : ℕ) (cb : Cb)
  | pwriteMcb (offset count : ℕ) (cb : Cb)
  | open (flags : OpenFlags) (fh : Fh) (cb : Cb)
  | openTrunc (flags : OpenFlags) (fh : Fh) (cb : Cb)
  | create (o : OpenCbData) (cb : Cb)

/-- What the requests of one operation share, and the `cwd` that it sets: `getattrcount` and `status` of the
`struct rdpe_cb_data`, and the fields that the WRITEs of a `struct nfs_cb_data` have in common -/
structure Shared where
  cwd : Option Path
  getattrcount : ℕ
  failed : Bool
  numCalls : ℕ
  error : ℤ
  cancel : Bool
  oom : Bool
  offset : ℕ
  maxOffset : ℕ

abbrev M := Act Site Rpc Result Stage Shared

/-- The RPC is submitted, or the callback is told that there is no memory. -/
def task (call : Result → M Unit) (r : Rpc) (stage : Stage) : M ℤ := do
  if ← Act.submit (.task r) r stage then return 0
  else
    call (.ofErr (-12))
    return -1

/-- `check_nfs3_error` and the check of the `nfsstat3`: what every handler starts with -/
def checked (call : Result → M Unit) (reply : Reply) (k : Resok → M Unit) : M Unit :=
  match reply with
  | .error => call (.ofErr (-14))
  | .cancel => call (.ofErr (-4))
  | .timeout => call (.ofErr (-4))
  | .success (.error status) => call (.ofErr (nfsstat3ToErrno status))
  | .success (.ok res) => k res

/-- An ACCESS3 mask as `R_OK`, `W_OK` and `X_OK` -/
def accessMode (access : ℕ) : ℕ :=
  (if access.testBit 0 then 4 else 0)+(if access.testBit 2 ∨ access.testBit 3 ∨ access.testBit 4 then 2 else 0)+
    (if access.testBit 1 ∨ access.testBit 5 then 1 else 0)

/-- `nfs3_link_cb`, `nfs3_rename_cb` and the others tell 0, or what they read in the result. -/
def Simple.err : Simple → Resok → ℤ
  | .access2, res => accessMode res.access
  | .access mode, res => if accessMode res.access &&& mode = mode then 0 else -13
  | .lseek offset, res => if offset < 0 ∧ -offset > res.attr.size then -22 else 0
  | .pread requested, res => min res.count requested
  | _, _ => 0

def Simple.handle (h : Simple) (call : Result → M Unit) (reply : Reply) : M Unit :=
  checked call reply fun res => call (.ofErr (h.err res))

/-- `nfs3_getacl_cb` -/
def nfs3GetaclCb (call : Result → M Unit) (reply : Reply) : M Unit :=
  checked call reply fun res => do
    let aces := (if res.aceCount = 0 then 0 else 1)+(if res.defaultAceCount = 0 then 0 else 1)
    if ← Act.times .alloc aces then call (.ofErr 0) else call (.ofErr (-12))

/-- `lookup_missing_attributes`. The `struct rdpe_cb_data` is made for the first entry without a type. -/
def lookupMissingAttributes (cb : Cb) : List Dirent → Bool → M ℕ
  | [], started => do
    let s ← Act.load
    return if started then s.getattrcount else 0
  | nfsdirent :: entries, started => do
    if nfsdirent.type ≠ 0 then lookupMissingAttributes cb entries started
    else
      if ← Act.times .unchecked (if started then 1 else 2) then
        Act.store fun s => if started then s else { s with getattrcount := 0, failed := false }
        if ← Act.submit (.task .lookup) .lookup (.opendir3 cb) then
          Act.store fun s => { s with getattrcount := s.getattrcount+1 }
          lookupMissingAttributes cb entries true
        else lookupMissingAttributes cb entries true
      else
        Act.crash
        return 0

/-- `nfs3_opendir_3_cb` -/
def nfs3Opendir3Cb (call : Result → M Unit) (reply : Reply) : M Unit := do
  let failed := match reply with
    | .success _ => false
    | _ => true
  Act.store fun s => { s with getattrcount := s.getattrcount-1, failed := s.failed || failed }
  let s ← Act.load
  if s.getattrcount = 0 then
    if s.failed then call (.ofErr (-12)) else call (.ofErr 0)
  else return ()

/-- A `struct nfsdirent` and its name for every entry; the entries of the reply come in front. -/
def addEntries (type : Entry → ℕ) : List Entry → List Dirent → M (Option (List Dirent))
  | [], entries => return some entries
  | e :: es, entries => do
    if ← Act.times .alloc 2 then addEntries type es (⟨e.name,type e⟩ :: entries)
    else return none

/-- The end of a directory -/
def dirDone (call : Result → M Unit) (cb : Cb) (entries : List Dirent) : M Unit := do
  if (← lookupMissingAttributes cb entries false) = 0 then call (.ofErr 0) else return ()

/-- `nfs3_opendir_2_cb`. A READDIR tells no attributes. -/
def nfs3Opendir2Cb (call : Result → M Unit) (cb : Cb) (entries : List Dirent) (reply : Reply) : M Unit :=
  checked call reply fun res => do
    match ← addEntries (fun _ => 0) res.entries entries with
    | none => call (.ofErr (-12))
    | some entries =>
      if ¬ res.eof then discard (task call .readdir (.opendir2 cb entries)) else dirDone call cb entries

/-- `nfs3_opendir_cb` -/
def nfs3OpendirCb (ctx : Ctx) (call : Result → M Unit) (cb : Cb) (savedPath : Path) (entries : List Dirent)
    (reply : Reply) : M Unit :=
  match reply with
  | .success (.error 10004) => discard (task call .readdir (.opendir2 cb entries))
  | _ => checked call reply fun res => do
    match ← addEntries (fun e => (e.type.orElse fun _ => ctx.mountType savedPath e.name).getD 0) res.entries entries with
    | none => call (.ofErr (-12))
    | some entries =>
      if ¬ res.eof then discard (task call .readdirplus (.opendir cb savedPath entries)) else dirDone call cb entries

/-- `nfs3_opendir_continue_internal` -/
def nfs3OpendirContinueInternal (ctx : Ctx) (call : Result → M Unit) (cb : Cb) (savedPath : Path) (fh : Fh)
    (attr : Option Attr) : M ℤ := do
  let cached := ctx.dircache fh
  if cached.isSome ∧ attr.map Attr.mtime = cached then
    call (.ofErr 0)
    return 0
  else if ← Act.may .alloc then task call .readdirplus (.opendir cb savedPath [])
  else
    call (.ofErr (-12))
    return -1

/-- `nfs3_ftruncate_async` -/
def nfs3FtruncateAsync (call : Result → M Unit) (cb : Cb) : M ℤ := do
  if ← Act.may .alloc then task call .setattr (.simple .ftruncate cb) else return -1

/-- `nfs3_fsync_async` -/
def nfs3FsyncAsync (call : Result → M Unit) (cb : Cb) : M ℤ := do
  if ← Act.may .alloc then task call .commit (.simple .fsync cb) else return -1

/-- `nfs3_truncate_continue_internal`. `nfs_ftruncate_async` is called with a handle that is not read-only. -/
def nfs3TruncateContinueInternal (call : Result → M Unit) (cb : Cb) : M ℤ := do
  if (← nfs3FtruncateAsync call cb) ≠ 0 then
    call (.ofErr (-12))
    return -1
  else return 0

/-- `nfs3_mknod_continue_internal`: a device, a socket or a FIFO -/
def nfs3MknodContinueInternal (call : Result → M Unit) (cb : Cb) (mode : ℕ) : M ℤ := do
  if mode &&& 0o170000 ∈ [0o020000,0o060000,0o140000,0o010000] then task call .mknod (.simple .mknod cb)
  else
    call (.ofErr (-22))
    return -1

/-- `nfs3_chdir_continue_internal` -/
def nfs3ChdirContinueInternal (call : Result → M Unit) (savedPath : Path) : M ℤ := do
  Act.store fun s => { s with cwd := some savedPath }
  call (.ofErr 0)
  return 0

/-- `nfs3_open_continue_internal` -/
def nfs3OpenContinueInternal (call : Result → M Unit) (cb : Cb) (fh : Fh) (flags : OpenFlags) : M ℤ := do
  if flags.creat ∧ flags.excl then
    call (.ofErr (-17))
    return -1
  else task call .access (.open flags fh cb)

/-- The `continue_cb` of a lookup -/
def Final.continue (ctx : Ctx) (call : Result → M Unit) (cb : Cb) (savedPath : Path) (fh : Fh) (attr : Option Attr) :
    Final → M ℤ
  | .link2 => task call .link (.simple .link cb)
  | .rename2 => task call .rename (.simple .rename cb)
  | .symlink => task call .symlink (.simple .symlink cb)
  | .access2 => task call .access (.simple .access2 cb)
  | .access mode => task call .access (.simple (.access mode) cb)
  | .utimes => task call .setattr (.simple .utimes cb)
  | .chown => task call .setattr (.simple .chown cb)
  | .chmod _ => task call .setattr (.simple .chmod cb)
  | .readlink => task call .readlink (.simple .readlink cb)
  | .statvfs => task call .fsstat (.simple .statvfs cb)
  | .opendir => nfs3OpendirContinueInternal ctx call cb savedPath fh attr
  | .mknod mode => nfs3MknodContinueInternal call cb mode
  | .unlink => task call .remove (.simple .unlink cb)
  | .rmdir => task call .rmdir (.simple .rmdir cb)
  | .mkdir _ => task call .mkdir (.simple .mkdir cb)
  | .truncate _ => nfs3TruncateContinueInternal call cb
  | .stat64 => task call .getattr (.simple .stat64 cb)
  | .stat => task call .getattr (.simple .stat cb)
  | .chdir => nfs3ChdirContinueInternal call savedPath
  | .open flags => nfs3OpenContinueInternal call cb fh flags
  | .create o => task call .create (.create o cb)

/-- The end of `nfs3_lookup_path_async_internal`: the next request, `continue_cb`, or an error for the callback -/
def perform (call : Result → M Unit) (continue_ : Path → Fh → Option Attr → M ℤ) (l : Look) : Next Attr → M Unit
  | .done .refused => return ()
  | .done (.called err) => call (.ofErr err)
  | .done (.continued fh attr savedPath) => do
    if ← Act.may .alloc then discard (continue_ savedPath fh attr) else call (.ofErr (-12))
  | .lookup d _ _ => discard (task call .lookup (.lookupPath1 l d))
  | .readlink d _ => discard (task call .readlink (.lookupPath2 l d))

/-- `nfs3_lookuppath_async` behind its `struct nfs_cb_data`; the copies of the path that the nested mounts make are not
looked at. -/
def startLookup (ctx : Ctx) (call : Result → M Unit) (continue_ : Path → Fh → Option Attr → M ℤ) (l : Look) (path : Path) :
    M ℤ := do
  if ← Act.may .alloc then
    match NestedMounts.nfs3LookuppathAsync ctx.cwd ctx.mounted.nestedMounts path with
    | .error _ => return -1
    | .ok s =>
      let d : Data := ⟨s.savedPath,s.savedPath,0⟩
      match s.fh with
      | some mnt =>
        if ← Act.may .unchecked then
          perform call continue_ l (nfs3LookupPathAsyncInternal server l.flags none d mnt.fh)
          return 0
        else
          Act.crash
          return 0
      | none =>
        if s.savedPath ≠ [] then
          perform call continue_ l (nfs3LookupPathAsyncInternal server l.flags none d ctx.mounted.rootfh)
          return 0
        else if ← Act.submit (.task .getattr) .getattr (.lookupPathGetattr l d) then return 0
        else return -1
  else return -1

/-- `nfs3_lookuppath_async`. Without a `free_continue_data` it calls NULL when there is no memory. -/
def nfs3LookuppathAsync (ctx : Ctx) (call : Result → M Unit) (continue_ : Path → Fh → Option Attr → M ℤ) (l : Look)
    (freeable : Bool) (path : Path) : M ℤ := do
  if ← Act.may (if freeable then .alloc else .cbData) then startLookup ctx call continue_ l path
  else
    if ¬ freeable then Act.crash
    return -1

/-- The callback of the user, `nfs3_close_cb` and `nfs3_open_create_cb` -/
def BaseCb.call : BaseCb → Result → M Unit
  | .user, r => Act.tell r
  | .close, r => Act.tell r
  | .openCreate, r => Act.tell (if r.err ≠ 0 then .ofErr (nfsstat3ToErrno r.err) else r)

/-- `nfs3_initial_open_cb` -/
def nfs3InitialOpenCb (ctx : Ctx) (o : OpenCbData) (r : Result) : M Unit := do
  if r.err = -17 ∧ o.flags.creat ∧ o.flags.excl then Act.tell (.ofErr (-17))
  else if r.err = -2 ∧ o.flags.creat then
    -- a path without a `/` is copied behind an empty one
    if ← Act.times .alloc (if '/' ∈ o.path then 0 else 1) then
      let dir := if '/' ∈ o.path then (o.path.reverse.dropWhile (· ≠ '/')).reverse.dropLast else []
      let cb := BaseCb.openCreate
      let c := Final.create o
      if (← nfs3LookuppathAsync ctx cb.call (fun p fh attr => c.continue ctx cb.call (.base cb) p fh attr)
          ⟨false,.base cb,.final c⟩ false dir) ≠ 0 then Act.tell (.ofErr (-12))
      else return ()
    else Act.tell (.ofErr (-12))
  else if r.err ≠ 0 then Act.tell (.ofErr (nfsstat3ToErrno r.err))
  else Act.tell r

/-- The callback that an operation has -/
def Cb.call (ctx : Ctx) : Cb → Result → M Unit
  | .base cb => cb.call
  | .initialOpen o => nfs3InitialOpenCb ctx o

/-- `nfs3_link_continue_1_internal` and `nfs3_rename_continue_1_internal` look up the second path. -/
def secondLookup (ctx : Ctx) (cb : Cb) (c : Final) (newparent : Path) : M ℤ := do
  if (← nfs3LookuppathAsync ctx (cb.call ctx) (fun p fh attr => c.continue ctx (cb.call ctx) cb p fh attr)
      ⟨false,cb,.final c⟩ true newparent) ≠ 0 then
    cb.call ctx (.ofErr (-12))
    return -1
  else return 0

def Cont.continue (ctx : Ctx) (cb : Cb) (savedPath : Path) (fh : Fh) (attr : Option Attr) : Cont → M ℤ
  | .final c => c.continue ctx (cb.call ctx) cb savedPath fh attr
  | .link1 newparent => secondLookup ctx cb .link2 newparent
  | .rename1 newparent => secondLookup ctx cb .rename2 newparent

/-- The lookup goes on. -/
def Look.perform (ctx : Ctx) (l : Look) (next : Next Attr) : M Unit :=
  Nfs3.perform (l.cb.call ctx) (fun p fh attr => l.cont.continue ctx l.cb p fh attr) l next

/-- `nfs3_lookup_path_1_cb` -/
def nfs3LookupPath1Cb (ctx : Ctx) (l : Look) (d : Data) (reply : Reply) : M Unit :=
  checked (l.cb.call ctx) reply fun res => l.perform ctx (Lookup3.nfs3LookupPath1Cb server l.flags d (.ok (res.fh,res.attr)))

/-- `nfs3_lookup_path_2_cb` -/
def nfs3LookupPath2Cb (ctx : Ctx) (l : Look) (d : Data) (reply : Reply) : M Unit :=
  checked (l.cb.call ctx) reply fun res => do
    let next := Lookup3.nfs3LookupPath2Cb server ctx.mounted l.flags d (.ok res.target)
    if (newPath ctx.mounted.export_ d res.target).isNone then l.perform ctx next
    else if ← Act.may .alloc then l.perform ctx next
    else l.cb.call ctx (.ofErr (-12))

/-- `nfs3_lookup_path_getattr_cb` -/
def nfs3LookupPathGetattrCb (ctx : Ctx) (l : Look) (d : Data) (reply : Reply) : M Unit :=
  checked (l.cb.call ctx) reply fun res =>
    l.perform ctx (Lookup3.nfs3LookupPathGetattrCb server ctx.mounted l.flags d (.ok res.attr))

/-- The access that an open asks for -/
def OpenFlags.nfsmode (flags : OpenFlags) : ℕ :=
  (if flags.wronly then 4 else 0) ||| (if flags.rdwr then 5 else 0) ||| (if ¬ flags.wronly ∧ ¬ flags.rdwr then 1 else 0)

/-- `nfs3_open_trunc_cb` -/
def nfs3OpenTruncCb (call : Result → M Unit) (flags : OpenFlags) (fh : Fh) (reply : Reply) : M Unit :=
  checked call reply fun _ => do
    if ← Act.may .alloc then call ⟨0,some ⟨fh,0,flags.sync,flags.append,false,false⟩⟩ else call (.ofErr (-12))

/-- `nfs3_open_cb` -/
def nfs3OpenCb (call : Result → M Unit) (flags : OpenFlags) (fh : Fh) (cb : Cb) (reply : Reply) : M Unit :=
  checked call reply fun res => do
    if res.access ≠ flags.nfsmode then call (.ofErr (-13))
    else if flags.trunc ∧ (flags.rdwr ∨ flags.wronly) then discard (task call .setattr (.openTrunc flags fh cb))
    else if ← Act.may .alloc then
      call ⟨0,some ⟨fh,0,flags.sync,flags.append,¬ (flags.wronly ∨ flags.rdwr),false⟩⟩
    else call (.ofErr (-12))

/-- `nfs3_create_1_cb` -/
def nfs3Create1Cb (call : Result → M Unit) (o : OpenCbData) (reply : Reply) : M Unit :=
  checked call reply fun res => do
    if ← Act.times .alloc 2 then call ⟨0,some ⟨res.fh,0,o.flags.sync,o.flags.append,false,false⟩⟩
    else call (.ofErr (-12))

/-- The loop of `nfs3_pwrite_async_internal` -/
def writeLoop (ctx : Ctx) (cb : Cb) : ℕ → ℕ → ℕ → M ℤ
  | 0, _, _ => return 0
  | fuel+1, count, offset => do
    let writecount := min count ctx.writemax
    if ← Act.may .alloc then
      if ← Act.submit (.task .write) .write (.pwriteMcb offset writecount cb) then
        Act.store fun s => { s with numCalls := s.numCalls+1 }
        if count-writecount > 0 then writeLoop ctx cb fuel (count-writecount) (offset+writecount) else return 0
      else stop
    else stop
where
  /-- What has been sent is waited for. -/
  stop : M ℤ := do
    if (← Act.load).numCalls = 0 then return -1
    else
      Act.store fun s => { s with oom := true }
      return 0

/-- `nfs3_pwrite_async_internal` -/
def nfs3PwriteAsyncInternal (ctx : Ctx) (cb : Cb) (count offset : ℕ) : M ℤ := do
  let count := min count ctx.writemax
  if ← Act.may .alloc then
    Act.store fun s => { s with numCalls := 0, error := 0, cancel := false, oom := false, offset := offset, maxOffset := offset }
    writeLoop ctx cb (count+1) count offset
  else return -1

/-- `nfs3_write_append_cb` -/
def nfs3WriteAppendCb (ctx : Ctx) (call : Result → M Unit) (count : ℕ) (cb : Cb) (reply : Reply) : M Unit :=
  checked call reply fun res => do
    if (← nfs3PwriteAsyncInternal ctx cb count res.attr.size) ≠ 0 then call (.ofErr (-12)) else return ()

/-- The end of `nfs3_pwrite_mcb`, when a WRITE is not sent again -/
def pwriteDone (call : Result → M Unit) : M Unit := do
  let s ← Act.load
  if s.numCalls > 0 then return ()
  else if s.oom then call (.ofErr (-12))
  else if s.error ≠ 0 then call (.ofErr s.error)
  else if s.cancel then call (.ofErr (-4))
  else call (.ofErr (s.maxOffset-s.offset))

/-- `nfs3_pwrite_mcb`; a short write is sent again from where it ended. -/
def nfs3PwriteMcb (call : Result → M Unit) (offset count : ℕ) (cb : Cb) (reply : Reply) : M Unit := do
  Act.store fun s => { s with numCalls := s.numCalls-1 }
  match reply with
  | .error =>
    Act.store fun s => { s with error := -14 }
    pwriteDone call
  | .cancel | .timeout =>
    Act.store fun s => { s with cancel := true }
    pwriteDone call
  | .success (.error status) =>
    Act.store fun s => { s with error := nfsstat3ToErrno status }
    pwriteDone call
  | .success (.ok res) =>
    if res.count < count then
      if res.count = 0 then
        Act.store fun s => { s with error := -14 }
        pwriteDone call
      else if ← Act.submit (.task .write) .write (.pwriteMcb (offset+res.count) (count-res.count) cb) then
        Act.store fun s => { s with numCalls := s.numCalls+1 }
      else
        Act.store fun s => { s with oom := true, maxOffset := max s.maxOffset (offset+res.count+res.count) }
        pwriteDone call
    else
      Act.store fun s => { s with maxOffset := if res.count > 0 then max s.maxOffset (offset+res.count) else s.maxOffset }
      pwriteDone call

/-- What the operation does with the reply -/
def Stage.handle (stage : Stage) (input : Ctx × Reply) : M Unit :=
  let ctx := input.1
  let reply := input.2
  match stage with
  | .lookupPath1 l d => nfs3LookupPath1Cb ctx l d reply
  | .lookupPath2 l d => nfs3LookupPath2Cb ctx l d reply
  | .lookupPathGetattr l d => nfs3LookupPathGetattrCb ctx l d reply
  | .simple h cb => h.handle (cb.call ctx) reply
  | .getacl cb => nfs3GetaclCb (cb.call ctx) reply
  | .opendir cb savedPath entries => nfs3OpendirCb ctx (cb.call ctx) cb savedPath entries reply
  | .opendir2 cb entries => nfs3Opendir2Cb (cb.call ctx) cb entries reply
  | .opendir3 cb => nfs3Opendir3Cb (cb.call ctx) reply
  | .writeAppend count cb => nfs3WriteAppendCb ctx (cb.call ctx) count cb reply
  | .pwriteMcb offset count cb => nfs3PwriteMcb (cb.call ctx) offset count cb reply
  | .open flags fh cb => nfs3OpenCb (cb.call ctx) flags fh cb reply
  | .openTrunc flags fh cb => nfs3OpenTruncCb (cb.call ctx) flags fh reply
  | .create o cb => nfs3Create1Cb (cb.call ctx) o reply

/-- The operations, with what their control flow reads of the arguments -/
inductive Op
  | access (path : Path) (mode : ℕ)
  | access2 (path : Path)
  | chdir (path : Path)
  | chmod (path : Path) (noFollow : Bool) (mode : ℕ)
  | chown (path : Path) (noFollow : Bool)
  | close (nfsfh : Nfsfh)
  | creat (path : Path) (mode : ℕ)
  | fchmod
  | fchown
  | fstat
  | fstat64
  | fsync
  | ftruncate
  | getacl
  | link (oldpath newpath : Path)
  | lseek (nfsfh : Nfsfh) (offset : ℤ) (whence : ℕ)
  | mkdir2 (path : Path) (mode : ℕ)
  | mknod (path : Path) (mode : ℕ)
  | open (path : Path) (flags : OpenFlags) (mode : ℕ)
  | opendir (path : Path)
  | pread (count readmax : ℕ)
  | preadv (lens : List ℕ) (readmax : ℕ)
  | pwrite (count offset : ℕ)
  | readlink (path : Path)
  | rename (oldpath newpath : Path)
  | rmdir (path : Path)
  | stat (path : Path)
  | stat64 (path : Path) (noFollow : Bool)
  | statvfs (path : Path)
  | statvfs64 (path : Path)
  | symlink (linkname : Path)
  | truncate (path : Path) (length : ℕ)
  | unlink (path : Path)
  | utime (path : Path) (times : Bool)
  | utimes (path : Path) (noFollow times : Bool)
  | write (nfsfh : Nfsfh) (count : ℕ)

/-- The directory of a path, before its last `/`; the current one is empty. -/
def parent (path : Path) : Path := if '/' ∈ path then (path.reverse.dropWhile (· ≠ '/')).reverse.dropLast else []

/-- The copies that a path is split with: `strdup`, and another one for the name behind a `/` -/
def splits (path : Path) : ℕ := if '/' ∈ path then 2 else 1

def user : Cb := .base .user

/-- The operation allocates `n` times, and looks up a path for the user. -/
def lookupFor (ctx : Ctx) (n : ℕ) (noFollow : Bool) (cont : Cont) (path : Path) : M ℤ := do
  if ← Act.times .alloc n then
    nfs3LookuppathAsync ctx (user.call ctx) (fun p fh attr => cont.continue ctx user p fh attr) ⟨noFollow,user,cont⟩ true path
  else return -1

/-- A `struct nfs_cb_data` and a request about a handle. An error is told and returned. -/
def handleTask (ctx : Ctx) (n : ℕ) (r : Rpc) (stage : Stage) : M ℤ := do
  if ← Act.times .alloc n then task (user.call ctx) r stage else return -1

/-- The same, and an error is only returned. -/
def handleSend (r : Rpc) (stage : Stage) : M ℤ := do
  if ← Act.may .alloc then
    if ← Act.submit (.task r) r stage then return 0 else return -1
  else return -1

/-- `nfs3_close_async` -/
def nfs3CloseAsync (ctx : Ctx) (nfsfh : Nfsfh) : M ℤ := do
  if ¬ nfsfh.isDirty then
    user.call ctx (.ofErr 0)
    return 0
  else if ← Act.may .alloc then nfs3FsyncAsync ((Cb.base .close).call ctx) (.base .close)
  else return -1

/-- `nfs3_lseek_async`; 0 and 1 are `SEEK_SET` and `SEEK_CUR`. -/
def nfs3LseekAsync (ctx : Ctx) (nfsfh : Nfsfh) (offset : ℤ) (whence : ℕ) : M ℤ := do
  if whence = 0 then
    user.call ctx (.ofErr (if offset < 0 then -22 else 0))
    return 0
  else if whence = 1 then
    user.call ctx (.ofErr (if offset < 0 ∧ nfsfh.offset < -offset then -22 else 0))
    return 0
  else handleSend .getattr (.simple (.lseek offset) user)

/-- `nfs3_open_async`. Its `continue_data` is NULL. -/
def nfs3OpenAsync (ctx : Ctx) (path : Path) (flags : OpenFlags) (mode : ℕ) : M ℤ := do
  if ← Act.times .alloc 2 then
    let cb := Cb.initialOpen ⟨path,flags,mode⟩
    let c := Cont.final (.open flags)
    if (← nfs3LookuppathAsync ctx (cb.call ctx) (fun p fh attr => c.continue ctx cb p fh attr) ⟨false,cb,c⟩ true path) ≠ 0
    then return -1
    else return 0
  else return -12

/-- `nfs3_write_async` -/
def nfs3WriteAsync (ctx : Ctx) (nfsfh : Nfsfh) (count : ℕ) : M ℤ :=
  if nfsfh.isAppend then handleSend .getattr (.writeAppend count user)
  else nfs3PwriteAsyncInternal ctx user count nfsfh.offset

/-- `O_CREAT|O_WRONLY|O_TRUNC` -/
def creatFlags : OpenFlags := ⟨true,false,true,false,true,false,false,false⟩

/-- The call of the operation, with what it returns -/
def Op.call (ctx : Ctx) : Op → M ℤ
  | .access path mode => lookupFor ctx 0 false (.final (.access (mode &&& 7))) path
  | .access2 path => lookupFor ctx 0 false (.final .access2) path
  | .chdir path => lookupFor ctx 0 false (.final .chdir) path
  | .chmod path noFollow mode => lookupFor ctx 0 noFollow (.final (.chmod mode)) path
  | .chown path noFollow => lookupFor ctx 1 noFollow (.final .chown) path
  | .close nfsfh => nfs3CloseAsync ctx nfsfh
  | .creat path mode => nfs3OpenAsync ctx path creatFlags mode
  | .fchmod => handleTask ctx 2 .setattr (.simple .chmod user)
  | .fchown => handleTask ctx 3 .setattr (.simple .chown user)
  | .fstat => handleTask ctx 1 .getattr (.simple .stat user)
  | .fstat64 => handleTask ctx 1 .getattr (.simple .stat64 user)
  | .fsync => nfs3FsyncAsync (user.call ctx) user
  | .ftruncate => nfs3FtruncateAsync (user.call ctx) user
  | .getacl => handleTask ctx 1 .getacl (.getacl user)
  | .link oldpath newpath => lookupFor ctx (2+splits newpath) false (.link1 (parent newpath)) oldpath
  | .lseek nfsfh offset whence => nfs3LseekAsync ctx nfsfh offset whence
  | .mkdir2 path mode => lookupFor ctx 1 false (.final (.mkdir mode)) (parent path)
  | .mknod path mode => lookupFor ctx 2 false (.final (.mknod mode)) (parent path)
  | .open path flags mode => nfs3OpenAsync ctx path flags mode
  | .opendir path => lookupFor ctx 1 false (.final .opendir) path
  | .pread count readmax => handleSend .read (.simple (.pread (min count readmax)) user)
  | .preadv lens readmax => handleSend .read (.simple (.pread (min lens.sum readmax)) user)
  | .pwrite count offset => nfs3PwriteAsyncInternal ctx user count offset
  | .readlink path => lookupFor ctx 0 true (.final .readlink) path
  | .rename oldpath newpath =>
    lookupFor ctx (1+splits oldpath+splits newpath) false (.rename1 (parent newpath)) (parent oldpath)
  | .rmdir path => lookupFor ctx 1 false (.final .rmdir) (parent path)
  | .stat path => lookupFor ctx 0 false (.final .stat) path
  | .stat64 path noFollow => lookupFor ctx 0 noFollow (.final .stat64) path
  | .statvfs path => lookupFor ctx 0 false (.final .statvfs) path
  | .statvfs64 path => lookupFor ctx 0 false (.final .statvfs) path
  | .symlink linkname => lookupFor ctx (2+splits linkname) false (.final .symlink) (parent linkname)
  | .truncate path length => lookupFor ctx 0 false (.final (.truncate length)) path
  | .unlink path => lookupFor ctx 1 false (.final .unlink) (parent path)
  | .utime path times => lookupFor ctx (if times then 1 else 0) false (.final .utimes) path
  | .utimes path noFollow times => lookupFor ctx (if times then 1 else 0) noFollow (.final .utimes) path
  | .write nfsfh count => nfs3WriteAsync ctx nfsfh count

/-- A context that has done nothing -/
def World.init : World Rpc Result Stage Shared := ⟨[],[],[],false,⟨none,0,false,0,0,false,false,0,0⟩⟩

/-- The call of an operation, and the answers that come to its requests. The context may change from one to the next. -/
def outcome (op : Op) (ctx : Ctx) (env : Env Site) : ℤ × World Rpc Result Stage Shared :=
  ((op.call ctx env 0 World.init).1,(op.call ctx env 0 World.init).2.2)

def after (w : World Rpc Result Stage Shared) (es : List (Event (Ctx × Reply) Site)) : World Rpc Result Stage Shared :=
  Transition.run (answer Stage.handle) w es

end Nfs3
end Libnfs
