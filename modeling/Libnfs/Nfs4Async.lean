import Libnfs.Attributes
import Libnfs.Lookup4
import Libnfs.Nfs3Async
import Libnfs.OpenState

/-! The asynchronous operations of `lib/nfs_v4.c`: what each of them allocates and sends, and how it goes on with each answer.
Of the stateids and the sequence numbers nothing is kept. -/
namespace Libnfs
namespace Nfs4

open Paths Normalize Lookup3 Async Attributes
open Nfs3 (OpenFlags Nfsfh Result creatFlags)
open Lookup4 (errSymlink nfsstat4ToErrno pathNames slashAt nfs4ResolvePath dataSplitPath)
open OpenState (LockType LockOp FlockType)

/-- Where it can fail: at an allocation that is looked at, at one that is not, at a submission -/
inductive Site
  | alloc | unchecked | task
  deriving DecidableEq, Repr

/-- The attributes that a GETATTR asks for -/
inductive AttrRequest
  | standard | statvfs | acl | rwmax
  deriving DecidableEq, Repr

/-- Seconds and nanoseconds of `atime` and of `mtime` -/
abbrev Times := (ℕ × ℕ) × ℕ × ℕ

/-- The attributes that a SETATTR or a CREATE sets; without times the server takes its own. -/
inductive SetAttrs
  | size (length : ℕ)
  | mode (mode : ℕ)
  | owner (uid gid : ℤ)
  | times (times : Option Times)
  deriving DecidableEq, Repr

/-- `openflag4`. `nfs4_populate_open` tests `data->filler.flags|O_EXCL`, so that every file is created `EXCLUSIVE4`. -/
inductive OpenHow
  | nocreate | exclusive
  deriving DecidableEq, Repr

/-- `createtype4` -/
inductive CreateType
  | blk (dev : ℤ)
  | chr (dev : ℤ)
  | lnk (linkdata : Option Path)
  | dir
  deriving DecidableEq, Repr

/-- `nfs_argop4`; `garbage` is one that nothing has been written to. -/
inductive Argop
  | putrootfh
  | putfh (fh : Fh)
  | lookup (name : Path)
  | getattr (request : AttrRequest)
  | getfh
  | savefh
  | readlink
  | access (mask : ℕ)
  | open (shareAccess : ℕ) (how : OpenHow) (name : Path)
  | openConfirm
  | close
  | commit
  | setattr (attrs : SetAttrs)
  | create (type : CreateType) (name : Path) (attrs : Option SetAttrs)
  | remove (name : Path)
  | link (name : Path)
  | rename (name newname : Path)
  | read (offset count : ℕ)
  | write (offset count : ℕ)
  | readdir (cookie : ℕ)
  | lock (type : LockType) (offset length : ℕ)
  | locku (offset length : ℕ)
  | lockt (type : LockType) (offset length : ℕ)
  | setclientid
  | setclientidConfirm
  | garbage
  deriving DecidableEq, Repr

/-- What is given to the RPC layer: a connect, or a COMPOUND -/
inductive Request
  | connect
  | compound (ops : List Argop)
  deriving DecidableEq, Repr

/-- `entry4` -/
structure Entry where
  cookie : ℕ
  name : Path
  attrs : Attrlist

/-- `nfs_resop4`, with what the handlers read. Where the status of an operation is not `NFS4_OK` its other fields are zero. -/
inductive Resop
  | access (supported access : ℕ)
  | getattr (attrs : Attrlist)
  | getfh (fh : Fh)
  | lookup (status : ℤ)
  | open (status : ℤ) (confirm : Bool)
  | openConfirm
  | lock
  | locku
  | read (dataLen : ℕ)
  | write (count : ℕ)
  | readdir (entries : List Entry) (eof : Bool)
  | readlink (target : Path)
  | other

/-- `COMPOUND4res` -/
structure Res where
  status : ℤ
  resarray : List Resop

/-- The status of the RPC, and the reply to the COMPOUND -/
inductive Reply
  | error | cancel | timeout
  | success (res : Res)

/-- What the operations read of the context; `zdrFattr4Acl` is whether an ACL can be decoded. -/
structure Ctx where
  cwd : Path
  rootfh : Fh
  getpwnam : Getpwnam
  zdrFattr4Acl : Attrlist → Bool

/-- `filler.func`, with the blobs that it reads -/
inductive Filler
  | getfh
  | getattr
  | access (mask : ℕ)
  | mkdir (mode : ℕ)
  | remove
  | open
  | lookupReadlink
  | symlink (target : Option Path)
  | readlink
  | link (fh : Fh)
  | rename (fh : Fh) (newname : Option Path)
  | mknod (mode : ℕ) (dev : ℤ)
  | readdir (cookie : ℕ)
  | chmod (mode : ℕ)
  | chown (uid gid : ℤ)
  | utimes (times : Option Times)

/-- `open_cb`, with what `blob3` has for it -/
inductive OpenCb
  | openTruncate
  | openChmod (mode : ℕ)
  | truncateOpen (length : ℕ)

/-- `struct nfs4_cb_data`, the `id` telling one allocation from another; `flags` is `filler.flags` and `name` is
`filler.data`. -/
structure CbData where
  id : ℕ
  path : Path
  noFollow : Bool
  func : Filler
  flags : OpenFlags
  name : Option Path
  openCb : Option OpenCb

def noFlags : OpenFlags := ⟨false,false,false,false,false,false,false,false⟩

/-- After the `calloc` -/
def CbData.new (id : ℕ) : CbData := ⟨id,[],false,.getfh,noFlags,none,none⟩

/-- The handlers that report 0 for every reply without an error -/
inductive Simple
  | mkdir | remove | symlink | link2 | rename2 | mknod | chmod | chown | utimes | fsync | close
  deriving DecidableEq, Repr

/-- `continue_cb` -/
inductive Cont
  | mount4 | chdir1 | xstat64
  | simple (h : Simple)
  | open | openReadlink | readlink
  | link1 (oldpath : Path)
  | rename1 (oldpath : Path)
  | opendir | access

/-- `struct nfs4_flock` -/
structure Flock where
  type : FlockType
  whence : ℕ
  start : ℕ
  len : ℕ

/-- `enum nfs4_fcntl_op` -/
inductive FcntlOp
  | setlk | setlkw
  deriving DecidableEq, Repr

/-- The handler that a request waits for, with what it reads beside its `struct nfs4_cb_data` -/
inductive Handler
  | lookupPath1 (cont : Cont)
  | lookupPath2 (cont : Cont) (idx : ℕ)
  | mount1 | mount2 | mount3 | mount5
  | xstat64 | getacl | statvfs
  | simple (h : Simple)
  | openConfirm (fh : Nfsfh)
  | openSetattr (fh : Nfsfh)
  | truncateClose
  | pread (requested : ℕ)
  | pwrite
  | writeAppend (fh : Fh) (count : ℕ)
  | opendir2 (fh : Fh) (cookie : ℕ)
  | lseek (offset : ℤ)
  | lockf (cmd : LockOp)
  | fcntl (fl : Flock)
  | fcntlStat (fh : Nfsfh) (cmd : FcntlOp) (fl : Flock)

structure Stage where
  data : CbData
  handler : Handler

/-- The `cwd` and the `rootfh` that the operation sets, how many `struct nfs4_cb_data` it has allocated, those that it has
freed, and whether one was used or freed after that -/
structure Shared where
  cwd : Option Path
  rootfh : Option Fh
  allocated : ℕ
  freed : List ℕ
  misused : Bool

abbrev M := Act Site Request Result Stage Shared

/-- A `calloc` of `struct nfs4_cb_data` -/
def callocData : M (Option CbData) := do
  if ← Act.may .alloc then
    let s ← Act.load
    Act.store fun s => { s with allocated := s.allocated+1 }
    return some (.new s.allocated)
  else return none

namespace CbData

/-- Something is read in it or written to it. -/
def use (data : CbData) : M Unit := Act.store fun s => { s with misused := s.misused || decide (data.id ∈ s.freed) }

/-- `free_nfs4_cb_data` -/
def free (data : CbData) : M Unit := do
  data.use
  Act.store fun s => { s with freed := data.id :: s.freed }

/-- `data->cb` -/
def call (data : CbData) (r : Result) : M Unit := do
  data.use
  Act.tell r

def finish (data : CbData) (r : Result) : M Unit := do
  data.call r
  data.free

def fail (data : CbData) (err : ℤ) : M Unit := data.finish (.ofErr err)

/-- A COMPOUND whose handler has `data` for its `private_data` -/
def submit (data : CbData) (ops : List Argop) (handler : Handler) : M Bool := do
  data.use
  Act.submit .task (.compound ops) ⟨data,handler⟩

/-- The COMPOUND is sent, or the callback is told that there is no memory. -/
def task (data : CbData) (ops : List Argop) (handler : Handler) : M Unit := do
  if ← data.submit ops handler then return () else data.fail (-12)

end CbData

/-- `check_nfs4_error` -/
def checked (data : CbData) (reply : Reply) (k : Res → M Unit) : M Unit :=
  match reply with
  | .error => data.fail (-14)
  | .cancel => data.fail (-4)
  | .timeout => data.fail (-4)
  | .success res => if res.status ≠ 0 then data.fail (nfsstat4ToErrno res.status) else k res

/-- `nfs4_find_op` -/
def findOp {α : Type} (data : CbData) (res : Res) (op : Resop → Option α) (k : α → M Unit) : M Unit :=
  match res.resarray.findSome? op with
  | none => data.fail (-22)
  | some a => k a

namespace Resop

def access? : Resop → Option (ℕ × ℕ)
  | .access supported granted => some (supported,granted)
  | _ => none

def getattr? : Resop → Option Attrlist
  | .getattr attrs => some attrs
  | _ => none

def getfh? : Resop → Option Fh
  | .getfh fh => some fh
  | _ => none

def open? : Resop → Option (ℤ × Bool)
  | .open status confirm => some (status,confirm)
  | _ => none

def openConfirm? : Resop → Option Unit
  | .openConfirm => some ()
  | _ => none

def lock? : Resop → Option Unit
  | .lock => some ()
  | _ => none

def locku? : Resop → Option Unit
  | .locku => some ()
  | _ => none

def read? : Resop → Option ℕ
  | .read dataLen => some dataLen
  | _ => none

def write? : Resop → Option ℕ
  | .write count => some count
  | _ => none

def readdir? : Resop → Option (List Entry × Bool)
  | .readdir entries eof => some (entries,eof)
  | _ => none

def readlink? : Resop → Option Path
  | .readlink target => some target
  | _ => none

def isLinkLookup : Resop → Bool
  | .lookup status => status = errSymlink
  | _ => false

def isLinkOpen : Resop → Bool
  | .open status _ => status = errSymlink
  | _ => false

end Resop

/-- How many LOOKUPs come before the one that found a symbolic link -/
def linkIdx : List Resop → ℕ
  | [] => 0
  | .lookup status :: res => if status = errSymlink then 0 else linkIdx res+1
  | _ :: res => linkIdx res

/-- `nfs4_allocate_op`: PUTFH or PUTROOTFH, the LOOKUPs and the GETATTR -/
def allocateOp (ctx : Ctx) (names : List Path) : List Argop :=
  (if ctx.rootfh ≠ [] then .putfh ctx.rootfh else .putrootfh) :: (names.map .lookup ++ [.getattr .standard])

/-- `htonl` on a little-endian host -/
def htonl (n : ℕ) : ℕ := n % 2^8*2^24+n/2^8 % 2^8*2^16+n/2^16 % 2^8*2^8+n/2^24 % 2^8

/-- The access mask of `nfs4_populate_open` -/
def accessMask (flags : OpenFlags) : ℕ :=
  (if flags.wronly then 4 else 0) ||| (if flags.rdwr then 5 else 0) ||| (if ¬ flags.wronly then 1 else 0)

/-- `nfs4_populate_open` -/
def nfs4PopulateOpen (flags : OpenFlags) (name : Path) : List Argop :=
  let mask := accessMask flags
  [.access mask,
    .open ((if mask.testBit 0 then 1 else 0) ||| (if mask.testBit 2 then 2 else 0))
      (if flags.creat then .exclusive else .nocreate) name,
    .getfh]

/-- `nfs4_populate_mknod`. The mode is overwritten with what is sent, so that the type is gone when it runs again. -/
def nfs4PopulateMknod (mode : ℕ) (dev : ℤ) (name : Path) : List Argop × Filler :=
  let stripped := mode-(mode &&& 0o170000)
  let func := Filler.mknod (htonl stripped) dev
  if mode &&& 0o170000 = 0o060000 then ([.create (.blk dev) name (some (.mode stripped))],func)
  else if mode &&& 0o170000 = 0o020000 then ([.create (.chr dev) name (some (.mode stripped))],func)
  else ([.garbage],func)

/-- `filler.func(data, op)`: the operations, and what it leaves in the blobs; `none` where it takes the length of a NULL. -/
def CbData.populate (data : CbData) : Option (List Argop × Filler) :=
  match data.func with
  | .getfh => some ([.getfh],data.func)
  | .getattr => some ([.getfh],data.func)
  | .access mask => some ([.access mask],data.func)
  | .mkdir mode => data.name.map fun name => ([.create .dir name (some (.mode mode))],data.func)
  | .remove => data.name.map fun name => ([.remove name],data.func)
  | .open => data.name.map fun name => (nfs4PopulateOpen data.flags name,data.func)
  | .lookupReadlink => data.name.map fun name => ([.lookup name,.readlink],data.func)
  | .symlink target => data.name.map fun name => ([.create (.lnk target) name none],data.func)
  | .readlink => some ([.readlink],data.func)
  | .link fh => data.name.map fun name => ([.savefh,.putfh fh,.link name],data.func)
  | .rename fh newname =>
    match data.name,newname with
    | some name,some newname => some ([.savefh,.putfh fh,.rename name newname],data.func)
    | _,_ => none
  | .mknod mode dev => data.name.map fun name => nfs4PopulateMknod mode dev name
  | .readdir cookie => some ([.getfh,.readdir cookie],data.func)
  | .chmod mode => some ([.setattr (.mode mode)],data.func)
  | .chown uid gid => some ([.setattr (.owner uid gid)],data.func)
  | .utimes times => some ([.setattr (.times times)],data.func)

/-- `nfs4_lookup_path_async` -/
def nfs4LookupPathAsync (ctx : Ctx) (data : CbData) (cont : Cont) : M ℤ := do
  data.use
  if ← Act.may .alloc then
    match nfs4ResolvePath ctx.cwd data.path with
    | .error _ => return -1
    | .ok path =>
      if ← Act.times .alloc 2 then
        match { data with path := path }.populate with
        | none =>
          Act.crash
          return 0
        | some (ops,func) =>
          let data := { data with path := path, func := func }
          if ← data.submit (allocateOp ctx (pathNames path) ++ ops) (.lookupPath1 cont) then return 0 else return -1
      else return -1
  else return -1

/-- It is called in a handler, which reports `err` if it fails. -/
def lookupOr (ctx : Ctx) (err : ℤ) (data : CbData) (cont : Cont) : M Unit := do
  if (← nfs4LookupPathAsync ctx data cont) < 0 then data.fail err else return ()

/-- `data_split_path`. A copy that fails leaves a NULL, which the next `nfs4_lookup_path_async` reads. -/
def CbData.split (data : CbData) : M (Option CbData) := do
  if ← Act.may .unchecked then
    match dataSplitPath data.path with
    | some (path,name) => return some { data with path := path, name := some name }
    | none =>
      Act.crash
      return none
  else
    Act.crash
    return none

/-- `nfs4_open_truncate_cb`, `nfs4_open_chmod_cb` and `nfs4_truncate_open_cb` -/
def OpenCb.handle (data : CbData) (fh : Nfsfh) (reply : Reply) : OpenCb → M Unit
  | .openTruncate => checked data reply fun _ => data.task [.putfh fh.fh,.setattr (.size 0)] (.openSetattr fh)
  | .openChmod mode => checked data reply fun _ => data.task [.putfh fh.fh,.setattr (.mode mode)] (.openSetattr fh)
  | .truncateOpen length => checked data reply fun _ =>
    data.task ([.putfh fh.fh,.setattr (.size length)] ++ (if fh.isDirty then [.commit] else []) ++ [.close]) .truncateClose

/-- What `nfs4_open_cb` and `nfs4_open_confirm_cb` end with -/
def opened (data : CbData) (fh : Nfsfh) (reply : Reply) : M Unit :=
  match data.openCb with
  | some openCb => openCb.handle data fh reply
  | none => data.finish ⟨0,some fh⟩

/-- `nfs4_open_confirm_cb` -/
def nfs4OpenConfirmCb (data : CbData) (fh : Nfsfh) (reply : Reply) : M Unit :=
  checked data reply fun res => findOp data res Resop.openConfirm? fun _ => opened data fh reply

/-- `nfs4_open_cb` -/
def nfs4OpenCb (data : CbData) (reply : Reply) : M Unit :=
  checked data reply fun res => findOp data res Resop.access? fun access =>
    if access.1 ≠ access.2 then data.fail (-22)
    else findOp data res Resop.getfh? fun fh => do
      if ← Act.times .alloc 2 then
        let fh : Nfsfh :=
          ⟨fh,0,data.flags.sync,data.flags.append,¬ (data.flags.wronly ∨ data.flags.rdwr),false⟩
        findOp data res Resop.open? fun ores =>
          if ores.2 then data.task [.putfh fh.fh,.openConfirm] (.openConfirm fh) else opened data fh reply
      else data.fail (-12)

/-- `nfs4_open_readlink_cb` -/
def nfs4OpenReadlinkCb (ctx : Ctx) (data : CbData) (reply : Reply) : M Unit :=
  checked data reply fun res => findOp data res Resop.readlink? fun target => do
    if ← Act.may .alloc then
      if ← Act.may .alloc then
        match nfs4ResolvePath ctx.cwd (data.path ++ '/' :: target) with
        | .error _ => data.fail (-22)
        | .ok path =>
          match ← { data with path := path }.split with
          | none => return ()
          | some data => lookupOr ctx (-12) { data with func := .open } .open
      else data.fail (-22)
    else data.fail (-12)

/-- `nfs4_open_readlink`, for a reply in which an OPEN found a symbolic link -/
def nfs4OpenReadlink (ctx : Ctx) (data : CbData) : M Unit :=
  if data.flags.nofollow then data.call (.ofErr (-40))
  else lookupOr ctx (-12) { data with func := .lookupReadlink } .openReadlink

/-- `nfs4_mkdir_cb`, `nfs4_remove_cb` and the others -/
def Simple.handle (_ : Simple) (data : CbData) (reply : Reply) : M Unit :=
  checked data reply fun _ => data.finish (.ofErr 0)

/-- `nfs4_mount_4_cb` -/
def nfs4Mount4Cb (data : CbData) (reply : Reply) : M Unit :=
  checked data reply fun res => findOp data res Resop.getfh? fun fh => do
    if ← Act.may .alloc then
      Act.store fun s => { s with rootfh := some fh }
      data.task [.putfh fh,.getattr .rwmax] .mount5
    else data.fail (-12)

/-- `nfs4_chdir_1_cb` -/
def nfs4Chdir1Cb (data : CbData) (reply : Reply) : M Unit :=
  checked data reply fun _ => do
    Act.store fun s => { s with cwd := some data.path }
    data.finish (.ofErr 0)

/-- `nfs4_xstat64_cb`. There is no `return` behind the error. -/
def nfs4Xstat64Cb (ctx : Ctx) (data : CbData) (reply : Reply) : M Unit :=
  checked data reply fun res => findOp data res Resop.getattr? fun attrs => do
    if ¬ (nfsParseAttributes ctx.getpwnam attrs).1 then data.fail (-22)
    data.finish (.ofErr 0)

/-- `nfs4_readlink_cb` -/
def nfs4ReadlinkCb (data : CbData) (reply : Reply) : M Unit :=
  checked data reply fun res => findOp data res Resop.readlink? fun _ => do
    if ← Act.may .alloc then data.finish (.ofErr 0) else data.fail (-12)

/-- `nfs4_link_1_cb` -/
def nfs4Link1Cb (ctx : Ctx) (data : CbData) (oldpath : Path) (reply : Reply) : M Unit :=
  checked data reply fun res => findOp data res Resop.getfh? fun fh => do
    if ← Act.times .alloc 2 then lookupOr ctx (-14) { data with path := oldpath, func := .link fh } (.simple .link2)
    else data.fail (-12)

/-- `nfs4_rename_1_cb` -/
def nfs4Rename1Cb (ctx : Ctx) (data : CbData) (oldpath : Path) (reply : Reply) : M Unit :=
  checked data reply fun res => findOp data res Resop.getfh? fun fh => do
    if ← Act.times .alloc 2 then
      if ← Act.may .alloc then
        match nfs4ResolvePath ctx.cwd oldpath with
        | .error _ => data.fail (-22)
        | .ok path =>
          match ← { data with path := path, func := .rename fh data.name }.split with
          | none => return ()
          | some data => lookupOr ctx (-12) data (.simple .rename2)
      else data.fail (-22)
    else data.fail (-12)

/-- The loop of `nfs4_parse_readdir`: the last cookie, or the error that it reports -/
def parseEntries (ctx : Ctx) : List Entry → ℕ → M (Except ℤ ℕ)
  | [], cookie => return .ok cookie
  | e :: entries, _ => do
    if ← Act.times .alloc 2 then
      if ¬ (nfsParseAttributes ctx.getpwnam e.attrs).1 then return .error (-22) else parseEntries ctx entries e.cookie
    else return .error (-12)

/-- `nfs4_parse_readdir`, with the cookie in front of the first entry -/
def nfs4ParseReaddir (ctx : Ctx) (data : CbData) (fh : Fh) (cookie : ℕ) (rdres : List Entry × Bool) : M Unit := do
  match ← parseEntries ctx rdres.1 cookie with
  | .error err => data.fail err
  | .ok cookie =>
    if ¬ rdres.2 then data.task [.putfh fh,.readdir cookie] (.opendir2 fh cookie) else data.finish (.ofErr 0)

/-- `nfs4_opendir_2_cb` -/
def nfs4Opendir2Cb (ctx : Ctx) (data : CbData) (fh : Fh) (cookie : ℕ) (reply : Reply) : M Unit :=
  checked data reply fun res => findOp data res Resop.readdir? fun rdres => nfs4ParseReaddir ctx data fh cookie rdres

/-- `nfs4_opendir_cb` -/
def nfs4OpendirCb (ctx : Ctx) (data : CbData) (reply : Reply) : M Unit :=
  checked data reply fun res => findOp data res Resop.getfh? fun fh => do
    if ← Act.times .alloc 2 then findOp data res Resop.readdir? fun rdres => nfs4ParseReaddir ctx data fh 0 rdres
    else data.fail (-12)

/-- An ACCESS4 mask as `R_OK`, `W_OK` and `X_OK` -/
def accessMode (access : ℕ) : ℕ :=
  (if access.testBit 0 then 4 else 0)+(if access.testBit 2 then 2 else 0)+(if access.testBit 5 then 1 else 0)

/-- `nfs4_access_cb`. The `filler.flags` of `nfs4_access2_async` are 1, that is `O_WRONLY`. -/
def nfs4AccessCb (data : CbData) (reply : Reply) : M Unit :=
  checked data reply fun res => findOp data res Resop.access? fun access =>
    if data.flags.wronly then data.finish (.ofErr (accessMode access.2))
    else data.finish (.ofErr (if access.1 ≠ access.2 then -13 else 0))

/-- `continue_cb` is called. -/
def Cont.handle (ctx : Ctx) (data : CbData) (reply : Reply) : Cont → M Unit
  | .mount4 => nfs4Mount4Cb data reply
  | .chdir1 => nfs4Chdir1Cb data reply
  | .xstat64 => nfs4Xstat64Cb ctx data reply
  | .simple h => h.handle data reply
  | .open => nfs4OpenCb data reply
  | .openReadlink => nfs4OpenReadlinkCb ctx data reply
  | .readlink => nfs4ReadlinkCb data reply
  | .link1 oldpath => nfs4Link1Cb ctx data oldpath reply
  | .rename1 oldpath => nfs4Rename1Cb ctx data oldpath reply
  | .opendir => nfs4OpendirCb ctx data reply
  | .access => nfs4AccessCb data reply

/-- The names in front of the symbolic link that a LOOKUP has found; `none` where there are not as many `/`, or where
`nfs4_allocate_op` reads behind a path that has become empty. -/
def linkNames (idx : ℕ) (path : Path) : Option (List Path) :=
  if idx = 0 ∧ path.drop 1 ≠ [] then none else (slashAt idx path).map fun tmp => pathNames (path.take tmp)

/-- A COMPOUND with a READLINK -/
def readlinkTask (ctx : Ctx) (data : CbData) (cont : Cont) (idx : ℕ) (names : List Path) : M Unit := do
  if ← Act.may .alloc then data.task (allocateOp ctx names ++ [.readlink]) (.lookupPath2 cont idx) else data.fail (-12)

/-- `nfs4_lookup_path_1_cb` -/
def nfs4LookupPath1Cb (ctx : Ctx) (data : CbData) (cont : Cont) (reply : Reply) : M Unit :=
  match reply with
  | .error => data.fail (-14)
  | .cancel => data.fail (-4)
  | .timeout => data.fail (-4)
  | .success res =>
    if res.status ≠ 0 ∧ res.status ≠ errSymlink then data.fail (nfsstat4ToErrno res.status)
    else
      let sts := (res.resarray.filterMap Resop.getattr?).map (nfsParseAttributes ctx.getpwnam)
      if ¬ sts.all Prod.fst then data.fail (-22)
      else
        -- the attributes of the final component are those of a symbolic link
        let resolveLink := sts.any fun st => st.2.isLink
        if ¬ resolveLink ∧ res.resarray.any Resop.isLinkOpen then nfs4OpenReadlink ctx data
        else
          let resolveLink := resolveLink && !data.noFollow
          if res.status = 0 ∧ ¬ resolveLink then cont.handle ctx data reply
          else if ¬ resolveLink ∧ ¬ res.resarray.any Resop.isLinkLookup then data.fail (-14)
          else do
            if ← Act.may .alloc then
              let idx := linkIdx res.resarray
              if resolveLink then readlinkTask ctx data cont idx (pathNames data.path)
              else
                match linkNames idx data.path with
                | none => Act.crash
                | some names => readlinkTask ctx data cont idx names
            else data.fail (-12)

/-- `nfs4_lookup_path_2_cb` -/
def nfs4LookupPath2Cb (ctx : Ctx) (data : CbData) (cont : Cont) (idx : ℕ) (reply : Reply) : M Unit :=
  checked data reply fun res => do
    if ← Act.may .alloc then
      match slashAt (idx-1) data.path with
      | none => Act.crash
      | some tmp =>
        findOp data res Resop.readlink? fun target => do
          if ← Act.may .alloc then
            let rest := ((data.path.drop (tmp+1)).dropWhile (· ≠ '/')).drop 1
            lookupOr ctx (-12) { data with path := data.path.take tmp ++ '/' :: (target ++ '/' :: rest) } cont
          else data.fail (-12)
    else data.fail (-12)

/-- `nfs4_mount_1_cb` gives a NULL to `check_nfs4_error`, which reads its `status` where the connect succeeds. -/
def nfs4Mount1Cb (data : CbData) (reply : Reply) : M Unit :=
  match reply with
  | .success _ => Act.crash
  | reply => checked data reply fun _ => data.task [.setclientid] .mount2

/-- `nfs4_mount_2_cb` takes the first result for that of the SETCLIENTID. -/
def nfs4Mount2Cb (data : CbData) (reply : Reply) : M Unit :=
  checked data reply fun res =>
    if res.resarray = [] then Act.crash else data.task [.setclientidConfirm] .mount3

/-- `nfs4_mount_3_cb` -/
def nfs4Mount3Cb (ctx : Ctx) (data : CbData) (reply : Reply) : M Unit :=
  checked data reply fun _ => do
    if ← Act.may .alloc then lookupOr ctx (-12) { data with func := .getfh, name := some [] } .mount4 else data.fail (-12)

/-- `nfs4_mount_5_cb`. There is no `return` behind the error. -/
def nfs4Mount5Cb (data : CbData) (reply : Reply) : M Unit :=
  checked data reply fun res => findOp data res Resop.getattr? fun attrs => do
    if (nfsParseRwmax attrs).isNone then data.fail (-22)
    data.finish (.ofErr 0)

/-- `nfs4_getacl_cb` -/
def nfs4GetaclCb (ctx : Ctx) (data : CbData) (reply : Reply) : M Unit :=
  checked data reply fun res => findOp data res Resop.getattr? fun attrs =>
    data.finish (.ofErr (if ctx.zdrFattr4Acl attrs then 0 else -5))

/-- `nfs4_statvfs_cb` -/
def nfs4StatvfsCb (data : CbData) (reply : Reply) : M Unit :=
  checked data reply fun res => findOp data res Resop.getattr? fun attrs =>
    if (nfsParseStatvfs64 attrs).isNone then data.fail (-22) else data.finish (.ofErr 0)

/-- `nfs4_open_setattr_cb` -/
def nfs4OpenSetattrCb (data : CbData) (fh : Nfsfh) (reply : Reply) : M Unit :=
  checked data reply fun _ => data.finish ⟨0,some fh⟩

/-- `nfs4_truncate_close_cb` -/
def nfs4TruncateCloseCb (data : CbData) (reply : Reply) : M Unit := checked data reply fun _ => data.finish (.ofErr 0)

/-- `nfs4_pread_cb` -/
def nfs4PreadCb (data : CbData) (requested : ℕ) (reply : Reply) : M Unit :=
  checked data reply fun res => findOp data res Resop.read? fun dataLen => data.finish (.ofErr (min dataLen requested))

/-- `nfs4_pwrite_cb` -/
def nfs4PwriteCb (data : CbData) (reply : Reply) : M Unit :=
  checked data reply fun res => findOp data res Resop.write? fun count => data.finish (.ofErr count)

/-- `nfs4_pwrite_async_internal` -/
def nfs4PwriteAsyncInternal (fh : Fh) (count offset : ℕ) : M ℤ := do
  match ← callocData with
  | none => return -1
  | some data =>
    if ← data.submit [.putfh fh,.write offset count] .pwrite then return 0
    else
      data.free
      return -5

/-- `nfs4_write_append_cb`. It reads the size even if the attributes cannot be parsed, and calls back through what it has
just freed. -/
def nfs4WriteAppendCb (ctx : Ctx) (data : CbData) (fh : Fh) (count : ℕ) (reply : Reply) : M Unit :=
  checked data reply fun res => findOp data res Resop.getattr? fun attrs => do
    if attrs.len < 8 then data.fail (-22)
    else if (← nfs4PwriteAsyncInternal fh count (nfsParseAttributes ctx.getpwnam attrs).2.size) < 0 then
      data.free
      data.call (.ofErr (-12))
    else data.free

/-- `nfs4_lseek_cb`. It reads the size even if the attributes cannot be parsed. -/
def nfs4LseekCb (ctx : Ctx) (data : CbData) (offset : ℤ) (reply : Reply) : M Unit :=
  checked data reply fun res => findOp data res Resop.getattr? fun attrs =>
    let size := (nfsParseAttributes ctx.getpwnam attrs).2.size
    data.finish (.ofErr (if offset < 0 ∧ -offset > size then -22 else 0))

/-- `nfs4_lockf_cb` -/
def nfs4LockfCb (data : CbData) (cmd : LockOp) (reply : Reply) : M Unit :=
  checked data reply fun res =>
    match cmd with
    | .lock | .tlock => findOp data res Resop.lock? fun _ => data.finish (.ofErr 0)
    | .ulock => findOp data res Resop.locku? fun _ => data.finish (.ofErr 0)
    | .test => data.finish (.ofErr 0)

/-- `nfs4_fcntl_cb` -/
def nfs4FcntlCb (data : CbData) (fl : Flock) (reply : Reply) : M Unit :=
  checked data reply fun res =>
    match fl.type with
    | .rdlck | .wrlck => findOp data res Resop.lock? fun _ => data.finish (.ofErr 0)
    | .unlck => findOp data res Resop.locku? fun _ => data.finish (.ofErr 0)
    | .other => data.finish (.ofErr 0)

/-- The operations of `nfs4_fcntl_async_internal` behind the PUTFH -/
def fcntlOps (cmd : FcntlOp) (fl : Flock) : List Argop :=
  match fl.type with
  | .rdlck => [.lock (if cmd = .setlk then .readLt else .readwLt) fl.start fl.len]
  | .wrlck => [.lock (if cmd = .setlk then .writeLt else .writewLt) fl.start fl.len]
  | .unlck => [.locku fl.start fl.len]
  | .other => []

/-- `nfs4_fcntl_async_internal` -/
def nfs4FcntlAsyncInternal (data : CbData) (fh : Nfsfh) (cmd : FcntlOp) (fl : Flock) : M ℤ := do
  if ← data.submit (.putfh fh.fh :: fcntlOps cmd fl) (.fcntl fl) then return 0
  else
    data.free
    return -1

/-- `nfs4_fcntl_stat_cb`. There is no `return` behind the first error, and `nfs4_fcntl_async_internal` has freed the data
when it fails. -/
def nfs4FcntlStatCb (ctx : Ctx) (data : CbData) (fh : Nfsfh) (cmd : FcntlOp) (fl : Flock) (reply : Reply) : M Unit :=
  checked data reply fun res => findOp data res Resop.getattr? fun attrs => do
    let st := nfsParseAttributes ctx.getpwnam attrs
    if ¬ st.1 then data.fail (-22)
    let fl := { fl with whence := 0, start := (st.2.size+fl.start) % 2^64 }
    if (← nfs4FcntlAsyncInternal data fh cmd fl) ≠ 0 then data.fail (-12) else return ()

/-- What the operation does with the reply -/
def Stage.handle (stage : Stage) (input : Ctx × Reply) : M Unit :=
  let ctx := input.1
  let reply := input.2
  let data := stage.data
  match stage.handler with
  | .lookupPath1 cont => nfs4LookupPath1Cb ctx data cont reply
  | .lookupPath2 cont idx => nfs4LookupPath2Cb ctx data cont idx reply
  | .mount1 => nfs4Mount1Cb data reply
  | .mount2 => nfs4Mount2Cb data reply
  | .mount3 => nfs4Mount3Cb ctx data reply
  | .mount5 => nfs4Mount5Cb data reply
  | .xstat64 => nfs4Xstat64Cb ctx data reply
  | .getacl => nfs4GetaclCb ctx data reply
  | .statvfs => nfs4StatvfsCb data reply
  | .simple h => h.handle data reply
  | .openConfirm fh => nfs4OpenConfirmCb data fh reply
  | .openSetattr fh => nfs4OpenSetattrCb data fh reply
  | .truncateClose => nfs4TruncateCloseCb data reply
  | .pread requested => nfs4PreadCb data requested reply
  | .pwrite => nfs4PwriteCb data reply
  | .writeAppend fh count => nfs4WriteAppendCb ctx data fh count reply
  | .opendir2 fh cookie => nfs4Opendir2Cb ctx data fh cookie reply
  | .lseek offset => nfs4LseekCb ctx data offset reply
  | .lockf cmd => nfs4LockfCb data cmd reply
  | .fcntl fl => nfs4FcntlCb data fl reply
  | .fcntlStat fh cmd fl => nfs4FcntlStatCb ctx data fh cmd fl reply

/-- `init_cb_data_full_path` -/
def initCbDataFullPath (ctx : Ctx) (path : Path) : M (Option CbData) := do
  match ← callocData with
  | none => return none
  | some data =>
    if ← Act.may .alloc then
      match nfs4ResolvePath ctx.cwd path with
      | .ok path => return some { data with path := path }
      | .error _ =>
        data.free
        return none
    else
      data.free
      return none

/-- `init_cb_data_split_path` -/
def initCbDataSplitPath (ctx : Ctx) (path : Path) : M (Option CbData) := do
  match ← initCbDataFullPath ctx path with
  | none => return none
  | some data => data.split

/-- `n` allocations in the call, and the lookup. What has been allocated is freed if one of them fails. -/
def lookupFor (ctx : Ctx) (n : ℕ) (data : CbData) (cont : Cont) : M ℤ := do
  if ← Act.times .alloc n then
    if (← nfs4LookupPathAsync ctx data cont) < 0 then
      data.free
      return -1
    else return 0
  else
    data.free
    return -1

/-- An operation on a path -/
def fullPathOp (ctx : Ctx) (n : ℕ) (path : Path) (cont : Cont) (fill : CbData → CbData) : M ℤ := do
  match ← initCbDataFullPath ctx path with
  | none => return -1
  | some data => lookupFor ctx n (fill data) cont

/-- An operation on a name in a directory -/
def splitPathOp (ctx : Ctx) (n : ℕ) (path : Path) (cont : Cont) (fill : CbData → CbData) : M ℤ := do
  match ← initCbDataSplitPath ctx path with
  | none => return -1
  | some data => lookupFor ctx n (fill data) cont

/-- An operation on a handle: `n` more allocations, and a COMPOUND -/
def handleOp (n : ℕ) (err : ℤ) (ops : List Argop) (handler : Handler) : M ℤ := do
  match ← callocData with
  | none => return -1
  | some data =>
    if ← Act.times .alloc n then
      if ← data.submit ops handler then return 0
      else
        data.free
        return err
    else
      data.free
      return -1

/-- `nfs4_symlink_async`. The link has no target if the copy of it fails. -/
def nfs4SymlinkAsync (ctx : Ctx) (target linkname : Path) : M ℤ := do
  match ← initCbDataSplitPath ctx linkname with
  | none => return -1
  | some data =>
    let copied ← Act.may .alloc
    lookupFor ctx 0 { data with func := .symlink (if copied then some target else none) } (.simple .symlink)

/-- `nfs4_mount_async`, for the normalized `export` -/
def nfs4MountAsync (export_ : Path) : M ℤ := do
  if ← Act.times .alloc 2 then
    match nfsNormalizePath export_ with
    | .error _ => return -1
    | .ok path =>
      match ← callocData with
      | none => return -1
      | some data =>
        if ← Act.submit .task .connect ⟨{ data with path := path },.mount1⟩ then return 0
        else
          data.free
          return -1
  else return -1

/-- The `calloc` of `filler.data` in `nfs4_chdir_async` and in `nfs4_stat64_async`: a call that fails there tells the callback,
too. -/
def fillerDataOp (ctx : Ctx) (path : Path) (noFollow : Bool) (cont : Cont) : M ℤ := do
  match ← initCbDataFullPath ctx path with
  | none => return -1
  | some data =>
    if ← Act.may .alloc then
      lookupFor ctx 0 { data with noFollow := noFollow, func := .getattr, name := some [] } cont
    else
      data.fail (-12)
      return -1

/-- `nfs4_mknod_async`. Without memory for the attribute mask it returns 0 and forgets the data. -/
def nfs4MknodAsync (ctx : Ctx) (path : Path) (mode : ℕ) (dev : ℤ) : M ℤ := do
  if mode &&& 0o170000 = 0o020000 ∨ mode &&& 0o170000 = 0o060000 then
    match ← initCbDataSplitPath ctx path with
    | none => return -1
    | some data =>
      if ← Act.may .alloc then lookupFor ctx 1 { data with func := .mknod mode dev } (.simple .mknod) else return 0
  else return -1

/-- `nfs4_chmod_async_internal` and `nfs4_chown_async_internal` do not free the data when the lookup is not sent. -/
def lookupKept (ctx : Ctx) (data : CbData) (cont : Cont) : M ℤ := do
  if ← Act.may .alloc then
    if (← nfs4LookupPathAsync ctx data cont) < 0 then return -1 else return 0
  else
    data.free
    return -1

/-- `nfs4_chmod_async_internal` -/
def nfs4ChmodAsyncInternal (ctx : Ctx) (path : Path) (noFollow : Bool) (mode : ℕ) : M ℤ := do
  match ← initCbDataFullPath ctx path with
  | none => return -1
  | some data => lookupKept ctx { data with noFollow := noFollow, func := .chmod mode } (.simple .chmod)

/-- `nfs4_chown_async_internal` -/
def nfs4ChownAsyncInternal (ctx : Ctx) (path : Path) (noFollow : Bool) (uid gid : ℤ) : M ℤ := do
  match ← initCbDataSplitPath ctx path with
  | none => return -1
  | some data => lookupKept ctx { data with noFollow := noFollow, func := .chown uid gid } (.simple .chown)

/-- The data is forgotten if there is no memory for `blob3`. -/
def forgetfulOp (ctx : Ctx) (path : Path) (cont : Cont) (fill : CbData → CbData) : M ℤ := do
  match ← initCbDataFullPath ctx path with
  | none => return -1
  | some data => if ← Act.may .alloc then lookupFor ctx 0 (fill data) cont else return -1

/-- `nfs4_access_internal` -/
def nfs4AccessInternal (ctx : Ctx) (path : Path) (mode : ℕ) (isAccess2 : Bool) : M ℤ :=
  let mask := (if mode.testBit 2 then 1 else 0) ||| (if mode.testBit 1 then 4 else 0) ||| (if mode.testBit 0 then 32 else 0)
  forgetfulOp ctx path .access fun data => { data with func := .access mask, flags := { noFlags with wronly := isAccess2 } }

/-- `nfs4_utimes_async_internal` -/
def nfs4UtimesAsyncInternal (ctx : Ctx) (path : Path) (noFollow : Bool) (times : Option Times) : M ℤ :=
  forgetfulOp ctx path (.simple .utimes) fun data => { data with noFollow := noFollow, func := .utimes times }

/-- `nfs4_open_async_internal` -/
def nfs4OpenAsyncInternal (ctx : Ctx) (data : CbData) (flags : OpenFlags) : M ℤ :=
  let flags := if flags.append ∧ ¬ (flags.rdwr ∨ flags.wronly) then { flags with append := false } else flags
  lookupFor ctx (if flags.creat then 2 else 0) { data with func := .open, flags := flags } .open

/-- The flags that `nfs4_open_async` goes on with -/
def openFlags (flags : OpenFlags) : OpenFlags :=
  let flags := if flags.trunc ∧ ¬ (flags.rdwr ∨ flags.wronly) then { flags with trunc := false } else flags
  if flags.excl then { flags with trunc := false } else flags

/-- `nfs4_open_async` -/
def nfs4OpenAsync (ctx : Ctx) (path : Path) (flags : OpenFlags) (mode : ℕ) : M ℤ := do
  match ← initCbDataSplitPath ctx path with
  | none => return -1
  | some data =>
    let flags := openFlags flags
    let openCb := if flags.excl then some (.openChmod mode) else if flags.trunc then some .openTruncate else none
    if ← Act.times .alloc ((if flags.trunc then 1 else 0)+(if flags.excl then 1 else 0)) then
      nfs4OpenAsyncInternal ctx { data with openCb := openCb } flags
    else
      data.free
      return -1

/-- `nfs4_truncate_async` -/
def nfs4TruncateAsync (ctx : Ctx) (path : Path) (length : ℕ) : M ℤ := do
  match ← initCbDataSplitPath ctx path with
  | none => return -1
  | some data =>
    if ← Act.may .alloc then
      nfs4OpenAsyncInternal ctx { data with openCb := some (.truncateOpen length) } { noFlags with wronly := true }
    else
      data.free
      return -1

/-- `nfs4_write_async` -/
def nfs4WriteAsync (fh : Nfsfh) (count : ℕ) : M ℤ :=
  if fh.isAppend then handleOp 0 (-5) [.putfh fh.fh,.getattr .standard] (.writeAppend fh.fh (count % 2^32))
  else nfs4PwriteAsyncInternal fh.fh count fh.offset

/-- `nfs4_lseek_async`; 0 and 1 are `SEEK_SET` and `SEEK_CUR`. -/
def nfs4LseekAsync (fh : Nfsfh) (offset : ℤ) (whence : ℕ) : M ℤ := do
  if whence = 0 then
    Act.tell (.ofErr (if offset < 0 then -22 else 0))
    return 0
  else if whence = 1 then
    Act.tell (.ofErr (if offset < 0 ∧ fh.offset < -offset then -22 else 0))
    return 0
  else handleOp 1 (-1) [.putfh fh.fh,.getattr .standard] (.lseek offset)

/-- The operation of `nfs4_lockf_async` -/
def lockfOp (fh : Nfsfh) (count : ℕ) : LockOp → Argop
  | .lock => .lock .writewLt fh.offset count
  | .tlock => .lock .writeLt fh.offset count
  | .ulock => .locku fh.offset count
  | .test => .lockt .writewLt fh.offset count

/-- `nfs4_fcntl_async`; no `cmd` is one that it does not know. 0, 1 and 2 are `SEEK_SET`, `SEEK_CUR` and `SEEK_END`. -/
def nfs4FcntlAsync (fh : Nfsfh) (cmd : Option FcntlOp) (fl : Flock) : M ℤ := do
  match ← callocData with
  | none => return -1
  | some data =>
    match cmd with
    | none =>
      data.free
      return -1
    | some cmd =>
      if fl.whence = 0 then nfs4FcntlAsyncInternal data fh cmd fl
      else if fl.whence = 1 then
        nfs4FcntlAsyncInternal data fh cmd { fl with whence := 0, start := (fh.offset+fl.start) % 2^64 }
      else if fl.whence = 2 then
        if ← data.submit [.putfh fh.fh,.getattr .standard] (.fcntlStat fh cmd fl) then return 0
        else
          data.free
          return -1
      else
        data.free
        return -1

/-- The operations -/
inductive Op
  | access (path : Path) (mode : ℕ)
  | access2 (path : Path)
  | chdir (path : Path)
  | chmod (path : Path) (noFollow : Bool) (mode : ℕ)
  | chown (path : Path) (noFollow : Bool) (uid gid : ℤ)
  | close (fh : Nfsfh)
  | creat (path : Path) (mode : ℕ)
  | fchmod (fh : Nfsfh) (mode : ℕ)
  | fchown (fh : Nfsfh) (uid gid : ℤ)
  | fcntl (fh : Nfsfh) (cmd : Option FcntlOp) (fl : Flock)
  | fstat64 (fh : Nfsfh)
  | fsync (fh : Nfsfh)
  | ftruncate (fh : Nfsfh) (length : ℕ)
  | getacl (fh : Nfsfh)
  | link (oldpath newpath : Path)
  | lockf (fh : Nfsfh) (cmd : LockOp) (count : ℕ)
  | lseek (fh : Nfsfh) (offset : ℤ) (whence : ℕ)
  | mkdir2 (path : Path) (mode : ℕ)
  | mknod (path : Path) (mode : ℕ) (dev : ℤ)
  | mount (export_ : Path)
  | open (path : Path) (flags : OpenFlags) (mode : ℕ)
  | opendir (path : Path)
  | pread (fh : Nfsfh) (count offset : ℕ)
  | preadv (fh : Nfsfh) (lens : List ℕ) (offset : ℕ)
  | pwrite (fh : Nfsfh) (count offset : ℕ)
  | readlink (path : Path)
  | rename (oldpath newpath : Path)
  | rmdir (path : Path)
  | stat64 (path : Path) (noFollow : Bool)
  | statvfs (path : Path)
  | statvfs64 (path : Path)
  | symlink (target linkname : Path)
  | truncate (path : Path) (length : ℕ)
  | unlink (path : Path)
  | utime (path : Path) (times : Option (ℕ × ℕ))
  | utimes (path : Path) (noFollow : Bool) (times : Option Times)
  | write (fh : Nfsfh) (count : ℕ)

/-- The call of the operation, with what it returns -/
def Op.call (ctx : Ctx) : Op → M ℤ
  | .access path mode => nfs4AccessInternal ctx path mode false
  | .access2 path => nfs4AccessInternal ctx path 7 true
  | .chdir path => fillerDataOp ctx path false .chdir1
  | .chmod path noFollow mode => nfs4ChmodAsyncInternal ctx path noFollow mode
  | .chown path noFollow uid gid => nfs4ChownAsyncInternal ctx path noFollow uid gid
  | .close fh => handleOp 0 (-1) (.putfh fh.fh :: ((if fh.isDirty then [.commit] else []) ++ [.close])) (.simple .close)
  | .creat path mode => nfs4OpenAsync ctx path creatFlags mode
  | .fchmod fh mode => handleOp 1 (-1) [.putfh fh.fh,.setattr (.mode mode)] (.simple .fsync)
  | .fchown fh uid gid => handleOp 1 (-1) [.putfh fh.fh,.setattr (.owner uid gid)] (.simple .fsync)
  | .fcntl fh cmd fl => nfs4FcntlAsync fh cmd fl
  | .fstat64 fh => handleOp 0 (-1) [.putfh fh.fh,.getattr .standard] .xstat64
  | .fsync fh => handleOp 0 (-1) [.putfh fh.fh,.commit] (.simple .fsync)
  | .ftruncate fh length => handleOp 1 (-1) [.putfh fh.fh,.setattr (.size length)] (.simple .fsync)
  | .getacl fh => handleOp 0 (-1) [.putfh fh.fh,.getattr .acl] .getacl
  | .link oldpath newpath => splitPathOp ctx 1 newpath (.link1 oldpath) fun data => { data with func := .getfh }
  | .lockf fh cmd count => handleOp 0 (-1) [.putfh fh.fh,lockfOp fh count cmd] (.lockf cmd)
  | .lseek fh offset whence => nfs4LseekAsync fh offset whence
  | .mkdir2 path mode => splitPathOp ctx 2 path (.simple .mkdir) fun data => { data with func := .mkdir mode }
  | .mknod path mode dev => nfs4MknodAsync ctx path mode dev
  | .mount export_ => nfs4MountAsync export_
  | .open path flags mode => nfs4OpenAsync ctx path flags mode
  | .opendir path => fullPathOp ctx 2 path .opendir fun data => { data with func := .readdir 0 }
  | .pread fh count offset => handleOp 0 (-1) [.putfh fh.fh,.read offset count] (.pread count)
  | .preadv fh lens offset => handleOp 0 (-1) [.putfh fh.fh,.read offset lens.sum] (.pread lens.sum)
  | .pwrite fh count offset => nfs4PwriteAsyncInternal fh.fh count offset
  | .readlink path => fullPathOp ctx 0 path .readlink fun data => { data with noFollow := true, func := .readlink }
  | .rename oldpath newpath => splitPathOp ctx 1 newpath (.rename1 oldpath) fun data => { data with func := .getfh }
  | .rmdir path => splitPathOp ctx 0 path (.simple .remove) fun data => { data with func := .remove }
  | .stat64 path noFollow => fillerDataOp ctx path noFollow .xstat64
  | .statvfs _ => handleOp 0 (-1) [.putfh ctx.rootfh,.getattr .statvfs] .statvfs
  | .statvfs64 _ => handleOp 0 (-1) [.putfh ctx.rootfh,.getattr .statvfs] .statvfs
  | .symlink target linkname => nfs4SymlinkAsync ctx target linkname
  | .truncate path length => nfs4TruncateAsync ctx path length
  | .unlink path => splitPathOp ctx 0 path (.simple .remove) fun data => { data with func := .remove }
  | .utime path times => nfs4UtimesAsyncInternal ctx path false (times.map fun t => ((t.1,0),t.2,0))
  | .utimes path noFollow times => nfs4UtimesAsyncInternal ctx path noFollow times
  | .write fh count => nfs4WriteAsync fh count

/-- A context that has done nothing -/
def World.init : World Request Result Stage Shared := ⟨[],[],[],false,⟨none,none,0,[],false⟩⟩

/-- The call of an operation, and the answers that come to its requests. The context may change from one to the next. -/
def outcome (op : Op) (ctx : Ctx) (env : Env Site) : ℤ × World Request Result Stage Shared :=
  ((op.call ctx env 0 World.init).1,(op.call ctx env 0 World.init).2.2)

def after (w : World Request Result Stage Shared) (es : List (Event (Ctx × Reply) Site)) : World Request Result Stage Shared :=
  Transition.run (answer Stage.handle) w es

end Nfs4
end Libnfs
