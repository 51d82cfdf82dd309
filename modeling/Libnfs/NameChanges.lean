import Libnfs.Nfs4Async
import Libnfs.ParentSplit
import Libnfs.Splice

/-! The operations that make, remove and move names, as `lib/nfs_v3.c` and `lib/nfs_v4.c` carry them out in a volume that a server
exports over both versions of the protocol. RPCs and allocations do not fail. -/
namespace Libnfs
namespace NameChanges

open Paths Normalize
open Lookup3 (Fh Flags nfsstat3ToErrno)
open Lookup4 (Namespace Data Next nfs4ResolvePath dataSplitPath pathNames nfs4LookupPathAsync)
open Nfs4 (Argop Filler CreateType SetAttrs CbData)
open ParentSplit (NameOp named lastName)
open Resolution (Export Outcome Resolves Reaches Meets)

/-- What is made; `dev` stands for what `major` and `minor` take from it. -/
inductive Object
  | dir (mode : ℕ)
  | lnk (target : Path)
  | chr (mode : ℕ) (dev : ℤ)
  | blk (mode : ℕ) (dev : ℤ)
  | sock (mode : ℕ)
  | fifo (mode : ℕ)
  deriving DecidableEq, Repr

/-- A change of the names in a volume -/
inductive Change (ι : Type)
  | make (dir : ι) (name : Path) (object : Object)
  | unlink (dir : ι) (name : Path)
  | rmdir (dir : ι) (name : Path)
  | link (file dir : ι) (name : Path)
  | rename (dir : ι) (name : Path) (newdir : ι) (newname : Path)

/-- A server and the volume that it exports. Every object has a handle; what a change does is the same for both versions, but they
have statuses of their own, and a REMOVE of NFSv4 takes files and directories. -/
structure Site (σ ι α : Type) where
  ns : σ → Namespace ι
  ex : σ → Export α
  handle : ι → Fh
  node : Fh → Option ι
  change : σ → Change ι → Option σ
  answer3 : σ → Change ι → Except ℤ σ
  answer4 : σ → Change ι → Except ℤ σ
  remove4 : σ → ι → Path → Except ℤ σ
  node_handle : ∀ n, node (handle n) = some n
  serves : ∀ s, Splice.Serves (ex s) (ns s) handle
  same3 : ∀ s c, (answer3 s c).toOption = change s c
  same4 : ∀ s c, (answer4 s c).toOption = change s c
  removes4 : ∀ s n name, (remove4 s n name).toOption = (change s (.unlink n name)).or (change s (.rmdir n name))
  status3 : ∀ {s c st}, answer3 s c = .error st → st ≠ 0
  status4 : ∀ {s c st}, answer4 s c = .error st → st ≠ 0
  removed4 : ∀ {s n name st}, remove4 s n name = .error st → st ≠ 0

/-- The operations -/
inductive Command
  | mkdir2 (path : Path) (mode : ℕ)
  | mknod (path : Path) (mode : ℕ) (dev : ℤ)
  | symlink (target linkname : Path)
  | unlink (path : Path)
  | rmdir (path : Path)
  | link (oldpath newpath : Path)
  | rename (oldpath newpath : Path)
  deriving DecidableEq, Repr

/-- How an operation ends: the call returns an error, or the callback is told one, or 0; `undefined` is a request that nothing has
been written to, or a crash. -/
inductive Report
  | refused
  | called (err : ℤ)
  | undefined
  deriving DecidableEq, Repr

def Report.ok (r : Report) : Bool := r = .called 0

section Version3

/-- The requests of NFSv3 -/
inductive Request3
  | mkdir (dir : Fh) (name : Path) (mode : ℕ)
  | symlink (dir : Fh) (name : Path) (mode : ℕ) (target : Path)
  | mknod (dir : Fh) (name : Path) (what : Object)
  | remove (dir : Fh) (name : Path)
  | rmdir (dir : Fh) (name : Path)
  | link (file dir : Fh) (name : Path)
  | rename (dir : Fh) (name : Path) (newdir : Fh) (newname : Path)
  deriving DecidableEq, Repr

variable {σ ι α : Type} (site : Site σ ι α) (cwd : Path) (fuel : ℕ) (s : σ)

/-- The change that a request asks for, if there are objects behind its handles; a symbolic link has no mode. -/
def Site.asked3 : Request3 → Option (Change ι)
  | .mkdir dir name mode => (site.node dir).map fun n => .make n name (.dir mode)
  | .symlink dir name _ target => (site.node dir).map fun n => .make n name (.lnk target)
  | .mknod dir name what => (site.node dir).map fun n => .make n name what
  | .remove dir name => (site.node dir).map fun n => .unlink n name
  | .rmdir dir name => (site.node dir).map fun n => .rmdir n name
  | .link file dir name => (site.node file).bind fun m => (site.node dir).map fun n => .link m n name
  | .rename dir name newdir newname =>
    (site.node dir).bind fun n => (site.node newdir).map fun n' => .rename n name n' newname

/-- The reply to a request, and what the callback is told of it; 70 is `NFS3ERR_STALE`. -/
def Site.reply3 (r : Request3) : σ × Report :=
  match site.asked3 r with
  | none => (s,.called (nfsstat3ToErrno 70))
  | some c =>
    match site.answer3 s c with
    | .error st => (s,.called (nfsstat3ToErrno st))
    | .ok s' => (s',.called 0)

/-- `nfs3_lookuppath_async`: the handle that `continue_cb` is called with, or how the operation ends -/
def Site.lookuppath3 (flags : Flags) (path : Path) : Option (Except Report Fh) :=
  (Lookup3.lookup (site.ex s).server (site.ex s).mounted flags fuel cwd path).map fun
    | .refused => .error .refused
    | .called err => .error (.called err)
    | .continued fh _ _ => .ok fh

/-- The lookup of the parent directory, and the request with its handle; without one the type of a node is not valid. -/
def Site.inParent3 (flags : Flags) (op : NameOp) (path : Path) (request : Fh → Path → Option Request3) : Option (σ × Report) :=
  (site.lookuppath3 cwd fuel s flags ((op.split path).1.getD [])).map fun
    | .error r => (s,r)
    | .ok fh =>
      match request fh (op.split path).2 with
      | none => (s,.called (-22))
      | some r => site.reply3 s r

/-- A lookup that a `continue_cb` starts: if it is refused then the callback is told `-ENOMEM`. -/
def Site.second3 (path : Path) (request : Fh → Request3) : Option (σ × Report) :=
  (site.lookuppath3 cwd fuel s ⟨false,false⟩ path).map fun
    | .error .refused => (s,.called (-12))
    | .error r => (s,r)
    | .ok fh => site.reply3 s (request fh)

/-- `nfs3_mknod_continue_internal` -/
def nfs3MknodContinueInternal (mode : ℕ) (dev : ℤ) (dir : Fh) (name : Path) : Option Request3 :=
  let type := mode &&& 0o170000
  let mode := mode &&& 0o777
  if type = 0o020000 then some (.mknod dir name (.chr mode dev))
  else if type = 0o060000 then some (.mknod dir name (.blk mode dev))
  else if type = 0o140000 then some (.mknod dir name (.sock mode))
  else if type = 0o010000 then some (.mknod dir name (.fifo mode))
  else none

/-- `nfs3_link_async` with its continuations -/
def Site.nfs3Link (oldpath newpath : Path) : Option (σ × Report) :=
  (site.lookuppath3 cwd fuel s ⟨false,false⟩ oldpath).bind fun
    | .error r => some (s,r)
    | .ok oldfh => site.second3 cwd fuel s ((NameOp.link.split newpath).1.getD []) fun newdir =>
        .link oldfh newdir (NameOp.link.split newpath).2

/-- `nfs3_rename_async` with its continuations -/
def Site.nfs3Rename (oldpath newpath : Path) : Option (σ × Report) :=
  (site.lookuppath3 cwd fuel s ⟨false,false⟩ ((NameOp.rename.split oldpath).1.getD [])).bind fun
    | .error r => some (s,r)
    | .ok olddir => site.second3 cwd fuel s ((NameOp.rename.split newpath).1.getD []) fun newdir =>
        .rename olddir (NameOp.rename.split oldpath).2 newdir (NameOp.rename.split newpath).2

/-- An operation over NFSv3. The mode of a directory is in `continue_int`, where `0o400000` is `O_NOFOLLOW`. -/
def Site.run3 : Command → Option (σ × Report)
  | .mkdir2 path mode =>
    site.inParent3 cwd fuel s ⟨false,mode.testBit 17⟩ .mkdir2 path fun dir name => some (.mkdir dir name mode)
  | .mknod path mode dev => site.inParent3 cwd fuel s ⟨false,false⟩ .mknod path (nfs3MknodContinueInternal mode dev)
  | .symlink target linkname =>
    site.inParent3 cwd fuel s ⟨false,false⟩ .symlink linkname fun dir name => some (.symlink dir name 0o777 target)
  | .unlink path => site.inParent3 cwd fuel s ⟨false,false⟩ .unlink path fun dir name => some (.remove dir name)
  | .rmdir path => site.inParent3 cwd fuel s ⟨false,false⟩ .rmdir path fun dir name => some (.rmdir dir name)
  | .link oldpath newpath => site.nfs3Link cwd fuel s oldpath newpath
  | .rename oldpath newpath => site.nfs3Rename cwd fuel s oldpath newpath

end Version3

section Version4

variable {σ ι α : Type} (site : Site σ ι α) (cwd : Path) (s : σ)

/-- What a CREATE makes -/
def created : CreateType → Option SetAttrs → Option Object
  | .dir, some (.mode mode) => some (.dir mode)
  | .lnk (some target), none => some (.lnk target)
  | .chr dev, some (.mode mode) => some (.chr mode dev)
  | .blk dev, some (.mode mode) => some (.blk mode dev)
  | _, _ => none

/-- The volume, and the current and the saved file handle of a COMPOUND -/
structure Current (σ ι : Type) where
  state : σ
  current : ι
  saved : Option ι

/-- An operation of a COMPOUND: 22, 10001, 10004 and 10020 are `NFS4ERR_INVAL`, `NFS4ERR_BADHANDLE`, `NFS4ERR_NOTSUPP` and
`NFS4ERR_NOFILEHANDLE`. -/
def Site.op4 (x : Current σ ι) : Argop → Except ℤ (Current σ ι)
  | .create type name attrs =>
    match created type attrs with
    | none => .error 22
    | some object => (site.answer4 x.state (.make x.current name object)).map fun s => { x with state := s }
  | .remove name => (site.remove4 x.state x.current name).map fun s => { x with state := s }
  | .getfh => .ok x
  | .savefh => .ok { x with saved := some x.current }
  | .putfh fh =>
    match site.node fh with
    | none => .error 10001
    | some n => .ok { x with current := n }
  | .link name =>
    match x.saved with
    | none => .error 10020
    | some m => (site.answer4 x.state (.link m x.current name)).map fun s => { x with state := s }
  | .rename name newname =>
    match x.saved with
    | none => .error 10020
    | some n => (site.answer4 x.state (.rename n name x.current newname)).map fun s => { x with state := s }
  | _ => .error 10004

/-- The operations of a COMPOUND one after the other; the first that fails ends it. -/
def Site.ops4 : Current σ ι → List Argop → ℤ × σ
  | x, [] => (0,x.state)
  | x, op :: ops =>
    match site.op4 x op with
    | .error st => (st,x.state)
    | .ok y => Site.ops4 y ops

/-- What `filler.func` has asked for, at an object -/
def Site.fill (n : ι) (ops : List Argop) : ℤ × σ := site.ops4 ⟨s,n,none⟩ ops

/-- The object that the LOOKUPs of a COMPOUND come to -/
def arrive (ns : Namespace ι) : ι → List Path → Option ι
  | n, [] => some n
  | n, c :: cs =>
    if (ns.link n).isSome then none
    else
      match ns.lookup n c with
      | .error _ => none
      | .ok m => arrive ns m cs

/-- What a COMPOUND leaves of the volume -/
def Site.effect (ops : List Argop) (names : List Path) : σ :=
  match arrive (site.ns s) (site.ns s).root names with
  | none => s
  | some n => (site.fill s n ops).2

/-- The lookup with the operations behind it -/
def Site.behind (ops : List Argop) : Lookup4.Op (site.ns s) :=
  ⟨false,false,fun n _ => (site.fill s n ops).1,@Lookup4.status_of_lookup _ _ fun n => (site.fill s n ops).1⟩

/-- `filler.func(data, op)` for a name in `filler.data` -/
def populate (func : Filler) (name : Path) : Option (List Argop × Filler) :=
  CbData.populate { CbData.new 0 with func := func, name := some name }

/-- How a lookup ends: `continue_cb` is called with a result that is at this object, or the operation is over. -/
inductive End (ι : Type)
  | continued (n : Option ι)
  | over (r : Report)
  deriving DecidableEq

/-- The lookup, from the COMPOUND on that `nfs4_lookup_path_async` sends; each COMPOUND has the operations of `filler.func` in it. -/
def Site.lookup4 : ℕ → σ → Filler → Data → Option (σ × End ι)
  | 0, _, _, _ => none
  | fuel+1, s, func, d =>
    match populate func d.name with
    | none => some (s,.over .undefined)
    | some (ops,func) =>
      if .garbage ∈ ops then some (s,.over .undefined)
      else
        let op := site.behind s ops
        let names := pathNames d.path
        let s' := site.effect s ops names
        match Lookup4.nfs4LookupPath1Cb op cwd d ((site.ns s).compound (op.fill d) names) with
        | .done (.continued _) => some (s',.continued (arrive (site.ns s) (site.ns s).root names))
        | .done (.called err) => some (s',.over (.called err))
        | .done .crash => some (s',.over .undefined)
        | .lookup d => Site.lookup4 fuel s' func d
        | .readlink idx links =>
          match Lookup4.nfs4LookupPath2Cb cwd d idx ((site.ns s').compound (site.ns s').readlink links) with
          | .done (.called err) => some (s',.over (.called err))
          | .lookup d => Site.lookup4 fuel s' func d
          | _ => some (s',.over .undefined)

/-- `init_cb_data_split_path` -/
def initCbDataSplitPath (path : Path) : Except Report Data :=
  match nfs4ResolvePath cwd path with
  | .error _ => .error .refused
  | .ok path =>
    match dataSplitPath path with
    | none => .error .undefined
    | some (path,name) => .ok ⟨path,name,false⟩

/-- `nfs4_lookup_path_async`; `failed` is how the operation ends if it returns an error. -/
def Site.lookupPath4 (fuel : ℕ) (func : Filler) (failed : Report) (d : Data) : Option (σ × End ι) :=
  match nfs4LookupPathAsync cwd d with
  | .error _ => some (s,.over failed)
  | .ok d => site.lookup4 cwd fuel s func d

/-- A `continue_cb` that reports 0 -/
def End.report : End ι → Report
  | .continued _ => .called 0
  | .over r => r

/-- The lookup of the parent directory with the operations behind it -/
def Site.inParent4 (fuel : ℕ) (path : Path) (func : Filler) : Option (σ × Report) :=
  match initCbDataSplitPath cwd path with
  | .error r => some (s,r)
  | .ok d => (site.lookupPath4 cwd s fuel func .refused d).map fun r => (r.1,r.2.report)

/-- `nfs4_link_async` with `nfs4_link_1_cb` -/
def Site.nfs4Link (fuel : ℕ) (oldpath newpath : Path) : Option (σ × Report) :=
  match initCbDataSplitPath cwd newpath with
  | .error r => some (s,r)
  | .ok d => (site.lookupPath4 cwd s fuel .getfh .refused d).bind fun
    | (s,.over r) => some (s,r)
    | (s,.continued none) => some (s,.undefined)
    | (s,.continued (some n)) =>
      (site.lookupPath4 cwd s fuel (.link (site.handle n)) (.called (-14)) { d with path := oldpath }).map fun r =>
        (r.1,r.2.report)

/-- `nfs4_rename_async` with `nfs4_rename_1_cb` -/
def Site.nfs4Rename (fuel : ℕ) (oldpath newpath : Path) : Option (σ × Report) :=
  match initCbDataSplitPath cwd newpath with
  | .error r => some (s,r)
  | .ok d => (site.lookupPath4 cwd s fuel .getfh .refused d).bind fun
    | (s,.over r) => some (s,r)
    | (s,.continued none) => some (s,.undefined)
    | (s,.continued (some n)) =>
      match initCbDataSplitPath cwd oldpath with
      | .error .refused => some (s,.called (-22))
      | .error r => some (s,r)
      | .ok d' => (site.lookupPath4 cwd s fuel (.rename (site.handle n) (some d.name)) (.called (-12)) d').map fun r =>
          (r.1,r.2.report)

/-- `nfs4_mknod_async` -/
def Site.nfs4Mknod (fuel : ℕ) (path : Path) (mode : ℕ) (dev : ℤ) : Option (σ × Report) :=
  if mode &&& 0o170000 = 0o020000 ∨ mode &&& 0o170000 = 0o060000 then site.inParent4 cwd s fuel path (.mknod mode dev)
  else some (s,.refused)

/-- An operation over NFSv4 -/
def Site.run4 (fuel : ℕ) : Command → Option (σ × Report)
  | .mkdir2 path mode => site.inParent4 cwd s fuel path (.mkdir mode)
  | .mknod path mode dev => site.nfs4Mknod cwd s fuel path mode dev
  | .symlink target linkname => site.inParent4 cwd s fuel linkname (.symlink (some target))
  | .unlink path => site.inParent4 cwd s fuel path .remove
  | .rmdir path => site.inParent4 cwd s fuel path .remove
  | .link oldpath newpath => site.nfs4Link cwd s fuel oldpath newpath
  | .rename oldpath newpath => site.nfs4Rename cwd s fuel oldpath newpath

end Version4

section Session

variable {σ ι α : Type} (site : Site σ ι α) (cwd : Path) (s : σ)

/-- Operations one after the other, and how each of them ends -/
def session (run : σ → Command → Option (σ × Report)) : σ → List Command → Option (σ × List Report)
  | s, [] => some (s,[])
  | s, c :: cs =>
    match run s c with
    | none => none
    | some (s',r) => (session run s' cs).map fun x => (x.1,r :: x.2)

/-- Where the names lead from the root of the export -/
def Site.Leads (names : List Path) (o : Outcome) : Prop :=
  Resolves (site.ex s) ⟨false,false⟩ ⟨0,[],(site.ex s).rootfh,names⟩ o

/-- The object that the names lead to, if there is one -/
inductive Site.Find : Option (List Path) → Option ι → Prop
  | found {names : List Path} {n : ι} : site.Leads s names (.reached (site.handle n)) → Find (some names) (some n)
  | missing {names : List Path} : site.Leads s names .failed → Find (some names) none
  | above : Find none none

/-- The names of the directory that a path is in, and the names that a path stands for -/
def parents (path : Path) : Option (List Path) := (named cwd path).map Prod.fst

def whole (path : Path) : Option (List Path) := resolve (Splice.absolute cwd path)

/-- The change that an operation means, if the paths lead anywhere -/
inductive Site.Means : Command → Option (Change ι) → Prop
  | mkdir2 {path : Path} {mode : ℕ} {n : Option ι} : site.Find s (parents cwd path) n →
      Means (.mkdir2 path mode) (n.map fun n => .make n (lastName path) (.dir mode))
  | chr {path : Path} {mode : ℕ} {dev : ℤ} {n : Option ι} : site.Find s (parents cwd path) n → mode &&& 0o170000 = 0o020000 →
      Means (.mknod path mode dev) (n.map fun n => .make n (lastName path) (.chr (mode &&& 0o777) dev))
  | blk {path : Path} {mode : ℕ} {dev : ℤ} {n : Option ι} : site.Find s (parents cwd path) n → mode &&& 0o170000 = 0o060000 →
      Means (.mknod path mode dev) (n.map fun n => .make n (lastName path) (.blk (mode &&& 0o777) dev))
  | symlink {target linkname : Path} {n : Option ι} : site.Find s (parents cwd linkname) n →
      Means (.symlink target linkname) (n.map fun n => .make n (lastName linkname) (.lnk target))
  | unlink {path : Path} {n : Option ι} : site.Find s (parents cwd path) n →
      Means (.unlink path) (n.map fun n => .unlink n (lastName path))
  | rmdir {path : Path} {n : Option ι} : site.Find s (parents cwd path) n →
      Means (.rmdir path) (n.map fun n => .rmdir n (lastName path))
  | link {oldpath newpath : Path} {m : Option ι} {n : ι} : site.Find s (parents cwd newpath) (some n) →
      site.Find s (whole cwd oldpath) m → Means (.link oldpath newpath) (m.map fun m => .link m n (lastName newpath))
  | rename {oldpath newpath : Path} {n : Option ι} {n' : ι} : site.Find s (parents cwd newpath) (some n') →
      site.Find s (parents cwd oldpath) n →
      Means (.rename oldpath newpath) (n.map fun n => .rename n (lastName oldpath) n' (lastName newpath))
  | linkNowhere {oldpath newpath : Path} : site.Find s (parents cwd newpath) none → Means (.link oldpath newpath) none
  | renameNowhere {oldpath newpath : Path} : site.Find s (parents cwd newpath) none → Means (.rename oldpath newpath) none

/-- The volume with a change, and whether it was made -/
def Site.made (c : Option (Change ι)) : σ × Bool :=
  match c.bind (site.change s) with
  | none => (s,false)
  | some s' => (s',true)

/-- What a session does to the volume, and which of its operations succeed -/
inductive Site.Performs : σ → List Command → σ → List Bool → Prop
  | nil {s : σ} : Performs s [] s []
  | cons {s s' : σ} {c : Command} {cs : List Command} {x : Option (Change ι)} {bs : List Bool} : site.Means cwd s c x →
      Performs (site.made s x).1 cs s' bs → Performs s (c :: cs) s' ((site.made s x).2 :: bs)

/-- The links that are met have relative targets. The operations behind a link that comes last have nothing to do, or are told
`NFS4ERR_SYMLINK` and leave the volume alone, and can be sent again. -/
def Site.Follows (func : Filler) (name : Path) (p : Resolution.Place) : Prop :=
  ∀ rest fh target, Meets (site.ex s) p rest fh → (site.ex s).server.readlink fh = .ok target →
    target.head? ≠ some '/' ∧ ∃ ops, populate func name = some (ops,func) ∧
      (rest = [] → ∀ m, fh = site.handle m → site.fill s m ops = (0,s) ∨ site.fill s m ops = (Lookup4.errSymlink,s))

/-- The lookup of the names is one that both versions carry out, with no more links than may be followed. -/
def Site.Smooth (func : Filler) (name : Path) (names : List Path) : Prop :=
  (∀ p, Reaches (site.ex s) ⟨false,false⟩ ⟨0,[],(site.ex s).rootfh,names⟩ p → site.Follows s func name p) ∧
    ¬ site.Leads s names .loop

/-- A path that ends with a proper name, and is no name right behind the root where the root is not the current directory -/
structure Site.SmoothParent (func : Filler) (path : Path) : Prop where
  plain : Plain (lastName path)
  root : ¬ (path = '/' :: lastName path ∧ resolve (cwd ++ ['/']) ≠ some [])
  smooth : ∀ names, parents cwd path = some names → site.Smooth s func (lastName path) names

/-- The operations that both versions carry out alike -/
def Site.Suits : Command → Prop
  | .mkdir2 path mode => mode.testBit 17 = false ∧ site.SmoothParent cwd s (.mkdir mode) path
  | .mknod path mode dev => (mode &&& 0o170000 = 0o020000 ∨ mode &&& 0o170000 = 0o060000) ∧
      mode-(mode &&& 0o170000) = mode &&& 0o777 ∧ site.SmoothParent cwd s (.mknod mode dev) path
  | .symlink target linkname => site.SmoothParent cwd s (.symlink (some target)) linkname
  | .unlink path => site.SmoothParent cwd s .remove path ∧
      ∀ n, site.Find s (parents cwd path) (some n) → site.change s (.rmdir n (lastName path)) = none
  | .rmdir path => site.SmoothParent cwd s .remove path ∧
      ∀ n, site.Find s (parents cwd path) (some n) → site.change s (.unlink n (lastName path)) = none
  | .link oldpath newpath => site.SmoothParent cwd s .getfh newpath ∧
      ¬ (whole cwd oldpath = some [] ∧ EndsInDots (Splice.absolute cwd oldpath)) ∧
      ∀ n, site.Find s (parents cwd newpath) (some n) → ∀ names, whole cwd oldpath = some names →
        site.Smooth s (.link (site.handle n)) (lastName newpath) names
  | .rename oldpath newpath => site.SmoothParent cwd s .getfh newpath ∧
      ∀ n, site.Find s (parents cwd newpath) (some n) →
        site.SmoothParent cwd s (.rename (site.handle n) (some (lastName newpath))) oldpath

/-- Each operation suits the volume that it comes to. -/
def Site.SuitsAll : σ → List Command → Prop
  | _, [] => True
  | s, c :: cs => site.Suits cwd s c ∧ ∀ x, site.Means cwd s c x → SuitsAll (site.made s x).1 cs

end Session

end NameChanges
end Libnfs
