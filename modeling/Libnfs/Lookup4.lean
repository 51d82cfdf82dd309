import Libnfs.Normalize

/-! The path lookup of `lib/nfs_v4.c`: `nfs4_lookup_path_async` with its handlers, and what `nfs4_open_async` adds
for a last component that is a symbolic link. RPCs and allocations do not fail. -/
namespace Libnfs
namespace Lookup4

open Paths Normalize

/-- `nfsstat4_to_errno` -/
def errnos : List (ℤ × ℤ) :=
  [(0,0),(1,-1),(2,-2),(5,-5),(6,-6),(13,-13),(17,-17),(18,-18),(20,-20),(21,-21),(22,-22),(27,-27),(28,-28),
    (30,-30),(31,-31),(63,-36),(66,-39),(69,-34),(70,-5),(10001,-22),(10003,-22),(10004,-22),(10005,-5),(10006,-5),
    (10007,-22),(10008,-5),(10009,-5),(10010,-5),(10011,-11),(10012,-5),(10013,-5),(10014,-11),(10015,-5),(10016,-5),
    (10017,-5),(10018,-5),(10019,-5),(10020,-5),(10021,-5),(10022,-5),(10023,-5),(10024,-5),(10025,-22),(10026,-22),
    (10027,-5),(10028,-5),(10029,-5),(10030,-5),(10032,-22),(10033,-5),(10034,-5),(10035,-5),(10036,-22),(10037,-5),
    (10038,-5),(10039,-22),(10040,-22),(10041,-22),(10042,-22),(10043,-22),(10044,-5),(10045,-5),(10046,-5),
    (10047,-5),(10048,-5)]

def nfsstat4ToErrno (status : ℤ) : ℤ := (errnos.lookup status).getD (-34)

/-- `NFS4ERR_SYMLINK` -/
abbrev errSymlink : ℤ := 10029

/-- What a server exports. A LOOKUP is answered in every node that is no symbolic link. -/
structure Namespace (ι : Type) where
  root : ι
  link : ι → Option Path
  lookup : ι → Path → Except ℤ ι
  root_link : link root = none
  status : ∀ {n c st}, lookup n c = .error st → st ≠ 0 ∧ st ≠ errSymlink

/-- A result of a COMPOUND, as far as the handlers look at it: the status of LOOKUP and OPEN, whether the
attributes are those of a symbolic link, and the target of a READLINK -/
inductive OpRes
  | lookup (status : ℤ)
  | getattr (link : Bool)
  | readlink (target : Path)
  | open_ (status : ℤ)
  | other
  deriving DecidableEq

variable {ι : Type}

/-- The LOOKUPs of a COMPOUND, the GETATTR and what follows it; the first that fails ends it. -/
def Namespace.walk (ns : Namespace ι) (tail : ι → List OpRes × ℤ) : ι → List Path → List OpRes × ℤ
  | n, [] => (.getattr (ns.link n).isSome :: (tail n).1,(tail n).2)
  | n, c :: cs =>
    if (ns.link n).isSome then ([.lookup errSymlink],errSymlink)
    else
      match ns.lookup n c with
      | .error st => ([.lookup st],st)
      | .ok m => (.lookup 0 :: (ns.walk tail m cs).1,(ns.walk tail m cs).2)

/-- PUTFH or PUTROOTFH in front -/
def Namespace.compound (ns : Namespace ι) (tail : ι → List OpRes × ℤ) (names : List Path) : List OpRes × ℤ :=
  (.other :: (ns.walk tail ns.root names).1,(ns.walk tail ns.root names).2)

/-- An operation on a path: `LOOKUP_FLAG_NO_FOLLOW`, or `O_NOFOLLOW` of an open, and the status of its own
requests at the node that was looked up. An open is refused as a symbolic link only if it is one. -/
structure Op (ns : Namespace ι) where
  isOpen : Bool
  noFollow : Bool
  status : ι → Path → ℤ
  status_ne : ∀ {n name}, isOpen → ns.link n = none → status n name ≠ errSymlink

/-- What is not an open has nothing to answer for a symbolic link. -/
theorem status_of_lookup {ns : Namespace ι} {status : ι → ℤ} :
    ∀ {n : ι} {name : Path}, false = true → ns.link n = none → (fun n (_ : Path) => status n) n name ≠ errSymlink := by
  simp

/-- `struct nfs4_cb_data`: the path, for an open the last component in `filler.data`, and whether `filler.func` is
`nfs4_populate_lookup_readlink` -/
structure Data where
  path : Path
  name : Path
  reading : Bool
  deriving DecidableEq

variable {ns : Namespace ι}

/-- The requests of `filler.func` -/
def Op.fill (op : Op ns) (d : Data) (n : ι) : List OpRes × ℤ :=
  if d.reading then
    if (ns.link n).isSome then ([.lookup errSymlink],errSymlink)
    else
      match ns.lookup n d.name with
      | .error st => ([.lookup st],st)
      | .ok m =>
        match ns.link m with
        | none => ([.lookup 0,.other],22)
        | some target => ([.lookup 0,.readlink target],0)
  else if op.isOpen then
    match ns.link n,ns.lookup n d.name with
    | none,.ok m => if (ns.link m).isSome then ([.other,.open_ errSymlink],errSymlink)
        else ([.other,.open_ (op.status n d.name)],op.status n d.name)
    | _,_ => ([.other,.open_ (op.status n d.name)],op.status n d.name)
  else ([.other],op.status n d.name)

/-- A READLINK behind the LOOKUPs -/
def Namespace.readlink (ns : Namespace ι) (n : ι) : List OpRes × ℤ :=
  match ns.link n with
  | none => ([.other],22)
  | some target => ([.readlink target],0)

/-- The names that `nfs4_allocate_op` makes LOOKUPs of, from `&path[1]` on -/
def opNames : ℕ → Path → List Path
  | 0, _ => []
  | fuel+1, ptr =>
    if ptr = [] then []
    else ptr.takeWhile (· ≠ '/') :: opNames fuel ((ptr.dropWhile (· ≠ '/')).drop 1)

def pathNames (path : Path) : List Path := opNames path.length (path.drop 1)

/-- `tmp = path`, and `idx` times `tmp = strchr(tmp + 1, '/')` -/
def slashAt : ℕ → Path → Option ℕ
  | 0, _ => some 0
  | idx+1, path => (slashAt idx path).bind fun tmp => ((path.drop (tmp+1)).idxOf? '/').map (·+(tmp+1))

/-- `nfs4_resolve_path` -/
def nfs4ResolvePath (cwd path : Path) : Except NormalizeError Path :=
  nfsNormalizePath (if path.head? = some '/' then path else cwd ++ '/' :: path)

/-- `data_split_path`; `none` if there is no `/` in the path. -/
def dataSplitPath (path : Path) : Option (Path × Path) :=
  if '/' ∉ path then none
  else
    let pos := path.length-1-path.reverse.idxOf '/'
    if pos = 0 then some (['/'],path.drop 1) else some (path.take pos,path.drop (pos+1))

/-- How an operation gets out of the lookup: its callback is told an error, `continue_cb` takes over, or the process dies. -/
inductive Result
  | called (err : ℤ)
  | continued (d : Data)
  | crash
  deriving DecidableEq

/-- `nfs4_lookup_path_async`, up to its COMPOUND -/
def nfs4LookupPathAsync (cwd : Path) (d : Data) : Except NormalizeError Data :=
  (nfs4ResolvePath cwd d.path).map fun path => { d with path := path }

/-- What a handler does next -/
inductive Next
  | done (r : Result)
  | lookup (d : Data)
  | readlink (idx : ℕ) (names : List Path)

/-- `nfs4_lookup_path_async` in a handler, and the error that it reports if there is no COMPOUND -/
def Next.ofLookup (cwd : Path) (d : Data) : Next :=
  match nfs4LookupPathAsync cwd d with
  | .error _ => .done (.called (-12))
  | .ok d => .lookup d

/-- `nfs4_open_readlink`, for a result that is `NFS4ERR_SYMLINK` -/
def nfs4OpenReadlink (op : Op ns) (cwd : Path) (d : Data) : Next :=
  if op.noFollow then .done (.called (-40)) else .ofLookup cwd { d with reading := true }

/-- How many LOOKUPs come before the one that found a symbolic link -/
def linkIdx : List OpRes → ℕ
  | [] => 0
  | .lookup st :: res => if st = errSymlink then 0 else linkIdx res+1
  | _ :: res => linkIdx res

/-- `nfs4_lookup_path_1_cb` -/
def nfs4LookupPath1Cb (op : Op ns) (cwd : Path) (d : Data) (res : List OpRes × ℤ) : Next :=
  if res.2 ≠ 0 ∧ res.2 ≠ errSymlink then .done (.called (nfsstat4ToErrno res.2))
  else
    let resolveLink := OpRes.getattr true ∈ res.1
    if ¬ resolveLink ∧ OpRes.open_ errSymlink ∈ res.1 then nfs4OpenReadlink op cwd d
    else
      let resolveLink := resolveLink ∧ ¬ (op.noFollow ∧ ¬ op.isOpen)
      if res.2 = 0 ∧ ¬ resolveLink then .done (.continued d)
      else if ¬ resolveLink ∧ OpRes.lookup errSymlink ∉ res.1 then .done (.called (-14))
      else
        let idx := linkIdx res.1
        if resolveLink then .readlink idx (pathNames d.path)
        else
          match slashAt idx d.path with
          | none => .done .crash
          | some tmp => .readlink idx (pathNames (d.path.take tmp))

/-- The target of the READLINK in `res` -/
def findReadlink (res : List OpRes) : Option Path :=
  res.findSome? fun
    | .readlink target => some target
    | _ => none

/-- `nfs4_lookup_path_2_cb`, `idx` being `link.idx` -/
def nfs4LookupPath2Cb (cwd : Path) (d : Data) (idx : ℕ) (res : List OpRes × ℤ) : Next :=
  if res.2 ≠ 0 then .done (.called (nfsstat4ToErrno res.2))
  else
    match slashAt (idx-1) d.path with
    | none => .done .crash
    | some tmp =>
      match findReadlink res.1 with
      | none => .done (.called (-22))
      | some target =>
        let rest := (((d.path.drop (tmp+1)).dropWhile (· ≠ '/')).drop 1)
        .ofLookup cwd { d with path := d.path.take tmp ++ '/' :: (target ++ '/' :: rest) }

/-- `nfs4_open_readlink_cb` -/
def nfs4OpenReadlinkCb (cwd : Path) (d : Data) (res : List OpRes × ℤ) : Next :=
  match findReadlink res.1 with
  | none => .done (.called (-22))
  | some target =>
    match nfs4ResolvePath cwd (d.path ++ '/' :: target) with
    | .error _ => .done (.called (-22))
    | .ok path =>
      match dataSplitPath path with
      | none => .done .crash
      | some (path,name) => .ofLookup cwd ⟨path,name,false⟩

/-- The COMPOUNDs and the READLINKs that were sent -/
structure Sent where
  compounds : ℕ
  readlinks : ℕ

/-- The COMPOUND of a lookup is sent and answered, and the READLINK that may follow. -/
def round (op : Op ns) (cwd : Path) (d : Data) : Sent × Next :=
  let res := ns.compound (op.fill d) (pathNames d.path)
  match nfs4LookupPath1Cb op cwd d res with
  | .readlink idx names => (⟨2,1⟩,nfs4LookupPath2Cb cwd d idx (ns.compound ns.readlink names))
  | .done (.continued d) => if d.reading then (⟨1,1⟩,nfs4OpenReadlinkCb cwd d res) else (⟨1,0⟩,.done (.continued d))
  | next => (⟨1,0⟩,next)

/-- The lookup, from the COMPOUND on that `nfs4_lookup_path_async` sends for `d` -/
def run (op : Op ns) (cwd : Path) : ℕ → Sent → Data → Option (Sent × Result)
  | 0, _, _ => none
  | fuel+1, sent, d =>
    let r := round op cwd d
    let sent : Sent := ⟨sent.compounds+r.1.compounds,sent.readlinks+r.1.readlinks⟩
    match r.2 with
    | .done res => some (sent,res)
    | .lookup d => run op cwd fuel sent d
    | .readlink _ _ => none

/-- `init_cb_data_full_path` or `init_cb_data_split_path`, and the first `nfs4_lookup_path_async`. The outer `none` is a call
that returns an error, the inner one is a crash. -/
def start (op : Op ns) (cwd path : Path) : Option (Option Data) :=
  match nfs4ResolvePath cwd path with
  | .error _ => none
  | .ok path =>
    match if op.isOpen then dataSplitPath path else some (path,[]) with
    | none => some none
    | some (path,name) =>
      match nfs4LookupPathAsync cwd ⟨path,name,false⟩ with
      | .error _ => none
      | .ok d => some (some d)

/-- Where the components lead: a LOOKUP fails, there is a symbolic link behind the first `idx` of them with `rest` left,
or all are found. -/
inductive Found (ι : Type)
  | failed (st : ℤ)
  | link (idx : ℕ) (target : Path) (rest : List Path) (n : ι)
  | node (n : ι)

def Found.behind : Found ι → Found ι
  | .failed st => .failed st
  | .link idx target rest n => .link (idx+1) target rest n
  | .node n => .node n

/-- The walk through a file system, up to the first symbolic link -/
def Namespace.seek (ns : Namespace ι) : ι → List Path → Found ι
  | n, [] => .node n
  | n, c :: cs =>
    match ns.lookup n c with
    | .error st => .failed st
    | .ok m =>
      match ns.link m with
      | some target => .link 1 target cs m
      | none => (ns.seek m cs).behind

/-- What is left in the result array by LOOKUPs that succeed, and by what follows them -/
def passed (k : ℕ) (res : List OpRes × ℤ) : List OpRes × ℤ := (List.replicate k (.lookup 0) ++ res.1,res.2)

theorem passed_succ (k : ℕ) (res : List OpRes × ℤ) :
    passed (k+1) res = (.lookup 0 :: (passed k res).1,(passed k res).2) := rfl

/-- The COMPOUND goes where the walk goes. -/
theorem walk_seek (ns : Namespace ι) (tail : ι → List OpRes × ℤ) {n : ι} (hn : ns.link n = none) (names : List Path) :
    match ns.seek n names with
    | .failed st => st ≠ 0 ∧ st ≠ errSymlink ∧ (ns.walk tail n names).2 = st
    | .link idx target rest m => 0 < idx ∧ names.length = idx+rest.length ∧ names.drop idx = rest ∧
        ns.link m = some target ∧ ns.walk tail n names =
          passed idx (if rest = [] then (.getattr true :: (tail m).1,(tail m).2) else ([.lookup errSymlink],errSymlink)) ∧
        ∀ tail', ns.walk tail' n (names.take idx) = passed idx (.getattr true :: (tail' m).1,(tail' m).2)
    | .node m => ns.link m = none ∧ ns.walk tail n names =
        passed names.length (.getattr false :: (tail m).1,(tail m).2) := by
  induction names generalizing n with
  | nil =>
    refine ⟨hn,?_⟩
    simp [Namespace.walk,passed,hn]
  | cons c names ih =>
    cases hl : ns.lookup n c with
    | error st =>
      obtain ⟨h0,hs⟩ := ns.status hl
      simp only [Namespace.seek,Namespace.walk,hl,hn]
      exact ⟨h0,hs,rfl⟩
    | ok m =>
      cases hm : ns.link m with
      | some target =>
        simp only [Namespace.seek,hl,hm]
        refine ⟨by omega,by simp [Nat.add_comm],rfl,trivial,?_,?_⟩
        · cases names with
          | nil => simp [Namespace.walk,hl,hn,hm,passed]
          | cons d names => simp [Namespace.walk,hl,hn,hm,passed]
        · intro tail'
          simp [Namespace.walk,hl,hn,hm,passed]
      | none =>
        have h := ih hm
        simp only [Namespace.seek,hl,hm]
        cases hseek : ns.seek m names with
        | failed st =>
          rw [hseek] at h
          simpa [Found.behind,Namespace.walk,hl,hn] using h
        | link idx target rest k =>
          rw [hseek] at h
          obtain ⟨hpos,hlen,hdrop,hk,hw,ht⟩ := h
          refine ⟨by omega,by simp; omega,by simpa using hdrop,hk,?_,?_⟩
          · rw [passed_succ,← hw]
            simp [Namespace.walk,hl,hn]
          · intro tail'
            rw [passed_succ,← ht tail']
            simp [Namespace.walk,hl,hn]
        | node k =>
          rw [hseek] at h
          refine ⟨h.1,?_⟩
          rw [List.length_cons,passed_succ,← h.2]
          simp [Namespace.walk,hl,hn]

/-- A path that `nfs4_lookup_path_async` sends a COMPOUND for -/
inductive Good : Path → List Path → Prop
  | root : Good ['/'] []
  | names {cs : List Path} : cs ≠ [] → Cut '/' cs → (∀ c ∈ cs, Plain c) → Good (glue '/' cs) cs

theorem opNames_glue {c : Path} {cs : List Path} {fuel : ℕ} (hcut : Cut '/' (c :: cs)) (h : ∀ d ∈ c :: cs, d ≠ [])
    (hf : (c ++ glue '/' cs).length ≤ fuel) : opNames fuel (c ++ glue '/' cs) = c :: cs := by
  induction cs generalizing c fuel with
  | nil =>
    obtain ⟨htake,hdrop⟩ := span_stops hcut.head (glue_stops : Stops '/' (glue '/' []))
    have hpos := List.length_pos_iff.mpr (h c (by simp))
    cases fuel with
    | zero =>
      simp at hf
      simp [hf] at hpos
    | succ fuel =>
      rw [opNames,if_neg (by simp [h c (by simp)]),htake,hdrop]
      cases fuel <;> rfl
  | cons d cs ih =>
    obtain ⟨htake,hdrop⟩ := span_stops hcut.head (glue_stops : Stops '/' (glue '/' (d :: cs)))
    cases fuel with
    | zero => simp at hf
    | succ fuel =>
      rw [opNames,if_neg (by simp),htake,hdrop,glue_cons,List.drop_succ_cons,List.drop_zero,
        ih hcut.tail (fun e he => h e (by simp [he]))]
      simp only [glue_cons,List.length_append,List.length_cons] at hf ⊢
      omega

theorem pathNames_glue {cs : List Path} (hcut : Cut '/' cs) (h : ∀ c ∈ cs, c ≠ []) : pathNames (glue '/' cs) = cs := by
  cases cs with
  | nil => rfl
  | cons c cs =>
    exact opNames_glue hcut h (by simp)

theorem Good.pathNames {path : Path} {names : List Path} (h : Good path names) : pathNames path = names := by
  cases h with
  | root => rfl
  | names hne hcut hplain => exact pathNames_glue hcut fun c hc => (hplain c hc).1

/-- The separator in front of a component -/
theorem slashAt_glue {pre : List Path} {c : Path} {rest : List Path} (hcut : Cut '/' (pre ++ c :: rest)) :
    slashAt pre.length (glue '/' (pre ++ c :: rest)) = some (glue '/' pre).length := by
  induction pre using List.reverseRecOn generalizing c rest with
  | nil => rfl
  | append_singleton pre x ih =>
    rw [List.append_assoc,List.singleton_append] at hcut ⊢
    have hdrop : (glue '/' (pre ++ x :: c :: rest)).drop ((glue '/' pre).length+1) = x ++ '/' :: (c ++ glue '/' rest) := by
      rw [← List.drop_drop,glue_append,List.drop_left]
      rfl
    rw [List.length_append,List.length_singleton,slashAt,ih hcut,Option.bind_some,hdrop,idxOf?_append (hcut x (by simp))]
    simp
    omega

/-- The path with the target in the place of the component behind `pre` -/
def spliced (cwd : Path) (d : Data) (pre : List Path) (target : Path) (rest : List Path) : Next :=
  .ofLookup cwd { d with path := glue '/' pre ++ '/' :: (target ++ '/' :: (glue '/' rest).drop 1) }

/-- The path of an open with the target in the place of its last component -/
def reopened (cwd : Path) (d : Data) (target : Path) : Next :=
  match nfs4ResolvePath cwd (d.path ++ '/' :: target) with
  | .error _ => .done (.called (-22))
  | .ok path =>
    match dataSplitPath path with
    | none => .done .crash
    | some (path,name) => .ofLookup cwd ⟨path,name,false⟩

/-- The first symbolic link on the path is followed, if there is one that the operation follows: the last component is not if its
requests fail there, or with `LOOKUP_FLAG_NO_FOLLOW`. -/
def Op.follow (op : Op ns) (cwd : Path) (d : Data) : Option Next :=
  match ns.seek ns.root (pathNames d.path) with
  | .failed _ => none
  | .link idx target rest m =>
    if rest = [] ∧ (((op.fill d m).2 ≠ 0 ∧ (op.fill d m).2 ≠ errSymlink) ∨ op.noFollow ∧ ¬ op.isOpen) then none
    else some (spliced cwd d ((pathNames d.path).take (idx-1)) target rest)
  | .node n =>
    if op.isOpen ∧ ¬ op.noFollow then
      match ns.lookup n d.name with
      | .error _ => none
      | .ok m => (ns.link m).map (reopened cwd d)
    else none

/-- The open is refused because of `O_NOFOLLOW`. -/
def Op.Refused (op : Op ns) (d : Data) : Prop :=
  op.isOpen ∧ op.noFollow ∧ ∃ n m, ns.seek ns.root (pathNames d.path) = .node n ∧ ns.lookup n d.name = .ok m ∧
    (ns.link m).isSome

theorem linkIdx_passed (k : ℕ) {res : List OpRes} (h : linkIdx res = 0) :
    linkIdx (List.replicate k (.lookup 0) ++ res) = k := by
  induction k with
  | zero => exact h
  | succ k ih => simp [List.replicate_succ,linkIdx,ih,errSymlink]

theorem nfsstat4ToErrno_ne (status : ℤ) : nfsstat4ToErrno status ≠ -40 := by
  have hall : ∀ e ∈ errnos, e.2 ≠ -40 := by decide
  unfold nfsstat4ToErrno
  cases h : errnos.lookup status with
  | none => decide
  | some v =>
    obtain ⟨l₁,l₂,he,-⟩ := List.lookup_eq_some_iff.mp h
    exact hall (status,v) (by rw [he]; simp)

theorem Good.slash {path : Path} {names : List Path} (h : Good path names) : path.head? = some '/' := by
  cases h with
  | root => rfl
  | names hne _ _ =>
    obtain ⟨c,cs,rfl⟩ := List.exists_cons_of_ne_nil hne
    rfl

/-- A normalized path is left alone. -/
theorem Good.resolved {path : Path} {names : List Path} (h : Good path names) (cwd : Path) :
    nfs4ResolvePath cwd path = .ok path := by
  rw [nfs4ResolvePath,if_pos h.slash]
  cases h with
  | root => rfl
  | @names cs hne hcut hplain =>
    obtain ⟨pre,l,rfl⟩ := dropLast_concat hne
    rw [nfsNormalizePath_glue hcut,foldlM_push_plain [] fun c hc => hplain c (by simp [hc])]
    simp only [List.append_nil]
    rw [push_plain (hplain l (by simp))]
    simp [written]

/-- The requests of an operation find no links but the one that an open is refused for. -/
theorem fill_results (op : Op ns) {d : Data} (hr : d.reading = false) (n : ι) : ∀ r ∈ (op.fill d n).1, r = .other ∨ ∃ st, r = .open_ st := by
  unfold Op.fill
  rw [hr]
  simp only [Bool.false_eq_true,if_false]
  repeat' split
  all_goals simp

theorem linkIdx_fill (op : Op ns) {d : Data} (hr : d.reading = false) (n : ι) (b : Bool) :
    linkIdx (.getattr b :: (op.fill d n).1) = 0 := by
  have h := fill_results op hr n
  rw [linkIdx]
  · generalize (op.fill d n).1 = res at h
    induction res with
    | nil => rfl
    | cons r res ih =>
      rcases h r (by simp) with rfl | ⟨st,rfl⟩
      all_goals
        rw [linkIdx]
        · exact ih fun r hr => h r (by simp [hr])
        · simp
  · simp

/-- Where the path goes on behind a component -/
theorem glue_behind {pre : List Path} {c : Path} {rest : List Path} (hc : '/' ∉ c) :
    ((glue '/' (pre ++ c :: rest)).drop ((glue '/' pre).length+1)).dropWhile (· ≠ '/') = glue '/' rest := by
  rw [← List.drop_drop,glue_append,List.drop_left,glue_cons,List.drop_succ_cons,List.drop_zero]
  exact (span_stops hc glue_stops).2

/-- A READLINK that finds a link -/
theorem readlink_spliced {cwd : Path} {d : Data} {pre : List Path} {c target : Path} {rest : List Path}
    (hpath : d.path = glue '/' (pre ++ c :: rest)) (hcut : Cut '/' (pre ++ c :: rest)) {k : ℕ} :
    nfs4LookupPath2Cb cwd d (pre.length+1) (.other :: (passed k ([.getattr true,.readlink target],0)).1,0) =
      spliced cwd d pre target rest := by
  have hfind : findReadlink (.other :: (passed k ([.getattr true,.readlink target],0)).1) = some target := by
    induction k with
    | zero => rfl
    | succ k ih => simp [findReadlink,passed]
  unfold nfs4LookupPath2Cb
  rw [if_neg (by simp),Nat.add_sub_cancel,hpath,slashAt_glue hcut]
  simp only [hfind,glue_behind (hcut c (by simp))]
  have htake : (glue '/' (pre ++ c :: rest)).take (glue '/' pre).length = glue '/' pre := by
    rw [glue_append,List.take_left]
  rw [htake]
  rfl

section Round

variable {op : Op ns} {cwd : Path} {d : Data} {names : List Path}

/-- The answer to the COMPOUND of a lookup -/
def Op.answer (op : Op ns) (d : Data) : List OpRes × ℤ := ns.compound (op.fill d) (pathNames d.path)

theorem round_readlink {idx : ℕ} {names : List Path} (h : nfs4LookupPath1Cb op cwd d (op.answer d) = .readlink idx names) :
    round op cwd d = (⟨2,1⟩,nfs4LookupPath2Cb cwd d idx (ns.compound ns.readlink names)) := by
  rw [Op.answer] at h
  simp only [round,h]

theorem round_done {r : Result} (h : nfs4LookupPath1Cb op cwd d (op.answer d) = .done r)
    (hr : ∀ d', r = .continued d' → d'.reading = false) : round op cwd d = (⟨1,0⟩,.done r) := by
  rw [Op.answer] at h
  cases r with
  | called err => simp [round,h]
  | continued d' => simp [round,h,hr d' rfl]
  | crash => simp [round,h]

theorem round_lookup {d' : Data} (h : nfs4LookupPath1Cb op cwd d (op.answer d) = .lookup d') :
    round op cwd d = (⟨1,0⟩,.lookup d') := by
  rw [Op.answer] at h
  simp only [round,h]

theorem cb_failed {res : List OpRes × ℤ} (h0 : res.2 ≠ 0) (hs : res.2 ≠ errSymlink) :
    nfs4LookupPath1Cb op cwd d res = .done (.called (nfsstat4ToErrno res.2)) := by
  unfold nfs4LookupPath1Cb
  rw [if_pos ⟨h0,hs⟩]

/-- An answer without symbolic links -/
theorem cb_plain {res : List OpRes × ℤ} (hl : OpRes.getattr true ∉ res.1) (ho : OpRes.open_ errSymlink ∉ res.1) (h0 : res.2 = 0) :
    nfs4LookupPath1Cb op cwd d res = .done (.continued d) := by
  unfold nfs4LookupPath1Cb
  rw [if_neg (by simp [h0]),if_neg (by simp [ho]),if_pos ⟨h0,by simp [hl]⟩]

/-- `NFS4ERR_SYMLINK`, but from no LOOKUP -/
theorem cb_notFound {res : List OpRes × ℤ} (hl : OpRes.getattr true ∉ res.1 ∨ op.noFollow ∧ ¬ op.isOpen)
    (ho : OpRes.open_ errSymlink ∉ res.1) (hlook : OpRes.lookup errSymlink ∉ res.1) (hs : res.2 = errSymlink) :
    nfs4LookupPath1Cb op cwd d res = .done (.called (-14)) := by
  have hno : ¬ (OpRes.getattr true ∈ res.1 ∧ ¬ (op.noFollow ∧ ¬ op.isOpen)) := fun h => hl.elim (fun hl => hl h.1) h.2
  unfold nfs4LookupPath1Cb
  rw [if_neg (by simp [hs]),if_neg (by simp [ho]),if_neg (by simp [hs,errSymlink]),if_pos ⟨hno,hlook⟩]

/-- What a round does without a link to follow: the lookup is over. -/
def Ends (op : Op ns) (cwd : Path) (d : Data) : Prop :=
  ∃ r, round op cwd d = (⟨1,0⟩,.done r) ∧ r ≠ .crash ∧ (r = .called (-40) ↔ op.Refused d)

theorem Ends.called {err : ℤ} (h : nfs4LookupPath1Cb op cwd d (op.answer d) = .done (.called err)) (herr : err ≠ -40)
    (hr : ¬ op.Refused d) : Ends op cwd d :=
  ⟨_,round_done h (by simp),by simp,by simp [herr,hr]⟩

theorem Ends.continued (h : nfs4LookupPath1Cb op cwd d (op.answer d) = .done (.continued d)) (hread : d.reading = false)
    (hr : ¬ op.Refused d) : Ends op cwd d :=
  ⟨_,round_done h (by simp [hread]),by simp,by simp [hr]⟩

/-- What a round does with a link: it is read, and the lookup starts again, or it is for an open and read in a round of its own. -/
def Reads (op : Op ns) (cwd : Path) (d : Data) (next : Next) : Prop :=
  round op cwd d = (⟨2,1⟩,next) ∨
    round op cwd d = (⟨1,0⟩,.lookup { d with reading := true }) ∧ round op cwd { d with reading := true } = (⟨1,1⟩,next)

theorem mem_passed {r : OpRes} (hr : r ≠ .other ∧ r ≠ .lookup 0) (k : ℕ) (res : List OpRes × ℤ) :
    r ∈ OpRes.other :: (passed k res).1 ↔ r ∈ res.1 := by
  simp [passed,hr.1,List.mem_replicate,hr.2]

/-- A LOOKUP fails. -/
theorem round_failed {st : ℤ} (hs : ns.seek ns.root (pathNames d.path) = .failed st) : Ends op cwd d := by
  have h := walk_seek ns (op.fill d) ns.root_link (pathNames d.path)
  rw [hs] at h
  obtain ⟨h0,hne,hst⟩ := h
  have hans : (op.answer d).2 = st := hst
  refine .called (cb_failed (hans ▸ h0) (hans ▸ hne)) (nfsstat4ToErrno_ne _) ?_
  rintro ⟨-,-,n,m,hseek,-⟩
  simp [hs] at hseek

/-- All components are found, and the operation's own requests are no concern of links. -/
theorem round_node {n : ι} (hs : ns.seek ns.root (pathNames d.path) = .node n) (hread : d.reading = false)
    (hres : OpRes.open_ errSymlink ∉ (op.fill d n).1) (hr : ¬ op.Refused d) : Ends op cwd d := by
  have h := walk_seek ns (op.fill d) ns.root_link (pathNames d.path)
  rw [hs] at h
  have hans : op.answer d = (.other :: (passed (pathNames d.path).length (.getattr false :: (op.fill d n).1,(op.fill d n).2)).1,
      (op.fill d n).2) := by
    unfold Op.answer Namespace.compound
    rw [h.2]
    rfl
  have hfill := fill_results op hread n
  have hl : OpRes.getattr true ∉ (op.answer d).1 := by
    rw [hans,mem_passed (by simp)]
    intro hm
    rcases List.mem_cons.mp hm with hm | hm
    · simp at hm
    · rcases hfill _ hm with hm | ⟨st,hm⟩ <;> simp at hm
  have ho : OpRes.open_ errSymlink ∉ (op.answer d).1 := by
    rw [hans,mem_passed (by simp)]
    simp [hres]
  have hlook : OpRes.lookup errSymlink ∉ (op.answer d).1 := by
    rw [hans,mem_passed (by simp [errSymlink])]
    intro hm
    rcases List.mem_cons.mp hm with hm | hm
    · simp at hm
    · rcases hfill _ hm with hm | ⟨st,hm⟩ <;> simp at hm
  by_cases h0 : (op.answer d).2 = 0
  · exact .continued (cb_plain hl ho h0) hread hr
  · by_cases hsym : (op.answer d).2 = errSymlink
    · exact .called (cb_notFound (.inl hl) ho hlook hsym) (by decide) hr
    · exact .called (cb_failed h0 hsym) (nfsstat4ToErrno_ne _) hr

/-- A symbolic link behind `pre` and `c` on the path -/
structure LinkAt (op : Op ns) (d : Data) (pre : List Path) (c target : Path) (rest : List Path) (m : ι) : Prop where
  path : d.path = glue '/' (pre ++ c :: rest)
  cut : Cut '/' (pre ++ c :: rest)
  solid : ∀ e ∈ pre ++ c :: rest, e ≠ []
  link : ns.link m = some target
  answer : op.answer d = (.other :: (passed (pre.length+1)
    (if rest = [] then (.getattr true :: (op.fill d m).1,(op.fill d m).2) else ([.lookup errSymlink],errSymlink))).1,
    if rest = [] then (op.fill d m).2 else errSymlink)
  read : ns.compound ns.readlink (pre ++ [c]) = (.other :: (passed (pre.length+1) ([.getattr true,.readlink target],0)).1,0)
  refused : ¬ op.Refused d

theorem LinkAt.of_seek {idx : ℕ} {target : Path} {rest : List Path} {m : ι} (hg : Good d.path names)
    (hs : ns.seek ns.root names = .link idx target rest m) :
    ∃ c, names = names.take (idx-1) ++ c :: rest ∧ LinkAt op d (names.take (idx-1)) c target rest m := by
  have hnames := hg.pathNames
  have h := walk_seek ns (op.fill d) ns.root_link names
  rw [hs] at h
  obtain ⟨hpos,hlen,hdrop,hm,hw,htake⟩ := h
  obtain ⟨k,rfl⟩ : ∃ k, idx = k+1 := ⟨idx-1,by omega⟩
  rw [Nat.add_sub_cancel]
  have hsplit : names = names.take k ++ names[k] :: rest := by
    have := List.take_append_drop k names
    rw [List.drop_eq_getElem_cons (by omega),hdrop] at this
    exact this.symm
  have htakec : names.take (k+1) = names.take k ++ [names[k]] := (List.take_append_getElem (by omega)).symm
  generalize names[k] = c at hsplit htakec
  have hlenpre : (names.take k).length = k := by
    rw [List.length_take]
    omega
  have hpath : d.path = glue '/' names ∧ Cut '/' names ∧ ∀ c ∈ names, c ≠ [] := by
    generalize d.path = path at hg
    cases hg with
    | root => simp at hsplit
    | names hne hcut hplain => exact ⟨rfl,hcut,fun c hc => (hplain c hc).1⟩
  obtain ⟨hpath,hcut,hsolid⟩ := hpath
  refine ⟨c,hsplit,?_⟩
  constructor
  · rw [← hsplit,hpath]
  · rwa [← hsplit]
  · rwa [← hsplit]
  · exact hm
  · unfold Op.answer Namespace.compound
    rw [hnames,hw,hlenpre]
    split <;> rfl
  · unfold Namespace.compound
    rw [← htakec,htake ns.readlink,hlenpre]
    simp [Namespace.readlink,hm,passed]
  · rintro ⟨-,-,n,k,hseek,-⟩
    simp [hnames,hs] at hseek

variable {pre rest : List Path} {c target : Path} {m : ι}

/-- The READLINK of a link, and the new path -/
theorem LinkAt.second (h : LinkAt op d pre c target rest m) :
    nfs4LookupPath2Cb cwd d (pre.length+1) (ns.compound ns.readlink (pre ++ [c])) = spliced cwd d pre target rest := by
  rw [h.read]
  exact readlink_spliced h.path h.cut

theorem fill_noLookup (hread : d.reading = false) (b : Bool) : OpRes.lookup errSymlink ∉ OpRes.getattr b :: (op.fill d m).1 := by
  intro hm
  rcases List.mem_cons.mp hm with hm | hm
  · simp at hm
  · rcases fill_results op hread m _ hm with hm | ⟨st,hm⟩ <;> simp at hm

/-- More components follow the link. -/
theorem LinkAt.inner (h : LinkAt op d pre c target rest m) (hrest : rest ≠ []) :
    Reads op cwd d (spliced cwd d pre target rest) := by
  have hans := h.answer
  rw [if_neg hrest,if_neg hrest] at hans
  have hmem : OpRes.getattr true ∉ (op.answer d).1 := by
    rw [hans,mem_passed (by simp)]
    simp
  have ho : OpRes.open_ errSymlink ∉ (op.answer d).1 := by
    rw [hans,mem_passed (by simp)]
    simp
  have hlook : OpRes.lookup errSymlink ∈ (op.answer d).1 := by
    rw [hans,mem_passed (by simp [errSymlink])]
    simp
  have hst : (op.answer d).2 = errSymlink := by rw [hans]
  have hidx : linkIdx (op.answer d).1 = pre.length+1 := by
    rw [hans,linkIdx]
    · exact linkIdx_passed _ (by simp [linkIdx])
    · simp
  obtain ⟨e,rest,rfl⟩ := List.exists_cons_of_ne_nil hrest
  have hp : d.path = glue '/' ((pre ++ [c]) ++ e :: rest) := by
    rw [h.path,List.append_assoc]
    rfl
  have hcut : Cut '/' ((pre ++ [c]) ++ e :: rest) := by
    rw [List.append_assoc]
    exact h.cut
  have hslash : slashAt (pre.length+1) d.path = some (glue '/' (pre ++ [c])).length := by
    have := slashAt_glue hcut
    rwa [List.length_append,List.length_singleton,← hp] at this
  have hcutpath : pathNames (d.path.take (glue '/' (pre ++ [c])).length) = pre ++ [c] := by
    rw [hp,@glue_append _ _ (pre ++ [c]),List.take_left]
    exact pathNames_glue hcut.left fun x hx => h.solid x (by
      rw [List.mem_append,List.mem_singleton] at hx
      rcases hx with hx | rfl
      · exact List.mem_append_left _ hx
      · simp)
  have hfirst : nfs4LookupPath1Cb op cwd d (op.answer d) = .readlink (pre.length+1) (pre ++ [c]) := by
    unfold nfs4LookupPath1Cb
    rw [if_neg (by simp [hst])]
    simp only [hmem,ho,hlook,hst,hidx,hslash,hcutpath,false_and,and_false,not_true_eq_false,if_false,
      show errSymlink ≠ 0 by decide]
  left
  rw [round_readlink hfirst,h.second]

/-- The link is the last component. -/
theorem LinkAt.last (h : LinkAt op d pre c target [] m) (hread : d.reading = false) :
    if ((op.fill d m).2 ≠ 0 ∧ (op.fill d m).2 ≠ errSymlink) ∨ op.noFollow ∧ ¬ op.isOpen then Ends op cwd d
    else Reads op cwd d (spliced cwd d pre target []) := by
  have hans := h.answer
  rw [if_pos rfl,if_pos rfl] at hans
  have hmem : OpRes.getattr true ∈ (op.answer d).1 := by
    rw [hans,mem_passed (by simp)]
    simp
  have hst : (op.answer d).2 = (op.fill d m).2 := by rw [hans]
  by_cases hfail : (op.fill d m).2 ≠ 0 ∧ (op.fill d m).2 ≠ errSymlink
  · rw [if_pos (.inl hfail)]
    exact .called (cb_failed (hst ▸ hfail.1) (hst ▸ hfail.2)) (nfsstat4ToErrno_ne _) h.refused
  · have hok : ¬ ((op.answer d).2 ≠ 0 ∧ (op.answer d).2 ≠ errSymlink) := by rwa [hst]
    by_cases hno : op.noFollow ∧ ¬ op.isOpen
    · rw [if_pos (.inr hno)]
      have ho : OpRes.open_ errSymlink ∉ (op.answer d).1 := by
        rw [hans,mem_passed (by simp)]
        unfold Op.fill
        rw [hread,if_neg (by simp),if_neg hno.2]
        simp
      have hlook : OpRes.lookup errSymlink ∉ (op.answer d).1 := by
        rw [hans,mem_passed (by simp [errSymlink])]
        exact fill_noLookup hread true
      by_cases h0 : (op.answer d).2 = 0
      · refine .continued ?_ hread h.refused
        unfold nfs4LookupPath1Cb
        rw [if_neg (by simp [h0]),if_neg (by simp [ho]),if_pos ⟨h0,by simp [hno.1,hno.2]⟩]
      · have hsym : (op.answer d).2 = errSymlink := by
          by_contra hne
          exact hok ⟨h0,hne⟩
        exact .called (cb_notFound (.inr hno) ho hlook hsym) (by decide) h.refused
    · rw [if_neg (not_or.mpr ⟨hfail,hno⟩)]
      have hidx : linkIdx (op.answer d).1 = pre.length+1 := by
        rw [hans,linkIdx]
        · exact linkIdx_passed _ (linkIdx_fill op hread m true)
        · simp
      have hpath : pathNames d.path = pre ++ [c] := by
        rw [h.path]
        exact pathNames_glue h.cut h.solid
      have hfirst : nfs4LookupPath1Cb op cwd d (op.answer d) = .readlink (pre.length+1) (pre ++ [c]) := by
        unfold nfs4LookupPath1Cb
        rw [if_neg hok]
        simp only [hmem,hno,hidx,hpath,not_true_eq_false,not_false_eq_true,and_true,and_false,false_and,if_false,
          if_true]
      left
      rw [round_readlink hfirst,h.second]

/-- The last component of an open is a link. -/
theorem round_open {n k : ι} (hs : ns.seek ns.root (pathNames d.path) = .node n) (hread : d.reading = false) (hopen : op.isOpen)
    (hk : ns.lookup n d.name = .ok k) (hlink : ns.link k = some target) (hg : Good d.path names) :
    if op.noFollow then Ends op cwd d else Reads op cwd d (reopened cwd d target) := by
  have hwalk := fun d' : Data => walk_seek ns (op.fill d') ns.root_link (pathNames d.path)
  simp only [hs] at hwalk
  have hn := (hwalk d).1
  have hfill : op.fill d n = ([.other,.open_ errSymlink],errSymlink) := by
    unfold Op.fill
    rw [hread,if_neg (by simp),if_pos hopen,hn,hk]
    simp [hlink]
  have hans : op.answer d = (.other :: (passed (pathNames d.path).length ([.getattr false,.other,.open_ errSymlink],errSymlink)).1,
      errSymlink) := by
    unfold Op.answer Namespace.compound
    rw [(hwalk d).2,hfill]
    rfl
  have hmem : OpRes.getattr true ∉ (op.answer d).1 := by
    rw [hans,mem_passed (by simp)]
    simp
  have ho : OpRes.open_ errSymlink ∈ (op.answer d).1 := by
    rw [hans,mem_passed (by simp)]
    simp
  have hfirst : nfs4LookupPath1Cb op cwd d (op.answer d) = nfs4OpenReadlink op cwd d := by
    unfold nfs4LookupPath1Cb
    rw [if_neg (by simp [hans]),if_pos ⟨hmem,ho⟩]
  unfold nfs4OpenReadlink at hfirst
  by_cases hno : op.noFollow
  · rw [if_pos hno] at hfirst ⊢
    refine ⟨_,round_done hfirst (by simp),by simp,?_⟩
    exact ⟨fun _ => ⟨hopen,hno,n,k,hs,hk,by simp [hlink]⟩,fun _ => rfl⟩
  · rw [if_neg hno] at hfirst ⊢
    have hof : Next.ofLookup cwd { d with reading := true } = .lookup { d with reading := true } := by
      unfold Next.ofLookup nfs4LookupPathAsync
      rw [hg.resolved cwd]
      rfl
    refine .inr ⟨round_lookup (hfirst.trans hof),?_⟩
    have hfill' : op.fill { d with reading := true } n = ([.lookup 0,.readlink target],0) := by
      unfold Op.fill
      simp [hn,hk,hlink]
    have hans' : op.answer { d with reading := true } =
        (.other :: (passed (pathNames d.path).length ([.getattr false,.lookup 0,.readlink target],0)).1,0) := by
      unfold Op.answer Namespace.compound
      simp only [(hwalk { d with reading := true }).2,hfill']
      rfl
    have hmem' : OpRes.getattr true ∉ (op.answer { d with reading := true }).1 := by
      rw [hans',mem_passed (by simp)]
      simp
    have ho' : OpRes.open_ errSymlink ∉ (op.answer { d with reading := true }).1 := by
      rw [hans',mem_passed (by simp)]
      simp
    have hcb := @cb_plain _ _ op cwd { d with reading := true } _ hmem' ho' (by rw [hans'])
    have hfind : findReadlink (op.answer { d with reading := true }).1 = some target := by
      rw [hans']
      simp [findReadlink,passed]
    unfold Op.answer at hcb hfind
    simp only [round,hcb,nfs4OpenReadlinkCb,hfind,if_true]
    rfl

/-- A round does what the walk through the file system says. -/
theorem round_follow (hg : Good d.path names) (hread : d.reading = false) :
    match op.follow cwd d with
    | none => Ends op cwd d
    | some next => Reads op cwd d next := by
  have hnames := hg.pathNames
  cases hs : ns.seek ns.root (pathNames d.path) with
  | failed st =>
    have hf : op.follow cwd d = none := by simp [Op.follow,hs]
    rw [hf]
    exact round_failed hs
  | link idx target rest m =>
    rw [hnames] at hs
    obtain ⟨c,-,hat⟩ := @LinkAt.of_seek _ _ op d _ _ _ _ _ hg hs
    have hf : op.follow cwd d =
        if rest = [] ∧ (((op.fill d m).2 ≠ 0 ∧ (op.fill d m).2 ≠ errSymlink) ∨ op.noFollow ∧ ¬ op.isOpen) then none
        else some (spliced cwd d (names.take (idx-1)) target rest) := by
      unfold Op.follow
      rw [hnames,hs]
    by_cases hrest : rest = []
    · subst hrest
      have hlast := @LinkAt.last _ _ op cwd d _ _ _ _ hat hread
      by_cases hcond : ((op.fill d m).2 ≠ 0 ∧ (op.fill d m).2 ≠ errSymlink) ∨ op.noFollow ∧ ¬ op.isOpen
      · rw [if_pos hcond] at hlast
        rw [hf,if_pos ⟨rfl,hcond⟩]
        exact hlast
      · rw [if_neg hcond] at hlast
        rw [hf,if_neg fun h => hcond h.2]
        exact hlast
    · rw [hf,if_neg fun h => hrest h.1]
      exact hat.inner hrest
  | node n =>
    have hn := walk_seek ns (op.fill d) ns.root_link (pathNames d.path)
    rw [hs] at hn
    by_cases hlink : op.isOpen ∧ ∃ k target, ns.lookup n d.name = .ok k ∧ ns.link k = some target
    · obtain ⟨ho,k,target,hk,ht⟩ := hlink
      have hround := @round_open _ _ op cwd d _ _ _ _ hs hread ho hk ht hg
      by_cases hno : op.noFollow
      · have hf : op.follow cwd d = none := by simp [Op.follow,hs,hno]
        rw [if_pos hno] at hround
        rwa [hf]
      · have hf : op.follow cwd d = some (reopened cwd d target) := by simp [Op.follow,hs,hno,ho,hk,ht]
        rw [if_neg hno] at hround
        rwa [hf]
    · have hno : ∀ {k target}, op.isOpen → ns.lookup n d.name = .ok k → ns.link k ≠ some target :=
        fun ho hk ht => hlink ⟨ho,_,_,hk,ht⟩
      have hf : op.follow cwd d = none := by
        unfold Op.follow
        rw [hs]
        by_cases ho : op.isOpen ∧ ¬ op.noFollow
        · simp only [if_pos ho]
          cases hl : ns.lookup n d.name with
          | error st => rfl
          | ok k =>
            cases hk : ns.link k with
            | none => simp [hk]
            | some target => exact absurd hk (hno ho.1 hl)
        · simp only [if_neg ho]
      rw [hf]
      refine round_node hs hread ?_ ?_
      · unfold Op.fill
        rw [hread,if_neg (by simp),hn.1]
        by_cases ho : op.isOpen
        · have hst := @Op.status_ne _ _ op n d.name ho hn.1
          rw [if_pos ho]
          cases hl : ns.lookup n d.name with
          | error st => simpa using hst.symm
          | ok k =>
            cases hk : ns.link k with
            | none => simpa [hk] using hst.symm
            | some target => exact absurd hk (hno ho hl)
        · rw [if_neg ho]
          simp
      · rintro ⟨ho,-,n',k,hs',hl,hk⟩
        obtain rfl : n = n' := by simpa [hs] using hs'
        obtain ⟨target,ht⟩ := Option.isSome_iff_exists.mp hk
        exact hno ho hl ht

end Round

section Run

variable {op : Op ns} {cwd : Path} {d e : Data} {m : ℕ}

theorem good_of_normalized {path p : Path} (h : nfsNormalizePath path = .ok p) (hne : p ≠ []) : ∃ names, Good p names := by
  rcases nfsNormalizePath_shape h with rfl | rfl | ⟨cs,hcs,hcut,hplain,rfl⟩
  · exact absurd rfl hne
  · exact ⟨[],.root⟩
  · exact ⟨cs,.names hcs hcut hplain⟩

/-- The path of an open is cut at its last component. -/
theorem dataSplitPath_glue {pre : List Path} {l : Path} (hl : '/' ∉ l) :
    dataSplitPath (glue '/' (pre ++ [l])) = some (if pre = [] then ['/'] else glue '/' pre,l) := by
  have hidx : (glue '/' (pre ++ [l])).reverse.idxOf '/' = l.length := by
    rw [glue_append,List.reverse_append,List.idxOf_append]
    simp only [glue_cons,glue_nil,List.append_nil,List.reverse_cons,List.mem_append,List.mem_singleton,or_true,
      if_true]
    rw [List.idxOf_append,if_neg (by simpa using hl)]
    simp
  have hpos : (glue '/' (pre ++ [l])).length-1-l.length = (glue '/' pre).length := by simp
  have hdrop : (glue '/' (pre ++ [l])).drop ((glue '/' pre).length+1) = l := by
    rw [← List.drop_drop,glue_append,List.drop_left]
    simp
  unfold dataSplitPath
  rw [if_neg (by simp),hidx,hpos]
  by_cases hp : pre = []
  · subst hp
    simp
  · have hlen : (glue '/' pre).length ≠ 0 := by simpa [glue_eq_nil] using hp
    simp only [hlen,if_false,if_neg hp,hdrop]
    rw [glue_append,List.take_left]

theorem Good.split {path : Path} {names : List Path} (h : Good path names) :
    ∃ dir name names', dataSplitPath path = some (dir,name) ∧ Good dir names' := by
  cases h with
  | root => exact ⟨['/'],[],[],rfl,.root⟩
  | names hne hcut hplain =>
    obtain ⟨pre,l,rfl⟩ := dropLast_concat hne
    have hsplit := @dataSplitPath_glue pre l (hcut l (by simp))
    by_cases hp : pre = []
    · rw [if_pos hp] at hsplit
      exact ⟨_,_,_,hsplit,.root⟩
    · rw [if_neg hp] at hsplit
      exact ⟨_,_,_,hsplit,.names hp hcut.left fun c hc => hplain c (by simp [hc])⟩

theorem ofLookup_good {names : List Path} (h : Good d.path names) : Next.ofLookup cwd d = .lookup d := by
  unfold Next.ofLookup nfs4LookupPathAsync
  rw [h.resolved cwd]
  rfl

/-- A lookup that is started again is for a normalized path. -/
theorem ofLookup_resolved {s l : Path} (hs : (s ++ '/' :: l).head? = some '/') (hl : '/' ∉ l) (h0 : l = [] ∨ Plain l)
    (hpath : d.path = s ++ '/' :: l) (h : Next.ofLookup cwd d = .lookup e) :
    (∃ names, Good e.path names) ∧ e.reading = d.reading := by
  unfold Next.ofLookup nfs4LookupPathAsync nfs4ResolvePath at h
  rw [hpath,if_pos hs] at h
  cases hn : nfsNormalizePath (s ++ '/' :: l) with
  | error err => simp [hn,Except.map] at h
  | ok p =>
    simp only [hn,Except.map,Next.lookup.injEq] at h
    subst h
    exact ⟨good_of_normalized hn (nfsNormalizePath_ne_nil hl h0 hn),rfl⟩

theorem follow_good {names : List Path} (hg : Good d.path names) (hread : d.reading = false)
    (h : op.follow cwd d = some (.lookup e)) : (∃ names, Good e.path names) ∧ e.reading = false := by
  have hnames := hg.pathNames
  unfold Op.follow at h
  rw [hnames] at h
  cases hs : ns.seek ns.root names with
  | failed st => simp [hs] at h
  | link idx target rest k =>
    obtain ⟨c,hsplit,hat⟩ := @LinkAt.of_seek _ _ op d _ _ _ _ _ hg hs
    simp only [hs] at h
    split at h
    · simp at h
    · simp only [Option.some.injEq,spliced] at h
      have hhead : ∀ t, (glue '/' (names.take (idx-1)) ++ '/' :: t).head? = some '/' := by
        intro t
        cases names.take (idx-1) <;> rfl
      have hplain : ∀ c ∈ names, Plain c := by
        generalize d.path = path at hg
        cases hg with
        | root => simp
        | names _ _ hplain => exact hplain
      by_cases hrest : rest = []
      · subst hrest
        have := @ofLookup_resolved cwd _ e (glue '/' (names.take (idx-1)) ++ '/' :: target) [] (by
          rw [List.append_assoc]
          exact hhead _) (by simp) (.inl rfl) (by simp) h
        exact ⟨this.1,this.2.trans hread⟩
      · obtain ⟨r,l,rfl⟩ := dropLast_concat hrest
        have hl : Plain l ∧ '/' ∉ l := by
          constructor
          · exact hplain l (by rw [hsplit]; simp)
          · exact hat.cut l (by simp)
        have hdrop : ∃ t, '/' :: (glue '/' (r ++ [l])).drop 1 = t ++ '/' :: l := by
          refine ⟨glue '/' r,?_⟩
          cases r <;> simp
        obtain ⟨t,ht⟩ := hdrop
        have := @ofLookup_resolved cwd _ e (glue '/' (names.take (idx-1)) ++ '/' :: (target ++ t)) l (by
          rw [List.append_assoc]
          exact hhead _) hl.2 (.inr hl.1) (by simp only [ht]; simp) h
        exact ⟨this.1,this.2.trans hread⟩
  | node n =>
    simp only [hs] at h
    split at h
    · cases hl : ns.lookup n d.name with
      | error st => simp [hl] at h
      | ok k =>
        simp only [hl,Option.map_eq_some_iff] at h
        obtain ⟨target,-,h⟩ := h
        unfold reopened at h
        cases hr : nfs4ResolvePath cwd (d.path ++ '/' :: target) with
        | error err => simp [hr] at h
        | ok path =>
          rw [hr] at h
          by_cases hp : path = []
          · subst hp
            simp [dataSplitPath] at h
          · obtain ⟨ns',hgood⟩ := good_of_normalized hr hp
            obtain ⟨dir,name,names',hsplit,hdir⟩ := hgood.split
            simp only [hsplit] at h
            rw [@ofLookup_good cwd ⟨dir,name,false⟩ names' hdir] at h
            obtain rfl := Next.lookup.inj h
            exact ⟨⟨names',hdir⟩,rfl⟩
    · simp at h

theorem ofLookup_cases (cwd : Path) (d : Data) :
    Next.ofLookup cwd d = .done (.called (-12)) ∨ ∃ d', Next.ofLookup cwd d = .lookup d' := by
  unfold Next.ofLookup
  cases nfs4LookupPathAsync cwd d with
  | error e => exact .inl rfl
  | ok d => exact .inr ⟨d,rfl⟩

/-- A link that is followed: its target makes no path, or no path that can be cut, or the lookup starts again. -/
theorem follow_cases {next : Next} (h : op.follow cwd d = some next) :
    (∃ err, err ≠ -40 ∧ next = .done (.called err)) ∨ next = .done .crash ∨ ∃ d', next = .lookup d' := by
  have hof : ∀ d, (∃ err, err ≠ -40 ∧ Next.ofLookup cwd d = .done (.called err)) ∨
      Next.ofLookup cwd d = .done .crash ∨ ∃ d', Next.ofLookup cwd d = .lookup d' := by
    intro d
    rcases ofLookup_cases cwd d with h | ⟨d',h⟩
    · exact .inl ⟨-12,by decide,h⟩
    · exact .inr (.inr ⟨d',h⟩)
  unfold Op.follow at h
  split at h
  · simp at h
  · split at h
    · simp at h
    · obtain rfl := Option.some.inj h
      exact hof _
  · split at h
    · split at h
      · simp at h
      · simp only [Option.map_eq_some_iff] at h
        obtain ⟨target,-,rfl⟩ := h
        unfold reopened
        split
        · exact .inl ⟨-22,by decide,rfl⟩
        · split
          · exact .inr (.inl rfl)
          · exact hof _
    · simp at h

/-- The symbolic links on the way, one after the other: `m` of them, and then no more (`some`), or a target that makes no path. -/
inductive Chain (op : Op ns) (cwd : Path) : ℕ → Data → Option Data → Prop
  | ends {d : Data} : op.follow cwd d = none → Chain op cwd 0 d (some d)
  | invalid {d : Data} {err : ℤ} : op.follow cwd d = some (.done (.called err)) → Chain op cwd 1 d none
  | link {m : ℕ} {d d' : Data} {e : Option Data} : op.follow cwd d = some (.lookup d') → Chain op cwd m d' e →
      Chain op cwd (m+1) d e

/-- The run goes on with what a handler does next. -/
def resume (op : Op ns) (cwd : Path) (fuel : ℕ) (sent : Sent) : Next → Option (Sent × Result)
  | .done res => some (sent,res)
  | .lookup d => run op cwd fuel sent d
  | .readlink _ _ => none

theorem run_succ (fuel : ℕ) (sent : Sent) (d : Data) : run op cwd (fuel+1) sent d =
    resume op cwd fuel ⟨sent.compounds+(round op cwd d).1.compounds,sent.readlinks+(round op cwd d).1.readlinks⟩
      (round op cwd d).2 := by
  rw [run]
  cases (round op cwd d).2 <;> rfl

/-- A link takes two COMPOUNDs. -/
theorem run_reads {next : Next} (h : Reads op cwd d next) (sent : Sent) :
    ∃ k, ∀ fuel, run op cwd (fuel+k) sent d = resume op cwd fuel ⟨sent.compounds+2,sent.readlinks+1⟩ next := by
  rcases h with h | ⟨h,h'⟩
  · refine ⟨1,fun fuel => ?_⟩
    rw [run_succ,h]
  · refine ⟨2,fun fuel => ?_⟩
    rw [run_succ (fuel+1),h,resume,run_succ fuel,h']
    rfl

theorem reads_run {next : Next} (h : Reads op cwd d next) {fuel : ℕ} {sent : Sent} {x : Sent × Result}
    (hrun : run op cwd fuel sent d = some x) :
    ∃ k < fuel, resume op cwd k ⟨sent.compounds+2,sent.readlinks+1⟩ next = some x := by
  rcases h with h | ⟨h,h'⟩
  · cases fuel with
    | zero => simp [run] at hrun
    | succ fuel =>
      rw [run_succ,h] at hrun
      exact ⟨fuel,by omega,hrun⟩
  · cases fuel with
    | zero => simp [run] at hrun
    | succ fuel =>
      rw [run_succ,h,resume] at hrun
      cases fuel with
      | zero => simp [run] at hrun
      | succ fuel =>
        rw [run_succ,h'] at hrun
        exact ⟨fuel,by omega,hrun⟩

/-- Along a chain of links the lookup comes to its end. -/
theorem Chain.run {e : Option Data} {names : List Path} (h : Chain op cwd m d e) (hg : Good d.path names)
    (hread : d.reading = false) (sent : Sent) :
    ∃ fuel sent' r, Lookup4.run op cwd fuel sent d = some (sent',r) ∧ r ≠ .crash ∧
      sent'.readlinks = sent.readlinks+m ∧ (r = .called (-40) ↔ ∃ d', e = some d' ∧ op.Refused d') := by
  induction h generalizing names sent with
  | @ends d hf =>
    have hround := @round_follow _ _ op cwd _ _ hg hread
    rw [hf] at hround
    obtain ⟨r,hr,hcrash,hiff⟩ := hround
    refine ⟨1,⟨sent.compounds+1,sent.readlinks⟩,r,?_,hcrash,rfl,?_⟩
    · rw [run_succ,hr]
      rfl
    · simpa using hiff
  | @invalid d err hf =>
    have hround := @round_follow _ _ op cwd _ _ hg hread
    rw [hf] at hround
    obtain ⟨k,hk⟩ := run_reads hround sent
    refine ⟨0+k,_,_,(hk 0).trans rfl,by simp,rfl,?_⟩
    rcases follow_cases hf with ⟨err',herr,he⟩ | he | ⟨d',he⟩
    · simp only [Next.done.injEq,Result.called.injEq] at he
      subst he
      simp [herr]
    · simp at he
    · simp at he
  | @link m d d' e hf _ ih =>
    have hround := @round_follow _ _ op cwd _ _ hg hread
    rw [hf] at hround
    obtain ⟨⟨names',hg'⟩,hread'⟩ := follow_good hg hread hf
    obtain ⟨k,hk⟩ := run_reads hround sent
    obtain ⟨fuel,sent',r,hr,hcrash,hlinks,hiff⟩ := ih hg' hread' ⟨sent.compounds+2,sent.readlinks+1⟩
    refine ⟨fuel+k,sent',r,(hk fuel).trans hr,hcrash,?_,hiff⟩
    rw [hlinks]
    simp only
    omega

/-- A lookup that comes to its end has gone along a chain. -/
theorem run_chain {names : List Path} (hg : Good d.path names) (hread : d.reading = false) {fuel : ℕ} {sent sent' : Sent}
    {r : Result} (hrun : run op cwd fuel sent d = some (sent',r)) (hcrash : r ≠ .crash) :
    ∃ m e, Chain op cwd m d e ∧ sent'.readlinks = sent.readlinks+m ∧
      (r = .called (-40) ↔ ∃ d', e = some d' ∧ op.Refused d') := by
  induction fuel using Nat.strongRecOn generalizing d names sent with
  | ind fuel ih =>
    have hround := @round_follow _ _ op cwd _ _ hg hread
    cases hf : op.follow cwd d with
    | none =>
      rw [hf] at hround
      obtain ⟨r',hr,-,hiff⟩ := hround
      cases fuel with
      | zero => simp [run] at hrun
      | succ fuel =>
        rw [run_succ,hr] at hrun
        obtain ⟨rfl,rfl⟩ := Prod.mk.inj (Option.some.inj hrun)
        exact ⟨0,some d,.ends hf,rfl,by simpa using hiff⟩
    | some next =>
      rw [hf] at hround
      obtain ⟨k,hk,hres⟩ := reads_run hround hrun
      rcases follow_cases hf with ⟨err,herr,rfl⟩ | rfl | ⟨d',rfl⟩
      · obtain ⟨rfl,rfl⟩ := Prod.mk.inj (Option.some.inj hres)
        exact ⟨1,none,.invalid hf,rfl,by simp [herr]⟩
      · obtain ⟨rfl,rfl⟩ := Prod.mk.inj (Option.some.inj hres)
        exact absurd rfl hcrash
      · obtain ⟨⟨names',hg'⟩,hread'⟩ := follow_good hg hread hf
        obtain ⟨m,e,hchain,hlinks,hiff⟩ := ih k hk hg' hread' hres
        refine ⟨m+1,e,.link hf hchain,?_,hiff⟩
        rw [hlinks]
        simp only
        omega

/-- An empty path is the `cwd`, with a separator behind it. -/
theorem async_good {path name : Path} (hp : path = [] ∨ ∃ names, Good path names)
    (h : nfs4LookupPathAsync cwd ⟨path,name,false⟩ = .ok d) : (∃ names, Good d.path names) ∧ d.reading = false := by
  unfold nfs4LookupPathAsync at h
  rcases hp with rfl | ⟨names,hg⟩
  · unfold nfs4ResolvePath at h
    cases hn : nfsNormalizePath (cwd ++ '/' :: []) with
    | error e => simp [hn,Except.map] at h
    | ok q =>
      simp only [List.head?_nil,reduceCtorEq,if_false,hn,Except.map,Except.ok.injEq] at h
      subst h
      exact ⟨good_of_normalized hn (nfsNormalizePath_ne_nil (by simp) (.inl rfl) hn),rfl⟩
  · rw [hg.resolved cwd] at h
    obtain rfl := Except.ok.inj h
    exact ⟨⟨names,hg⟩,rfl⟩

/-- A lookup starts with a normalized path. -/
theorem start_good {path : Path} (h : start op cwd path = some (some d)) :
    (∃ names, Good d.path names) ∧ d.reading = false := by
  unfold start at h
  cases hr : nfs4ResolvePath cwd path with
  | error e => simp [hr] at h
  | ok p =>
    have hp : p = [] ∨ ∃ names, Good p names := by
      by_cases hp : p = []
      · exact .inl hp
      · exact .inr (good_of_normalized hr hp)
    obtain ⟨dir,name,hcut,hdir⟩ : ∃ dir name, (if op.isOpen then dataSplitPath p else some (p,[])) = some (dir,name) ∧
        (dir = [] ∨ ∃ names, Good dir names) := by
      by_cases ho : op.isOpen
      · rw [if_pos ho]
        rcases hp with rfl | ⟨names,hg⟩
        · simp [hr,ho,dataSplitPath] at h
        · obtain ⟨dir,name,names',hs,hdir⟩ := hg.split
          exact ⟨dir,name,hs,.inr ⟨names',hdir⟩⟩
      · exact ⟨p,[],if_neg ho,hp⟩
    rw [hr] at h
    simp only [hcut] at h
    cases ha : nfs4LookupPathAsync cwd ⟨dir,name,false⟩ with
    | error e => simp [ha] at h
    | ok d' =>
      simp only [ha,Option.some.injEq] at h
      subst h
      exact async_good hdir ha

end Run

/-- `MAX_LINK_COUNT` -/
def maxLinkCount : ℕ := 40

/-- The call returns an error; or it sends a finite number of COMPOUNDs and its lookup is over once, with `-ELOOP` if
more links were read than may be. -/
def Answered (op : Op ns) (cwd path : Path) : Prop :=
  match start op cwd path with
  | none => True
  | some none => False
  | some (some d) => ∃ fuel sent r, run op cwd fuel ⟨0,0⟩ d = some (sent,r) ∧ r ≠ .crash ∧
      (maxLinkCount < sent.readlinks → r = .called (-40))

/-- The path is refused, or there are at most `MAX_LINK_COUNT` links on the way one after the other, or after them the open of
a link is refused. -/
def FewLinks (op : Op ns) (cwd path : Path) : Prop :=
  start op cwd path = none ∨ ∃ d, start op cwd path = some (some d) ∧
    ∃ m e, Chain op cwd m d e ∧ (m ≤ maxLinkCount ∨ ∃ d', e = some d' ∧ op.Refused d')

/-- Every lookup is answered exactly if it meets few links: the lookup has no limit of its own. -/
theorem lookup_answered (ns : Namespace ι) (op : Op ns) (cwd path : Path) : Answered op cwd path ↔ FewLinks op cwd path := by
  unfold Answered FewLinks
  cases hs : start op cwd path with
  | none => simp
  | some od =>
    cases od with
    | none => simp
    | some d =>
      obtain ⟨⟨names,hg⟩,hread⟩ := start_good hs
      simp only [reduceCtorEq,false_or,Option.some.injEq]
      constructor
      · rintro ⟨fuel,sent,r,hrun,hcrash,hloop⟩
        obtain ⟨m,e,hchain,hlinks,hiff⟩ := run_chain hg hread hrun hcrash
        refine ⟨d,rfl,m,e,hchain,?_⟩
        by_cases hm : m ≤ maxLinkCount
        · exact .inl hm
        · have hlt : maxLinkCount < sent.readlinks := by
            rw [hlinks]
            simp only
            omega
          exact .inr (hiff.mp (hloop hlt))
      · rintro ⟨d',rfl,m,e,hchain,hm⟩
        obtain ⟨fuel,sent,r,hrun,hcrash,hlinks,hiff⟩ := hchain.run hg hread ⟨0,0⟩
        refine ⟨fuel,sent,r,hrun,hcrash,fun hlt => ?_⟩
        rw [hlinks] at hlt
        simp only at hlt
        exact hiff.mpr (hm.resolve_left (by omega))

/-- A directory with a symbolic link `l` to itself -/
def loop : Namespace Bool where
  root := false
  link n := if n then some ['l'] else none
  lookup n c := if n = false ∧ c = ['l'] then .ok true else .error 2
  root_link := rfl
  status := by
    intro n c st h
    split at h
    · simp at h
    · simp only [Except.error.injEq] at h
      subst h
      decide

/-- An operation that follows links -/
def following : Op loop := ⟨false,false,fun _ _ => 0,by simp⟩

theorem Chain.not_loop {op : Op ns} {cwd : Path} {d : Data} (h : op.follow cwd d = some (.lookup d)) {m : ℕ}
    {e : Option Data} : ¬ Chain op cwd m d e := by
  intro hc
  induction m generalizing e with
  | zero =>
    cases hc with
    | ends hf => simp [h] at hf
  | succ m ih =>
    cases hc with
    | invalid hf => simp [h] at hf
    | link hf hc =>
      rw [h] at hf
      obtain rfl := Next.lookup.inj (Option.some.inj hf)
      exact ih hc

/-- The lookup of `/l` has no end. -/
theorem lookup_has_no_end : ¬ Answered following ['/'] ['/','l'] := by
  have hs : start following ['/'] ['/','l'] = some (some ⟨['/','l'],[],false⟩) := by rfl
  have hf : following.follow ['/'] ⟨['/','l'],[],false⟩ = some (.lookup ⟨['/','l'],[],false⟩) := by rfl
  intro h
  unfold Answered at h
  rw [hs] at h
  obtain ⟨fuel,sent,r,hrun,hcrash,-⟩ := h
  obtain ⟨⟨names,hg⟩,hread⟩ := start_good hs
  obtain ⟨m,e,hchain,-⟩ := run_chain hg hread hrun hcrash
  exact Chain.not_loop hf hchain

end Lookup4
end Libnfs
