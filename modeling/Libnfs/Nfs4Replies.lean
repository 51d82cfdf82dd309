import Libnfs.Nfs4Async

/-! Replies to the requests of `lib/nfs_v4.c`: the callback is called once, and the data of an operation is not used after it
has been freed, where the handler that a reply goes to returns after each error that it reports. -/
namespace Libnfs
namespace Nfs4

open Paths Normalize Lookup3 Async Attributes
open Nfs3 (OpenFlags Nfsfh Result)
open Lookup4 (errSymlink nfsstat4ToErrno pathNames slashAt nfs4ResolvePath dataSplitPath)
open OpenState (LockOp)

abbrev Sys := World Request Result Stage Shared

/-- The data `id` is allocated and not freed, and none that was freed has been used. -/
structure Shared.Holds (s : Shared) (id : ℕ) : Prop where
  sound : s.misused = false
  live : id ∉ s.freed
  allocated : id < s.allocated
  freed : ∀ i ∈ s.freed, i < s.allocated

/-- The running program has the data, and its callback is to be called. -/
structure Owns (id : ℕ) (w : Sys) : Prop where
  crashed : w.crashed = false
  calls : w.calls = []
  pending : w.pending = []
  holds : w.shared.Holds id

def Cont.needsName : Cont → Prop
  | .link1 _ | .rename1 _ => True
  | _ => False

/-- A lookup has the strings that its COMPOUND takes. -/
def Stage.Ready (stage : Stage) : Prop :=
  match stage.handler with
  | .lookupPath1 cont | .lookupPath2 cont _ =>
    stage.data.populate.isSome ∧ (cont.needsName → stage.data.name.isSome)
  | _ => True

/-- One request is outstanding, and it has the data. -/
structure Outstanding (w : Sys) : Prop where
  crashed : w.crashed = false
  calls : w.calls = []
  pending : ∃ stage, w.pending = [stage] ∧ stage.Ready ∧ w.shared.Holds stage.data.id

/-- The callback has been called once, and nothing is outstanding. -/
structure Told (w : Sys) : Prop where
  crashed : w.crashed = false
  calls : w.calls.length = 1
  pending : w.pending = []
  sound : w.shared.misused = false

def Settled (w : Sys) : Prop := Outstanding w ∨ Told w

/-- What a reply without an error has for `op` -/
def Reply.found {α : Type} (op : Resop → Option α) : Reply → Option α
  | .success res => if res.status = 0 then res.resarray.findSome? op else none
  | _ => none

/-- The parent of `path` is found, and the copies of it are made. -/
def Splits (ctx : Ctx) (env : Env Site) (path : Path) : Prop :=
  (∀ n, env n .unchecked = true) ∧ ∀ p, nfs4ResolvePath ctx.cwd path = .ok p → (dataSplitPath p).isSome

/-- Where `continue_cb` does not take the parent of a path that has none -/
def Cont.Safe (ctx : Ctx) (data : CbData) (reply : Reply) (env : Env Site) : Cont → Prop
  | .openReadlink => ∀ target, reply.found Resop.readlink? = some target → Splits ctx env (data.path ++ '/' :: target)
  | .rename1 oldpath => ∀ fh, reply.found Resop.getfh? = some fh → Splits ctx env oldpath
  | _ => True

/-- Where `nfs4_lookup_path_1_cb` does not run off a path, nor look up a name that is NULL -/
def LookupSafe (ctx : Ctx) (data : CbData) (cont : Cont) (reply : Reply) (env : Env Site) : Prop :=
  ∀ res, reply = .success res →
    let link := ((res.resarray.filterMap Resop.getattr?).map (nfsParseAttributes ctx.getpwnam)).any fun st => st.2.isLink
    if ¬ link ∧ res.resarray.any Resop.isLinkOpen then data.flags.nofollow ∨ data.name.isSome
    else if link ∧ ¬ data.noFollow then True
    else if res.status = 0 then cont.Safe ctx data reply env
    else res.resarray.any Resop.isLinkLookup → (linkNames (linkIdx res.resarray) data.path).isSome

/-- Where the handler of the request does what it has to do with the reply: attributes that are not reported twice, requests
that can be sent where the data would be freed twice, and strings and results that are there -/
def Stage.Safe (stage : Stage) (e : Event (Ctx × Reply) Site) : Prop :=
  let ctx := e.reply.1
  let reply := e.reply.2
  match stage.handler with
  | .lookupPath1 cont => LookupSafe ctx stage.data cont reply e.env
  | .lookupPath2 _ idx => (∃ res, reply = .success res ∧ res.status = 0) → (slashAt (idx-1) stage.data.path).isSome
  | .mount1 => ∀ res, reply ≠ .success res
  | .mount2 => ∀ res, reply = .success res → res.status = 0 → res.resarray ≠ []
  | .mount5 => ∀ attrs, reply.found Resop.getattr? = some attrs → (nfsParseRwmax attrs).isSome
  | .xstat64 => ∀ attrs, reply.found Resop.getattr? = some attrs → (nfsParseAttributes ctx.getpwnam attrs).1
  | .writeAppend _ _ => ∀ attrs, reply.found Resop.getattr? = some attrs → 8 ≤ attrs.len →
    ∀ n, e.env n .alloc = true ∧ e.env n .task = true
  | .fcntlStat _ _ _ => ∀ attrs, reply.found Resop.getattr? = some attrs →
    (nfsParseAttributes ctx.getpwnam attrs).1 ∧ ∀ n, e.env n .task = true
  | _ => True

section Rules

variable {E : Env Site → Prop} {id : ℕ} {data : CbData} {α : Type}

/-- The program ends with the callback called, or with a request that is outstanding. -/
def Pays (E : Env Site → Prop) (m : M α) (id : ℕ) : Prop := Triple E (Owns id) m fun _ => Settled

theorem use_owns : Triple E (Owns data.id) data.use fun _ => Owns data.id := by
  refine Triple.store fun w h => ?_
  obtain ⟨hcrashed,hcalls,hpending,hsound,hlive,hallocated,hfreed⟩ := h
  exact ⟨hcrashed,hcalls,hpending,⟨by simp [hsound,hlive],hlive,hallocated,hfreed⟩⟩

/-- The callback is called while the data is still there. -/
theorem call_told (r : Result) : Triple E (Owns data.id) (data.call r) fun _ w => Told w ∧ data.id ∉ w.shared.freed :=
  Triple.bind use_owns fun _ => Triple.tell fun _ h =>
    ⟨⟨h.crashed,by rw [h.calls]; rfl,h.pending,h.holds.sound⟩,h.holds.live⟩

theorem finish_told (r : Result) : Triple E (Owns data.id) (data.finish r) fun _ => Told := by
  refine Triple.bind (call_told r) fun _ env _ n w h => ?_
  obtain ⟨⟨hcrashed,hcalls,hpending,hsound⟩,hlive⟩ := h
  exact ⟨hcrashed,hcalls,hpending,by simp [CbData.free,CbData.use,bind,Act.store,hsound,hlive]⟩

theorem finish_pays (r : Result) : Pays E (data.finish r) data.id := (finish_told r).post fun _ _ h => .inr h

theorem fail_pays (err : ℤ) : Pays E (data.fail err) data.id := finish_pays _

theorem sent {w : Sys} {r : Request} {handler : Handler} (hr : Stage.Ready ⟨data,handler⟩) (h : Owns data.id w) :
    Outstanding { w with sent := r :: w.sent, pending := ⟨data,handler⟩ :: w.pending } :=
  ⟨h.crashed,h.calls,⟨data,handler⟩,by rw [h.pending],hr,h.holds⟩

theorem submit_outstanding {ops : List Argop} {handler : Handler} (hr : Stage.Ready ⟨data,handler⟩) :
    Triple E (Owns data.id) (data.submit ops handler) fun b w => b = true ∧ Outstanding w ∨ b = false ∧ Owns data.id w :=
  Triple.bind use_owns fun _ => Triple.submit fun _ h => sent hr h

theorem task_pays {ops : List Argop} {handler : Handler} (hr : Stage.Ready ⟨data,handler⟩) :
    Pays E (data.task ops handler) data.id :=
  Triple.bind (submit_outstanding hr) fun _ => Triple.branch (Triple.pure fun _ h => .inl h) (fail_pays _)

theorem checked_pays {reply : Reply} {k : Res → M Unit}
    (hk : ∀ res, reply = .success res → res.status = 0 → Pays E (k res) data.id) : Pays E (checked data reply k) data.id := by
  cases reply with
  | error | cancel | timeout => exact fail_pays _
  | success res => exact Triple.ite (fun _ => fail_pays _) fun hs => hk res rfl (not_not.mp hs)

theorem findOp_pays {res : Res} {op : Resop → Option α} {k : α → M Unit}
    (hk : ∀ a, res.resarray.findSome? op = some a → Pays E (k a) data.id) : Pays E (findOp data res op k) data.id := by
  unfold findOp
  cases hop : res.resarray.findSome? op with
  | none => exact fail_pays _
  | some a => exact hk a hop

/-- A reply without an error is searched for the result of an operation. -/
theorem searched_pays {reply : Reply} {op : Resop → Option α} {k : Res → α → M Unit}
    (hk : ∀ res a, reply = .success res → reply.found op = some a → Pays E (k res a) data.id) :
    Pays E (checked data reply fun res => findOp data res op (k res)) data.id :=
  checked_pays fun res hres hstatus => findOp_pays fun a ha => hk res a hres (by rw [hres,Reply.found,if_pos hstatus,ha])

theorem may_pays {s : Site} {m m' : M α} (h : Pays E m id) (h' : Pays E m' id) :
    Pays E (Act.may s >>= fun b => if b = true then m else m') id :=
  Triple.bind (Triple.may s) fun _ => Triple.ite (fun _ => h) fun _ => h'

theorem times_pays {s : Site} {n : ℕ} {m m' : M α} (h : Pays E m id) (h' : Pays E m' id) :
    Pays E (Act.times s n >>= fun b => if b = true then m else m') id :=
  Triple.bind (Triple.times s n) fun _ => Triple.ite (fun _ => h) fun _ => h'

theorem keep_owns {f : Shared → Shared} (h : ∀ s, s.Holds id → (f s).Holds id) :
    Triple E (Owns id) (Act.store f : M Unit) fun _ => Owns id :=
  Triple.store fun _ hw => ⟨hw.crashed,hw.calls,hw.pending,h _ hw.holds⟩

end Rules

section Lookup

variable {E : Env Site → Prop} {ctx : Ctx} {data : CbData} {cont : Cont}

theorem mknod_func (mode : ℕ) (dev : ℤ) (name : Path) : ∃ mode', (nfs4PopulateMknod mode dev name).2 = .mknod mode' dev := by
  unfold nfs4PopulateMknod
  dsimp only
  split
  · exact ⟨_,rfl⟩
  · split <;> exact ⟨_,rfl⟩

/-- Only a mknod leaves another mode in its blob. -/
theorem populate_func {ops : List Argop} {func : Filler} (h : data.populate = some (ops,func)) :
    func = data.func ∨ ∃ mode mode' dev, data.func = .mknod mode dev ∧ func = .mknod mode' dev := by
  obtain ⟨id,path,noFollow,f,flags,name,openCb⟩ := data
  cases f with
  | mknod mode dev =>
    obtain ⟨name,-,hname⟩ := Option.map_eq_some_iff.mp h
    obtain ⟨mode',hmode'⟩ := mknod_func mode dev name
    exact .inr ⟨mode,mode',dev,rfl,by rw [← hmode',hname]⟩
  | rename fh newname =>
    cases name with
    | none => cases h
    | some name =>
      cases newname with
      | none => cases h
      | some newname =>
        cases h
        exact .inl rfl
  | getfh | getattr | access mask | readlink | readdir cookie | chmod mode | chown uid gid | utimes times =>
    cases h
    exact .inl rfl
  | _ =>
    obtain ⟨name,-,hname⟩ := Option.map_eq_some_iff.mp h
    cases hname
    exact .inl rfl

/-- The strings are there when the blobs are filled again. -/
theorem populate_again {ops : List Argop} {func : Filler} (h : data.populate = some (ops,func)) (path : Path) :
    { data with path := path, func := func }.populate.isSome := by
  rcases populate_func h with rfl | ⟨mode,mode',dev,hdata,rfl⟩
  · have hsame : { data with path := path, func := data.func }.populate = data.populate := rfl
    rw [hsame,h]
    rfl
  · have hname : data.name.isSome := by
      unfold CbData.populate at h
      rw [hdata] at h
      obtain ⟨name,hname,-⟩ := Option.map_eq_some_iff.mp h
      rw [hname]
      rfl
    simp [CbData.populate,hname]

/-- A lookup is sent, it is refused and nothing has happened, or there is a NULL among its strings. -/
theorem nfs4LookupPathAsync_owns (hn : cont.needsName → data.name.isSome) :
    Triple E (Owns data.id) (nfs4LookupPathAsync ctx data cont) fun r w =>
      r = 0 ∧ Outstanding w ∨ r < 0 ∧ Owns data.id w ∨ r = 0 ∧ data.populate = none ∧ w.pending = [] := by
  refine Triple.bind use_owns fun _ => Triple.bind (Triple.may _) fun _ => ?_
  have refuse : Triple E (Owns data.id) (pure (-1) : M ℤ) fun r w =>
      r = 0 ∧ Outstanding w ∨ r < 0 ∧ Owns data.id w ∨ r = 0 ∧ data.populate = none ∧ w.pending = [] :=
    Triple.pure fun _ h => .inr (.inl ⟨by decide,h⟩)
  refine Triple.ite (fun _ => ?_) fun _ => refuse
  cases nfs4ResolvePath ctx.cwd data.path with
  | error => exact refuse
  | ok path =>
    refine Triple.bind (Triple.times _ _) fun _ => Triple.ite (fun _ => ?_) fun _ => refuse
    have hpath : { data with path := path }.populate = data.populate := rfl
    rw [hpath]
    cases hops : data.populate with
    | none => exact fun _ _ _ _ h => .inr (.inr ⟨rfl,rfl,h.pending⟩)
    | some r =>
      obtain ⟨ops,func⟩ := r
      have hready : Stage.Ready ⟨{ data with path := path, func := func },.lookupPath1 cont⟩ := ⟨populate_again hops path,hn⟩
      rw [hops] at refuse
      exact Triple.bind (submit_outstanding hready) fun _ =>
        Triple.branch (Triple.pure fun _ h => .inl ⟨rfl,h⟩) refuse

theorem lookupOr_pays {err : ℤ} (hp : data.populate.isSome) (hn : cont.needsName → data.name.isSome) :
    Pays E (lookupOr ctx err data cont) data.id := by
  have hsome : data.populate ≠ none := Option.isSome_iff_ne_none.mp hp
  refine Triple.bind (nfs4LookupPathAsync_owns hn) fun r => Triple.ite (fun hr => ?_) fun hr => ?_
  · refine Triple.pre (fun w h => ?_) (fail_pays err)
    rcases h with ⟨h0,-⟩ | ⟨-,h⟩ | ⟨-,hnone,-⟩
    · omega
    · exact h
    · exact absurd hnone hsome
  · refine Triple.pure fun w h => ?_
    rcases h with ⟨-,h⟩ | ⟨hneg,-⟩ | ⟨-,hnone,-⟩
    · exact .inl h
    · exact absurd hneg hr
    · exact absurd hnone hsome

theorem split_owns (hu : ∀ env, E env → ∀ n, env n .unchecked = true) (hs : (dataSplitPath data.path).isSome) :
    Triple E (Owns data.id) data.split fun r w =>
      ∃ path name, r = some { data with path := path, name := some name } ∧ Owns data.id w := by
  refine Triple.bind (Triple.sure hu) fun b => ?_
  obtain ⟨⟨path,name⟩,hsplit⟩ := Option.isSome_iff_exists.mp hs
  cases b with
  | false => exact fun _ _ _ _ hw => absurd hw.1 (by simp)
  | true =>
    simp only [if_true,hsplit]
    exact Triple.pure fun _ hw => ⟨path,name,rfl,hw.2⟩

/-- The parent of a path is taken, and looked up. -/
theorem split_pays {k : CbData → M Unit} (hu : ∀ env, E env → ∀ n, env n .unchecked = true)
    (hs : (dataSplitPath data.path).isSome)
    (hk : ∀ path name, Pays E (k { data with path := path, name := some name }) data.id) :
    Pays E (data.split >>= fun r => match r with | none => return () | some data => k data) data.id := by
  refine Triple.bind (split_owns hu hs) fun r => ?_
  intro env he n w hw
  obtain ⟨path,name,rfl,howns⟩ := hw
  exact hk path name env he n w howns

end Lookup

section Handlers

variable {E : Env Site → Prop} {ctx : Ctx} {data : CbData} {reply : Reply} {env : Env Site}

/-- The decisions of one environment -/
abbrev Only (env : Env Site) : Env Site → Prop := fun env' => env' = env

theorem openCb_pays (openCb : OpenCb) (fh : Nfsfh) : Pays E (openCb.handle data fh reply) data.id := by
  cases openCb with
  | openTruncate | openChmod | truncateOpen => exact checked_pays fun _ _ _ => task_pays trivial

theorem opened_pays (fh : Nfsfh) : Pays E (opened data fh reply) data.id := by
  unfold opened
  cases data.openCb with
  | none => exact finish_pays _
  | some openCb => exact openCb_pays openCb fh

theorem nfs4OpenCb_pays : Pays E (nfs4OpenCb data reply) data.id := by
  refine searched_pays fun res access _ _ => Triple.ite (fun _ => fail_pays _) fun _ => findOp_pays fun fh _ => ?_
  refine times_pays (findOp_pays fun ores _ => Triple.ite (fun _ => task_pays trivial) fun _ => opened_pays _) (fail_pays _)

theorem nfs4OpenReadlinkCb_pays
    (hs : ∀ target, reply.found Resop.readlink? = some target → Splits ctx env (data.path ++ '/' :: target)) :
    Pays (Only env) (nfs4OpenReadlinkCb ctx data reply) data.id := by
  refine searched_pays fun res target _ htarget => may_pays (may_pays ?_ (fail_pays _)) (fail_pays _)
  obtain ⟨hu,hparent⟩ := hs target htarget
  cases hpath : nfs4ResolvePath ctx.cwd (data.path ++ '/' :: target) with
  | error => exact fail_pays _
  | ok path =>
    refine split_pays (fun _ he n => he ▸ hu n) (hparent path hpath) fun path name => ?_
    exact lookupOr_pays rfl fun h => h.elim

theorem nfs4OpenReadlink_pays (h : data.flags.nofollow ∨ data.name.isSome) : Pays E (nfs4OpenReadlink ctx data) data.id := by
  refine Triple.ite (fun _ => (call_told _).post fun _ _ h => .inr h.1) fun hn => ?_
  obtain ⟨name,hname⟩ := Option.isSome_iff_exists.mp (h.resolve_left hn)
  have hp : { data with func := .lookupReadlink }.populate.isSome := by simp [CbData.populate,hname]
  exact @lookupOr_pays E ctx { data with func := .lookupReadlink } .openReadlink (-12) hp fun h => h.elim

theorem nfs4Mount4Cb_pays : Pays E (nfs4Mount4Cb data reply) data.id :=
  searched_pays fun _ _ _ _ => may_pays (Triple.bind (keep_owns fun _ h => ⟨h.sound,h.live,h.allocated,h.freed⟩) fun _ => task_pays trivial) (fail_pays _)

theorem nfs4Chdir1Cb_pays : Pays E (nfs4Chdir1Cb data reply) data.id :=
  checked_pays fun _ _ _ => Triple.bind (keep_owns fun _ h => ⟨h.sound,h.live,h.allocated,h.freed⟩) fun _ => finish_pays _

theorem nfs4Xstat64Cb_pays
    (h : ∀ attrs, reply.found Resop.getattr? = some attrs → (nfsParseAttributes ctx.getpwnam attrs).1) :
    Pays E (nfs4Xstat64Cb ctx data reply) data.id := by
  refine searched_pays fun res attrs _ hattrs => ?_
  rw [if_neg (by simpa using h attrs hattrs)]
  exact finish_pays _

theorem nfs4Link1Cb_pays {oldpath : Path} (hn : data.name.isSome) : Pays E (nfs4Link1Cb ctx data oldpath reply) data.id := by
  obtain ⟨name,hname⟩ := Option.isSome_iff_exists.mp hn
  refine searched_pays fun _ fh _ _ => times_pays ?_ (fail_pays _)
  exact lookupOr_pays (by simp [CbData.populate,hname]) fun h => h.elim

theorem nfs4Rename1Cb_pays {oldpath : Path} (hn : data.name.isSome)
    (hs : ∀ fh, reply.found Resop.getfh? = some fh → Splits ctx env oldpath) :
    Pays (Only env) (nfs4Rename1Cb ctx data oldpath reply) data.id := by
  obtain ⟨newname,hname⟩ := Option.isSome_iff_exists.mp hn
  refine searched_pays fun _ fh _ hfh => times_pays (may_pays ?_ (fail_pays _)) (fail_pays _)
  obtain ⟨hu,hparent⟩ := hs fh hfh
  cases hpath : nfs4ResolvePath ctx.cwd oldpath with
  | error => exact fail_pays _
  | ok path =>
    refine split_pays (fun _ he n => he ▸ hu n) (hparent path hpath) fun path name => ?_
    exact lookupOr_pays (by simp [CbData.populate,hname]) fun h => h.elim

/-- The entries are read without telling anybody. -/
theorem parseEntries_owns {id : ℕ} (entries : List Entry) (cookie : ℕ) :
    Triple E (Owns id) (parseEntries ctx entries cookie) fun _ => Owns id := by
  induction entries generalizing cookie with
  | nil => exact Triple.pure fun _ h => h
  | cons e entries ih =>
    refine Triple.bind (Triple.times _ _) fun _ => Triple.ite (fun _ => ?_) fun _ => Triple.pure fun _ h => h
    exact Triple.ite (fun _ => Triple.pure fun _ h => h) fun _ => ih _

theorem nfs4ParseReaddir_pays {fh : Fh} {cookie : ℕ} {rdres : List Entry × Bool} :
    Pays E (nfs4ParseReaddir ctx data fh cookie rdres) data.id := by
  refine Triple.bind (parseEntries_owns rdres.1 cookie) fun r => ?_
  cases r with
  | error err => exact fail_pays _
  | ok cookie => exact Triple.ite (fun _ => task_pays trivial) fun _ => finish_pays _

theorem nfs4OpendirCb_pays : Pays E (nfs4OpendirCb ctx data reply) data.id :=
  searched_pays fun _ _ _ _ => times_pays (findOp_pays fun _ _ => nfs4ParseReaddir_pays) (fail_pays _)

theorem nfs4AccessCb_pays : Pays E (nfs4AccessCb data reply) data.id :=
  searched_pays fun _ _ _ _ => Triple.ite (fun _ => finish_pays _) fun _ => finish_pays _

/-- `continue_cb` with a reply whose attributes have been parsed -/
theorem cont_pays {cont : Cont} (hn : cont.needsName → data.name.isSome)
    (ha : ∀ attrs, reply.found Resop.getattr? = some attrs → (nfsParseAttributes ctx.getpwnam attrs).1)
    (hs : cont.Safe ctx data reply env) : Pays (Only env) (cont.handle ctx data reply) data.id := by
  cases cont with
  | mount4 => exact nfs4Mount4Cb_pays
  | chdir1 => exact nfs4Chdir1Cb_pays
  | xstat64 => exact nfs4Xstat64Cb_pays ha
  | simple h => exact checked_pays fun _ _ _ => finish_pays _
  | «open» => exact nfs4OpenCb_pays
  | openReadlink => exact nfs4OpenReadlinkCb_pays hs
  | readlink => exact searched_pays fun _ _ _ _ => may_pays (finish_pays _) (fail_pays _)
  | link1 oldpath => exact nfs4Link1Cb_pays (hn trivial)
  | rename1 oldpath => exact nfs4Rename1Cb_pays (hn trivial) hs
  | opendir => exact nfs4OpendirCb_pays
  | access => exact nfs4AccessCb_pays

theorem readlinkTask_pays {cont : Cont} {idx : ℕ} {names : List Path} (hr : Stage.Ready ⟨data,.lookupPath2 cont idx⟩) :
    Pays E (readlinkTask ctx data cont idx names) data.id := may_pays (task_pays hr) (fail_pays _)

/-- The attributes that are looked for are among those that are parsed. -/
theorem found_parsed {res : Res} {attrs : Attrlist} {parse : Attrlist → Bool × Stat64}
    (hall : ((res.resarray.filterMap Resop.getattr?).map parse).all Prod.fst)
    (h : Reply.found Resop.getattr? (.success res) = some attrs) : (parse attrs).1 := by
  simp only [Reply.found] at h
  by_cases hstatus : res.status = 0
  · rw [if_pos hstatus] at h
    obtain ⟨op,hop,hattrs⟩ := List.exists_of_findSome?_eq_some h
    have hmem : attrs ∈ res.resarray.filterMap Resop.getattr? := List.mem_filterMap.mpr ⟨op,hop,hattrs⟩
    exact List.all_eq_true.mp hall _ (List.mem_map_of_mem hmem)
  · rw [if_neg hstatus] at h
    simp at h

theorem nfs4LookupPath1Cb_pays {cont : Cont} (hr : Stage.Ready ⟨data,.lookupPath1 cont⟩)
    (hs : LookupSafe ctx data cont reply env) : Pays (Only env) (nfs4LookupPath1Cb ctx data cont reply) data.id := by
  cases reply with
  | error | cancel | timeout => exact fail_pays _
  | success res =>
    have hsafe := hs res rfl
    unfold nfs4LookupPath1Cb
    dsimp only at hsafe ⊢
    generalize hsts : (res.resarray.filterMap Resop.getattr?).map (nfsParseAttributes ctx.getpwnam) = sts at hsafe ⊢
    refine Triple.ite (fun _ => fail_pays _) fun hstatus => Triple.ite (fun _ => fail_pays _) fun hall => ?_
    have hparsed : ((res.resarray.filterMap Resop.getattr?).map (nfsParseAttributes ctx.getpwnam)).all Prod.fst := by
      rw [hsts]
      simpa using hall
    generalize sts.any (fun st => st.2.isLink) = link at hsafe ⊢
    refine Triple.ite (fun hopen => ?_) fun hopen => ?_
    · rw [if_pos hopen] at hsafe
      exact nfs4OpenReadlink_pays hsafe
    · rw [if_neg hopen] at hsafe
      refine Triple.ite (fun hdone => ?_) fun hdone => ?_
      · have hnot : ¬ (link = true ∧ ¬ data.noFollow = true) := by simpa using hdone.2
        rw [if_neg hnot,if_pos hdone.1] at hsafe
        exact cont_pays hr.2 (fun attrs h => found_parsed hparsed h) hsafe
      · refine Triple.ite (fun _ => fail_pays _) fun hlookup => ?_
        refine may_pays (Triple.ite (fun _ => readlinkTask_pays hr) fun hresolve => ?_) (fail_pays _)
        have hnot : ¬ (link = true ∧ ¬ data.noFollow = true) := by simpa using hresolve
        rw [if_neg hnot,if_neg fun h0 => hdone ⟨h0,hresolve⟩] at hsafe
        have hany : res.resarray.any Resop.isLinkLookup = true := by
          by_contra hany
          exact hlookup ⟨hresolve,hany⟩
        obtain ⟨names,hnames⟩ := Option.isSome_iff_exists.mp (hsafe hany)
        rw [hnames]
        exact readlinkTask_pays hr

theorem nfs4LookupPath2Cb_pays {cont : Cont} {idx : ℕ} (hr : Stage.Ready ⟨data,.lookupPath2 cont idx⟩)
    (hs : (∃ res, reply = .success res ∧ res.status = 0) → (slashAt (idx-1) data.path).isSome) :
    Pays E (nfs4LookupPath2Cb ctx data cont idx reply) data.id := by
  refine checked_pays fun res hres hstatus => may_pays ?_ (fail_pays _)
  obtain ⟨tmp,htmp⟩ := Option.isSome_iff_exists.mp (hs ⟨res,hres,hstatus⟩)
  rw [htmp]
  exact findOp_pays fun target _ => may_pays (lookupOr_pays hr.1 hr.2) (fail_pays _)

/-- With memory and a request that can be sent, a WRITE has data of its own. -/
theorem nfs4PwriteAsyncInternal_owns {id : ℕ} {fh : Fh} {count offset : ℕ}
    (h : ∀ n, env n .alloc = true ∧ env n .task = true) :
    Triple (Only env) (Owns id) (nfs4PwriteAsyncInternal fh count offset) fun r w =>
      r = 0 ∧ Outstanding w ∧ w.shared.Holds id ∧ ∀ stage ∈ w.pending, stage.data.id ≠ id := by
  rintro env' rfl n w ⟨hcrashed,hcalls,hpending,hsound,hlive,hallocated,hfreed⟩
  have hnew : w.shared.allocated ∉ w.shared.freed := fun hm => (lt_irrefl _) (hfreed _ hm)
  have hfreed' : ∀ i ∈ w.shared.freed, i < w.shared.allocated+1 := fun i hi => Nat.lt_succ_of_lt (hfreed i hi)
  have hrun : nfs4PwriteAsyncInternal fh count offset env' n w = (0,n+1+1,{ w with
      sent := .compound [.putfh fh,.write offset count] :: w.sent
      pending := ⟨.new w.shared.allocated,.pwrite⟩ :: w.pending
      shared := { w.shared with
        allocated := w.shared.allocated+1
        misused := w.shared.misused || decide (w.shared.allocated ∈ w.shared.freed) } }) := by
    simp [nfs4PwriteAsyncInternal,callocData,bind,pure,Act.may,Act.load,Act.store,CbData.submit,CbData.use,Act.submit,
      Act.send,h,CbData.new]
  rw [hrun]
  refine ⟨rfl,⟨hcrashed,hcalls,⟨.new w.shared.allocated,.pwrite⟩,by rw [hpending],trivial,?_⟩,?_,?_⟩
  · exact ⟨by simp [hsound,hnew],hnew,Nat.lt_succ_self _,hfreed'⟩
  · exact ⟨by simp [hsound,hnew],hlive,Nat.lt_succ_of_lt hallocated,hfreed'⟩
  · simp only [hpending,List.mem_singleton,forall_eq]
    exact fun he => (Nat.ne_of_lt hallocated) he.symm

theorem nfs4WriteAppendCb_pays {fh : Fh} {count : ℕ}
    (hs : ∀ attrs, reply.found Resop.getattr? = some attrs → 8 ≤ attrs.len → ∀ n, env n .alloc = true ∧ env n .task = true) :
    Pays (Only env) (nfs4WriteAppendCb ctx data fh count reply) data.id := by
  refine searched_pays fun res attrs _ hattrs => Triple.ite (fun _ => fail_pays _) fun hlen => ?_
  refine Triple.bind (nfs4PwriteAsyncInternal_owns (hs attrs hattrs (by omega))) fun r => Triple.ite (fun hr => ?_) fun _ => ?_
  · rintro _ - n w ⟨rfl,-⟩
    exact absurd hr (by decide)
  · rintro _ - n w ⟨-,⟨hcrashed,hcalls,stage,hpending,hready,hholds⟩,howns,hother⟩
    refine .inl ⟨hcrashed,hcalls,stage,hpending,hready,?_⟩
    have hne := hother stage (by simp [hpending])
    refine ⟨?_,?_,hholds.allocated,?_⟩
    · simp [CbData.free,CbData.use,bind,Act.store,howns.sound,howns.live]
    · simpa [CbData.free,CbData.use,bind,Act.store,hne] using hholds.live
    · simpa [CbData.free,CbData.use,bind,Act.store,howns.allocated] using howns.freed

/-- Where the request can be sent the data is kept. -/
theorem nfs4FcntlAsyncInternal_sends {fh : Nfsfh} {cmd : FcntlOp} {fl : Flock} (h : ∀ n, env n .task = true) :
    Triple (Only env) (Owns data.id) (nfs4FcntlAsyncInternal data fh cmd fl) fun r w => r = 0 ∧ Outstanding w := by
  have hsubmit : Triple (Only env) (Owns data.id) (data.submit (.putfh fh.fh :: fcntlOps cmd fl) (.fcntl fl))
      fun b w => b = true ∧ Outstanding w :=
    Triple.bind use_owns fun _ => Triple.submit_sure (fun _ he n => he ▸ h n) fun _ hw => sent trivial hw
  refine Triple.bind hsubmit fun b => ?_
  cases b with
  | false => exact fun _ _ _ _ hw => absurd hw.1 (by simp)
  | true => exact Triple.pure fun _ hw => ⟨rfl,hw.2⟩

theorem nfs4FcntlStatCb_pays {fh : Nfsfh} {cmd : FcntlOp} {fl : Flock}
    (hs : ∀ attrs, reply.found Resop.getattr? = some attrs →
      (nfsParseAttributes ctx.getpwnam attrs).1 ∧ ∀ n, env n .task = true) :
    Pays (Only env) (nfs4FcntlStatCb ctx data fh cmd fl reply) data.id := by
  refine searched_pays fun res attrs _ hattrs => ?_
  obtain ⟨hparsed,htask⟩ := hs attrs hattrs
  rw [if_neg (by simpa using hparsed)]
  refine Triple.bind (nfs4FcntlAsyncInternal_sends htask) fun r => Triple.ite (fun hr => ?_) fun _ => ?_
  · rintro _ - n w ⟨rfl,-⟩
    exact absurd rfl hr
  · exact Triple.pure fun _ h => .inl h.2

theorem nfs4Mount1Cb_pays (h : ∀ res, reply ≠ .success res) : Pays E (nfs4Mount1Cb data reply) data.id := by
  cases reply with
  | success res => exact absurd rfl (h res)
  | error | cancel | timeout => exact fail_pays _

theorem nfs4Mount2Cb_pays (h : ∀ res, reply = .success res → res.status = 0 → res.resarray ≠ []) :
    Pays E (nfs4Mount2Cb data reply) data.id :=
  checked_pays fun res hres hstatus => Triple.ite (fun hnil => absurd hnil (h res hres hstatus)) fun _ => task_pays trivial

theorem nfs4Mount3Cb_pays : Pays E (nfs4Mount3Cb ctx data reply) data.id :=
  checked_pays fun _ _ _ => may_pays (lookupOr_pays rfl fun h => h.elim) (fail_pays _)

theorem nfs4Mount5Cb_pays (h : ∀ attrs, reply.found Resop.getattr? = some attrs → (nfsParseRwmax attrs).isSome) :
    Pays E (nfs4Mount5Cb data reply) data.id := by
  refine searched_pays fun res attrs _ hattrs => ?_
  rw [if_neg (by simpa [Option.isSome_iff_ne_none] using h attrs hattrs)]
  exact finish_pays _

theorem nfs4LockfCb_pays {cmd : LockOp} : Pays E (nfs4LockfCb data cmd reply) data.id := by
  refine checked_pays fun _ _ _ => ?_
  cases cmd with
  | lock | tlock | ulock => exact findOp_pays fun _ _ => finish_pays _
  | test => exact finish_pays _

theorem nfs4FcntlCb_pays {fl : Flock} : Pays E (nfs4FcntlCb data fl reply) data.id := by
  refine checked_pays fun _ _ _ => ?_
  cases fl.type with
  | rdlck | wrlck | unlck => exact findOp_pays fun _ _ => finish_pays _
  | other => exact finish_pays _

/-- Each handler calls the callback or leaves a request behind. -/
theorem Stage.handle_pays {stage : Stage} {e : Event (Ctx × Reply) Site} (hr : stage.Ready) (hs : stage.Safe e) :
    Pays (Only e.env) (stage.handle e.reply) stage.data.id := by
  obtain ⟨data,handler⟩ := stage
  cases handler with
  | lookupPath1 cont => exact nfs4LookupPath1Cb_pays hr hs
  | lookupPath2 cont idx => exact nfs4LookupPath2Cb_pays hr hs
  | mount1 => exact nfs4Mount1Cb_pays hs
  | mount2 => exact nfs4Mount2Cb_pays hs
  | mount3 => exact nfs4Mount3Cb_pays
  | mount5 => exact nfs4Mount5Cb_pays hs
  | xstat64 => exact nfs4Xstat64Cb_pays hs
  | getacl => exact searched_pays fun _ _ _ _ => finish_pays _
  | statvfs => exact searched_pays fun _ _ _ _ => Triple.ite (fun _ => fail_pays _) fun _ => finish_pays _
  | simple h => exact checked_pays fun _ _ _ => finish_pays _
  | openConfirm fh => exact searched_pays fun _ _ _ _ => opened_pays fh
  | openSetattr fh | truncateClose => exact checked_pays fun _ _ _ => finish_pays _
  | pread requested | pwrite => exact searched_pays fun _ _ _ _ => finish_pays _
  | writeAppend fh count => exact nfs4WriteAppendCb_pays hs
  | opendir2 fh cookie => exact searched_pays fun _ _ _ _ => nfs4ParseReaddir_pays
  | lseek offset => exact searched_pays fun _ _ _ _ => finish_pays _
  | lockf cmd => exact nfs4LockfCb_pays
  | fcntl fl => exact nfs4FcntlCb_pays
  | fcntlStat fh cmd fl => exact nfs4FcntlStatCb_pays hs

end Handlers

section Calls

variable {E : Env Site → Prop} {ctx : Ctx} {data : CbData} {cont : Cont} {α : Type}

/-- Nothing has been told and nothing waits; what was freed had been allocated. -/
structure Idle (w : Sys) : Prop where
  crashed : w.crashed = false
  calls : w.calls = []
  pending : w.pending = []
  sound : w.shared.misused = false
  freed : ∀ i ∈ w.shared.freed, i < w.shared.allocated

/-- If something waits, it is one request that has its data. -/
def Started (w : Sys) : Prop := w.pending = [] ∨ Outstanding w

/-- There is no data, or it is such as `Q` says. -/
def Got (Q : CbData → Prop) : Option CbData → Sys → Prop
  | none, w => w.pending = []
  | some data, w => Q data ∧ Owns data.id w

theorem quiet_starts {P : Sys → Prop} (a : α) (h : ∀ w, P w → w.pending = []) :
    Triple E P (pure a : M α) fun _ => Started := Triple.pure fun w hw => .inl (h w hw)

theorem got_starts {Q : CbData → Prop} {k : CbData → M ℤ}
    (hk : ∀ data, Q data → Triple E (Owns data.id) (k data) fun _ => Started) (r : Option CbData) :
    Triple E (Got Q r) (match r with | none => return -1 | some data => k data) fun _ => Started := by
  cases r with
  | none => exact quiet_starts _ fun _ h => h
  | some data => exact fun env he n w hw => hk data hw.1 env he n w hw.2

theorem callocData_got : Triple E Idle callocData (Got fun _ => True) := by
  refine Triple.bind (Triple.may _) fun b => Triple.ite (fun _ => ?_) fun _ => Triple.pure fun _ h => h.pending
  rintro env - n w ⟨hcrashed,hcalls,hpending,hsound,hfreed⟩
  refine ⟨trivial,hcrashed,hcalls,hpending,hsound,fun hm => (lt_irrefl _) (hfreed _ hm),Nat.lt_succ_self _,?_⟩
  exact fun i hi => Nat.lt_succ_of_lt (hfreed i hi)

theorem free_quiet : Triple E (Owns data.id) data.free fun _ w => w.pending = [] := fun _ _ _ _ h => h.pending

theorem freed_starts (a : α) : Triple E (Owns data.id) (do data.free; return a) fun _ => Started :=
  Triple.bind free_quiet fun _ => quiet_starts a fun _ h => h

theorem initCbDataFullPath_got (path : Path) : Triple E Idle (initCbDataFullPath ctx path) (Got fun _ => True) := by
  have freed : ∀ data : CbData, Triple E (Owns data.id) (do data.free; return none) (Got fun _ => True) :=
    fun data => Triple.bind free_quiet fun _ => Triple.pure fun _ h => h
  refine Triple.bind callocData_got fun r => ?_
  cases r with
  | none => exact Triple.pure fun _ h => h
  | some data =>
    refine Triple.pre (fun _ h => h.2) (Triple.bind (Triple.may _) fun b => Triple.ite (fun _ => ?_) fun _ => freed data)
    cases nfs4ResolvePath ctx.cwd path with
    | error => exact freed data
    | ok path => exact Triple.pure fun _ h => ⟨trivial,h⟩

theorem split_got : Triple E (Owns data.id) data.split (Got fun data => data.name.isSome) := by
  have crashed : Triple E (Owns data.id) (do Act.crash; return none) (Got fun data => data.name.isSome) :=
    fun _ _ _ _ h => h.pending
  refine Triple.bind (Triple.may _) fun b => Triple.ite (fun _ => ?_) fun _ => crashed
  cases dataSplitPath data.path with
  | none => exact crashed
  | some r => exact Triple.pure fun _ h => ⟨rfl,h⟩

theorem initCbDataSplitPath_got (path : Path) :
    Triple E Idle (initCbDataSplitPath ctx path) (Got fun data => data.name.isSome) := by
  refine Triple.bind (initCbDataFullPath_got path) fun r => ?_
  cases r with
  | none => exact Triple.pure fun _ h => h
  | some data => exact Triple.pre (fun _ h => h.2) split_got

/-- The lookup that a call ends with, and what follows when it is refused -/
theorem lookup_starts {m : M ℤ} (hn : cont.needsName → data.name.isSome)
    (hm : Triple E (Owns data.id) m fun _ => Started) :
    Triple E (Owns data.id) (do if (← nfs4LookupPathAsync ctx data cont) < 0 then m else return 0) fun _ => Started := by
  refine Triple.bind (nfs4LookupPathAsync_owns hn) fun r => Triple.ite (fun hr => ?_) fun hr => ?_
  · refine Triple.pre (fun w h => ?_) hm
    rcases h with ⟨h0,-⟩ | ⟨-,h⟩ | ⟨h0,-⟩
    · omega
    · exact h
    · omega
  · refine Triple.pure fun w h => ?_
    rcases h with ⟨-,h⟩ | ⟨hneg,-⟩ | ⟨-,-,h⟩
    · exact .inr h
    · exact absurd hneg hr
    · exact .inl h

theorem lookupFor_starts {n id : ℕ} (hid : data.id = id) (hn : cont.needsName → data.name.isSome) :
    Triple E (Owns id) (lookupFor ctx n data cont) fun _ => Started := by
  subst hid
  exact Triple.bind (Triple.times _ _) fun _ =>
    Triple.ite (fun _ => lookup_starts hn (freed_starts _)) fun _ => freed_starts _

theorem lookupKept_starts {id : ℕ} (hid : data.id = id) (hn : cont.needsName → data.name.isSome) :
    Triple E (Owns id) (lookupKept ctx data cont) fun _ => Started := by
  subst hid
  exact Triple.bind (Triple.may _) fun _ =>
    Triple.ite (fun _ => lookup_starts hn (quiet_starts _ fun _ h => h.pending)) fun _ => freed_starts _

/-- What a call does with the data of a path -/
theorem full_starts {path : Path} {k : CbData → M ℤ}
    (hk : ∀ data, Triple E (Owns data.id) (k data) fun _ => Started) :
    Triple E Idle (initCbDataFullPath ctx path >>= fun r => match r with | none => return -1 | some data => k data)
      fun _ => Started := Triple.bind (initCbDataFullPath_got path) fun r => got_starts (fun data _ => hk data) r

/-- What a call does with the data of a name in a directory -/
theorem split_starts {path : Path} {k : CbData → M ℤ}
    (hk : ∀ data, data.name.isSome → Triple E (Owns data.id) (k data) fun _ => Started) :
    Triple E Idle (initCbDataSplitPath ctx path >>= fun r => match r with | none => return -1 | some data => k data)
      fun _ => Started := Triple.bind (initCbDataSplitPath_got path) fun r => got_starts hk r

theorem submit_starts {ops : List Argop} {handler : Handler} {m : M ℤ} (hr : Stage.Ready ⟨data,handler⟩)
    (hm : Triple E (Owns data.id) m fun _ => Started) :
    Triple E (Owns data.id) (do if ← data.submit ops handler then return 0 else m) fun _ => Started :=
  Triple.bind (submit_outstanding hr) fun _ => Triple.branch (Triple.pure fun _ h => .inr h) hm

theorem handleOp_starts {n : ℕ} {err : ℤ} {ops : List Argop} {handler : Handler}
    (hr : ∀ data, Stage.Ready ⟨data,handler⟩) : Triple E Idle (handleOp n err ops handler) fun _ => Started :=
  Triple.bind callocData_got fun r => got_starts (fun data _ => Triple.bind (Triple.times _ _) fun _ =>
    Triple.ite (fun _ => submit_starts (hr data) (freed_starts _)) fun _ => freed_starts _) r

theorem nfs4PwriteAsyncInternal_starts {fh : Fh} {count offset : ℕ} :
    Triple E Idle (nfs4PwriteAsyncInternal fh count offset) fun _ => Started :=
  Triple.bind callocData_got fun r => got_starts (fun data _ => @submit_starts E data _ .pwrite _ trivial (freed_starts _)) r

theorem nfs4MountAsync_starts {export_ : Path} : Triple E Idle (nfs4MountAsync export_) fun _ => Started := by
  refine Triple.bind (Triple.times _ _) fun _ => Triple.ite (fun _ => ?_) fun _ => quiet_starts _ fun _ h => h.pending
  cases nfsNormalizePath export_ with
  | error => exact quiet_starts _ fun _ h => h.pending
  | ok path =>
    refine Triple.bind callocData_got fun r => got_starts (fun data _ => ?_) r
    have hsent : ∀ w, Owns data.id w → Outstanding { w with
        sent := Request.connect :: w.sent, pending := ⟨{ data with path := path },.mount1⟩ :: w.pending } :=
      fun w h => @sent { data with path := path } w .connect .mount1 trivial h
    exact Triple.bind (Triple.submit hsent) fun _ => Triple.branch (Triple.pure fun _ h => .inr h) (freed_starts _)

theorem fillerDataOp_starts {path : Path} {noFollow : Bool} (hn : ¬ cont.needsName) :
    Triple E Idle (fillerDataOp ctx path noFollow cont) fun _ => Started := by
  refine full_starts fun data => Triple.bind (Triple.may _) fun _ => Triple.ite (fun _ => ?_) fun _ => ?_
  · exact lookupFor_starts rfl fun h => absurd h hn
  · exact Triple.bind (finish_told _) fun _ => quiet_starts _ fun _ h => h.pending

theorem nfs4SymlinkAsync_starts {target linkname : Path} :
    Triple E Idle (nfs4SymlinkAsync ctx target linkname) fun _ => Started :=
  split_starts fun _ _ => Triple.bind (Triple.may _) fun _ => lookupFor_starts rfl fun h => h.elim

theorem nfs4MknodAsync_starts {path : Path} {mode : ℕ} {dev : ℤ} :
    Triple E Idle (nfs4MknodAsync ctx path mode dev) fun _ => Started := by
  refine Triple.ite (fun _ => split_starts fun data _ => Triple.bind (Triple.may _) fun _ => ?_) fun _ => ?_
  · exact Triple.ite (fun _ => lookupFor_starts rfl fun h => h.elim) fun _ => quiet_starts _ fun _ h => h.pending
  · exact quiet_starts _ fun _ h => h.pending

theorem forgetfulOp_starts {path : Path} {fill : CbData → CbData} (hfill : ∀ data, (fill data).id = data.id)
    (hn : ¬ cont.needsName) : Triple E Idle (forgetfulOp ctx path cont fill) fun _ => Started := by
  refine full_starts fun data => Triple.bind (Triple.may _) fun _ => Triple.ite (fun _ => ?_) fun _ => ?_
  · exact lookupFor_starts (hfill data) fun h => absurd h hn
  · exact quiet_starts _ fun _ h => h.pending

theorem fullPathOp_starts {n : ℕ} {path : Path} {fill : CbData → CbData} (hfill : ∀ data, (fill data).id = data.id)
    (hn : ¬ cont.needsName) : Triple E Idle (fullPathOp ctx n path cont fill) fun _ => Started :=
  full_starts fun data => lookupFor_starts (hfill data) fun h => absurd h hn

theorem splitPathOp_starts {n : ℕ} {path : Path} {fill : CbData → CbData}
    (hfill : ∀ data, (fill data).id = data.id ∧ (fill data).name = data.name) :
    Triple E Idle (splitPathOp ctx n path cont fill) fun _ => Started :=
  split_starts fun data hname => lookupFor_starts (hfill data).1 fun _ => (hfill data).2 ▸ hname

theorem nfs4OpenAsyncInternal_starts {flags : OpenFlags} {id : ℕ} (hid : data.id = id) :
    Triple E (Owns id) (nfs4OpenAsyncInternal ctx data flags) fun _ => Started :=
  lookupFor_starts hid fun h => h.elim

theorem nfs4OpenAsync_starts {path : Path} {flags : OpenFlags} {mode : ℕ} :
    Triple E Idle (nfs4OpenAsync ctx path flags mode) fun _ => Started :=
  split_starts fun _ _ => Triple.bind (Triple.times _ _) fun _ =>
    Triple.ite (fun _ => nfs4OpenAsyncInternal_starts rfl) fun _ => freed_starts _

theorem nfs4TruncateAsync_starts {path : Path} {length : ℕ} :
    Triple E Idle (nfs4TruncateAsync ctx path length) fun _ => Started :=
  split_starts fun _ _ => Triple.bind (Triple.may _) fun _ =>
    Triple.ite (fun _ => nfs4OpenAsyncInternal_starts rfl) fun _ => freed_starts _

theorem nfs4LseekAsync_starts {fh : Nfsfh} {offset : ℤ} {whence : ℕ} :
    Triple E Idle (nfs4LseekAsync fh offset whence) fun _ => Started := by
  have told : ∀ r : Result, Triple E Idle (do Act.tell r; return (0 : ℤ) : M ℤ) fun _ => Started :=
    fun r => Triple.bind (Triple.tell (Q := fun w => w.pending = []) fun _ h => h.pending) fun _ => quiet_starts _ fun _ h => h
  exact Triple.ite (fun _ => told _) fun _ => Triple.ite (fun _ => told _) fun _ => handleOp_starts fun _ => trivial

theorem nfs4FcntlAsync_starts {fh : Nfsfh} {cmd : Option FcntlOp} {fl : Flock} :
    Triple E Idle (nfs4FcntlAsync fh cmd fl) fun _ => Started := by
  refine Triple.bind callocData_got fun r => got_starts (fun data _ => ?_) r
  have go : ∀ cmd fl, Triple E (Owns data.id) (nfs4FcntlAsyncInternal data fh cmd fl) fun _ => Started :=
    fun _ _ => submit_starts trivial (freed_starts _)
  cases cmd with
  | none => exact freed_starts _
  | some cmd =>
    refine Triple.ite (fun _ => go cmd fl) fun _ => Triple.ite (fun _ => go cmd _) fun _ => ?_
    exact Triple.ite (fun _ => submit_starts trivial (freed_starts _)) fun _ => freed_starts _

/-- A call leaves nothing behind, or one request that has its data. -/
theorem Op.call_starts (op : Op) : Triple E Idle (op.call ctx) fun _ => Started := by
  cases op with
  | access path mode => exact forgetfulOp_starts (fun _ => rfl) id
  | access2 path => exact forgetfulOp_starts (fun _ => rfl) id
  | chdir path => exact fillerDataOp_starts id
  | chmod path noFollow mode => exact full_starts fun _ => lookupKept_starts rfl fun h => h.elim
  | chown path noFollow uid gid => exact split_starts fun _ _ => lookupKept_starts rfl fun h => h.elim
  | close fh | fchmod fh mode | fchown fh uid gid | fstat64 fh | fsync fh | ftruncate fh length | getacl fh
  | lockf fh cmd count | pread fh count offset | preadv fh lens offset | statvfs path | statvfs64 path =>
    exact handleOp_starts fun _ => trivial
  | creat path mode => exact nfs4OpenAsync_starts
  | fcntl fh cmd fl => exact nfs4FcntlAsync_starts
  | link oldpath newpath | mkdir2 path mode | rename oldpath newpath | rmdir path | unlink path =>
    exact splitPathOp_starts fun _ => ⟨rfl,rfl⟩
  | lseek fh offset whence => exact nfs4LseekAsync_starts
  | mknod path mode dev => exact nfs4MknodAsync_starts
  | mount export_ => exact nfs4MountAsync_starts
  | «open» path flags mode => exact nfs4OpenAsync_starts
  | opendir path | readlink path => exact fullPathOp_starts (fun _ => rfl) id
  | pwrite fh count offset => exact nfs4PwriteAsyncInternal_starts
  | stat64 path noFollow => exact fillerDataOp_starts id
  | symlink target linkname => exact nfs4SymlinkAsync_starts
  | truncate path length => exact nfs4TruncateAsync_starts
  | utime path times | utimes path noFollow times => exact forgetfulOp_starts (fun _ => rfl) id
  | write fh count => exact Triple.ite (fun _ => handleOp_starts fun _ => trivial) fun _ => nfs4PwriteAsyncInternal_starts

end Calls

/-- The answers to the requests of a world are safe. -/
def Answered (w : Sys) (es : List (Event (Ctx × Reply) Site)) : Prop :=
  Transition.Guarded (answer Stage.handle) (fun w e => ∀ stage, w.pending[e.index]? = some stage → stage.Safe e) w es

/-- What waits is one request that has its data, or the callback has been called. -/
theorem after_settled {w : Sys} {es : List (Event (Ctx × Reply) Site)} (hw : Settled w) (hg : Answered w es) :
    Settled (after w es) := by
  refine answered_induction hg hw fun w stage e hw _ hstage hsafe => ?_
  rcases hw with ⟨hcrashed,hcalls,waiting,hpending,hready,hholds⟩ | htold
  · rw [hpending,List.getElem?_singleton] at hstage
    obtain ⟨hindex,hstage⟩ := Option.ite_some_none_eq_some.mp hstage
    subst hstage
    refine Stage.handle_pays hready hsafe e.env rfl 0 _ ⟨hcrashed,hcalls,?_,hholds⟩
    simp [hpending,hindex]
  · rw [htold.pending] at hstage
    cases hstage

/-- After the answers `es` the callback has been called once and nothing waits, or it has not been called and one request
waits; no data has been used after it was freed. -/
def Replied (op : Op) (ctx : Ctx) (env : Env Site) (es : List (Event (Ctx × Reply) Site)) : Prop :=
  let w := after (outcome op ctx env).2 es
  w.crashed = false ∧ w.shared.misused = false ∧
    (w.calls.length = 1 ∧ w.pending = [] ∨ w.calls = [] ∧ w.pending.length = 1)

/-- A context with an empty `cwd` and without a root -/
def plain : Ctx := ⟨[],[],fun _ => none,fun _ => true⟩

def willing : Env Site := fun _ _ => true

/-- No request can be sent. -/
def unable : Env Site := fun _ s => s ≠ .task

/-- A reply with attributes that are `len` zeros -/
def zeros (len : ℤ) : Reply := .success ⟨0,[.other,.getattr ⟨fun _ => 0,len⟩]⟩

/-- A file that is open for appending -/
def appending : Nfsfh := ⟨[1],0,false,true,false,false⟩

end Nfs4
end Libnfs
