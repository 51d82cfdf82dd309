import Libnfs.Nfs3Async
import Libnfs.Lookup4

/-! An open over NFSv3 and over NFSv4 in servers with the same directory: `nfs3_open_async` and `nfs4_open_async` with their
callbacks. The server does what the protocols say; RPCs and allocations do not fail. -/
namespace Libnfs
namespace OpenVersions

open Nfs3 (OpenFlags)

structure File where
  mode : ℕ
  size : ℕ
  /-- It belongs to the caller. -/
  own : Bool
  deriving DecidableEq, Repr

inductive Node (ν : Type)
  | file (f : File)
  | link (target : ν)

/-- The directory of the name: what ACCESS grants on it, whether names can be created, and what the names are -/
structure Fs (ν : Type) where
  rights : ℕ
  extend : Bool
  node : ν → Option (Node ν)

/-- What the protocols leave to the server: the rights on a file, the mode of one that is created `EXCLUSIVE4`, and whether CREATE
`UNCHECKED` of a name that is a symbolic link succeeds -/
structure Server where
  rights : File → ℕ
  exclusiveMode : ℕ
  uncheckedLink : Bool

variable {ν : Type}

/-- The LOOKUPs and READLINKs of `nfs3_lookuppath_async`, with so many links to go -/
def lookup3 (fs : Fs ν) (nofollow : Bool) : ℕ → ν → Except ℤ ν
  | count, name =>
    match fs.node name with
    | none => .error (Lookup3.nfsstat3ToErrno 2)
    | some (.file _) => .ok name
    | some (.link target) =>
      if nofollow then .error (-40)
      else
        match count with
        | 0 => .error (-40)
        | count+1 => lookup3 fs nofollow count target

/-- Where a name leads with so many links -/
def Fs.follow (fs : Fs ν) : ℕ → ν → Option ν
  | count, name =>
    match fs.node name with
    | some (.link target) =>
      match count with
      | 0 => none
      | count+1 => fs.follow count target
    | _ => some name

def Fs.isLink (fs : Fs ν) (name : ν) : Prop := ∃ target, fs.node name = some (.link target)

section Follow

variable {fs : Fs ν} {name last : ν} {n : ℕ}

theorem follow_of_not_link (h : ¬ fs.isLink name) (n : ℕ) : fs.follow n name = some name := by
  unfold Fs.follow
  cases hn : fs.node name with
  | none => rfl
  | some node =>
    cases node with
    | file f => rfl
    | link target => exact absurd ⟨target,hn⟩ h

theorem follow_link {target : ν} (h : fs.node name = some (.link target)) (n : ℕ) :
    fs.follow (n+1) name = fs.follow n target := by
  rw [Fs.follow,h]

theorem follow_zero {target : ν} (h : fs.node name = some (.link target)) : fs.follow 0 name = none := by
  rw [Fs.follow,h]

theorem follow_not_link (h : fs.follow n name = some last) : ¬ fs.isLink last := by
  induction n generalizing name with
  | zero =>
    by_cases hl : fs.isLink name
    · obtain ⟨target,ht⟩ := hl
      rw [follow_zero ht] at h
      simp at h
    · rw [follow_of_not_link hl,Option.some.injEq] at h
      rwa [← h]
  | succ n ih =>
    by_cases hl : fs.isLink name
    · obtain ⟨target,ht⟩ := hl
      rw [follow_link ht] at h
      exact ih h
    · rw [follow_of_not_link hl,Option.some.injEq] at h
      rwa [← h]

theorem follow_mono {m : ℕ} (h : fs.follow n name = some last) (hm : n ≤ m) : fs.follow m name = some last := by
  induction n generalizing name m with
  | zero =>
    by_cases hl : fs.isLink name
    · obtain ⟨target,ht⟩ := hl
      rw [follow_zero ht] at h
      simp at h
    · rw [follow_of_not_link hl] at h ⊢
      exact h
  | succ n ih =>
    by_cases hl : fs.isLink name
    · obtain ⟨target,ht⟩ := hl
      obtain ⟨m,rfl⟩ := Nat.exists_eq_succ_of_ne_zero (by omega : m ≠ 0)
      rw [follow_link ht] at h ⊢
      exact ih h (by omega)
    · rw [follow_of_not_link hl] at h ⊢
      exact h

/-- However many links there are, a name leads to one thing. -/
theorem follow_unique {m : ℕ} {last' : ν} (h : fs.follow n name = some last) (h' : fs.follow m name = some last') :
    last = last' := by
  have h1 := follow_mono h (Nat.le_max_left n m)
  have h2 := follow_mono h' (Nat.le_max_right n m)
  exact Option.some.inj (h1.symm.trans h2)

end Follow

/-- Where NFSv3 gets with a name: nowhere along a link that it is not to follow, or that leads on too often -/
def Fs.reach (fs : Fs ν) (nofollow : Bool) (name : ν) : Option ν :=
  match fs.node name with
  | some (.link _) => if nofollow then none else fs.follow Lookup3.maxLinkCount name
  | _ => some name

theorem reach_of_not_link {fs : Fs ν} {name : ν} (h : ¬ fs.isLink name) (nofollow : Bool) :
    fs.reach nofollow name = some name := by
  unfold Fs.reach
  cases hn : fs.node name with
  | none => rfl
  | some node =>
    cases node with
    | file f => rfl
    | link target => exact absurd ⟨target,hn⟩ h

theorem reach_link {fs : Fs ν} {name : ν} (h : fs.isLink name) (nofollow : Bool) :
    fs.reach nofollow name = if nofollow then none else fs.follow Lookup3.maxLinkCount name := by
  obtain ⟨target,ht⟩ := h
  rw [Fs.reach,ht]

/-- NFSv3 gets to no link. -/
theorem reach_not_link {fs : Fs ν} {name last : ν} {nofollow : Bool} (h : fs.reach nofollow name = some last) :
    ¬ fs.isLink last := by
  by_cases hl : fs.isLink name
  · rw [reach_link hl] at h
    cases nofollow with
    | true => simp at h
    | false => exact follow_not_link h
  · rw [reach_of_not_link hl,Option.some.injEq] at h
    rwa [← h]

theorem lookup3_eq (fs : Fs ν) (n : ℕ) (name : ν) : lookup3 fs false n name =
    match fs.follow n name with
    | none => .error (-40)
    | some last => if (fs.node last).isNone then .error (-2) else .ok last := by
  have hnot : ∀ {k : ℕ} {name : ν}, ¬ fs.isLink name → lookup3 fs false k name =
      if (fs.node name).isNone then .error (-2) else .ok name := by
    intro k name hl
    unfold lookup3
    cases hn : fs.node name with
    | none => rfl
    | some node =>
      cases node with
      | file f => rfl
      | link target => exact absurd ⟨target,hn⟩ hl
  induction n generalizing name with
  | zero =>
    by_cases hl : fs.isLink name
    · obtain ⟨target,ht⟩ := hl
      rw [follow_zero ht,lookup3,ht]
      rfl
    · rw [follow_of_not_link hl,hnot hl]
  | succ n ih =>
    by_cases hl : fs.isLink name
    · obtain ⟨target,ht⟩ := hl
      rw [follow_link ht,← ih target]
      conv_lhs => rw [lookup3,ht]
      rfl
    · rw [follow_of_not_link hl,hnot hl]

theorem lookup3_reach (fs : Fs ν) (nofollow : Bool) (name : ν) : lookup3 fs nofollow Lookup3.maxLinkCount name =
    match fs.reach nofollow name with
    | none => .error (-40)
    | some last => if (fs.node last).isNone then .error (-2) else .ok last := by
  by_cases hl : fs.isLink name
  · rw [reach_link hl]
    obtain ⟨target,ht⟩ := hl
    cases hn : nofollow with
    | true =>
      unfold lookup3
      simp [ht]
    | false =>
      simp only [Bool.false_eq_true,if_false]
      exact lookup3_eq fs _ name
  · have herr : Lookup3.nfsstat3ToErrno 2 = -2 := by decide
    rw [reach_of_not_link hl]
    unfold lookup3
    cases hn : fs.node name with
    | none => simp [hn,herr]
    | some node =>
      cases node with
      | file f => simp [hn]
      | link target => exact absurd ⟨target,hn⟩ hl

theorem not_isLink_of_none {fs : Fs ν} {name : ν} (h : fs.node name = none) : ¬ fs.isLink name := by
  rintro ⟨target,ht⟩
  rw [h] at ht
  simp at ht

/-- The states of a name: it is not there, or NFSv3 does not get along its links, or it gets to a file, or to nothing. -/
theorem name_cases (fs : Fs ν) (nofollow : Bool) (name : ν) :
    fs.node name = none ∨ fs.node name ≠ none ∧
      (fs.reach nofollow name = none ∨ ∃ last, fs.reach nofollow name = some last ∧
        ((∃ f, fs.node last = some (.file f)) ∨ fs.isLink name ∧ fs.node last = none)) := by
  by_cases hn : fs.node name = none
  · exact .inl hn
  · refine .inr ⟨hn,?_⟩
    cases hr : fs.reach nofollow name with
    | none => exact .inl rfl
    | some last =>
      refine .inr ⟨last,rfl,?_⟩
      have hlast := reach_not_link hr
      cases hl : fs.node last with
      | some node =>
        cases node with
        | file f => exact .inl ⟨f,rfl⟩
        | link target => exact absurd ⟨target,hl⟩ hlast
      | none =>
        refine .inr ⟨?_,rfl⟩
        by_contra hlink
        rw [reach_of_not_link hlink,Option.some.injEq] at hr
        rw [hr] at hn
        exact hn hl

variable [DecidableEq ν] (srv : Server)

def Fs.set (fs : Fs ν) (name : ν) (f : File) : Fs ν := { fs with node := Function.update fs.node name (some (.file f)) }

/-- What the callback gets, an errno or the file that is open, and the directory then -/
abbrev Outcome (ν : Type) := Except ℤ ν × Fs ν

section Nfs3

/-- CREATE. A file that is created `UNCHECKED` a second time stays. -/
def create3 (fs : Fs ν) (guarded : Bool) (name : ν) (mode : ℕ) : Except ℤ (Fs ν) :=
  match fs.node name with
  | none => if fs.extend then .ok (fs.set name ⟨mode,0,true⟩) else .error 13
  | some (.file _) => if guarded then .error 17 else .ok fs
  | some (.link _) => if guarded ∨ ¬ srv.uncheckedLink then .error 17 else .ok fs

/-- `nfs3_open_continue_internal`, `nfs3_open_cb` and `nfs3_open_trunc_cb` for the file that was looked up -/
def nfs3OpenContinueInternal (fs : Fs ν) (flags : OpenFlags) (name : ν) (f : File) : Outcome ν :=
  if flags.creat ∧ flags.excl then (.error (-17),fs)
  else if srv.rights f &&& flags.nfsmode ≠ flags.nfsmode then (.error (-13),fs)
  else if flags.trunc ∧ (flags.rdwr ∨ flags.wronly) then (.ok name,fs.set name { f with size := 0 })
  else (.ok name,fs)

/-- `nfs3_create_continue_internal`, `nfs3_create_1_cb` and `nfs3_open_create_cb` -/
def nfs3CreateContinueInternal (fs : Fs ν) (flags : OpenFlags) (mode : ℕ) (name : ν) : Outcome ν :=
  match create3 srv fs flags.excl name mode with
  | .error status => (.error (Lookup3.nfsstat3ToErrno (Lookup3.nfsstat3ToErrno status)),fs)
  | .ok fs => (.ok name,fs)

/-- `nfs3_initial_open_cb` for an error -/
def nfs3InitialOpenCb (fs : Fs ν) (flags : OpenFlags) (mode : ℕ) (name : ν) (err : ℤ) : Outcome ν :=
  if err = -17 ∧ flags.creat ∧ flags.excl then (.error (-17),fs)
  else if err = -2 ∧ flags.creat then nfs3CreateContinueInternal srv fs flags mode name
  else (.error (Lookup3.nfsstat3ToErrno err),fs)

/-- `nfs3_open_async` -/
def nfs3OpenAsync (fs : Fs ν) (flags : OpenFlags) (mode : ℕ) (name : ν) : Outcome ν :=
  match lookup3 fs flags.nofollow Lookup3.maxLinkCount name with
  | .error err => nfs3InitialOpenCb srv fs flags mode name err
  | .ok last =>
    match fs.node last with
    | some (.file f) =>
      match nfs3OpenContinueInternal srv fs flags last f with
      | (.error err,fs) => nfs3InitialOpenCb srv fs flags mode name err
      | (.ok last,fs) => (.ok last,fs)
    | _ => nfs3InitialOpenCb srv fs flags mode name (-2)

end Nfs3

section Nfs4

/-- The `access_mask` of `nfs4_populate_open` -/
def accessMask (flags : OpenFlags) : ℕ :=
  (if flags.wronly then 4 else 0) ||| (if flags.rdwr then 5 else 0) ||| (if ¬ flags.wronly then 1 else 0)

/-- OPEN `EXCLUSIVE4` with a new verifier, or `OPEN4_NOCREATE`, and the share access of the mask -/
def open4 (fs : Fs ν) (exclusive : Bool) (mask : ℕ) (name : ν) : Except ℤ (Fs ν) :=
  if exclusive then
    match fs.node name with
    | none => if fs.extend then .ok (fs.set name ⟨srv.exclusiveMode,0,true⟩) else .error 13
    | some _ => .error 17
  else
    match fs.node name with
    | none => .error 2
    | some (.link _) => .error Lookup4.errSymlink
    | some (.file f) => if srv.rights f &&& mask = mask then .ok fs else .error 13

/-- The `open_cb` that `nfs4_open_async` sets -/
inductive OpenCb
  | truncate
  | chmod
  deriving DecidableEq

/-- `O_TRUNC` is taken out of the flags for a file that is not opened to be written, and for `O_EXCL`. -/
def openCb (flags : OpenFlags) : Option OpenCb :=
  if flags.excl then some .chmod
  else if flags.trunc ∧ (flags.rdwr ∨ flags.wronly) then some .truncate
  else none

/-- `nfs4_open_truncate_cb` or `nfs4_open_chmod_cb`, and the SETATTR -/
def setattr4 (fs : Fs ν) (mode : ℕ) (name : ν) : Option OpenCb → Outcome ν
  | none => (.ok name,fs)
  | some cb =>
    match fs.node name,cb with
    | some (.file f),.truncate => (.ok name,fs.set name { f with size := 0 })
    | some (.file f),.chmod =>
      if f.own then (.ok name,fs.set name { f with mode := mode }) else (.error (Lookup4.nfsstat4ToErrno 1),fs)
    | _,_ => (.error (Lookup4.nfsstat4ToErrno 70),fs)

/-- The COMPOUND of `nfs4_populate_open`, `nfs4_open_cb` and `nfs4_open_readlink`, and the next one for the target of a link. ACCESS
is about the directory. -/
def openLoop (fs : Fs ν) (flags : OpenFlags) (mode : ℕ) : ℕ → ν → Option (Outcome ν)
  | 0, _ => none
  | fuel+1, name =>
    match open4 srv fs flags.creat (accessMask flags) name with
    | .error status =>
      if status = Lookup4.errSymlink then
        if flags.nofollow then some (.error (-40),fs)
        else
          match fs.node name with
          | some (.link target) => openLoop fs flags mode fuel target
          | _ => some (.error (-22),fs)
      else some (.error (Lookup4.nfsstat4ToErrno status),fs)
    | .ok fs' =>
      if fs.rights &&& accessMask flags ≠ accessMask flags then some (.error (-22),fs')
      else some (setattr4 fs' mode name (openCb flags))

/-- `nfs4_open_async` ends with an outcome. -/
def Nfs4OpenAsync (fs : Fs ν) (flags : OpenFlags) (mode : ℕ) (name : ν) (o : Outcome ν) : Prop :=
  ∃ fuel, openLoop srv fs flags mode fuel name = some o

end Nfs4

/-- What an open has done, errors being all the same -/
def result (o : Outcome ν) : Option ν × Fs ν := (o.1.toOption,o.2)

/-- The rights are all that an open asks for. -/
def Grants (rights : ℕ) (flags : OpenFlags) : Prop := rights &&& flags.nfsmode = flags.nfsmode

instance (rights : ℕ) (flags : OpenFlags) : Decidable (Grants rights flags) := inferInstanceAs (Decidable (_ = _))

/-- Both versions ask for the same access. -/
theorem accessMask_eq (flags : OpenFlags) : accessMask flags = flags.nfsmode := by
  obtain ⟨wronly,rdwr,creat,excl,trunc,append,sync,nofollow⟩ := flags
  cases wronly <;> cases rdwr <;> simp [accessMask,OpenFlags.nfsmode]

/-- A file is opened to be written, and emptied. -/
def Empties (flags : OpenFlags) : Prop := flags.trunc ∧ (flags.rdwr ∨ flags.wronly)

instance (flags : OpenFlags) : Decidable (Empties flags) := inferInstanceAs (Decidable (_ ∧ _))

section Result3

variable {srv} {fs : Fs ν} {flags : OpenFlags} {mode : ℕ} {name last : ν} {f : File}

/-- An error of the lookup, or of an open that is refused -/
theorem initialOpenCb_error {err : ℤ} (h : err ≠ -2 ∨ ¬ flags.creat) :
    result (nfs3InitialOpenCb srv fs flags mode name err) = (none,fs) := by
  unfold nfs3InitialOpenCb
  by_cases hx : err = -17 ∧ flags.creat ∧ flags.excl
  · rw [if_pos hx]
    rfl
  · rw [if_neg hx,if_neg (by tauto)]
    rfl

/-- There is nothing where the name leads, and the name is to be created. -/
theorem initialOpenCb_create (h : flags.creat) : nfs3InitialOpenCb srv fs flags mode name (-2) =
    nfs3CreateContinueInternal srv fs flags mode name := by
  rw [nfs3InitialOpenCb,if_neg (by simp),if_pos ⟨rfl,h⟩]

theorem create_absent (h : fs.node name = none) : result (nfs3CreateContinueInternal srv fs flags mode name) =
    if fs.extend then (some name,fs.set name ⟨mode,0,true⟩) else (none,fs) := by
  rw [nfs3CreateContinueInternal,create3,h]
  by_cases he : fs.extend
  · simp [he,result,Except.toOption]
  · simp [he,result,Except.toOption]

theorem create_link (h : fs.isLink name) : result (nfs3CreateContinueInternal srv fs flags mode name) =
    if ¬ flags.excl ∧ srv.uncheckedLink then (some name,fs) else (none,fs) := by
  obtain ⟨target,ht⟩ := h
  rw [nfs3CreateContinueInternal,create3,ht]
  by_cases he : flags.excl
  · simp [he,result,Except.toOption]
  · by_cases hu : srv.uncheckedLink
    · simp [he,hu,result,Except.toOption]
    · simp [he,hu,result,Except.toOption]

/-- What an open for writing leaves of the directory -/
def opened (fs : Fs ν) (flags : OpenFlags) (last : ν) (f : File) : Fs ν :=
  if Empties flags then fs.set last { f with size := 0 } else fs

theorem open3_absent (h : fs.node name = none) : result (nfs3OpenAsync srv fs flags mode name) =
    if flags.creat ∧ fs.extend then (some name,fs.set name ⟨mode,0,true⟩) else (none,fs) := by
  have hl : ¬ fs.isLink name := by
    rintro ⟨target,ht⟩
    rw [h] at ht
    simp at ht
  have hlook : lookup3 fs flags.nofollow Lookup3.maxLinkCount name = .error (-2) := by
    rw [lookup3_reach,reach_of_not_link hl]
    simp [h]
  rw [nfs3OpenAsync,hlook]
  show result (nfs3InitialOpenCb srv fs flags mode name (-2)) = _
  by_cases hc : flags.creat
  · rw [initialOpenCb_create hc,create_absent h]
    simp [hc]
  · rw [if_neg (by simp [hc])]
    exact initialOpenCb_error (.inr hc)

theorem open3_unreached (h : fs.reach flags.nofollow name = none) :
    result (nfs3OpenAsync srv fs flags mode name) = (none,fs) := by
  rw [nfs3OpenAsync,lookup3_reach,h]
  exact initialOpenCb_error (.inl (by norm_num))

theorem open3_file (h : fs.reach flags.nofollow name = some last) (hf : fs.node last = some (.file f)) :
    result (nfs3OpenAsync srv fs flags mode name) =
      if ¬ (flags.creat ∧ flags.excl) ∧ Grants (srv.rights f) flags then (some last,opened fs flags last f) else (none,fs) := by
  have hlook : lookup3 fs flags.nofollow Lookup3.maxLinkCount name = .ok last := by
    rw [lookup3_reach,h]
    simp [hf]
  rw [nfs3OpenAsync,hlook]
  simp only [hf]
  unfold nfs3OpenContinueInternal opened
  by_cases hx : flags.creat ∧ flags.excl
  · rw [if_pos hx,if_neg (by tauto)]
    exact initialOpenCb_error (.inl (by norm_num))
  · rw [if_neg hx]
    by_cases hg : Grants (srv.rights f) flags
    · have hg' : ¬ (srv.rights f &&& flags.nfsmode ≠ flags.nfsmode) := not_not.2 hg
      by_cases he : Empties flags
      · have he' : flags.trunc ∧ (flags.rdwr ∨ flags.wronly) := he
        rw [if_neg hg',if_pos he',if_pos he,if_pos (And.intro hx hg)]
        rfl
      · have he' : ¬ (flags.trunc ∧ (flags.rdwr ∨ flags.wronly)) := he
        rw [if_neg hg',if_neg he',if_neg he,if_pos (And.intro hx hg)]
        rfl
    · have hg' : srv.rights f &&& flags.nfsmode ≠ flags.nfsmode := hg
      rw [if_pos hg',if_neg (by tauto)]
      exact initialOpenCb_error (.inl (by norm_num))

theorem open3_dangling (hl : fs.isLink name) (h : fs.reach flags.nofollow name = some last) (hn : fs.node last = none) :
    result (nfs3OpenAsync srv fs flags mode name) =
      if flags.creat ∧ ¬ flags.excl ∧ srv.uncheckedLink then (some name,fs) else (none,fs) := by
  have hlook : lookup3 fs flags.nofollow Lookup3.maxLinkCount name = .error (-2) := by
    rw [lookup3_reach,h]
    simp [hn]
  rw [nfs3OpenAsync,hlook]
  show result (nfs3InitialOpenCb srv fs flags mode name (-2)) = _
  by_cases hc : flags.creat
  · rw [initialOpenCb_create hc,create_link hl]
    simp [hc]
  · rw [if_neg (by simp [hc])]
    exact initialOpenCb_error (.inr hc)

end Result3

section Result4

variable {srv} {fs : Fs ν} {flags : OpenFlags} {mode : ℕ} {name last : ν} {f : File} {fuel : ℕ} {o : Outcome ν}

/-- A file that is not there is created, but the access is that of the directory. -/
theorem open4_absent (hc : flags.creat) (h : fs.node name = none) :
    openLoop srv fs flags mode (fuel+1) name = some
      (if ¬ fs.extend then (.error (-13),fs)
      else if ¬ Grants fs.rights flags then (.error (-22),fs.set name ⟨srv.exclusiveMode,0,true⟩)
      else setattr4 (fs.set name ⟨srv.exclusiveMode,0,true⟩) mode name (openCb flags)) := by
  have herr : Lookup4.nfsstat4ToErrno 13 = -13 := by decide
  unfold openLoop open4
  rw [accessMask_eq,hc,if_pos rfl,h]
  by_cases he : fs.extend
  · by_cases hg : Grants fs.rights flags
    · have hg' : ¬ (fs.rights &&& flags.nfsmode ≠ flags.nfsmode) := not_not.2 hg
      simp [he,hg,hg']
    · have hg' : fs.rights &&& flags.nfsmode ≠ flags.nfsmode := hg
      simp [he,hg,hg']
  · simp [he,herr]

/-- A name that is there is never opened with `O_CREAT`, for it is created `EXCLUSIVE4` in any case. -/
theorem open4_exists (hc : flags.creat) (h : fs.node name ≠ none) :
    openLoop srv fs flags mode (fuel+1) name = some (.error (-17),fs) := by
  have herr : Lookup4.nfsstat4ToErrno 17 = -17 := by decide
  unfold openLoop open4
  rw [hc,if_pos rfl]
  cases hn : fs.node name with
  | none => exact absurd hn h
  | some node => simp [herr,Lookup4.errSymlink]

theorem open4_link (hc : ¬ flags.creat) {target : ν} (h : fs.node name = some (.link target)) :
    openLoop srv fs flags mode (fuel+1) name =
      if flags.nofollow then some (.error (-40),fs) else openLoop srv fs flags mode fuel target := by
  conv_lhs => unfold openLoop open4
  rw [if_neg hc,h]
  simp

/-- What the COMPOUND of `nfs4_populate_open` does at a name that is no link -/
def openAt (srv : Server) (fs : Fs ν) (flags : OpenFlags) (mode : ℕ) (last : ν) : Outcome ν :=
  match fs.node last with
  | some (.file f) =>
    if ¬ Grants (srv.rights f) flags then (.error (-13),fs)
    else if ¬ Grants fs.rights flags then (.error (-22),fs)
    else setattr4 fs mode last (openCb flags)
  | _ => (.error (-2),fs)

theorem open4_last (hc : ¬ flags.creat) (h : ¬ fs.isLink name) :
    openLoop srv fs flags mode (fuel+1) name = some (openAt srv fs flags mode name) := by
  have herr2 : Lookup4.nfsstat4ToErrno 2 = -2 := by decide
  have herr13 : Lookup4.nfsstat4ToErrno 13 = -13 := by decide
  unfold openLoop open4 openAt
  rw [accessMask_eq,if_neg hc]
  cases hn : fs.node name with
  | none => simp [herr2,Lookup4.errSymlink]
  | some node =>
    cases node with
    | link target => exact absurd ⟨target,hn⟩ h
    | file f =>
      by_cases hg : Grants (srv.rights f) flags
      · have hg' : srv.rights f &&& flags.nfsmode = flags.nfsmode := hg
        by_cases hd : Grants fs.rights flags
        · have hd' : ¬ (fs.rights &&& flags.nfsmode ≠ flags.nfsmode) := not_not.2 hd
          simp [hg,hg',hd,hd']
        · have hd' : fs.rights &&& flags.nfsmode ≠ flags.nfsmode := hd
          simp [hg,hg',hd,hd']
      · have hg' : ¬ srv.rights f &&& flags.nfsmode = flags.nfsmode := hg
        simp [hg,hg',herr13,Lookup4.errSymlink]

/-- Each link takes a READLINK and a COMPOUND more. -/
theorem open4_follow (hc : ¬ flags.creat) (hn : ¬ flags.nofollow) (fuel : ℕ) (name : ν) :
    openLoop srv fs flags mode (fuel+1) name = (fs.follow fuel name).map (openAt srv fs flags mode) := by
  induction fuel generalizing name with
  | zero =>
    by_cases hl : fs.isLink name
    · obtain ⟨target,ht⟩ := hl
      rw [open4_link hc ht,if_neg hn,follow_zero ht]
      rfl
    · rw [open4_last hc hl,follow_of_not_link hl]
      rfl
  | succ fuel ih =>
    by_cases hl : fs.isLink name
    · obtain ⟨target,ht⟩ := hl
      rw [open4_link hc ht,if_neg hn,follow_link ht,ih target]
    · rw [open4_last hc hl,follow_of_not_link hl]
      rfl

theorem setattr4_result (h : fs.node name = some (.file f)) : result (setattr4 fs mode name (openCb flags)) =
    if flags.excl then if f.own then (some name,fs.set name { f with mode := mode }) else (none,fs)
    else (some name,opened fs flags name f) := by
  unfold openCb opened
  by_cases hx : flags.excl
  · rw [if_pos hx,if_pos hx]
    unfold setattr4
    rw [h]
    by_cases ho : f.own
    · simp [ho,result,Except.toOption]
    · simp [ho,result,Except.toOption]
  · rw [if_neg hx,if_neg hx]
    by_cases he : Empties flags
    · have he' : flags.trunc ∧ (flags.rdwr ∨ flags.wronly) := he
      rw [if_pos he',if_pos he]
      unfold setattr4
      rw [h]
      rfl
    · have he' : ¬ (flags.trunc ∧ (flags.rdwr ∨ flags.wronly)) := he
      rw [if_neg he',if_neg he]
      rfl

end Result4

/-- What the claims about an open say of its outcome: which files it opens, when it fails, the mode of a new file, and what becomes
of the size -/
structure Meets (srv : Server) (fs : Fs ν) (flags : OpenFlags) (mode : ℕ) (name : ν) (o : Option ν × Fs ν) : Prop where
  creates : flags.creat → ¬ flags.excl → ∀ last f, fs.reach flags.nofollow name = some last → fs.node last = some (.file f) →
    Grants (srv.rights f) flags → o.1 = some last
  exclusive : flags.creat → flags.excl → fs.extend → (o.1.isSome ↔ fs.node name = none)
  mode : flags.creat → fs.node name = none → o.1.isSome → ∃ f, o.2.node name = some (.file f) ∧ f.mode = mode
  empties : Empties flags → ∀ last f, fs.node last = some (.file f) → o.1 = some last →
    ∃ f', o.2.node last = some (.file f') ∧ f'.size = 0
  access : ∀ last f, fs.node last = some (.file f) → o.1 = some last → Grants (srv.rights f) flags

/-- The open over NFSv4 ends, with the outcome that it has over NFSv3, and that is what an open is to do. -/
def OpensAlike (srv : Server) (fs : Fs ν) (flags : OpenFlags) (mode : ℕ) (name : ν) : Prop :=
  ∃ o, Nfs4OpenAsync srv fs flags mode name o ∧ result o = result (nfs3OpenAsync srv fs flags mode name) ∧
    Meets srv fs flags mode name (result o)

section Meets

variable {srv : Server} {fs : Fs ν} {flags : OpenFlags} {mode : ℕ} {name last : ν} {f : File}

@[simp] theorem set_node (fs : Fs ν) (name : ν) (f : File) : (fs.set name f).node name = some (.file f) :=
  Function.update_self ..

omit [DecidableEq ν] in
/-- An open that has failed -/
theorem meets_none (h : flags.creat → ¬ flags.excl → ∀ last f, fs.reach flags.nofollow name = some last →
    fs.node last = some (.file f) → ¬ Grants (srv.rights f) flags)
    (h' : flags.creat → flags.excl → fs.extend → fs.node name ≠ none) : Meets srv fs flags mode name (none,fs) where
  creates hc hx last f hr hf hg := absurd hg (h hc hx last f hr hf)
  exclusive hc hx he := iff_of_false (by simp) (h' hc hx he)
  mode _ _ ho := by simp at ho
  empties _ last f _ ho := by simp at ho
  access last f _ ho := by simp at ho

/-- The open over NFSv3 does what it is to do. -/
theorem meets_open3 (srv : Server) (fs : Fs ν) (flags : OpenFlags) (mode : ℕ) (name : ν) :
    Meets srv fs flags mode name (result (nfs3OpenAsync srv fs flags mode name)) := by
  rcases name_cases fs flags.nofollow name with hn | ⟨hn,hr | ⟨last,hr,⟨f,hf⟩ | ⟨hl,hlast⟩⟩⟩
  · rw [open3_absent hn]
    have hreach := reach_of_not_link (not_isLink_of_none hn) flags.nofollow
    by_cases h : flags.creat ∧ fs.extend
    · rw [if_pos h]
      refine ⟨?_,fun _ _ _ => by simp [hn],fun _ _ _ => ⟨_,set_node ..,rfl⟩,?_,?_⟩
      · intro _ _ last f hl hf
        rw [hreach,Option.some.injEq] at hl
        rw [← hl,hn] at hf
        simp at hf
      · intro _ last f hf ho
        rw [Option.some.injEq] at ho
        rw [← ho,hn] at hf
        simp at hf
      · intro last f hf ho
        rw [Option.some.injEq] at ho
        rw [← ho,hn] at hf
        simp at hf
    · rw [if_neg h]
      refine meets_none ?_ fun hc _ he => absurd ⟨hc,he⟩ h
      intro _ _ last f hl hf
      rw [hreach,Option.some.injEq] at hl
      rw [← hl,hn] at hf
      simp at hf
  · rw [open3_unreached hr]
    exact meets_none (fun _ _ last f hl => by rw [hr] at hl; simp at hl) fun _ _ _ => hn
  · rw [open3_file hr hf]
    by_cases h : ¬ (flags.creat ∧ flags.excl) ∧ Grants (srv.rights f) flags
    · rw [if_pos h]
      refine ⟨?_,fun hc hx => absurd ⟨hc,hx⟩ h.1,fun _ hnone => absurd hnone hn,?_,?_⟩
      · intro _ _ last' f' hl _ _
        rw [hr] at hl
        exact hl
      · intro he last' f' _ ho
        rw [Option.some.injEq] at ho
        rw [← ho]
        unfold opened
        rw [if_pos he]
        exact ⟨_,set_node ..,rfl⟩
      · intro last' f' hf' ho
        rw [Option.some.injEq] at ho
        rw [← ho,hf,Option.some.injEq,Node.file.injEq] at hf'
        rw [← hf']
        exact h.2
    · rw [if_neg h]
      refine meets_none ?_ fun _ _ _ => hn
      intro hc hx last' f' hl hf' hg
      rw [hr,Option.some.injEq] at hl
      rw [← hl,hf,Option.some.injEq,Node.file.injEq] at hf'
      rw [← hf'] at hg
      exact h ⟨fun hcx => hx hcx.2,hg⟩
  · rw [open3_dangling hl hr hlast]
    have hfile : ∀ last' f, fs.reach flags.nofollow name = some last' → fs.node last' ≠ some (.file f) := by
      intro last' f hl' hf
      rw [hr,Option.some.injEq] at hl'
      rw [← hl',hlast] at hf
      simp at hf
    by_cases h : flags.creat ∧ ¬ flags.excl ∧ srv.uncheckedLink
    · rw [if_pos h]
      obtain ⟨target,ht⟩ := hl
      refine ⟨fun _ _ last' f hl' hf => absurd hf (hfile last' f hl'),fun _ hx => absurd hx h.2.1,fun _ hnone => absurd hnone hn,
        ?_,?_⟩
      · intro _ last' f hf ho
        rw [Option.some.injEq] at ho
        rw [← ho,ht] at hf
        simp at hf
      · intro last' f hf ho
        rw [Option.some.injEq] at ho
        rw [← ho,ht] at hf
        simp at hf
    · rw [if_neg h]
      exact meets_none (fun _ _ last' f hl' hf => absurd hf (hfile last' f hl')) fun _ _ _ => hn

end Meets

/-- A name to be created is not there, the directory grants the access that is asked for of a file, and without `O_EXCL` the server
happens to choose the mode. A name that is there is not opened with `O_CREAT`, unless with `O_EXCL` no open is to succeed. Without
`O_CREAT` there is a link that is not to be followed, or the links lead to something; if that is a file that may be opened, it takes no
more links than NFSv3 follows, the directory grants the access, and `O_EXCL` finds the mode, and the size, that it leaves. -/
structure AlikeWhen (srv : Server) (fs : Fs ν) (flags : OpenFlags) (mode : ℕ) (name : ν) : Prop where
  absent : flags.creat → fs.node name = none → fs.extend →
    Grants fs.rights flags ∧ (¬ flags.excl → srv.exclusiveMode = mode)
  existing : flags.creat → ¬ flags.excl → fs.node name ≠ none → ∀ last, fs.reach flags.nofollow name = some last →
    (fs.node last = none → ¬ srv.uncheckedLink) ∧ ∀ f, fs.node last = some (.file f) → ¬ Grants (srv.rights f) flags
  plain : ¬ flags.creat → flags.nofollow ∧ fs.isLink name ∨ ∃ n last, fs.follow n name = some last ∧
    ∀ f, fs.node last = some (.file f) → Grants (srv.rights f) flags →
      if fs.reach flags.nofollow name = some last then
        Grants fs.rights flags ∧ (flags.excl → f.own ∧ f.mode = mode ∧ (Empties flags → f.size = 0))
      else ¬ Grants fs.rights flags ∨ flags.excl ∧ ¬ f.own

section Iff

variable {srv : Server} {fs : Fs ν} {flags : OpenFlags} {mode : ℕ} {name last : ν} {f : File} {o : Outcome ν}

theorem opensAlike_iff_result : OpensAlike srv fs flags mode name ↔
    ∃ o, Nfs4OpenAsync srv fs flags mode name o ∧ result o = result (nfs3OpenAsync srv fs flags mode name) := by
  constructor
  · rintro ⟨o,ho,hr,-⟩
    exact ⟨o,ho,hr⟩
  · rintro ⟨o,ho,hr⟩
    refine ⟨o,ho,hr,?_⟩
    rw [hr]
    exact meets_open3 srv fs flags mode name

/-- An open over NFSv4 that ends with its first COMPOUND -/
theorem nfs4OpenAsync_iff {o' : Outcome ν} (h : ∀ fuel, openLoop srv fs flags mode (fuel+1) name = some o') :
    Nfs4OpenAsync srv fs flags mode name o ↔ o = o' := by
  constructor
  · rintro ⟨fuel,ho⟩
    cases fuel with
    | zero => simp [openLoop] at ho
    | succ fuel => exact Option.some.inj (ho.symm.trans (h fuel))
  · rintro rfl
    exact ⟨1,h 0⟩

/-- One that follows links -/
theorem nfs4OpenAsync_follow (hc : ¬ flags.creat) (hl : ¬ (flags.nofollow ∧ fs.isLink name)) :
    Nfs4OpenAsync srv fs flags mode name o ↔ ∃ n last, fs.follow n name = some last ∧ o = openAt srv fs flags mode last := by
  by_cases hlink : fs.isLink name
  · have hn : ¬ flags.nofollow := fun hn => hl ⟨hn,hlink⟩
    constructor
    · rintro ⟨fuel,ho⟩
      cases fuel with
      | zero => simp [openLoop] at ho
      | succ fuel =>
        rw [open4_follow hc hn] at ho
        obtain ⟨last,hf,rfl⟩ := Option.map_eq_some_iff.1 ho
        exact ⟨fuel,last,hf,rfl⟩
    · rintro ⟨n,last,hf,rfl⟩
      exact ⟨n+1,by rw [open4_follow hc hn,hf,Option.map_some]⟩
  · rw [nfs4OpenAsync_iff fun fuel => open4_last hc hlink]
    constructor
    · rintro rfl
      exact ⟨0,name,follow_of_not_link hlink 0,rfl⟩
    · rintro ⟨n,last,hf,rfl⟩
      rw [follow_of_not_link hlink,Option.some.injEq] at hf
      rw [hf]

theorem set_eq_iff {f g : File} : fs.set name f = fs.set name g ↔ f = g := by
  constructor
  · intro h
    have hn := congrArg (fun fs : Fs ν => fs.node name) h
    simp only [set_node,Option.some.injEq,Node.file.injEq] at hn
    exact hn
  · rintro rfl
    rfl

theorem set_self (h : fs.node name = some (.file f)) : fs.set name f = fs := by
  unfold Fs.set
  rw [← h,Function.update_eq_self]

theorem opened_eq (h : fs.node last = some (.file f)) :
    opened fs flags last f = fs.set last (if Empties flags then { f with size := 0 } else f) := by
  unfold opened
  by_cases he : Empties flags
  · rw [if_pos he,if_pos he]
  · rw [if_neg he,if_neg he,set_self h]

/-- What `O_EXCL` leaves of a file that is there is what an open of it leaves. -/
theorem chmod_eq_opened (h : fs.node last = some (.file f)) :
    fs.set last { f with mode := mode } = opened fs flags last f ↔ f.mode = mode ∧ (Empties flags → f.size = 0) := by
  rw [opened_eq h,set_eq_iff]
  by_cases he : Empties flags
  · rw [if_pos he,File.mk.injEq]
    simp only [he,true_implies,and_true]
    exact and_congr eq_comm Iff.rfl
  · rw [if_neg he]
    simp only [he,false_implies,and_true]
    constructor
    · intro hf
      rw [← hf]
    · rintro rfl
      rfl

/-- A new file: the mode is the one of the open with `O_EXCL`, and the server's without. -/
theorem created4 (hc : flags.creat) (h : fs.node name = none) : ∃ o', (∀ fuel, openLoop srv fs flags mode (fuel+1) name = some o') ∧
    result o' =
      if ¬ fs.extend then (none,fs)
      else if ¬ Grants fs.rights flags then (none,fs.set name ⟨srv.exclusiveMode,0,true⟩)
      else (some name,fs.set name ⟨if flags.excl then mode else srv.exclusiveMode,0,true⟩) := by
  refine ⟨_,fun fuel => open4_absent hc h,?_⟩
  by_cases he : fs.extend
  · by_cases hg : Grants fs.rights flags
    · rw [if_neg (by simp [he]),if_neg (by simp [hg]),if_neg (by simp [he]),if_neg (by simp [hg]),setattr4_result (set_node ..)]
      have hset : ∀ f g, (fs.set name f).set name g = fs.set name g := by
        intro f g
        simp [Fs.set]
      by_cases hx : flags.excl
      · rw [if_pos hx,if_pos rfl,if_pos hx,hset]
      · rw [if_neg hx,if_neg hx,opened_eq (set_node ..),hset]
        split_ifs <;> rfl
    · rw [if_neg (by simp [he]),if_pos hg,if_neg (by simp [he]),if_pos hg]
      rfl
  · rw [if_pos he,if_pos he]
    rfl

theorem openAt_none (h : fs.node last = none) : result (openAt srv fs flags mode last) = (none,fs) := by
  unfold openAt
  rw [h]
  rfl

theorem openAt_file (h : fs.node last = some (.file f)) : result (openAt srv fs flags mode last) =
    if ¬ Grants (srv.rights f) flags ∨ ¬ Grants fs.rights flags then (none,fs)
    else if flags.excl then if f.own then (some last,fs.set last { f with mode := mode }) else (none,fs)
    else (some last,opened fs flags last f) := by
  unfold openAt
  rw [h]
  simp only []
  by_cases hg : Grants (srv.rights f) flags
  · by_cases hd : Grants fs.rights flags
    · rw [if_neg (not_not.2 hg),if_neg (not_not.2 hd),if_neg (by simp [hg,hd]),setattr4_result h]
    · rw [if_neg (not_not.2 hg),if_pos hd,if_pos (.inr hd)]
      rfl
  · rw [if_pos hg,if_pos (.inl hg)]
    rfl

/-- With `O_CREAT` and a name that is not there -/
theorem alike_absent (hc : flags.creat) (h : fs.node name = none) : OpensAlike srv fs flags mode name ↔
    (fs.extend → Grants fs.rights flags ∧ (¬ flags.excl → srv.exclusiveMode = mode)) := by
  obtain ⟨o',hloop,ho'⟩ : ∃ o', (∀ fuel, openLoop srv fs flags mode (fuel+1) name = some o') ∧ result o' = _ := created4 hc h
  rw [opensAlike_iff_result]
  simp only [nfs4OpenAsync_iff hloop,exists_eq_left,ho',open3_absent h]
  by_cases he : fs.extend
  · rw [if_neg (not_not.2 he),if_pos (And.intro hc he)]
    by_cases hg : Grants fs.rights flags
    · rw [if_neg (not_not.2 hg),Prod.mk.injEq,set_eq_iff]
      simp only [true_and,he,true_implies,hg,File.mk.injEq,and_true]
      by_cases hx : flags.excl
      · simp [hx]
      · simp [hx]
    · rw [if_pos hg]
      simp [he,hg]
  · simp [he]

/-- With `O_CREAT` and a name that is there: NFSv4 fails. -/
theorem alike_existing (hc : flags.creat) (h : fs.node name ≠ none) : OpensAlike srv fs flags mode name ↔
    (¬ flags.excl → ∀ last, fs.reach flags.nofollow name = some last →
      (fs.node last = none → ¬ srv.uncheckedLink) ∧ ∀ f, fs.node last = some (.file f) → ¬ Grants (srv.rights f) flags) := by
  rw [opensAlike_iff_result]
  have hloop : ∀ fuel, openLoop srv fs flags mode (fuel+1) name = some (.error (-17),fs) := fun fuel => open4_exists hc h
  simp only [nfs4OpenAsync_iff hloop,exists_eq_left]
  have hfail : result ((.error (-17),fs) : Outcome ν) = (none,fs) := rfl
  rw [hfail]
  rcases name_cases fs flags.nofollow name with hn | ⟨-,hr | ⟨last,hr,⟨f,hf⟩ | ⟨hl,hlast⟩⟩⟩
  · exact absurd hn h
  · rw [open3_unreached hr]
    simp [hr]
  · rw [open3_file hr hf]
    simp only [hr,Option.some.injEq,forall_eq',hf,Node.file.injEq]
    by_cases hx : flags.excl
    · simp [hc,hx]
    · by_cases hg : Grants (srv.rights f) flags
      · simp [hx,hg]
      · simp [hg]
  · rw [open3_dangling hl hr hlast]
    simp only [hr,Option.some.injEq,forall_eq',hlast]
    by_cases hx : flags.excl
    · simp [hx]
    · by_cases hu : srv.uncheckedLink
      · simp [hc,hx,hu]
      · simp [hu]

omit [DecidableEq ν] in
/-- Where NFSv3 gets, a name leads. -/
theorem reach_follow {last' : ν} (hr : fs.reach flags.nofollow name = some last') {n : ℕ} (hn : fs.follow n name = some last) :
    last' = last := by
  by_cases hlink : fs.isLink name
  · rw [reach_link hlink] at hr
    by_cases hnofollow : flags.nofollow
    · rw [if_pos hnofollow] at hr
      simp at hr
    · rw [if_neg hnofollow] at hr
      exact follow_unique hr hn
  · rw [reach_of_not_link hlink,Option.some.injEq] at hr
    rw [follow_of_not_link hlink,Option.some.injEq] at hn
    rw [← hr,hn]

theorem open3_none (hc : ¬ flags.creat) (hr : fs.reach flags.nofollow name = some last) (h : fs.node last = none) :
    result (nfs3OpenAsync srv fs flags mode name) = (none,fs) := by
  by_cases hlink : fs.isLink name
  · rw [open3_dangling hlink hr h,if_neg (by tauto)]
  · rw [reach_of_not_link hlink,Option.some.injEq] at hr
    rw [← hr] at h
    rw [open3_absent h,if_neg (by tauto)]

/-- A file that both versions get to -/
theorem alike_reached (hc : ¬ flags.creat) (hr : fs.reach flags.nofollow name = some last) (hf : fs.node last = some (.file f)) :
    result (openAt srv fs flags mode last) = result (nfs3OpenAsync srv fs flags mode name) ↔
      (Grants (srv.rights f) flags →
        Grants fs.rights flags ∧ (flags.excl → f.own ∧ f.mode = mode ∧ (Empties flags → f.size = 0))) := by
  rw [openAt_file hf,open3_file hr hf]
  by_cases hg : Grants (srv.rights f) flags
  · rw [if_pos (And.intro (by tauto) hg)]
    by_cases hd : Grants fs.rights flags
    · rw [if_neg (by tauto)]
      by_cases hx : flags.excl
      · by_cases ho : f.own
        · rw [if_pos hx,if_pos ho,Prod.mk.injEq,chmod_eq_opened hf]
          simp only [hg,hd,hx,ho,true_and,true_implies]
        · rw [if_pos hx,if_neg ho]
          simp [hg,hx,ho]
      · rw [if_neg hx]
        simp [hd,hx]
    · rw [if_pos (.inr hd)]
      simp [hg,hd]
  · rw [if_pos (.inl hg),if_neg (by tauto)]
    simp [hg]

/-- A file that is too many links away for NFSv3 -/
theorem alike_unreached (hr : fs.reach flags.nofollow name = none) (hf : fs.node last = some (.file f)) :
    result (openAt srv fs flags mode last) = result (nfs3OpenAsync srv fs flags mode name) ↔
      (Grants (srv.rights f) flags → ¬ Grants fs.rights flags ∨ flags.excl ∧ ¬ f.own) := by
  rw [openAt_file hf,open3_unreached hr]
  by_cases hg : Grants (srv.rights f) flags
  · by_cases hd : Grants fs.rights flags
    · rw [if_neg (by tauto)]
      by_cases hx : flags.excl
      · by_cases ho : f.own
        · simp [hg,hd,hx,ho]
        · simp [hx,ho]
      · simp [hg,hd,hx]
    · simp [hd]
  · simp [hg]

/-- Without `O_CREAT`, at what the links lead to -/
theorem alike_last (hc : ¬ flags.creat) {n : ℕ} (hn : fs.follow n name = some last) :
    result (openAt srv fs flags mode last) = result (nfs3OpenAsync srv fs flags mode name) ↔
      ∀ f, fs.node last = some (.file f) → Grants (srv.rights f) flags →
        if fs.reach flags.nofollow name = some last then
          Grants fs.rights flags ∧ (flags.excl → f.own ∧ f.mode = mode ∧ (Empties flags → f.size = 0))
        else ¬ Grants fs.rights flags ∨ flags.excl ∧ ¬ f.own := by
  have hreach : fs.reach flags.nofollow name = some last ∨ fs.reach flags.nofollow name = none := by
    cases hr : fs.reach flags.nofollow name with
    | none => exact .inr rfl
    | some last' => rw [reach_follow hr hn]; exact .inl rfl
  cases hnode : fs.node last with
  | none =>
    have h3 : result (nfs3OpenAsync srv fs flags mode name) = (none,fs) := by
      rcases hreach with hr | hr
      · exact open3_none hc hr hnode
      · exact open3_unreached hr
    rw [openAt_none hnode,h3]
    simp
  | some node =>
    cases node with
    | link target => exact absurd ⟨target,hnode⟩ (follow_not_link hn)
    | file f =>
      simp only [Option.some.injEq,Node.file.injEq,forall_eq']
      rcases hreach with hr | hr
      · rw [alike_reached hc hr hnode,if_pos hr]
      · rw [alike_unreached hr hnode,if_neg (by rw [hr]; simp)]

/-- Without `O_CREAT` -/
theorem alike_plain (hc : ¬ flags.creat) : OpensAlike srv fs flags mode name ↔
    flags.nofollow ∧ fs.isLink name ∨ ∃ n last, fs.follow n name = some last ∧
      ∀ f, fs.node last = some (.file f) → Grants (srv.rights f) flags →
        if fs.reach flags.nofollow name = some last then
          Grants fs.rights flags ∧ (flags.excl → f.own ∧ f.mode = mode ∧ (Empties flags → f.size = 0))
        else ¬ Grants fs.rights flags ∨ flags.excl ∧ ¬ f.own := by
  rw [opensAlike_iff_result]
  by_cases hl : flags.nofollow ∧ fs.isLink name
  · obtain ⟨hnofollow,hlink⟩ := hl
    have hr : fs.reach flags.nofollow name = none := by rw [reach_link hlink,if_pos hnofollow]
    refine iff_of_true ?_ (.inl ⟨hnofollow,hlink⟩)
    obtain ⟨target,ht⟩ := hlink
    have hloop : openLoop srv fs flags mode 1 name = some (.error (-40),fs) := by rw [open4_link hc ht,if_pos hnofollow]
    refine ⟨_,⟨1,hloop⟩,?_⟩
    rw [open3_unreached hr]
    rfl
  · rw [or_iff_right hl]
    simp only [nfs4OpenAsync_follow hc hl]
    constructor
    · rintro ⟨o,⟨n,last,hn,rfl⟩,h⟩
      exact ⟨n,last,hn,(alike_last hc hn).1 h⟩
    · rintro ⟨n,last,hn,h⟩
      exact ⟨_,⟨n,last,hn,rfl⟩,(alike_last hc hn).2 h⟩

end Iff

/-- The opens over NFSv3 and NFSv4 do the same, and what they are to do, in exactly these cases. -/
theorem opensAlike_iff (srv : Server) (fs : Fs ν) (flags : OpenFlags) (mode : ℕ) (name : ν) :
    OpensAlike srv fs flags mode name ↔ AlikeWhen srv fs flags mode name := by
  by_cases hc : flags.creat
  · by_cases hn : fs.node name = none
    · rw [alike_absent hc hn]
      exact ⟨fun h => ⟨fun _ _ => h,fun _ _ h' => absurd hn h',fun h' => absurd hc h'⟩,fun h => h.absent hc hn⟩
    · rw [alike_existing hc hn]
      exact ⟨fun h => ⟨fun _ h' => absurd h' hn,fun _ hx _ => h hx,fun h' => absurd hc h'⟩,fun h hx => h.existing hc hx hn⟩
  · rw [alike_plain hc]
    exact ⟨fun h => ⟨fun h' => absurd h' hc,fun h' => absurd h' hc,fun _ => h⟩,fun h => h.plain hc⟩

/-- A directory with one file, which the caller may read and write -/
def oneFile : Fs Unit where
  rights := 63
  extend := true
  node _ := some (.file ⟨420,0,true⟩)

/-- `O_RDWR|O_CREAT` opens a file that is there over NFSv3, and fails with `-EEXIST` over NFSv4. -/
theorem existing_not_alike : ¬ ∀ (srv : Server) (fs : Fs Unit) (flags : OpenFlags) (mode : ℕ) (name : Unit),
    OpensAlike srv fs flags mode name := by
  intro h
  have hopen := h ⟨fun _ => 63,0,false⟩ oneFile ⟨false,true,true,false,false,false,false,false⟩ 420 ()
  rw [alike_existing rfl (by simp [oneFile])] at hopen
  exact (hopen (by simp) () rfl).2 _ rfl (by decide)

end OpenVersions
end Libnfs
