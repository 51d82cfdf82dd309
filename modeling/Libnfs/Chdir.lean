import Libnfs.Lookup3
import Libnfs.Lookup4

/-! `nfs_chdir`: the `cwd` that it stores, and the paths that are looked up behind it. -/
namespace Libnfs
namespace Chdir

open Paths Normalize NestedMounts

/-- Calls of `nfs_chdir` that succeed, one after the other, in a new context -/
inductive Chdirs (chdir : Path → Path → Path → Prop) : List Path → Path → Prop
  | init : Chdirs chdir [] ['/']
  | call {ps : List Path} {cwd p cwd' : Path} : Chdirs chdir ps cwd → chdir cwd p cwd' → Chdirs chdir (ps ++ [p]) cwd'

/-- The absolute path that is formed of the paths of the calls -/
def formed (full : Path → Path → Path) (ps : List Path) : Path := ps.foldl full ['/']

/-- A rule for all runs of the calls: it is enough that every call stores a path that leads where its full path leads. -/
theorem Chdirs.sameDir {chdir : Path → Path → Path → Prop} {full : Path → Path → Path}
    (hfull : ∀ {x y : Path} (p : Path), SameDir x y → SameDir (full x p) (full y p))
    (hchdir : ∀ {cwd p cwd' : Path}, Stops '/' cwd → chdir cwd p cwd' → SameDir cwd' (full cwd p))
    {ps : List Path} {cwd : Path} (h : Chdirs chdir ps cwd) : SameDir cwd (formed full ps) := by
  induction h with
  | init => exact .refl (.inr ⟨[],rfl⟩)
  | @call ps cwd p cwd' _ hc ih =>
    have hstep := hchdir ih.stops hc
    have hlast : formed full (ps ++ [p]) = full (formed full ps) p := by
      rw [formed,List.foldl_append]
      rfl
    rw [hlast]
    exact hstep.trans (hfull p ih)

theorem absolute_stops {path : Path} (h : path.head? = some '/') : Stops '/' path := by
  obtain ⟨t,rfl⟩ := List.head?_eq_some_iff.mp h
  exact .inr ⟨t,rfl⟩

section V3

open Lookup3

variable {α : Type} {sv : Server α} {mounted : Mounted} {cwd path q : Path}

theorem fullPath_sameDir {x y : Path} (p : Path) (h : SameDir x y) : SameDir (fullPath x p) (fullPath y p) := by
  unfold fullPath
  generalize (if p = [] then ['.'] else p) = p
  by_cases hp : p.head? = some '/'
  · simp only [if_pos hp]
    exact .refl (absolute_stops hp)
  · simp only [if_neg hp]
    exact h.append p

theorem fullPath_head (hc : cwd.head? = some '/') (p : Path) : (fullPath cwd p).head? = some '/' := by
  unfold fullPath
  obtain ⟨t,rfl⟩ := List.head?_eq_some_iff.mp hc
  generalize (if p = [] then ['.'] else p) = p
  by_cases hp : p.head? = some '/'
  · simp only [if_pos hp]
    exact hp
  · simp only [if_neg hp]
    rfl

theorem fullPath_absolute (hp : path.head? = some '/') : fullPath cwd path = path := by
  have hne : path ≠ [] := by
    rintro rfl
    simp at hp
  unfold fullPath
  simp only [if_neg hne]
  rw [if_pos hp]

/-- No nested mount takes a component off the normalized path, and no symbolic link is met on it. -/
structure Direct (sv : Server α) (mounted : Mounted) (q : Path) : Prop where
  mounts : ∀ mnt ∈ mounted.nestedMounts, mnt.Matches q → mnt.names = []
  root : q = [] → ∀ attr, sv.getattr mounted.rootfh = .ok attr → ¬ sv.isLink attr
  straight : sv.Straight mounted.rootfh (components '/' q)

/-- A call that succeeds on a path that leads there directly -/
structure DirectChdir3 (sv : Server α) (mounted : Mounted) (cwd path cwd' : Path) : Prop where
  direct : ∀ q, nfsNormalizePath (fullPath cwd path) = .ok q → Direct sv mounted q
  succeeds : ∃ fuel, nfs3Chdir sv mounted fuel cwd path = some cwd'

/-- The start is left at the root with the whole path, or at a mount that is the root too. -/
theorem start_direct {s : Start} (hq : nfsNormalizePath (fullPath cwd path) = .ok q)
    (hs : nfs3LookuppathAsync cwd mounted.nestedMounts path = .ok s)
    (hm : ∀ mnt ∈ mounted.nestedMounts, mnt.Matches q → mnt.names = []) :
    s.fh = none ∧ s.savedPath = q ∨ ∃ mnt, s.fh = some mnt ∧ s.savedPath = [] ∧ components '/' q = [] := by
  unfold nfs3LookuppathAsync at hs
  rw [hq,Except.map,Except.ok.injEq] at hs
  by_cases hne : q = []
  · rw [if_neg (not_not.mpr hne)] at hs
    subst hs
    exact .inl ⟨rfl,rfl⟩
  · rw [if_pos hne] at hs
    rcases foldl_cases mounted.nestedMounts ⟨none,q,0⟩ with hskip | ⟨pre,m,post,hmounts,-,-,hmatch,he⟩
    · rw [foldl_skips hskip] at hs
      subst hs
      exact .inl ⟨rfl,rfl⟩
    · have hmatch : m.Matches q := hmatch
      have hnames := hm m (by rw [hmounts]; simp) hmatch
      have hrest := hmatch.rest hq hnames
      have hskip : ∀ other ∈ post, Skips ⟨some m,q.drop m.path.length,m.path.length⟩ other := by
        intro other _ _ hother
        have := hother.shorter
        simp [hrest] at this
      rw [he,foldl_skips hskip] at hs
      subst hs
      refine .inr ⟨m,rfl,hrest,?_⟩
      rw [hmatch.components_eq,hnames,hrest]
      rfl

/-- A normalized path without components is the root. -/
theorem sameDir_nil {p : Path} (hq : nfsNormalizePath p = .ok q) (h : components '/' q = []) : SameDir [] q := by
  rcases nfsNormalizePath_shape hq with rfl | rfl | ⟨cs,hne,hcut,hplain,rfl⟩
  · exact .refl (.inl rfl)
  · exact ⟨[],[[]],by simp [Cut],by simp [Cut],rfl,rfl,rfl⟩
  · rw [components_glue hcut,List.filter_eq_self.mpr fun c hc => by simpa using (hplain c hc).1] at h
    exact absurd h hne

theorem DirectChdir3.sameDir {cwd' : Path} (h : DirectChdir3 sv mounted cwd path cwd') :
    SameDir cwd' (fullPath cwd path) := by
  obtain ⟨fuel,hc⟩ := h.succeeds
  unfold nfs3Chdir Lookup3.lookup at hc
  cases hq : nfsNormalizePath (fullPath cwd path) with
  | error e => simp [nfs3LookuppathAsync,hq,Except.map] at hc
  | ok q =>
    have hdirect := h.direct q hq
    obtain ⟨s,hs⟩ : ∃ s, nfs3LookuppathAsync cwd mounted.nestedMounts path = .ok s := by
      rw [nfs3LookuppathAsync,hq]
      exact ⟨_,rfl⟩
    rw [hs] at hc
    simp only at hc
    have hstart := start_direct hq hs hdirect.mounts
    have hstraight : sv.StraightFrom mounted s := by
      unfold Server.StraightFrom
      rw [Start.names_eq]
      rcases hstart with ⟨hfh,hp⟩ | ⟨mnt,hfh,hp,-⟩
      · rw [hfh,hp]
        exact ⟨hdirect.root,hdirect.straight⟩
      · rw [hfh,hp]
        trivial
    have hstored : cwd' = s.savedPath := by
      split at hc
      · rename_i hrun
        obtain rfl := Option.some.inj hc
        exact first_straight hstraight hrun
      · simp at hc
    have hsame : SameDir cwd' q := by
      rw [hstored]
      rcases hstart with ⟨-,hp⟩ | ⟨mnt,-,hp,hnil⟩
      · rw [hp]
        exact .refl (nfsNormalizePath_sameDir hq).symm.stops
      · rw [hp]
        exact sameDir_nil hq hnil
    exact hsame.trans (nfsNormalizePath_sameDir hq).symm

theorem formed_head (ps : List Path) : (formed fullPath ps).head? = some '/' := by
  induction ps using List.reverseRecOn with
  | nil => rfl
  | append_singleton ps p ih =>
    rw [formed,List.foldl_append]
    exact fullPath_head ih p

/-- A path behind the calls, and the absolute path in any context -/
theorem Chdirs.lookup3 {ps : List Path} (h : Chdirs (DirectChdir3 sv mounted) ps cwd) (c r : Path) (flags : Flags)
    (fuel : ℕ) : lookup sv mounted flags fuel cwd r =
      lookup sv mounted flags fuel c (fullPath (formed fullPath ps) r) := by
  have hsame : SameDir cwd (formed fullPath ps) := h.sameDir fullPath_sameDir fun _ hc => hc.sameDir
  have hfull : fullPath c (fullPath (formed fullPath ps) r) = fullPath (formed fullPath ps) r :=
    fullPath_absolute (fullPath_head (formed_head ps) r)
  have hnorm : nfsNormalizePath (fullPath cwd r) = nfsNormalizePath (fullPath (formed fullPath ps) r) := by
    unfold fullPath
    generalize (if r = [] then ['.'] else r) = r
    by_cases hr : r.head? = some '/'
    · simp only [if_pos hr]
    · simp only [if_neg hr]
      exact hsame.normalize r
  unfold lookup nfs3LookuppathAsync
  rw [hfull,hnorm]

end V3

section V4

open Lookup4

variable {ι : Type} {ns : Namespace ι} {op : Op ns} {cwd path q : Path} {d : Data}

/-- The path that `nfs4_resolve_path` normalizes -/
def absolute (cwd path : Path) : Path := if path.head? = some '/' then path else cwd ++ '/' :: path

theorem nfs4ResolvePath_eq (cwd path : Path) : nfs4ResolvePath cwd path = nfsNormalizePath (absolute cwd path) := rfl

theorem absolute_sameDir {x y : Path} (p : Path) (h : SameDir x y) : SameDir (absolute x p) (absolute y p) := by
  unfold absolute
  by_cases hp : p.head? = some '/'
  · rw [if_pos hp,if_pos hp]
    exact .refl (absolute_stops hp)
  · rw [if_neg hp,if_neg hp]
    exact h.append p

theorem absolute_head (hc : cwd.head? = some '/') (p : Path) : (absolute cwd p).head? = some '/' := by
  obtain ⟨t,rfl⟩ := List.head?_eq_some_iff.mp hc
  unfold absolute
  by_cases hp : p.head? = some '/'
  · rw [if_pos hp]
    exact hp
  · rw [if_neg hp]
    rfl

theorem absolute_formed (ps : List Path) : (formed absolute ps).head? = some '/' := by
  induction ps using List.reverseRecOn with
  | nil => rfl
  | append_singleton ps p ih =>
    rw [formed,List.foldl_append]
    exact absolute_head ih p

/-- The request of `nfs4_chdir_async`, a GETATTR -/
def chdirOp (ns : Namespace ι) (getattr : ι → ℤ) : Op ns := ⟨false,false,fun n _ => getattr n,@status_of_lookup ι ns getattr⟩

/-- `nfs4_chdir_async` with `nfs4_chdir_1_cb`, for a call that succeeds: the new `cwd` -/
def nfs4Chdir (ns : Namespace ι) (getattr : ι → ℤ) (fuel : ℕ) (cwd path : Path) : Option Path :=
  match start (chdirOp ns getattr) cwd path with
  | some (some d) =>
    match run (chdirOp ns getattr) cwd fuel ⟨0,0⟩ d with
    | some (_,.continued d) => some d.path
    | _ => none
  | _ => none

/-- An operation on a path: refused by the call itself (`some none`), or what was sent for it and how its lookup ends -/
def nfs4Lookup (op : Op ns) (fuel : ℕ) (cwd path : Path) : Option (Option (Sent × Result)) :=
  match start op cwd path with
  | none => some none
  | some none => some (some (⟨0,0⟩,.crash))
  | some (some d) => (run op cwd fuel ⟨0,0⟩ d).map some

/-- A call that succeeds on a path that is not normalized to nothing, or from the root, and that meets no symbolic link -/
structure DirectChdir4 (ns : Namespace ι) (getattr : ι → ℤ) (cwd path cwd' : Path) : Prop where
  root : nfs4ResolvePath cwd path = .ok [] → cwd = [] ∨ cwd = ['/']
  straight : ∀ q, nfs4ResolvePath cwd path = .ok q → ∀ idx target rest m,
    ns.seek ns.root (components '/' q) ≠ .link idx target rest m
  succeeds : ∃ fuel, nfs4Chdir ns getattr fuel cwd path = some cwd'

theorem good_names {names : List Path} (h : Good q names) : components '/' q = names := by
  cases h with
  | root => rfl
  | names hne hcut hplain =>
    rw [components_glue hcut]
    exact List.filter_eq_self.mpr fun c hc => by simpa using (hplain c hc).1

/-- Where a lookup starts that asks for no parent -/
theorem start_sameDir (hopen : op.isOpen = false) (hq : nfs4ResolvePath cwd path = .ok q)
    (hroot : q = [] → cwd = [] ∨ cwd = ['/']) (hs : start op cwd path = some (some d)) :
    SameDir d.path q ∧ components '/' d.path = components '/' q := by
  unfold start at hs
  simp only [hq,hopen,Bool.false_eq_true,if_false] at hs
  by_cases hne : q = []
  · subst hne
    have hasync : nfs4LookupPathAsync cwd ⟨[],[],false⟩ = .ok ⟨['/'],[],false⟩ := by
      rcases hroot rfl with rfl | rfl <;> decide
    rw [hasync] at hs
    obtain rfl := Option.some.inj (Option.some.inj hs)
    exact ⟨⟨[[]],[],by simp [Cut],by simp [Cut],rfl,rfl,rfl⟩,rfl⟩
  · obtain ⟨names,hg⟩ := good_of_normalized hq hne
    have hasync : nfs4LookupPathAsync cwd ⟨q,[],false⟩ = .ok ⟨q,[],false⟩ := by
      rw [nfs4LookupPathAsync,hg.resolved cwd]
      rfl
    rw [hasync] at hs
    obtain rfl := Option.some.inj (Option.some.inj hs)
    exact ⟨.refl (nfsNormalizePath_sameDir hq).symm.stops,rfl⟩

theorem ofLookup_not_continued {d d' : Data} : Next.ofLookup cwd d ≠ .done (.continued d') := by
  rcases ofLookup_cases cwd d with h | ⟨e,h⟩ <;> simp [h]

/-- The handlers hand on the path that their COMPOUND was sent for. -/
theorem cb_continued {d d' : Data} {res : List OpRes × ℤ}
    (h : nfs4LookupPath1Cb op cwd d res = .done (.continued d')) : d' = d := by
  unfold nfs4LookupPath1Cb at h
  split at h
  · simp at h
  · simp only at h
    split at h
    · unfold nfs4OpenReadlink at h
      split at h
      · simp at h
      · exact absurd h ofLookup_not_continued
    · split at h
      · simp only [Next.done.injEq,Result.continued.injEq] at h
        exact h.symm
      · split at h
        · simp at h
        · split at h
          · simp at h
          · split at h <;> simp at h

theorem round_continued {d d' : Data} {sent : Sent} (hread : d.reading = false)
    (h : round op cwd d = (sent,.done (.continued d'))) : d' = d := by
  unfold Lookup4.round at h
  simp only at h
  split at h
  · obtain ⟨-,h⟩ := Prod.mk.inj h
    unfold nfs4LookupPath2Cb at h
    split at h
    · simp at h
    · split at h
      · simp at h
      · split at h
        · simp at h
        · exact absurd h ofLookup_not_continued
  · rename_i e hcb
    obtain rfl := cb_continued hcb
    rw [hread] at h
    simp only [Bool.false_eq_true,if_false,Prod.mk.injEq,Next.done.injEq,Result.continued.injEq] at h
    exact h.2.symm
  · obtain ⟨-,h⟩ := Prod.mk.inj h
    exact cb_continued h

theorem DirectChdir4.sameDir {getattr : ι → ℤ} {cwd' : Path} (h : DirectChdir4 ns getattr cwd path cwd') :
    SameDir cwd' (absolute cwd path) := by
  obtain ⟨fuel,hc⟩ := h.succeeds
  unfold nfs4Chdir at hc
  cases hq : nfs4ResolvePath cwd path with
  | error e => simp [start,hq] at hc
  | ok q =>
    cases hs : start (chdirOp ns getattr) cwd path with
    | none => simp [hs] at hc
    | some od =>
      cases od with
      | none => simp [hs] at hc
      | some d =>
        rw [hs] at hc
        simp only at hc
        obtain ⟨⟨names,hg⟩,hread⟩ := start_good hs
        obtain ⟨hsame,hcomp⟩ := start_sameDir rfl hq (fun he => h.root (he ▸ hq)) hs
        have hfollow : (chdirOp ns getattr).follow cwd d = none := by
          have hseek := h.straight q hq
          rw [← hcomp,good_names hg,← hg.pathNames] at hseek
          unfold Op.follow
          cases hn : ns.seek ns.root (pathNames d.path) with
          | failed st => rfl
          | link idx target rest m => exact absurd hn (hseek idx target rest m)
          | node n => rfl
        have hround := @round_follow _ _ (chdirOp ns getattr) cwd _ _ hg hread
        rw [hfollow] at hround
        obtain ⟨r,hr,-,-⟩ := hround
        have hstored : cwd' = d.path := by
          cases fuel with
          | zero => simp [run] at hc
          | succ fuel =>
            rw [run_succ,hr] at hc
            cases r with
            | called err => simp [resume] at hc
            | crash => simp [resume] at hc
            | continued d' =>
              obtain rfl := round_continued hread hr
              simpa [resume] using hc.symm
        rw [hstored]
        exact hsame.trans (nfsNormalizePath_sameDir hq).symm

section Cwd

variable (cwd c : Path)

theorem resolve_cwd {x : Path} (h : x.head? = some '/') : nfs4ResolvePath cwd x = nfs4ResolvePath c x := by
  unfold nfs4ResolvePath
  rw [if_pos h,if_pos h]

theorem ofLookup_cwd (h : d.path.head? = some '/') : Next.ofLookup cwd d = Next.ofLookup c d := by
  unfold Next.ofLookup nfs4LookupPathAsync
  rw [resolve_cwd cwd c h]

theorem head_append {x : Path} (h : x.head? = some '/') (r : Path) : (x ++ '/' :: r).head? = some '/' := by
  obtain ⟨t,rfl⟩ := List.head?_eq_some_iff.mp h
  rfl

theorem head_take {x : Path} (h : x.head? = some '/') (k : ℕ) (r : Path) : (x.take k ++ '/' :: r).head? = some '/' := by
  obtain ⟨t,rfl⟩ := List.head?_eq_some_iff.mp h
  cases k <;> rfl

theorem cb_cwd (h : d.path.head? = some '/') (res : List OpRes × ℤ) :
    nfs4LookupPath1Cb op cwd d res = nfs4LookupPath1Cb op c d res := by
  have hopen : nfs4OpenReadlink op cwd d = nfs4OpenReadlink op c d := by
    unfold nfs4OpenReadlink
    rw [@ofLookup_cwd { d with reading := true } cwd c h]
  unfold nfs4LookupPath1Cb
  rw [hopen]

theorem secondCb_cwd (h : d.path.head? = some '/') (idx : ℕ) (res : List OpRes × ℤ) :
    nfs4LookupPath2Cb cwd d idx res = nfs4LookupPath2Cb c d idx res := by
  unfold nfs4LookupPath2Cb
  cases slashAt (idx-1) d.path with
  | none => rfl
  | some tmp =>
    cases findReadlink res.1 with
    | none => rfl
    | some target =>
      simp only
      rw [ofLookup_cwd cwd c (head_take h tmp _)]

theorem reopened_cwd (h : d.path.head? = some '/') (target : Path) : reopened cwd d target = reopened c d target := by
  unfold reopened
  rw [resolve_cwd cwd c (head_append h target)]
  cases hr : nfs4ResolvePath c (d.path ++ '/' :: target) with
  | error e => rfl
  | ok path =>
    by_cases hp : path = []
    · subst hp
      rfl
    · obtain ⟨names,hg⟩ := good_of_normalized hr hp
      obtain ⟨dir,name,names',hsplit,hdir⟩ := hg.split
      simp only [hsplit]
      exact ofLookup_cwd cwd c hdir.slash

theorem openReadlinkCb_cwd (h : d.path.head? = some '/') (res : List OpRes × ℤ) :
    nfs4OpenReadlinkCb cwd d res = nfs4OpenReadlinkCb c d res := by
  unfold nfs4OpenReadlinkCb
  cases findReadlink res.1 with
  | none => rfl
  | some target => exact reopened_cwd cwd c h target

theorem round_cwd (h : d.path.head? = some '/') : round op cwd d = round op c d := by
  unfold Lookup4.round
  simp only [cb_cwd cwd c h,secondCb_cwd cwd c h]
  cases hcb : nfs4LookupPath1Cb op c d (ns.compound (op.fill d) (pathNames d.path)) with
  | readlink idx names => rfl
  | lookup e => rfl
  | done r =>
    cases r with
    | called err => rfl
    | crash => rfl
    | continued e =>
      obtain rfl := cb_continued hcb
      simp only [openReadlinkCb_cwd cwd c h]

/-- Only a path that is normalized to nothing is looked up in the `cwd`. -/
theorem run_cwd {names : List Path} (hg : Good d.path names) (hread : d.reading = false) (fuel : ℕ) (sent : Sent) :
    run op cwd fuel sent d = run op c fuel sent d := by
  induction fuel using Nat.strongRecOn generalizing d names sent with
  | ind fuel ih =>
    cases fuel with
    | zero => rfl
    | succ fuel =>
      have hround := @round_follow _ _ op cwd _ _ hg hread
      have hresume : ∀ next sent' k, k < fuel+1 → op.follow cwd d = some next →
          resume op cwd k sent' next = resume op c k sent' next := by
        intro next sent' k hk hf
        cases next with
        | done r => rfl
        | readlink idx names => rfl
        | lookup d' =>
          obtain ⟨⟨names',hg'⟩,hread'⟩ := follow_good hg hread hf
          exact ih k hk hg' hread' sent'
      rw [run_succ,run_succ,← round_cwd cwd c hg.slash]
      cases hf : op.follow cwd d with
      | none =>
        rw [hf] at hround
        obtain ⟨r,hr,-⟩ := hround
        rw [hr]
        rfl
      | some next =>
        rw [hf] at hround
        rcases hround with hr | ⟨hr,hr'⟩
        · rw [hr]
          exact hresume next _ fuel (by omega) hf
        · rw [hr]
          simp only [resume]
          cases fuel with
          | zero => rfl
          | succ fuel =>
            have hg' : Good { d with reading := true }.path names := hg
            rw [run_succ,run_succ,← round_cwd cwd c hg'.slash,hr']
            exact hresume next _ fuel (by omega) hf

theorem async_cwd {path name : Path} (h : path.head? = some '/' ∨ c = cwd) :
    nfs4LookupPathAsync cwd ⟨path,name,false⟩ = nfs4LookupPathAsync c ⟨path,name,false⟩ := by
  rcases h with h | rfl
  · unfold nfs4LookupPathAsync
    rw [resolve_cwd cwd c h]
  · rfl

/-- Two paths that are resolved to the same are looked up in the same way. -/
theorem nfs4Lookup_resolved {path' : Path} (he : nfs4ResolvePath cwd path = nfs4ResolvePath c path')
    (hc : nfs4ResolvePath cwd path ≠ .ok [] ∨ c = cwd) (fuel : ℕ) :
    nfs4Lookup op fuel cwd path = nfs4Lookup op fuel c path' := by
  have hstart : start op cwd path = start op c path' := by
    unfold start
    rw [← he]
    cases hr : nfs4ResolvePath cwd path with
    | error e => rfl
    | ok q =>
      rw [hr] at hc
      have hq : (∃ names, Good q names) ∨ q = [] := by
        by_cases hq : q = []
        · exact .inr hq
        · exact .inl (good_of_normalized hr hq)
      simp only
      by_cases ho : op.isOpen
      · rw [if_pos ho]
        rcases hq with ⟨names,hg⟩ | rfl
        · obtain ⟨dir,name,names',hsplit,hdir⟩ := hg.split
          simp only [hsplit]
          rw [async_cwd cwd c (.inl hdir.slash)]
        · rfl
      · rw [if_neg ho]
        simp only
        rcases hq with ⟨names,hg⟩ | rfl
        · rw [async_cwd cwd c (.inl hg.slash)]
        · rw [async_cwd cwd c (.inr (hc.resolve_left (by simp)))]
  unfold nfs4Lookup
  rw [← hstart]
  cases hs : start op cwd path with
  | none => rfl
  | some od =>
    cases od with
    | none => rfl
    | some d =>
      obtain ⟨⟨names,hg⟩,hread⟩ := start_good hs
      simp only
      rw [run_cwd cwd c hg hread]

end Cwd

/-- A path behind the calls, and the absolute path in any context -/
theorem Chdirs.resolved {getattr : ι → ℤ} {ps : List Path} (h : Chdirs (DirectChdir4 ns getattr) ps cwd) (c r : Path) :
    nfs4ResolvePath cwd r = nfs4ResolvePath c (absolute (formed absolute ps) r) := by
  have hsame : SameDir cwd (formed absolute ps) := h.sameDir absolute_sameDir fun _ hc => hc.sameDir
  rw [resolve_cwd c cwd (absolute_head (absolute_formed ps) r),nfs4ResolvePath_eq,nfs4ResolvePath_eq]
  have hfull : absolute cwd (absolute (formed absolute ps) r) = absolute (formed absolute ps) r :=
    if_pos (absolute_head (absolute_formed ps) r)
  rw [hfull]
  unfold absolute
  by_cases hr : r.head? = some '/'
  · rw [if_pos hr,if_pos hr]
  · rw [if_neg hr,if_neg hr]
    exact hsame.normalize r

end V4

/-- Behind calls of `nfs_chdir` on direct paths, one after the other, a path is looked up as the absolute path that is
formed of theirs and it; of NFSv4 a path that is normalized to nothing only in the same `cwd`. -/
theorem chdir_formed {α ι : Type} {sv : Lookup3.Server α} {mounted : Lookup3.Mounted} {ns : Lookup4.Namespace ι}
    {getattr : ι → ℤ} {ps ps' : List Path} {cwd cwd' : Path} (h3 : Chdirs (DirectChdir3 sv mounted) ps cwd)
    (h4 : Chdirs (DirectChdir4 ns getattr) ps' cwd') (c r : Path) :
    (∀ flags fuel, Lookup3.lookup sv mounted flags fuel cwd r =
      Lookup3.lookup sv mounted flags fuel c (fullPath (formed fullPath ps) r)) ∧
    Lookup4.nfs4ResolvePath cwd' r = Lookup4.nfs4ResolvePath c (absolute (formed absolute ps') r) ∧
    (Lookup4.nfs4ResolvePath cwd' r ≠ .ok [] ∨ c = cwd' → ∀ (op : Lookup4.Op ns) fuel,
      nfs4Lookup op fuel cwd' r = nfs4Lookup op fuel c (absolute (formed absolute ps') r)) :=
  ⟨h3.lookup3 c r,h4.resolved c r,fun hc _ fuel => nfs4Lookup_resolved cwd' c (h4.resolved c r) hc fuel⟩

/-- A server with the directories `m` and `m/x` -/
def nested : Lookup3.Server Unit where
  lookup fh name :=
    if fh = [0] ∧ name = ['m'] then .ok ([1],())
    else if fh = [1] ∧ name = ['x'] then .ok ([2],())
    else .error 2
  readlink _ := .error 22
  getattr _ := .ok ()
  isLink _ := false

/-- The same tree for NFSv4 -/
def tree : Lookup4.Namespace ℕ where
  root := 0
  link _ := none
  lookup n name := if n = 0 ∧ name = ['m'] then .ok 1 else if n = 1 ∧ name = ['x'] then .ok 2 else .error 2
  root_link := rfl
  status := by
    intro n name st h
    split at h
    · simp at h
    · split at h
      · simp at h
      · simp only [Except.error.injEq] at h
        subst h
        decide

theorem tree_direct (q : Path) (idx : ℕ) (target : Path) (rest : List Path) (m : ℕ) :
    tree.seek tree.root (components '/' q) ≠ .link idx target rest m := by
  generalize tree.root = n
  induction components '/' q generalizing n idx target rest m with
  | nil => simp [Lookup4.Namespace.seek]
  | cons c names ih =>
    rw [Lookup4.Namespace.seek]
    cases tree.lookup n c with
    | error st => simp
    | ok k =>
      have hlink : tree.link k = none := rfl
      simp only [hlink]
      cases hs : tree.seek k names with
      | failed st => simp [Lookup4.Found.behind]
      | node k => simp [Lookup4.Found.behind]
      | link i t r k' => exact absurd hs (ih i t r k' k)

theorem nested_direct {q : Path} : Direct nested ⟨[0],['/','e'],[]⟩ q where
  mounts := by simp
  root := by simp [nested]
  straight := by
    generalize ([0] : Lookup3.Fh) = fh
    induction components '/' q generalizing fh with
    | nil => trivial
    | cons c names ih =>
      rw [Lookup3.Server.Straight]
      cases nested.lookup fh c with
      | error st => trivial
      | ok res => exact ⟨by simp [nested],ih res.1⟩

/-- `..` behind calls for `m` and `x` -/
theorem chdir_formed_twice : (∀ flags fuel, Lookup3.lookup nested ⟨[0],['/','e'],[]⟩ flags fuel ['/','m','/','x'] ['.','.'] =
      Lookup3.lookup nested ⟨[0],['/','e'],[]⟩ flags fuel ['/'] (fullPath (formed fullPath [['m'],['x']]) ['.','.'])) ∧
    Lookup4.nfs4ResolvePath ['/','m','/','x'] ['.','.'] =
      Lookup4.nfs4ResolvePath ['/'] (absolute (formed absolute [['m'],['x']]) ['.','.']) ∧
    (Lookup4.nfs4ResolvePath ['/','m','/','x'] ['.','.'] ≠ .ok [] ∨ ['/'] = ['/','m','/','x'] →
      ∀ (op : Lookup4.Op tree) fuel, nfs4Lookup op fuel ['/','m','/','x'] ['.','.'] =
        nfs4Lookup op fuel ['/'] (absolute (formed absolute [['m'],['x']]) ['.','.'])) := by
  have h3 : Chdirs (DirectChdir3 nested ⟨[0],['/','e'],[]⟩) [['m'],['x']] ['/','m','/','x'] :=
    @Chdirs.call _ [['m']] ['/','m'] _ _ (@Chdirs.call _ [] _ _ _ .init ⟨fun _ _ => nested_direct,3,rfl⟩)
      ⟨fun _ _ => nested_direct,3,rfl⟩
  have h4 : Chdirs (DirectChdir4 tree fun _ => 0) [['m'],['x']] ['/','m','/','x'] :=
    @Chdirs.call _ [['m']] ['/','m'] _ _
      (@Chdirs.call _ [] _ _ _ .init ⟨fun _ => .inr rfl,fun q _ => tree_direct q,3,rfl⟩)
      ⟨fun h => absurd h (by decide),fun q _ => tree_direct q,3,rfl⟩
  exact chdir_formed h3 h4 ['/'] ['.','.']

/-- `nfs_chdir` into a nested mount leaves the mount out of the `cwd`. -/
theorem chdir_loses_mount : ¬ ∀ cwd, Lookup3.nfs3Chdir nested ⟨[0],['/','e'],[⟨['/','m'],[1],rfl⟩]⟩ 3 ['/'] ['/','m','/','x'] =
    some cwd → ∀ c r flags fuel, Lookup3.lookup nested ⟨[0],['/','e'],[⟨['/','m'],[1],rfl⟩]⟩ flags fuel cwd r =
      Lookup3.lookup nested ⟨[0],['/','e'],[⟨['/','m'],[1],rfl⟩]⟩ flags fuel c
        (fullPath (formed fullPath [['/','m','/','x']]) r) := by
  intro h
  have hchdir : Lookup3.nfs3Chdir nested ⟨[0],['/','e'],[⟨['/','m'],[1],rfl⟩]⟩ 3 ['/'] ['/','m','/','x'] = some ['/','x'] := by rfl
  have hrel : Lookup3.lookup nested ⟨[0],['/','e'],[⟨['/','m'],[1],rfl⟩]⟩ ⟨false,false⟩ 3 ['/','x'] ['.'] =
      some (.called (-2)) := by rfl
  have habs : Lookup3.lookup nested ⟨[0],['/','e'],[⟨['/','m'],[1],rfl⟩]⟩ ⟨false,false⟩ 3 ['/']
      (fullPath (formed fullPath [['/','m','/','x']]) ['.']) = some (.continued [2] (some ()) ['/','x']) := by rfl
  have := (hrel.symm.trans (h _ hchdir ['/'] ['.'] ⟨false,false⟩ 3)).trans habs
  simp at this

end Chdir
end Libnfs
