import Mathlib.Data.List.TakeWhile
import Libnfs.Normalize

/-! Where `nfs3_lookuppath_async` of `lib/nfs_v3.c` starts: the normalized path, the nested mount it is
moved to, and the names that are looked up from there on. -/
namespace Libnfs
namespace NestedMounts

open Paths Normalize

/-- `struct nested_mounts`. `nfs3_mount_3_cb` stores no path without the `/` in front. -/
structure NestedMount where
  path : Path
  fh : List UInt8
  absolute : path.head? = some '/'
  deriving DecidableEq

/-- The path that `nfs3_mount_3_cb` stores for an export below the mounted one -/
def nestedPath (export_ exDir : Path) : Option Path :=
  if ¬ export_ <+: exDir then none
  else if exDir[export_.length-1]? ≠ some '/' ∧ exDir[export_.length]? ≠ some '/' then none
  else some (exDir.drop (export_.length-(if export_.getLast? = some '/' then 1 else 0)))

/-- The path is in front of `savedPath` and ends where a component ends. -/
def NestedMount.Matches (mnt : NestedMount) (savedPath : Path) : Prop :=
  mnt.path <+: savedPath ∧ Stops '/' (savedPath.drop mnt.path.length)

instance (mnt : NestedMount) (savedPath : Path) : Decidable (mnt.Matches savedPath) :=
  inferInstanceAs (Decidable (_ ∧ _))

/-- The variables of the loop over `nested_mounts`; without a mount `fh` is the `rootfh`. -/
structure Start where
  fh : Option NestedMount
  savedPath : Path
  maxMatchLen : ℕ

/-- The body of the loop -/
def switchMount (s : Start) (mnt : NestedMount) : Start :=
  if mnt.path.length < s.maxMatchLen then s
  else if ¬ mnt.Matches s.savedPath then s
  else ⟨some mnt,s.savedPath.drop mnt.path.length,mnt.path.length⟩

/-- `/`, or the `cwd` in front of a relative path -/
def fullPath (cwd path : Path) : Path :=
  let path := if path = [] then ['.'] else path
  if path.head? = some '/' then path else cwd ++ '/' :: path

/-- `nfs3_lookuppath_async` up to the first request. Nothing is asked but the GETATTR of the root for an empty path. -/
def nfs3LookuppathAsync (cwd : Path) (nestedMounts : List NestedMount) (path : Path) : Except NormalizeError Start :=
  (nfsNormalizePath (fullPath cwd path)).map fun savedPath =>
    if savedPath ≠ [] then nestedMounts.foldl switchMount ⟨none,savedPath,0⟩
    else ⟨none,savedPath,0⟩

/-- The next component in `nfs3_lookup_path_async_internal`, and `data->path` behind it -/
def nextName (path : Path) : Option (Path × Path) :=
  let path := path.dropWhile (· = '/')
  if path = [] then none
  else some (path.takeWhile (· ≠ '/'),(path.dropWhile (· ≠ '/')).drop 1)

/-- The names that are looked up one in the other -/
def names : ℕ → Path → List Path
  | 0, _ => []
  | fuel+1, path =>
    match nextName path with
    | none => []
    | some (name,path) => name :: names fuel path

theorem nestedPath_absolute {export_ exDir path : Path} (he : export_ ≠ []) (h : nestedPath export_ exDir = some path) :
    path.head? = some '/' := by
  unfold nestedPath at h
  split at h
  · simp at h
  · rename_i hpre
    split at h
    · simp at h
    · rename_i hslash
      obtain rfl := Option.some.inj h
      have hpos : 0 < export_.length := List.length_pos_iff.mpr he
      have hlast : export_.getLast? = exDir[export_.length-1]? := by
        rw [List.getLast?_eq_getElem?]
        exact (List.prefix_iff_getElem?.mp (not_not.mp hpre) (export_.length-1) (by omega)).symm ▸ (List.getElem?_eq_getElem (by omega))
      rw [List.head?_drop]
      by_cases hl : export_.getLast? = some '/'
      · rw [if_pos hl,← hlast,hl]
      · rw [if_neg hl,Nat.sub_zero]
        rw [hlast] at hl
        by_contra hne
        exact hslash ⟨hl,hne⟩

/-- The components of the path of the mount -/
def NestedMount.names (mnt : NestedMount) : List Path := components '/' mnt.path

theorem head?_dropWhile {p : Char → Bool} {path : Path} {c : Char} (h : (path.dropWhile p).head? = some c) :
    p c = false := by
  have := List.head?_dropWhile_not p path
  rw [h] at this
  simpa using this

theorem components_dropWhile (path : Path) : components '/' (path.dropWhile (· = '/')) = components '/' path := by
  induction path with
  | nil => rfl
  | cons c path ih =>
    by_cases hc : c = '/'
    · rw [List.dropWhile_cons_of_pos (by simp [hc]),ih,hc,components_cons_self]
    · rw [List.dropWhile_cons_of_neg (by simp [hc])]

/-- The next name is the first component, and the others follow. -/
theorem nextName_components {path : Path} : nextName path = none ∧ components '/' path = [] ∨
    ∃ name rest, nextName path = some (name,rest) ∧ components '/' path = name :: components '/' rest ∧
      rest.length < path.length := by
  unfold nextName
  rw [← components_dropWhile path]
  have hlen : (path.dropWhile (· = '/')).length ≤ path.length := List.length_dropWhile_le ..
  have hhead : ∀ c, (path.dropWhile (· = '/')).head? = some c → c ≠ '/' := by
    intro c hc
    simpa using head?_dropWhile hc
  generalize path.dropWhile (· = '/') = s at hlen hhead
  cases s with
  | nil => exact .inl ⟨rfl,rfl⟩
  | cons c s =>
    have hc : c ≠ '/' := hhead c rfl
    right
    refine ⟨_,_,if_neg (by simp),?_,?_⟩
    · have hname : '/' ∉ (c :: s).takeWhile (· ≠ '/') := fun h => by simpa using List.mem_takeWhile_imp h
      have hne : (c :: s).takeWhile (· ≠ '/') ≠ [] := by simp [hc]
      have hstop : Stops '/' ((c :: s).dropWhile (· ≠ '/')) ∧
          components '/' ((c :: s).dropWhile (· ≠ '/')) = components '/' (((c :: s).dropWhile (· ≠ '/')).drop 1) := by
        have hh : ∀ d, ((c :: s).dropWhile (· ≠ '/')).head? = some d → d = '/' := by
          intro d hd
          simpa using head?_dropWhile hd
        cases hdrop : (c :: s).dropWhile (· ≠ '/') with
        | nil => exact ⟨.inl rfl,rfl⟩
        | cons d t =>
          rw [hdrop] at hh
          obtain rfl := hh d rfl
          exact ⟨.inr ⟨t,rfl⟩,components_cons_self t⟩
      conv_lhs => rw [← @List.takeWhile_append_dropWhile _ (· ≠ '/') (c :: s)]
      rw [components_append hstop.1,components_of_notMem hname hne,hstop.2]
      rfl
    · have : ((c :: s).dropWhile (· ≠ '/')).length ≤ s.length := by
        rw [List.dropWhile_cons_of_pos (by simp [hc])]
        exact List.length_dropWhile_le ..
      simp only [List.length_drop,List.length_cons] at hlen ⊢
      omega

/-- The names that are looked up are the components of the path. -/
theorem names_eq (path : Path) (fuel : ℕ) (hf : path.length < fuel) : names fuel path = components '/' path := by
  induction fuel generalizing path with
  | zero => omega
  | succ fuel ih =>
    rw [names]
    rcases @nextName_components path with ⟨hn,hc⟩ | ⟨name,rest,hn,hc,hlt⟩
    · rw [hn,hc]
    · rw [hn,hc]
      simp only [List.cons.injEq,true_and]
      exact ih rest (by omega)

/-- The names looked up from the start on -/
def Start.names (s : Start) : List Path := NestedMounts.names (s.savedPath.length+1) s.savedPath

theorem Start.names_eq (s : Start) : s.names = components '/' s.savedPath :=
  NestedMounts.names_eq _ _ (by omega)

section Loop

variable {mnt : NestedMount} {mounts : List NestedMount} {s : Start} {savedPath : Path}

/-- A matching mount takes its own components off. -/
theorem NestedMount.Matches.components_eq (h : mnt.Matches savedPath) :
    components '/' savedPath = mnt.names ++ components '/' (savedPath.drop mnt.path.length) := by
  obtain ⟨⟨t,rfl⟩,hstop⟩ := h
  rw [List.drop_left] at hstop ⊢
  exact components_append hstop

theorem NestedMount.Matches.names_prefix (h : mnt.Matches savedPath) : mnt.names <+: components '/' savedPath :=
  ⟨_,h.components_eq.symm⟩

theorem NestedMount.Matches.shorter (h : mnt.Matches savedPath) :
    (savedPath.drop mnt.path.length).length < savedPath.length := by
  have hpos : mnt.path ≠ [] := by
    intro he
    have := mnt.absolute
    simp [he] at this
  have := List.length_pos_iff.mpr hpos
  have := h.1.length_le
  rw [List.length_drop]
  omega

/-- What the loop skips -/
def Skips (s : Start) (mnt : NestedMount) : Prop := s.maxMatchLen ≤ mnt.path.length → ¬ mnt.Matches s.savedPath

theorem switchMount_skips (h : Skips s mnt) : switchMount s mnt = s := by
  unfold switchMount
  split
  · rfl
  · rename_i hlen
    rw [if_pos (h (by omega))]

theorem switchMount_matches (hlen : s.maxMatchLen ≤ mnt.path.length) (h : mnt.Matches s.savedPath) :
    switchMount s mnt = ⟨some mnt,s.savedPath.drop mnt.path.length,mnt.path.length⟩ := by
  unfold switchMount
  rw [if_neg (by omega),if_neg (not_not.mpr h)]

theorem foldl_skips (h : ∀ mnt ∈ mounts, Skips s mnt) : mounts.foldl switchMount s = s := by
  induction mounts with
  | nil => rfl
  | cons mnt mounts ih =>
    rw [List.foldl_cons,switchMount_skips (h mnt (by simp))]
    exact ih fun other ho => h other (by simp [ho])

/-- Every run of the loop skips all mounts, or switches to the first that it does not skip. -/
theorem foldl_cases (mounts : List NestedMount) (s : Start) : (∀ mnt ∈ mounts, Skips s mnt) ∨
    ∃ pre mnt post, mounts = pre ++ mnt :: post ∧ (∀ other ∈ pre, Skips s other) ∧ s.maxMatchLen ≤ mnt.path.length ∧
      mnt.Matches s.savedPath ∧ mounts.foldl switchMount s =
        post.foldl switchMount ⟨some mnt,s.savedPath.drop mnt.path.length,mnt.path.length⟩ := by
  induction mounts with
  | nil => exact .inl (by simp)
  | cons mnt mounts ih =>
    by_cases h : Skips s mnt
    · rcases ih with ih | ⟨pre,m,post,rfl,hpre,hlen,hm,he⟩
      · exact .inl fun other ho => (List.mem_cons.mp ho).elim (fun e => e ▸ h) (ih other)
      · refine .inr ⟨mnt :: pre,m,post,rfl,?_,hlen,hm,?_⟩
        · exact fun other ho => (List.mem_cons.mp ho).elim (fun e => e ▸ h) (hpre other)
        · rw [List.foldl_cons,switchMount_skips h,he]
    · simp only [Skips,Classical.not_imp,not_not] at h
      exact .inr ⟨[],mnt,mounts,rfl,by simp,h.1,h.2,by rw [List.foldl_cons,switchMount_matches h.1 h.2]⟩

/-- From a switch on, the mount that the loop ends with and the names that are left account for no more
components than there were. -/
theorem foldl_components (mounts : List NestedMount) {fh : NestedMount} (hs : s.fh = some fh) :
    ∃ mnt, (mounts.foldl switchMount s).fh = some mnt ∧
      (mounts.foldl switchMount s = s ∨ mnt.names.length+(components '/' (mounts.foldl switchMount s).savedPath).length ≤
        (components '/' s.savedPath).length) := by
  induction mounts generalizing s fh with
  | nil => exact ⟨fh,hs,.inl rfl⟩
  | cons m mounts ih =>
    rw [List.foldl_cons]
    by_cases h : Skips s m
    · rw [switchMount_skips h]
      exact ih hs
    · simp only [Skips,Classical.not_imp,not_not] at h
      rw [switchMount_matches h.1 h.2]
      have hc := congrArg List.length h.2.components_eq
      rw [List.length_append] at hc
      obtain ⟨mnt,hfh,he | hle⟩ := @ih ⟨some m,s.savedPath.drop m.path.length,m.path.length⟩ m rfl
      · refine ⟨mnt,hfh,.inr ?_⟩
        rw [he] at hfh ⊢
        obtain rfl := Option.some.inj hfh
        exact hc.ge
      · exact ⟨mnt,hfh,.inr (by simp only at hle; omega)⟩

end Loop

/-- The lookup starts at the mount with the longest path in front of the components `cs`, or at the root,
and is left with the other components. -/
def LongestMatch (mounts : List NestedMount) (cs : List Path) (fh : Option NestedMount) (looked : List Path) : Prop :=
  match fh with
  | none => (∀ mnt ∈ mounts, ¬ mnt.names <+: cs) ∧ looked = cs
  | some mnt => mnt ∈ mounts ∧ cs = mnt.names ++ looked ∧
      ∀ other ∈ mounts, other.names <+: cs → other.names.length ≤ mnt.names.length

/-- No mount is in front of the path, or the first in the list that matches is a longest, and none behind
it in the list that is as long matches what is left of the path. -/
def FirstIsLongest (mounts : List NestedMount) (savedPath : Path) : Prop :=
  (∀ mnt ∈ mounts, ¬ mnt.names <+: components '/' savedPath) ∨
  ∃ pre mnt post, mounts = pre ++ mnt :: post ∧ mnt.Matches savedPath ∧ (∀ other ∈ pre, ¬ other.Matches savedPath) ∧
    (∀ other ∈ mounts, other.names <+: components '/' savedPath → other.names.length ≤ mnt.names.length) ∧
    ∀ other ∈ post, mnt.path.length ≤ other.path.length → ¬ other.Matches (savedPath.drop mnt.path.length)

/-- A mount that matches a normalized path and has no components takes all of it. -/
theorem NestedMount.Matches.rest {mnt : NestedMount} {path savedPath : Path}
    (hn : nfsNormalizePath path = .ok savedPath) (h : mnt.Matches savedPath) (hnames : mnt.names = []) :
    savedPath.drop mnt.path.length = [] := by
  obtain ⟨t,hm⟩ : ∃ t, mnt.path = '/' :: t := by
    have := mnt.absolute
    cases hp : mnt.path with
    | nil => simp [hp] at this
    | cons c t => exact ⟨t,by simpa [hp] using this⟩
  rcases nfsNormalizePath_shape hn with rfl | rfl | ⟨cs,hne,hcut,hplain,rfl⟩
  · simp
  · rw [hm]
    simp
  · obtain ⟨ms,hms,he,hne'⟩ := @exists_glue _ '/' t
    have hp : mnt.path = glue '/' ms := by rw [hm,he]
    have hpre : ms <+: cs := by
      obtain ⟨⟨r,hr⟩,hstop⟩ := h
      rw [← hr,List.drop_left] at hstop
      exact (glue_initial hms hcut).mp ⟨r,hstop,by rw [← hp,hr]⟩
    have hfilter : ms.filter (· ≠ []) = ms :=
      List.filter_eq_self.mpr fun c hc => by simpa using (hplain c (hpre.subset hc)).1
    rw [NestedMount.names,hp,components_glue hms,hfilter] at hnames
    exact absurd hnames hne'

/-- The lookup of a path starts where it should, with the names that it should look up, exactly if the list
of the mounts happens to be in an order that the loop is right for. -/
theorem lookuppath_starts {cwd path savedPath : Path} (mounts : List NestedMount)
    (hn : nfsNormalizePath (fullPath cwd path) = .ok savedPath) :
    ∃ start, nfs3LookuppathAsync cwd mounts path = .ok start ∧
      (LongestMatch mounts (components '/' savedPath) start.fh start.names ↔ FirstIsLongest mounts savedPath) := by
  have hloop : (if savedPath ≠ [] then mounts.foldl switchMount ⟨none,savedPath,0⟩ else ⟨none,savedPath,0⟩) =
      mounts.foldl switchMount ⟨none,savedPath,0⟩ := by
    split
    · rfl
    · rename_i he
      obtain rfl := not_not.mp he
      refine (foldl_skips fun mnt _ _ hm => ?_).symm
      simpa using hm.shorter
  refine ⟨mounts.foldl switchMount ⟨none,savedPath,0⟩,?_,?_⟩
  · rw [nfs3LookuppathAsync,hn,Except.map,hloop]
  rw [Start.names_eq]
  constructor
  · intro hlong
    rcases foldl_cases mounts ⟨none,savedPath,0⟩ with hskip | ⟨pre,m,post,hmounts,hpre,-,hm,he⟩
    · rw [foldl_skips hskip] at hlong
      exact .inl hlong.1
    · right
      have hm' : m.Matches savedPath := hm
      rw [he] at hlong
      have hfst : ∀ other ∈ pre, ¬ other.Matches savedPath := fun other ho => hpre other ho (Nat.zero_le _)
      rcases foldl_cases post ⟨some m,savedPath.drop m.path.length,m.path.length⟩ with hskip |
        ⟨pre',n,post',rfl,hpre',hlen',hn',he'⟩
      · rw [foldl_skips hskip] at hlong
        exact ⟨pre,m,post,hmounts,hm',hfst,hlong.2.2,hskip⟩
      · have hcm := congrArg List.length hm'.components_eq
        have hcn := congrArg List.length hn'.components_eq
        obtain ⟨l,hl,hle⟩ := @foldl_components ⟨some n,(savedPath.drop m.path.length).drop n.path.length,n.path.length⟩
          post' n rfl
        rw [he',hl] at hlong
        have hcl := congrArg List.length hlong.2.1
        simp only [List.length_append] at hcm hcn hcl
        have hzero : m.names = [] := by
          rw [← List.length_eq_zero_iff]
          rcases hle with hle | hle
          · rw [hle] at hl hcl
            obtain rfl := Option.some.inj hl
            simp only at hcl
            omega
          · simp only at hle
            omega
        have hrest := hm'.rest hn hzero
        have := hn'.shorter
        simp only [hrest] at this
        simp at this
  · rintro (hnone | ⟨pre,m,post,rfl,hm,hpre,hlong,hpost⟩)
    · rw [foldl_skips fun mnt hmem _ hm => hnone mnt hmem hm.names_prefix]
      exact ⟨hnone,rfl⟩
    · rw [List.foldl_append,foldl_skips (fun mnt hmem _ => hpre mnt hmem),List.foldl_cons,
        switchMount_matches (Nat.zero_le _) hm,foldl_skips hpost]
      exact ⟨by simp,hm.components_eq,hlong⟩

/-- The mounts `/a` and `/a/b` -/
def mountA : NestedMount := ⟨['/','a'],[1],rfl⟩

def mountAB : NestedMount := ⟨['/','a','/','b'],[2],rfl⟩

/-- `/a/b/c` with the longer mount in front -/
theorem lookuppath_starts_longest : ∃ start,
    nfs3LookuppathAsync [] [mountAB,mountA] ['/','a','/','b','/','c'] = .ok start ∧
      (LongestMatch [mountAB,mountA] (components '/' ['/','a','/','b','/','c']) start.fh start.names ↔
        FirstIsLongest [mountAB,mountA] ['/','a','/','b','/','c']) :=
  lookuppath_starts [mountAB,mountA] (by decide)

/-- With `/a` in front the lookup of `/a/b/c` starts at `/a`. -/
theorem lookuppath_starts_at_shorter : nfsNormalizePath (fullPath [] ['/','a','/','b','/','c']) =
    .ok ['/','a','/','b','/','c'] ∧
    ¬ ∃ start, nfs3LookuppathAsync [] [mountA,mountAB] ['/','a','/','b','/','c'] = .ok start ∧
      LongestMatch [mountA,mountAB] (components '/' ['/','a','/','b','/','c']) start.fh start.names := by
  refine ⟨by decide,?_⟩
  rintro ⟨start,hs,hlong⟩
  have hrun : nfs3LookuppathAsync [] [mountA,mountAB] ['/','a','/','b','/','c'] =
      .ok ⟨some mountA,['/','b','/','c'],2⟩ := by rfl
  obtain rfl := Except.ok.inj (hrun.symm.trans hs)
  have hle := hlong.2.2 mountAB (by simp) (by decide)
  revert hle
  decide

end NestedMounts
end Libnfs
