import Libnfs.Chdir
import Libnfs.Canonical
import Libnfs.Nfs3Async

/-! The operations that make or remove a name: where `lib/nfs_v3.c` and `lib/nfs_v4.c` cut the path into a directory
and a name, and how each forms the directory's path. -/
namespace Libnfs
namespace ParentSplit

open Paths Normalize NestedMounts
open Chdir (absolute)
open Lookup4 (nfs4ResolvePath dataSplitPath dataSplitPath_glue)

/-- What an allocated string has in it; `none` is a NUL. -/
abbrev Buf := List (Option Char)

/-- The string that starts here -/
def cstr : Buf → Path
  | [] => []
  | none :: _ => []
  | some c :: s => c :: cstr s

/-- `strrchr(path, '/')` -/
def strrchr (path : Path) : Option ℕ :=
  if '/' ∈ path then some (path.length-1-path.reverse.idxOf '/') else none

/-- `new_path` of `nfs3_mkdir2_async`, and `cb_data->path` of an open that creates: the parent directory, and beyond its
NUL the name -/
def newPath (path : Path) : Buf :=
  match strrchr path with
  | some ptr => (path.map some).set ptr none
  | none => none :: path.map some

/-- The parent and the name in `new_path` -/
def splitInPlace (path : Path) : Option Path × Path :=
  (some (cstr (newPath path)),cstr ((newPath path).drop ((cstr (newPath path)).length+1)))

/-- `linkparent` and `linkobject` of `nfs3_symlink_async`, `newparent` and `newobject` of `nfs3_link_async` -/
def splitObject (path : Path) : Option Path × Path :=
  match strrchr path with
  | none => (none,path)
  | some ptr => (some (path.take ptr),path.drop (ptr+1))

/-- The operations; `rename` cuts both of its paths. -/
inductive NameOp
  | mkdir2 | mknod | unlink | rmdir | create | symlink | link | rename
  deriving DecidableEq, Repr

def NameOp.split : NameOp → Path → Option Path × Path
  | .mkdir2 | .mknod | .unlink | .rmdir | .create => splitInPlace
  | .symlink | .link | .rename => splitObject

/-- The names of the directory that `nfs3_lookuppath_async` looks up for the operation, and the name in it. A parent
that is NULL or empty is looked up as `.`. -/
def nfs3Target (op : NameOp) (cwd path : Path) : Option (List Path × Path) :=
  ((nfsNormalizePath (fullPath cwd ((op.split path).1.getD []))).toOption).map fun savedPath =>
    (components '/' savedPath,(op.split path).2)

/-- The names of the directory and the name behind `nfs4_resolve_path` and `data_split_path` -/
def nfs4Target (cwd path : Path) : Option (List Path × Path) :=
  ((nfs4ResolvePath cwd path).toOption.bind dataSplitPath).map fun p => (components '/' p.1,p.2)

/-- What follows the last `/` -/
def lastName (path : Path) : Path := (path.reverse.takeWhile (· ≠ '/')).reverse

/-- The object that a path names: its last component, in the directory that the components before lead to -/
def named (cwd path : Path) : Option (List Path × Path) :=
  ((components '/' (absolute cwd path)).dropLast.foldlM push []).map fun st => (st.reverse,lastName path)

section Split

variable {pre name path cwd : Path} {op : NameOp}

theorem lastName_behind (hn : '/' ∉ name) : lastName (pre ++ '/' :: name) = name := by
  rw [lastName,List.reverse_append,List.reverse_cons,List.append_assoc,List.takeWhile_append_of_pos]
  · simp
  · intro c hc
    have : c ∈ name := by simpa using hc
    simpa using fun h : c = '/' => hn (h ▸ this)

theorem lastName_alone (hn : '/' ∉ path) : lastName path = path := by
  rw [lastName,List.takeWhile_eq_self_iff.mpr,List.reverse_reverse]
  intro c hc
  have : c ∈ path := by simpa using hc
  simpa using fun h : c = '/' => hn (h ▸ this)

/-- A path has no separator, or a last one. -/
theorem cut_last (path : Path) : '/' ∉ path ∨ ∃ pre name, '/' ∉ name ∧ path = pre ++ '/' :: name := by
  induction path using List.reverseRecOn with
  | nil => exact .inl (by simp)
  | append_singleton path c ih =>
    by_cases hc : c = '/'
    · exact .inr ⟨path,[],by simp,by rw [hc]⟩
    · rcases ih with h | ⟨pre,name,hn,rfl⟩
      · exact .inl (by simp [h,Ne.symm hc])
      · exact .inr ⟨pre,name ++ [c],by simp [hn,Ne.symm hc],by simp⟩

theorem strrchr_behind (hn : '/' ∉ name) : strrchr (pre ++ '/' :: name) = some pre.length := by
  have hidx : (pre ++ '/' :: name).reverse.idxOf '/' = name.length := by
    rw [List.reverse_append,List.reverse_cons,List.append_assoc,List.idxOf_append,if_neg (by simpa using hn)]
    simp
  rw [strrchr,if_pos (by simp),hidx]
  simp

theorem strrchr_alone (hn : '/' ∉ path) : strrchr path = none := if_neg hn

theorem cstr_name (s : Path) (rest : Buf) : cstr (s.map some ++ none :: rest) = s := by
  induction s with
  | nil => rfl
  | cons c s ih => exact congrArg (c :: ·) ih

theorem cstr_end (s : Path) : cstr (s.map some) = s := by
  induction s with
  | nil => rfl
  | cons c s ih => exact congrArg (c :: ·) ih

theorem splitInPlace_behind (hn : '/' ∉ name) : splitInPlace (pre ++ '/' :: name) = (some pre,name) := by
  have hnew : newPath (pre ++ '/' :: name) = pre.map some ++ none :: name.map some := by
    rw [newPath,strrchr_behind hn]
    have hlen : pre.length = (pre.map some).length := by simp
    simp only [List.map_append,List.map_cons]
    rw [hlen,List.set_append_right _ _ le_rfl]
    simp
  have hdrop : (pre.map some ++ none :: name.map some).drop (pre.length+1) = name.map some := by
    have hlen : pre.length = (pre.map some).length := by simp
    rw [← List.drop_drop,hlen,List.drop_left]
    rfl
  rw [splitInPlace,hnew,cstr_name,hdrop,cstr_end]

theorem splitInPlace_alone (hn : '/' ∉ path) : splitInPlace path = (some [],path) := by
  have hnew : newPath path = none :: path.map some := by
    rw [newPath,strrchr_alone hn]
  rw [splitInPlace,hnew]
  have hfirst : cstr (none :: path.map some) = [] := cstr_name [] _
  rw [hfirst]
  simp [cstr_end]

/-- All operations cut the path at its last `/`. -/
theorem split_behind (op : NameOp) (hn : '/' ∉ name) : op.split (pre ++ '/' :: name) = (some pre,name) := by
  have hobject : splitObject (pre ++ '/' :: name) = (some pre,name) := by
    rw [splitObject,strrchr_behind hn]
    simp only [List.take_left,← List.drop_drop,List.drop_left]
    rfl
  cases op <;> first | exact splitInPlace_behind hn | exact hobject

/-- Without a `/` the parent is NULL or empty. -/
theorem split_alone (op : NameOp) (hn : '/' ∉ path) : (op.split path).1.getD [] = [] ∧ (op.split path).2 = path := by
  have hobject : splitObject path = (none,path) := by rw [splitObject,strrchr_alone hn]
  cases op <;> simp only [NameOp.split,splitInPlace_alone hn,hobject,Option.getD_some,Option.getD_none] <;> simp

/-- The parent is the path that the lookup of the operation is started with. -/
theorem split_parent (op : NameOp) (path : Path) : (op.split path).1.getD [] = Nfs3.parent path := by
  rcases cut_last path with hn | ⟨pre,name,hn,rfl⟩
  · rw [(split_alone op hn).1,Nfs3.parent,if_neg hn]
  · rw [split_behind op hn,Nfs3.parent,if_pos (by simp),List.reverse_append,List.reverse_cons,List.append_assoc,
      List.dropWhile_append_of_pos]
    · simp
    · intro c hc
      have : c ∈ name := by simpa using hc
      simpa using fun h : c = '/' => hn (h ▸ this)

/-- What the normalized form of a path stands for -/
theorem normalized_names (path : Path) : (nfsNormalizePath path).toOption.map (components '/') = resolve path := by
  by_cases hhead : path.head? = some '/'
  · obtain ⟨t,rfl⟩ := List.head?_eq_some_iff.mp hhead
    obtain ⟨cs,hcut,he,hne⟩ := @exists_glue _ '/' t
    obtain ⟨ds,l,rfl⟩ := dropLast_concat hne
    rw [← he,nfsNormalizePath_glue hcut,resolve_glue hcut hne,List.foldlM_append]
    cases hst : ds.foldlM push [] with
    | none => rfl
    | some st =>
      cases hl : push st l with
      | none => simp [hl,Except.toOption]
      | some st' =>
        have hmem : ∀ c ∈ st', c ∈ ds ++ [l] ∧ Plain c := by
          intro c hc
          rcases push_mem hl c hc with hc | ⟨rfl,hc⟩
          · have hd := (foldlM_push_mem hst c hc).resolve_left (by simp)
            exact ⟨by simp [hd.1],hd.2⟩
          · exact ⟨by simp,hc⟩
        have hcomp : components '/' (written l st') = st'.reverse := by
          cases st' with
          | nil =>
            by_cases h0 : l = []
            · subst h0
              rfl
            · simp [written,h0,components]
          | cons c st' =>
            have hcut' : Cut '/' (c :: st').reverse := fun d hd => hcut d (hmem d (List.mem_reverse.mp hd)).1
            have hplain : ∀ d ∈ (c :: st').reverse, d ≠ [] := fun d hd => (hmem d (List.mem_reverse.mp hd)).2.1
            have hw : written l (c :: st') = glue '/' (c :: st').reverse := rfl
            rw [hw,components_glue hcut',List.filter_eq_self.mpr fun d hd => by simpa using hplain d hd]
        simp [hl,Except.toOption,hcomp]
  · obtain ⟨e,he⟩ := nfsNormalizePath_relative hhead
    rw [he,resolve,if_neg hhead]
    rfl

theorem nfs3Target_eq (op : NameOp) (cwd path : Path) : nfs3Target op cwd path =
    (resolve (fullPath cwd ((op.split path).1.getD []))).map fun names => (names,(op.split path).2) := by
  rw [← normalized_names,Option.map_map]
  rfl

theorem resolve_behind (hc : Stops '/' cwd) (s : Path) :
    resolve (cwd ++ '/' :: s) = ((components '/' cwd ++ components '/' s).foldlM push []).map List.reverse := by
  have hhead : (cwd ++ '/' :: s).head? = some '/' := by
    rcases hc with rfl | ⟨t,rfl⟩ <;> rfl
  rw [resolve,if_pos hhead,components_append (.inr ⟨s,rfl⟩),components_cons_self]

/-- The names of the current directory -/
theorem resolve_cwd (hc : Stops '/' cwd) : resolve (fullPath cwd []) = resolve (cwd ++ ['/']) := by
  have hfull : fullPath cwd [] = cwd ++ '/' :: ['.'] := rfl
  have hdot : components '/' ['.'] = [['.']] := rfl
  have hnil : components '/' ([] : Path) = [] := rfl
  rw [hfull,resolve_behind hc,resolve_behind hc,hdot,hnil,List.foldlM_append,List.append_nil]
  cases (components '/' cwd).foldlM push [] <;> rfl

theorem components_behind (hn : '/' ∉ name) (hne : name ≠ []) (s : Path) :
    (components '/' (s ++ '/' :: name)).dropLast = components '/' s := by
  rw [components_append (.inr ⟨name,rfl⟩),components_cons_self,components_of_notMem hn hne,List.dropLast_concat]

/-- A path with a `/` behind its first character is cut as it should be. -/
theorem nfs3Target_behind (op : NameOp) (hc : Stops '/' cwd) (hn : '/' ∉ name) (hne : name ≠ []) (hpre : pre ≠ []) :
    nfs3Target op cwd (pre ++ '/' :: name) = named cwd (pre ++ '/' :: name) := by
  rw [nfs3Target_eq,split_behind op hn,named,lastName_behind hn]
  have hhead : (pre ++ '/' :: name).head? = pre.head? := by
    cases pre with
    | nil => exact absurd rfl hpre
    | cons c pre => rfl
  simp only [Option.getD_some,fullPath,if_neg hpre,absolute,hhead]
  by_cases hp : pre.head? = some '/'
  · rw [if_pos hp,if_pos hp,components_behind hn hne,resolve,if_pos hp,Option.map_map]
    rfl
  · rw [if_neg hp,if_neg hp,← List.cons_append,← List.append_assoc,components_behind hn hne,resolve_behind hc,
      components_append (.inr ⟨pre,rfl⟩),components_cons_self,Option.map_map]
    rfl

theorem nfs3Target_alone (op : NameOp) (hc : Stops '/' cwd) (hn : '/' ∉ path) (hne : path ≠ []) :
    nfs3Target op cwd path = named cwd path := by
  have hhead : ¬ path.head? = some '/' := by
    intro hh
    obtain ⟨t,rfl⟩ := List.head?_eq_some_iff.mp hh
    simp at hn
  rw [nfs3Target_eq,(split_alone op hn).1,(split_alone op hn).2,resolve_cwd hc,resolve_behind hc,named,lastName_alone hn,
    absolute,if_neg hhead,components_behind hn hne,Option.map_map]
  have hnil : components '/' ([] : Path) = [] := rfl
  rw [hnil,List.append_nil]
  rfl

/-- For a name right behind the root the current directory is looked up. -/
theorem nfs3Target_root (op : NameOp) (hc : Stops '/' cwd) (hn : '/' ∉ name) :
    nfs3Target op cwd ('/' :: name) = (resolve (cwd ++ ['/'])).map fun names => (names,name) := by
  have hsplit : op.split ('/' :: name) = (some [],name) := @split_behind [] name op hn
  rw [nfs3Target_eq,hsplit,Option.getD_some,resolve_cwd hc]

theorem named_root (cwd : Path) (hn : '/' ∉ name) (hne : name ≠ []) : named cwd ('/' :: name) = some ([],name) := by
  have hlast : lastName ('/' :: name) = name := @lastName_behind [] name hn
  have hfull : absolute cwd ('/' :: name) = '/' :: name := if_pos rfl
  rw [named,hlast,hfull,components_cons_self,components_of_notMem hn hne]
  rfl

/-- What `data_split_path` leaves of a path that is joined and normalized first -/
theorem splitNormalized {s full : Path} (hfull : full = s ++ '/' :: name) (hhead : full.head? = some '/') (hn : '/' ∉ name)
    (hplain : Plain name) :
    ((nfsNormalizePath full).toOption.bind dataSplitPath).map (fun p => (components '/' p.1,p.2)) =
      ((components '/' full).dropLast.foldlM push []).map fun st => (st.reverse,name) := by
  obtain ⟨t,ht⟩ := List.head?_eq_some_iff.mp hhead
  obtain ⟨cs,hcut,he,hne⟩ := @exists_glue _ '/' t
  obtain ⟨ds,l,rfl⟩ := dropLast_concat hne
  obtain rfl : l = name := by
    refine (@suffix_glue _ '/' l name ds (hcut l (by simp)) hn).mp ⟨s,?_⟩
    rw [← hfull,ht,← he]
    simp
  have hdrop : (components '/' full).dropLast.foldlM push [] = ds.foldlM push [] := by
    rw [ht,← he,components_glue hcut,List.filter_append,List.filter_cons_of_pos (by simpa using hplain.1)]
    simp only [List.filter_nil]
    rw [List.dropLast_concat,foldlM_push_filter [] (.inl rfl)]
  rw [hdrop,ht,← he,nfsNormalizePath_glue hcut]
  cases hst : ds.foldlM push [] with
  | none => rfl
  | some st =>
    have hmem : ∀ c ∈ st.reverse, c ∈ ds ∧ Plain c := fun c hc =>
      (foldlM_push_mem hst c (List.mem_reverse.mp hc)).resolve_left (by simp)
    have hw : written l (l :: st) = glue '/' (st.reverse ++ [l]) := by
      rw [← List.reverse_cons]
      rfl
    simp only [push_plain hplain,hw,Except.toOption,Option.bind_some,dataSplitPath_glue hn,Option.map_some]
    by_cases hnil : st.reverse = []
    · rw [if_pos hnil,hnil]
      rfl
    · rw [if_neg hnil,components_glue fun c hc => hcut c (by simp [(hmem c hc).1]),
        List.filter_eq_self.mpr fun c hc => by simpa using (hmem c hc).2.1]

/-- NFSv4 acts on the object that the path names. -/
theorem nfs4Target_named (hc : Stops '/' cwd) (hl : Plain (lastName path)) : nfs4Target cwd path = named cwd path := by
  unfold nfs4Target named
  rw [Chdir.nfs4ResolvePath_eq]
  rcases cut_last path with hn | ⟨pre,name,hn,rfl⟩
  · rw [lastName_alone hn] at hl ⊢
    have hhead : ¬ path.head? = some '/' := by
      intro hh
      obtain ⟨t,rfl⟩ := List.head?_eq_some_iff.mp hh
      simp at hn
    have hfull : absolute cwd path = cwd ++ '/' :: path := if_neg hhead
    refine splitNormalized hfull ?_ hn hl
    rw [hfull]
    rcases hc with rfl | ⟨t,rfl⟩ <;> rfl
  · rw [lastName_behind hn] at hl ⊢
    by_cases hhead : (pre ++ '/' :: name).head? = some '/'
    · have hfull : absolute cwd (pre ++ '/' :: name) = pre ++ '/' :: name := if_pos hhead
      exact splitNormalized hfull (by rw [hfull]; exact hhead) hn hl
    · have hfull : absolute cwd (pre ++ '/' :: name) = (cwd ++ '/' :: pre) ++ '/' :: name := by
        rw [absolute,if_neg hhead]
        simp
      refine splitNormalized hfull ?_ hn hl
      rw [hfull]
      rcases hc with rfl | ⟨t,rfl⟩ <;> rfl

theorem nfs3Target_named_iff (op : NameOp) (hc : Stops '/' cwd) (hl : Plain (lastName path)) :
    nfs3Target op cwd path = named cwd path ↔ ¬ (path = '/' :: lastName path ∧ resolve (cwd ++ ['/']) ≠ some []) := by
  rcases cut_last path with hn | ⟨pre,name,hn,rfl⟩
  · refine iff_of_true (nfs3Target_alone op hc hn ?_) ?_
    · rw [← lastName_alone hn]
      exact hl.1
    · rintro ⟨h,-⟩
      rw [h] at hn
      simp at hn
  · rw [lastName_behind hn] at hl ⊢
    by_cases hpre : pre = []
    · subst hpre
      have hgoal : ([] : Path) ++ '/' :: name = '/' :: name := rfl
      rw [hgoal,nfs3Target_root op hc hn,named_root cwd hn hl.1]
      cases resolve (cwd ++ ['/']) <;> simp
    · refine iff_of_true (nfs3Target_behind op hc hn hl.1 hpre) ?_
      rintro ⟨h,-⟩
      have hlen := congrArg List.length h
      have hpos : 0 < pre.length := List.length_pos_iff.mpr hpre
      simp at hlen
      exact hpre hlen

end Split

/-- The operation acts on the object that the path names, and so does NFSv4. -/
def ActsOnNamed (op : NameOp) (cwd path : Path) : Prop :=
  nfs3Target op cwd path = named cwd path ∧ nfs4Target cwd path = nfs3Target op cwd path

theorem actsOnNamed_iff {cwd path : Path} (op : NameOp) (hc : Stops '/' cwd) (hl : Plain (lastName path)) :
    ActsOnNamed op cwd path ↔ ¬ (path = '/' :: lastName path ∧ resolve (cwd ++ ['/']) ≠ some []) := by
  rw [← nfs3Target_named_iff op hc hl,ActsOnNamed,nfs4Target_named hc hl]
  exact ⟨And.left,fun h => ⟨h,h.symm⟩⟩

/-- The operations of NFSv3 and NFSv4 make or remove one and the same name, except where the only `/` of the path is its
first character and the current directory is not the root. -/
theorem acts_on_named_iff (op : NameOp) {cwd path : Path} (hc : Stops '/' cwd) (hl : Plain (lastName path)) :
    ActsOnNamed op cwd path ↔ ¬ (path = '/' :: lastName path ∧ resolve (cwd ++ ['/']) ≠ some []) :=
  actsOnNamed_iff op hc hl

theorem acts_on_named_iff_nested : ActsOnNamed .mkdir2 ['/','d'] ['a','/','b'] ↔
    ¬ ((['a','/','b'] : Path) = '/' :: lastName ['a','/','b'] ∧ resolve (['/','d'] ++ ['/']) ≠ some []) :=
  acts_on_named_iff .mkdir2 (.inr ⟨['d'],rfl⟩) ⟨by decide,by decide,by decide⟩

/-- In the directory `/d`, `/b` is made as `/d/b`. -/
theorem root_name_in_cwd : ¬ ∀ (op : NameOp) (cwd path : Path), Stops '/' cwd → Plain (lastName path) →
    ActsOnNamed op cwd path := by
  intro h
  have h3 := (h .mkdir2 ['/','d'] ['/','b'] (.inr ⟨['d'],rfl⟩) ⟨by decide,by decide,by decide⟩).1
  have hcwd : nfs3Target .mkdir2 ['/','d'] ['/','b'] = some ([['d']],['b']) := by decide +kernel
  have hroot : named ['/','d'] ['/','b'] = some ([],['b']) := by decide +kernel
  rw [hcwd,hroot] at h3
  simp at h3

end ParentSplit
end Libnfs
