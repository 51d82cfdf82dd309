import Libnfs.Canonical
import Libnfs.Lookup3

/-! Runs of the lookup of `lib/nfs_v3.c` on a normalized path: down the directories to the next symbolic link, and the
path that is looked up from the root once a link is read. -/
namespace Libnfs
namespace Lookup3

open Paths Normalize NestedMounts

/-- Names, each with a `/` between it and the next -/
def behind (cs : List Path) : Path := (glue '/' cs).drop 1

/-- Names of a normalized path -/
def Names (cs : List Path) : Prop := Cut '/' cs ∧ ∀ c ∈ cs, Plain c

/-- A path of these names as `nfs_normalize_path` writes it -/
def Writes (path : Path) (cs : List Path) : Prop :=
  path.dropWhile (· = '/') = behind cs ∧ (cs ≠ [] → path = glue '/' cs)

section Names

variable {c : Path} {cs ds : List Path} {path : Path}

theorem Names.nil : Names [] := ⟨by simp [Cut],by simp⟩

theorem Names.tail (h : Names (c :: cs)) : Names cs := ⟨h.1.tail,fun d hd => h.2 d (by simp [hd])⟩

theorem Names.cons (hp : Plain c) (hc : '/' ∉ c) (h : Names cs) : Names (c :: cs) := by
  refine ⟨fun d hd => ?_,fun d hd => ?_⟩
  · rcases List.mem_cons.mp hd with rfl | hd
    · exact hc
    · exact h.1 d hd
  · rcases List.mem_cons.mp hd with rfl | hd
    · exact hp
    · exact h.2 d hd

theorem Names.append (h : Names cs) (h' : Names ds) : Names (cs ++ ds) :=
  ⟨h.1.append h'.1,fun d hd => (List.mem_append.mp hd).elim (h.2 d) (h'.2 d)⟩

theorem Names.reverse (h : Names cs) : Names cs.reverse :=
  ⟨fun d hd => h.1 d (List.mem_reverse.mp hd),fun d hd => h.2 d (List.mem_reverse.mp hd)⟩

@[simp] theorem behind_nil : behind [] = [] := rfl

@[simp] theorem behind_cons : behind (c :: cs) = c ++ glue '/' cs := rfl

theorem Names.head (h : Names (c :: cs)) : ∃ x t, c = x :: t ∧ x ≠ '/' := by
  cases hc : c with
  | nil => exact absurd hc (h.2 c (by simp)).1
  | cons x t =>
    refine ⟨x,t,rfl,?_⟩
    rintro rfl
    exact h.1.head (by simp [hc])

theorem Names.behind_eq_nil (h : Names cs) : behind cs = [] ↔ cs = [] := by
  cases cs with
  | nil => simp
  | cons c cs =>
    obtain ⟨x,t,rfl,-⟩ := h.head
    simp

theorem Names.behind_strip (h : Names cs) : (behind cs).dropWhile (· = '/') = behind cs := by
  cases cs with
  | nil => rfl
  | cons c cs =>
    obtain ⟨x,t,rfl,hx⟩ := h.head
    rw [behind_cons,List.cons_append,List.dropWhile_cons_of_neg (by simpa using hx)]

theorem Names.filter (h : Names cs) : cs.filter (· ≠ []) = cs :=
  List.filter_eq_self.mpr fun c hc => by simpa using (h.2 c hc).1

theorem Names.components (h : Names cs) : components '/' (behind cs) = cs := by
  cases cs with
  | nil => rfl
  | cons c cs =>
    have hglue : '/' :: behind (c :: cs) = glue '/' (c :: cs) := rfl
    rw [← components_cons_self,hglue,components_glue h.1,h.filter]

theorem Names.writes_behind (h : Names cs) (hne : cs ≠ []) : Writes (glue '/' cs) cs := by
  refine ⟨?_,fun _ => rfl⟩
  obtain ⟨c,cs,rfl⟩ := List.exists_cons_of_ne_nil hne
  rw [glue_cons,List.dropWhile_cons_of_pos (by simp)]
  exact h.behind_strip

theorem nextName_behind (h : Names (c :: cs)) : nextName (behind (c :: cs)) = some (c,behind cs) := by
  have hstop := @span_stops Char '/' c _ (glue '/' cs) h.1.head glue_stops
  unfold nextName
  rw [h.behind_strip,behind_cons]
  simp only
  rw [hstop.1,hstop.2,if_neg (by simp [(h.2 c (by simp)).1])]
  rfl

theorem components_slashes {slashes : Path} (h : ∀ c ∈ slashes, c = '/') (s : Path) :
    components '/' (slashes ++ s) = components '/' s := by
  induction slashes with
  | nil => rfl
  | cons c slashes ih =>
    rw [List.cons_append,h c (by simp),components_cons_self]
    exact ih fun d hd => h d (by simp [hd])

/-- A string behind a `/`, made of components -/
theorem components_eq_filter (s : Path) : ∃ cs, Cut '/' cs ∧ glue '/' cs = '/' :: s ∧ cs ≠ [] ∧
    components '/' s = cs.filter (· ≠ []) := by
  obtain ⟨cs,hcut,he,hne⟩ := @exists_glue _ '/' s
  exact ⟨cs,hcut,he,hne,by rw [← components_cons_self,← he,components_glue hcut]⟩

theorem components_cut (s : Path) : Cut '/' (components '/' s) := by
  obtain ⟨cs,hcut,-,-,he⟩ := components_eq_filter s
  rw [he]
  exact hcut.filter _

/-- Names that are below those that are on the stack stay where they are. -/
theorem foldlM_push_below {st q : List Path} (below : List Path) (h : cs.foldlM push st = some q) :
    cs.foldlM push (st ++ below) = some (q ++ below) := by
  induction cs generalizing st with
  | nil =>
    obtain rfl := Option.some.inj h
    rfl
  | cons c cs ih =>
    rw [List.foldlM_cons] at h ⊢
    have hpush : ∀ {q'}, push st c = some q' → push (st ++ below) c = some (q' ++ below) := by
      intro q' hq
      unfold push at hq ⊢
      split at hq
      · rw [if_pos ‹_›]
        exact congrArg some (congrArg (· ++ below) (Option.some.inj hq))
      · rw [if_neg ‹_›]
        split at hq
        · rw [if_pos ‹_›]
          cases st with
          | nil => simp at hq
          | cons d st => exact congrArg some (congrArg (· ++ below) (Option.some.inj hq))
        · rw [if_neg ‹_›]
          exact congrArg some (congrArg (· ++ below) (Option.some.inj hq))
    cases hp : push st c with
    | none => simp [hp] at h
    | some q' =>
      rw [hp] at h
      rw [hpush hp]
      exact ih h

/-- `nfs_normalize_path` writes the stack of the components, and fails where there is none. -/
theorem normalize_writes (hcut : Cut '/' cs) (hne : cs ≠ []) :
    match cs.foldlM push [] with
    | none => ∃ e, nfsNormalizePath (glue '/' cs) = .error e
    | some st => Names st.reverse ∧ ∃ path, nfsNormalizePath (glue '/' cs) = .ok path ∧ Writes path st.reverse := by
  obtain ⟨pre,l,rfl⟩ := dropLast_concat hne
  rw [nfsNormalizePath_glue hcut]
  have hfold : (pre ++ [l]).foldlM push [] = (pre.foldlM push []).bind (push · l) := by
    rw [List.foldlM_append]
    simp
  cases hst : pre.foldlM push [] with
  | none =>
    rw [hfold,hst]
    exact ⟨_,rfl⟩
  | some st =>
    rw [hfold,hst]
    simp only [Option.bind_some]
    cases hl : push st l with
    | none => exact ⟨_,rfl⟩
    | some st' =>
      rw [hst,Option.bind_some,hl] at hfold
      have hmem := foldlM_push_mem hfold
      have hn : Names st' :=
        ⟨fun d hd => hcut d ((hmem d hd).resolve_left (by simp)).1,fun d hd => ((hmem d hd).resolve_left (by simp)).2⟩
      refine ⟨hn.reverse,_,rfl,?_⟩
      cases st' with
      | nil =>
        refine ⟨?_,fun h => absurd rfl h⟩
        by_cases h0 : l = [] <;> simp [written,h0]
      | cons c st' => exact hn.reverse.writes_behind (by simp)

end Names

variable {α : Type} (sv : Server α) (mounted : Mounted) (flags : Flags)

/-- The requests that are sent and answered between two points of a lookup -/
inductive After : Next α → Next α → Prop
  | refl (next : Next α) : After next next
  | lookup {d : Data} {fh : Fh} {name : Path} {next : Next α} :
      After (nfs3LookupPath1Cb sv flags d (sv.lookup fh name)) next → After (.lookup d fh name) next
  | readlink {d : Data} {fh : Fh} {next : Next α} :
      After (nfs3LookupPath2Cb sv mounted flags d (sv.readlink fh)) next → After (.readlink d fh) next

/-- From some number of requests on the lookup is over, with `r`. -/
def Ends (next : Next α) (r : Result α) : Prop := ∃ n, ∀ fuel ≥ n, run sv mounted flags fuel next = some r

/-- Directories one in the other, from `root` down to `dir`: their names, and the handles above -/
inductive Rooted (root : Fh) : List Path → List Fh → Fh → Prop
  | root : Rooted root [] [] root
  | down {st : List Path} {above : List Fh} {dir fh : Fh} {c : Path} {attr : α} : Rooted root st above dir →
      Plain c → '/' ∉ c → sv.lookup dir c = .ok (fh,attr) → ¬ sv.isLink attr →
      Rooted root (c :: st) (dir :: above) fh

variable {sv mounted flags} {d : Data} {fh root dir : Fh} {attr : Option α} {next next' : Next α} {r : Result α}

theorem Ends.done : Ends sv mounted flags (.done r) r := by
  refine ⟨1,fun fuel hf => ?_⟩
  obtain ⟨fuel,rfl⟩ := Nat.exists_eq_add_of_le' hf
  rfl

theorem After.ends (h : After sv mounted flags next next') (he : Ends sv mounted flags next' r) :
    Ends sv mounted flags next r := by
  induction h with
  | refl next => exact he
  | lookup _ ih =>
    obtain ⟨n,hn⟩ := ih he
    refine ⟨n+1,fun fuel hf => ?_⟩
    obtain ⟨fuel,rfl⟩ := Nat.exists_eq_add_of_le' (show 1 ≤ fuel by omega)
    exact hn fuel (by omega)
  | readlink _ ih =>
    obtain ⟨n,hn⟩ := ih he
    refine ⟨n+1,fun fuel hf => ?_⟩
    obtain ⟨fuel,rfl⟩ := Nat.exists_eq_add_of_le' (show 1 ≤ fuel by omega)
    exact hn fuel (by omega)

theorem After.trans {last : Next α} (h : After sv mounted flags next next') (h' : After sv mounted flags next' last) :
    After sv mounted flags next last := by
  induction h with
  | refl next => exact h'
  | lookup _ ih => exact .lookup (ih h')
  | readlink _ ih => exact .readlink (ih h')

theorem Ends.unique {r' : Result α} (h : Ends sv mounted flags next r) (h' : Ends sv mounted flags next r') : r = r' := by
  obtain ⟨n,hn⟩ := h
  obtain ⟨m,hm⟩ := h'
  exact Option.some.inj ((hn (max n m) (by omega)).symm.trans (hm (max n m) (by omega)))

/-- More requests do not change how a lookup ends. -/
theorem run_add {fuel : ℕ} (h : run sv mounted flags fuel next = some r) : Ends sv mounted flags next r := by
  induction fuel generalizing next with
  | zero => simp [run] at h
  | succ fuel ih =>
    cases next with
    | done r' =>
      simp only [run,Option.some.injEq] at h
      exact h ▸ .done
    | lookup d fh name => exact (After.lookup (.refl _)).ends (ih h)
    | readlink d fh => exact (After.readlink (.refl _)).ends (ih h)

theorem internal_strip (path : Path) (h : path.dropWhile (· = '/') = d.path.dropWhile (· = '/')) :
    nfs3LookupPathAsyncInternal sv flags attr { d with path := path } fh =
      nfs3LookupPathAsyncInternal sv flags attr d fh := by
  unfold nfs3LookupPathAsyncInternal
  rw [h]

section Walk

variable {st cs ds : List Path} {c : Path} {above : List Fh} {path : Path} {n : ℕ}

theorem Rooted.names (h : Rooted sv root st above dir) : Names st := by
  induction h with
  | root => exact .nil
  | down _ hp hc _ _ ih => exact ih.cons hp hc

theorem internal_nil (hattr : ¬ attr.any sv.isLink) (hp : d.path.dropWhile (· = '/') = []) :
    nfs3LookupPathAsyncInternal sv flags attr d fh = .done (.continued fh attr d.savedPath) := by
  rw [internal_plain hattr,hp]
  rfl

theorem internal_cons (hattr : ¬ attr.any sv.isLink) (hn : Names (c :: cs))
    (hp : d.path.dropWhile (· = '/') = behind (c :: cs)) :
    nfs3LookupPathAsyncInternal sv flags attr d fh = .lookup { d with path := behind cs } fh c := by
  rw [internal_plain hattr,hp,nextName_behind hn]

/-- A lookup that starts at a directory is over there, or sends a LOOKUP to it. -/
theorem internal_start (sv : Server α) (flags : Flags) (fh : Fh) (path : Path) (links : ℕ) :
    nfs3LookupPathAsyncInternal sv flags none ⟨path,path,links⟩ fh = .done (.continued fh none path) ∨
      ∃ d name, nfs3LookupPathAsyncInternal sv flags none ⟨path,path,links⟩ fh = .lookup d fh name ∧ d.savedPath = path := by
  rw [internal_plain (by simp)]
  cases nextName (path.dropWhile (· = '/')) with
  | none => exact .inl rfl
  | some res => exact .inr ⟨_,_,rfl,rfl⟩

theorem writes_inj (hc : Names cs) (hd : Names ds) (h : Writes path cs) (h' : Writes path ds) : cs = ds := by
  have he : behind cs = behind ds := h.1.symm.trans h'.1
  cases cs with
  | nil => exact (hd.behind_eq_nil.mp he.symm).symm
  | cons c cs =>
    cases ds with
    | nil => exact hc.behind_eq_nil.mp he
    | cons d ds => exact glue_inj hc.1 hd.1 ((h.2 (by simp)).symm.trans (h'.2 (by simp)))

/-- The lookup comes to every directory that is above the names that are left. -/
theorem Rooted.after (h : Rooted sv root st above dir) (hn : Names cs)
    (hp : d.path.dropWhile (· = '/') = behind (st.reverse ++ cs)) :
    ∃ attr : Option α, ¬ attr.any sv.isLink ∧ After sv mounted flags (nfs3LookupPathAsyncInternal sv flags none d root)
      (nfs3LookupPathAsyncInternal sv flags attr { d with path := behind cs } dir) := by
  induction h generalizing cs with
  | root =>
    refine ⟨none,by simp,?_⟩
    rw [internal_strip (behind cs) (by rw [hn.behind_strip,hp]; rfl)]
    exact .refl _
  | @down st above dir fh c attr' hroot hplain hc hl hlink ih =>
    have hn' := hn.cons hplain hc
    obtain ⟨attr,hattr,hafter⟩ := ih hn' (by simpa using hp)
    refine ⟨some attr',by simpa using hlink,hafter.trans ?_⟩
    rw [internal_cons hattr hn' hn'.behind_strip]
    refine .lookup ?_
    rw [hl]
    exact .refl _

/-- At a symbolic link: O_NOFOLLOW ends the lookup wherever the link stands; `no_follow` only at the last component. -/
theorem internal_link {attr : α} (hl : sv.isLink attr) (hn : Names cs) :
    nfs3LookupPathAsyncInternal sv flags (some attr) { d with path := behind cs } fh =
      if flags.oNoFollow then .done (.called (-40))
      else if cs = [] ∧ flags.noFollow then .done (.continued fh (some attr) d.savedPath)
      else if d.linkCount ≥ maxLinkCount then .done (.called (-40))
      else .readlink { d with path := behind cs,linkCount := d.linkCount+1 } fh := by
  unfold nfs3LookupPathAsyncInternal
  simp only [hn.behind_strip,Option.any_some,hl,true_and,ne_eq,hn.behind_eq_nil]
  by_cases ho : flags.oNoFollow
  · simp [ho]
  · by_cases hf : cs = [] ∧ flags.noFollow
    · obtain ⟨rfl,hf⟩ := hf
      simp [ho,hf,nextName]
    · rw [if_neg ho,if_neg ho,if_neg hf,if_pos]
      by_contra h
      rw [not_or,not_not,not_not] at h
      exact hf ⟨h.2,h.1⟩

/-- A new path is looked up from the root, if it does not climb above it. -/
theorem cb_restart {target : Path} (hnew : newPath mounted.export_ d target = some (glue '/' cs)) (hcut : Cut '/' cs)
    (hne : cs ≠ []) :
    match cs.foldlM push [] with
    | none => nfs3LookupPath2Cb sv mounted flags d (.ok target) = .done (.called (-2))
    | some st => Names st.reverse ∧ ∃ path, Writes path st.reverse ∧
        nfs3LookupPath2Cb sv mounted flags d (.ok target) =
          nfs3LookupPathAsyncInternal sv flags none { d with savedPath := path,path := path } mounted.rootfh := by
  have h := normalize_writes hcut hne
  simp only [nfs3LookupPath2Cb,hnew]
  cases hfold : cs.foldlM push [] with
  | none =>
    rw [hfold] at h
    obtain ⟨e,he⟩ := h
    rw [he]
  | some st =>
    rw [hfold] at h
    obtain ⟨hn,path,he,hw⟩ := h
    exact ⟨hn,path,hw,by rw [he]⟩

/-- The new path for a relative target -/
theorem newPath_relative {export_ target : Path} {names : List Path} (ht : target.head? ≠ some '/')
    (hs : d.savedPath = glue '/' (names ++ c :: cs)) (hp : d.path = behind cs) (hn : Names cs) :
    ∃ ts, Cut '/' ts ∧ components '/' target = ts.filter (· ≠ []) ∧
      newPath export_ d target = some (glue '/' (names ++ c :: ['.','.'] :: (ts ++ cs))) := by
  obtain ⟨ts,hcut,he,-,hc⟩ := components_eq_filter target
  refine ⟨ts,hcut,hc,?_⟩
  have hglue : glue '/' (names ++ c :: ['.','.'] :: (ts ++ cs)) =
      glue '/' (names ++ [c]) ++ ['/','.','.','/'] ++ target ++ glue '/' cs := by
    simp [he]
  unfold newPath
  rw [if_neg ht,hglue,hp,hs]
  cases cs with
  | nil => simp
  | cons x cs =>
    have hsplit : glue '/' (names ++ c :: x :: cs) = glue '/' (names ++ [c]) ++ '/' :: behind (x :: cs) := by simp
    have hlen : (glue '/' (names ++ [c]) ++ '/' :: behind (x :: cs)).length-(behind (x :: cs)).length-1 =
        (glue '/' (names ++ [c])).length := by
      rw [List.length_append,List.length_cons]
      omega
    rw [if_pos (hn.behind_eq_nil.not.mpr (by simp)),hsplit,hlen,List.take_left]
    simp

theorem foldlM_push_append {qs : List Path} (st : List Path) (hn : Names qs) :
    (qs ++ cs).foldlM push st = cs.foldlM push (qs.reverse ++ st) := by
  rw [List.foldlM_append,foldlM_push_plain st hn.2]
  rfl

theorem foldlM_push_components {ts : List Path} {target : Path} (st : List Path)
    (ht : components '/' target = ts.filter (· ≠ [])) :
    (ts ++ cs).foldlM push st = (components '/' target ++ cs).foldlM push st := by
  rw [ht,List.foldlM_append,List.foldlM_append,foldlM_push_filter st (.inl rfl)]

/-- A link with a relative target is followed from the directory that it is in, unless that climbs above the root. -/
theorem cb_relative {target : Path} (ht : target.head? ≠ some '/') (hst : Names (st.reverse ++ c :: cs))
    (hs : d.savedPath = glue '/' (st.reverse ++ c :: cs)) (hp : d.path = behind cs) :
    match (components '/' target ++ cs).foldlM push st with
    | none => nfs3LookupPath2Cb sv mounted flags d (.ok target) = .done (.called (-2))
    | some st => Names st.reverse ∧ ∃ path, Writes path st.reverse ∧
        nfs3LookupPath2Cb sv mounted flags d (.ok target) =
          nfs3LookupPathAsyncInternal sv flags none { d with savedPath := path,path := path } mounted.rootfh := by
  have hcs : Names cs := ⟨hst.1.right.tail,fun e he => hst.2 e (by simp [he])⟩
  have hdir : Names (st.reverse ++ [c]) := by
    refine ⟨fun e he => hst.1 e ?_,fun e he => hst.2 e ?_⟩
    all_goals
      simp only [List.mem_append,List.mem_cons] at he ⊢
      tauto
  obtain ⟨ts,hcut,hfilter,hnew⟩ := @newPath_relative d cs c mounted.export_ target st.reverse ht hs hp hcs
  have hfold : (st.reverse ++ c :: ['.','.'] :: (ts ++ cs)).foldlM push [] = (components '/' target ++ cs).foldlM push st := by
    rw [← foldlM_push_components st hfilter,show st.reverse ++ c :: ['.','.'] :: (ts ++ cs) =
      (st.reverse ++ [c]) ++ ['.','.'] :: (ts ++ cs) by simp,foldlM_push_append [] hdir]
    simp [push_dotDot]
  have hcut' : Cut '/' (st.reverse ++ c :: ['.','.'] :: (ts ++ cs)) := by
    refine Cut.append hst.1.left fun e he => ?_
    simp only [List.mem_cons,List.mem_append] at he
    rcases he with rfl | rfl | he | he
    · exact hst.1 e (by simp)
    · decide
    · exact hcut e he
    · exact hcs.1 e he
  have h := @cb_restart _ sv mounted flags d _ target hnew hcut' (by simp)
  rwa [hfold] at h

/-- The new path for an absolute target: nothing of what is behind the link is left. -/
theorem newPath_absolute {export_ target : Path} (ht : target.head? = some '/') :
    newPath export_ d target =
      if export_ <+: target ∧ Stops '/' (target.drop export_.length) then some ('/' :: (target.drop export_.length).drop 1)
      else none := by
  unfold newPath
  rw [if_pos ht]
  by_cases hpre : export_ <+: target
  · rw [if_neg (not_not.mpr hpre)]
    cases hd : target.drop export_.length with
    | nil => rw [if_pos ⟨hpre,.inl rfl⟩]; rfl
    | cons x t =>
      by_cases hx : x = '/'
      · rw [if_pos ⟨hpre,.inr ⟨t,by rw [hx]⟩⟩,hx]
        rfl
      · rw [if_neg]
        · simp [hx]
        · rintro ⟨-,h | ⟨t',h⟩⟩
          · simp at h
          · simp only [List.cons.injEq] at h
            exact hx h.1
  · rw [if_pos hpre,if_neg fun h => hpre h.1]

/-- A link with an absolute target inside the export is followed from the root. -/
theorem cb_absolute {target : Path} (ht : target.head? = some '/')
    (hin : mounted.export_ <+: target ∧ Stops '/' (target.drop mounted.export_.length)) :
    match (components '/' (target.drop mounted.export_.length)).foldlM push [] with
    | none => nfs3LookupPath2Cb sv mounted flags d (.ok target) = .done (.called (-2))
    | some st => Names st.reverse ∧ ∃ path, Writes path st.reverse ∧
        nfs3LookupPath2Cb sv mounted flags d (.ok target) =
          nfs3LookupPathAsyncInternal sv flags none { d with savedPath := path,path := path } mounted.rootfh := by
  obtain ⟨ts,hcut,he,hne,hfilter⟩ := components_eq_filter ((target.drop mounted.export_.length).drop 1)
  have hnew : newPath mounted.export_ d target = some (glue '/' ts) := by
    rw [newPath_absolute ht,if_pos hin,he]
  have hcomp : components '/' (target.drop mounted.export_.length) = ts.filter (· ≠ []) := by
    rcases hin.2 with h | ⟨t,h⟩
    · rw [← hfilter,h]
      rfl
    · rw [← hfilter,h,components_cons_self]
      rfl
  have h := @cb_restart _ sv mounted flags d _ target hnew hcut hne
  rwa [← foldlM_push_filter [] (.inl rfl),← hcomp] at h

end Walk

end Lookup3
end Libnfs
