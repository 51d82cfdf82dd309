import Libnfs.Lookup3Walk

/-! Symbolic links inside the nested mounts of `lib/nfs_v3.c`. -/
namespace Libnfs
namespace NestedLinks

open Paths Normalize NestedMounts Lookup3

variable {α : Type}

/-- A lookup that was moved to a nested mount comes there to a symbolic link, the directories above it in `st`, with `rest` behind it
and a relative target, and follows it. -/
structure Meets (sv : Server α) (mounted : Mounted) (flags : Flags) (s : Start) (mnt : NestedMount) (st : List Path)
    (rest : List Path) (fh : Fh) (target : Path) : Prop where
  mount : s.fh = some mnt
  link : ∃ above dir c attr, s.names = st.reverse ++ c :: rest ∧ Rooted sv mnt.fh st above dir ∧
    sv.lookup dir c = .ok (fh,attr) ∧ sv.isLink attr
  followed : ¬ flags.oNoFollow ∧ (rest = [] → ¬ flags.noFollow)
  read : sv.readlink fh = .ok target
  relative : target.head? ≠ some '/'

/-- Where the target and the names behind the link lead from the directory that the link is in, in the namespace with the nested
exports at their paths; none where that climbs above its root -/
def combined (mnt : NestedMount) (st : List Path) (target : Path) (rest : List Path) : Option (List Path) :=
  ((components '/' target ++ rest).foldlM push (st ++ mnt.names.reverse)).map List.reverse

/-- The lookup goes on in the mount with the longest path in front of the names, with the names that are left. -/
def Continues (sv : Server α) (mounted : Mounted) (flags : Flags) (links : ℕ) (names : Option (List Path))
    (next : Next α) : Prop :=
  match names with
  | none => next = .done (.called (-2))
  | some cs => ∃ mnt looked path, LongestMatch mounted.nestedMounts cs mnt looked ∧ Writes path looked ∧
      next = nfs3LookupPathAsyncInternal sv flags none ⟨path,path,links⟩ ((mnt.map (·.fh)).getD mounted.rootfh)

section Start

variable {mnt : NestedMount} {mounts : List NestedMount} {s : Start} {cwd path saved : Path} {cs : List Path}

theorem writes_nil (h : Writes path []) : ∀ c ∈ path, c = '/' := by
  have h0 : path.dropWhile (· = '/') = [] := h.1
  intro c hc
  simpa using List.dropWhile_eq_nil_iff.mp h0 c hc

/-- A mount takes whole names off a path. -/
theorem matches_writes (hn : Names cs) (hw : Writes saved cs) (hm : mnt.Matches saved) :
    Names mnt.names ∧ ∃ ds, Names ds ∧ Writes (saved.drop mnt.path.length) ds := by
  by_cases hne : cs = []
  · subst hne
    have hall := writes_nil hw
    have hnames : mnt.names = [] := by
      have h := components_slashes (fun c hc => hall c (hm.1.subset hc)) []
      rw [List.append_nil] at h
      exact h
    refine ⟨hnames ▸ .nil,[],.nil,?_,by simp⟩
    exact List.dropWhile_eq_nil_iff.mpr fun c hc => by simpa using hall c (List.mem_of_mem_drop hc)
  · obtain rfl := hw.2 hne
    obtain ⟨t,ht⟩ : ∃ t, mnt.path = '/' :: t := by
      have := mnt.absolute
      cases hp : mnt.path with
      | nil => simp [hp] at this
      | cons c t => exact ⟨t,by simpa [hp] using this⟩
    obtain ⟨ms,hms,he,-⟩ := @exists_glue _ '/' t
    have hpath : mnt.path = glue '/' ms := ht.trans he.symm
    obtain ⟨⟨r,hr⟩,hstop⟩ := hm
    rw [← hr,List.drop_left] at hstop
    obtain ⟨ds,rfl⟩ := (glue_initial hms hn.1).mp ⟨r,hstop,by rw [← hpath,hr]⟩
    have hnames : mnt.names = ms := by
      have hm : Names ms := ⟨hms,fun c hc => hn.2 c (by simp [hc])⟩
      rw [NestedMount.names,hpath,components_glue hms,hm.filter]
    have hd : Names ds := ⟨hn.1.right,fun d hd => hn.2 d (by simp [hd])⟩
    refine ⟨hnames ▸ ⟨hms,fun c hc => hn.2 c (by simp [hc])⟩,ds,hd,?_⟩
    rw [hpath,glue_append,List.drop_left]
    by_cases h0 : ds = []
    · exact h0 ▸ ⟨rfl,fun h => absurd rfl h⟩
    · exact hd.writes_behind h0

/-- What the loop over the mounts keeps: the path is one of names, and the mount is one of names. -/
def Kept (mounts : List NestedMount) (s : Start) : Prop :=
  (∃ cs, Names cs ∧ Writes s.savedPath cs) ∧ ∀ mnt, s.fh = some mnt → mnt ∈ mounts ∧ Names mnt.names

theorem switchMount_kept (h : Kept mounts s) (hmem : mnt ∈ mounts) : Kept mounts (switchMount s mnt) := by
  obtain ⟨⟨cs,hn,hw⟩,hfh⟩ := h
  unfold switchMount
  split
  · exact ⟨⟨cs,hn,hw⟩,hfh⟩
  · split
    · exact ⟨⟨cs,hn,hw⟩,hfh⟩
    · rename_i hm
      obtain ⟨hnames,ds⟩ := matches_writes hn hw (not_not.mp hm)
      refine ⟨ds,fun m he => ?_⟩
      obtain rfl := Option.some.inj he
      exact ⟨hmem,hnames⟩

theorem foldl_kept (h : Kept mounts s) {ms : List NestedMount} (hsub : ∀ m ∈ ms, m ∈ mounts) :
    Kept mounts (ms.foldl switchMount s) := by
  induction ms generalizing s with
  | nil => exact h
  | cons m ms ih => exact ih (switchMount_kept h (hsub m (by simp))) fun m' hm => hsub m' (by simp [hm])

theorem lookuppath_kept (h : nfs3LookuppathAsync cwd mounts path = .ok s) : Kept mounts s := by
  unfold nfs3LookuppathAsync at h
  cases hn : nfsNormalizePath (fullPath cwd path) with
  | error e => simp [hn,Except.map] at h
  | ok saved =>
    have hstart : Kept mounts ⟨none,saved,0⟩ := by
      refine ⟨?_,by simp⟩
      rcases nfsNormalizePath_shape hn with rfl | rfl | ⟨cs,hne,hcut,hplain,rfl⟩
      · exact ⟨[],.nil,rfl,by simp⟩
      · exact ⟨[],.nil,rfl,by simp⟩
      · exact ⟨cs,⟨hcut,hplain⟩,Names.writes_behind ⟨hcut,hplain⟩ hne⟩
    simp only [hn,Except.map,Except.ok.injEq] at h
    subst h
    split
    · exact foldl_kept hstart fun m hm => hm
    · exact hstart

end Start

section Link

variable {sv : Server α} {mounted : Mounted} {flags : Flags} {s : Start} {mnt : NestedMount} {st rest : List Path} {fh : Fh}
  {cwd path target : Path}

/-- The lookup reads the link. -/
theorem Meets.after (h : Meets sv mounted flags s mnt st rest fh target)
    (hs : nfs3LookuppathAsync cwd mounted.nestedMounts path = .ok s) :
    (∃ c, Names (st.reverse ++ c :: rest) ∧ s.savedPath = glue '/' (st.reverse ++ c :: rest)) ∧
      After sv mounted flags (first sv mounted flags s) (.readlink ⟨s.savedPath,behind rest,1⟩ fh) := by
  obtain ⟨above,dir,c,attr,hnames,hr,hl,hlink⟩ := h.link
  obtain ⟨⟨cs,hn,hw⟩,-⟩ := lookuppath_kept hs
  have hcs : cs = st.reverse ++ c :: rest := by
    rw [← hnames,Start.names_eq,← components_dropWhile,hw.1,hn.components]
  subst hcs
  have hrest : Names (c :: rest) := ⟨hn.1.right,fun d hd => hn.2 d (by simp only [List.mem_append]; exact .inr hd)⟩
  refine ⟨⟨c,hn,hw.2 (by simp)⟩,?_⟩
  have hfirst : first sv mounted flags s = nfs3LookupPathAsyncInternal sv flags none ⟨s.savedPath,s.savedPath,0⟩ mnt.fh := by
    unfold first
    rw [h.mount]
  rw [hfirst]
  obtain ⟨attr',hattr,hafter⟩ := @Rooted.after _ sv mounted flags ⟨s.savedPath,s.savedPath,0⟩ _ _ _ _ _ hr hrest hw.1
  refine hafter.trans ?_
  rw [internal_cons hattr hrest hrest.behind_strip]
  refine .lookup ?_
  have hat := @internal_link _ sv flags ⟨s.savedPath,behind rest,0⟩ fh rest attr hlink hrest.tail
  rw [if_neg h.followed.1,if_neg fun hf => h.followed.2 hf.1 hf.2,if_neg (by simp [maxLinkCount])] at hat
  rw [hl]
  simp only [nfs3LookupPath1Cb]
  rw [show nfs3LookupPathAsyncInternal sv flags (some attr) ⟨s.savedPath,behind rest,0⟩ fh = _ from hat]
  exact .refl _

/-- The lookup goes on in the root export, with the path as it was without that of the mount; it does what it should only where
there is nothing to go on with. -/
theorem nested_link (hs : nfs3LookuppathAsync cwd mounted.nestedMounts path = .ok s)
    (h : Meets sv mounted flags s mnt st rest fh target) (hfh : ∀ m ∈ mounted.nestedMounts, m.fh ≠ mounted.rootfh) :
    After sv mounted flags (first sv mounted flags s) (.readlink ⟨s.savedPath,behind rest,1⟩ fh) ∧
      (Continues sv mounted flags 1 (combined mnt st target rest)
        (nfs3LookupPath2Cb sv mounted flags ⟨s.savedPath,behind rest,1⟩ (sv.readlink fh)) ↔
          combined mnt st target rest = none) := by
  obtain ⟨⟨c,hn,hsaved⟩,hafter⟩ := h.after hs
  refine ⟨hafter,?_⟩
  obtain ⟨-,hmount⟩ := lookuppath_kept hs
  obtain ⟨hmem,-⟩ := hmount mnt h.mount
  have hcb := @cb_relative _ sv mounted flags ⟨s.savedPath,behind rest,1⟩ st rest c target h.relative hn hsaved rfl
  rw [h.read]
  cases hfold : (components '/' target ++ rest).foldlM push st with
  | none =>
    rw [hfold] at hcb
    rw [hcb]
    constructor
    · intro hc
      cases hcomb : combined mnt st target rest with
      | none => rfl
      | some cs =>
        rw [hcomb] at hc
        obtain ⟨m,looked,w,-,-,he⟩ := hc
        rcases internal_start sv flags ((m.map (·.fh)).getD mounted.rootfh) w 1 with hi | ⟨d,name,hi,-⟩
        all_goals simp [hi] at he
    · intro hcomb
      rw [hcomb]
      rfl
  | some qs =>
    rw [hfold] at hcb
    obtain ⟨-,w,-,hcb⟩ := hcb
    have hcomb : combined mnt st target rest = some (mnt.names ++ qs.reverse) := by
      rw [combined,foldlM_push_below _ hfold]
      simp
    rw [hcb,hcomb]
    simp only [reduceCtorEq,iff_false]
    rintro ⟨m,looked,w',hlong,-,he⟩
    have hsame : (m.map (·.fh)).getD mounted.rootfh = mounted.rootfh := by
      rcases internal_start sv flags ((m.map (·.fh)).getD mounted.rootfh) w' 1 with h2 | ⟨d',name',h2,-⟩ <;>
        rcases internal_start sv flags mounted.rootfh w 1 with h1 | ⟨d,name,h1,-⟩ <;>
        rw [h1,h2] at he
      · simp only [Next.done.injEq,Result.continued.injEq] at he
        exact he.1.symm
      · simp at he
      · simp at he
      · exact (Next.lookup.inj he).2.1.symm
    cases m with
    | none => exact hlong.1 mnt hmem (List.prefix_append _ _)
    | some m => exact hfh m hlong.1 hsame

end Link

/-- The mount `/m` with the link `l` beside the directory `d` -/
def mountM : NestedMount := ⟨['/','m'],[9],rfl⟩

def rootM : Mounted := ⟨[0],['/','e'],[mountM]⟩

def serverM (target : Path) : Server Bool where
  lookup := fun fh c => if fh = [9] ∧ c = ['l'] then .ok ([1],true) else if fh = [9] ∧ c = ['d'] then .ok ([2],false) else .error 2
  readlink := fun fh => if fh = [1] then .ok target else .error 22
  getattr := fun _ => .ok false
  isLink := id

theorem meets_m (target : Path) (ht : target.head? ≠ some '/') :
    Meets (serverM target) rootM ⟨false,false⟩ ⟨some mountM,['/','l'],2⟩ mountM [] [] [1] target where
  mount := rfl
  link := ⟨[],[9],['l'],true,by rfl,.root,by rfl,rfl⟩
  followed := by simp
  read := rfl
  relative := ht

/-- `/m/l`, with a target that climbs above the root -/
theorem nested_link_climbs :
    nfs3LookuppathAsync ['/'] rootM.nestedMounts ['/','m','/','l'] = .ok ⟨some mountM,['/','l'],2⟩ ∧
    After (serverM ['.','.','/','.','.','/','d']) rootM ⟨false,false⟩
        (first (serverM ['.','.','/','.','.','/','d']) rootM ⟨false,false⟩ ⟨some mountM,['/','l'],2⟩)
        (.readlink ⟨['/','l'],[],1⟩ [1]) ∧
      (Continues (serverM ['.','.','/','.','.','/','d']) rootM ⟨false,false⟩ 1
        (combined mountM [] ['.','.','/','.','.','/','d'] [])
        (nfs3LookupPath2Cb (serverM ['.','.','/','.','.','/','d']) rootM ⟨false,false⟩ ⟨['/','l'],[],1⟩
          ((serverM ['.','.','/','.','.','/','d']).readlink [1])) ↔
        combined mountM [] ['.','.','/','.','.','/','d'] [] = none) :=
  ⟨by rfl,@nested_link _ _ _ _ _ _ _ _ _ ['/'] ['/','m','/','l'] _ (by rfl) (meets_m _ (by decide)) (by simp [rootM,mountM])⟩

/-- `/m/l`, with the target `d`: the lookup goes on at the root export and not at the mount. -/
theorem nested_link_fails :
    nfs3LookuppathAsync ['/'] rootM.nestedMounts ['/','m','/','l'] = .ok ⟨some mountM,['/','l'],2⟩ ∧
    Meets (serverM ['d']) rootM ⟨false,false⟩ ⟨some mountM,['/','l'],2⟩ mountM [] [] [1] ['d'] ∧
    ¬ Continues (serverM ['d']) rootM ⟨false,false⟩ 1 (combined mountM [] ['d'] [])
      (nfs3LookupPath2Cb (serverM ['d']) rootM ⟨false,false⟩ ⟨['/','l'],[],1⟩ ((serverM ['d']).readlink [1])) := by
  have hcomb : combined mountM [] ['d'] [] = some [['m'],['d']] := by rfl
  refine ⟨by rfl,meets_m _ (by decide),?_⟩
  rw [hcomb]
  rintro ⟨m,looked,w,hlong,-,he⟩
  have hrun : nfs3LookupPath2Cb (serverM ['d']) rootM ⟨false,false⟩ ⟨['/','l'],[],1⟩ ((serverM ['d']).readlink [1]) =
      .lookup ⟨['/','d'],[],1⟩ [0] ['d'] := by rfl
  rw [hrun] at he
  rcases internal_start (serverM ['d']) ⟨false,false⟩ ((m.map (·.fh)).getD rootM.rootfh) w 1 with h | ⟨d,name,h,-⟩
  · simp [h] at he
  · rw [h] at he
    have hfh := (Next.lookup.inj he).2.1
    cases m with
    | none => exact hlong.1 mountM (by simp [rootM]) ⟨[['d']],by rfl⟩
    | some m =>
      obtain rfl : m = mountM := by simpa [rootM] using hlong.1
      simp [mountM] at hfh

end NestedLinks
end Libnfs
