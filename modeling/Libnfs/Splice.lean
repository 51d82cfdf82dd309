import Libnfs.Lookup3Resolves
import Libnfs.Lookup4

/-! The path that `lib/nfs_v4.c` looks up once a symbolic link is read, in its two copies, against the names that the link leads
to, and the lookup of `lib/nfs_v3.c` in the same namespace. -/
namespace Libnfs
namespace Splice

open Paths Normalize Lookup4
open Lookup3 (Names Writes behind)
open Resolution (Export insideExport)

/-- The names behind a link, in the place of the link behind `pre` or from the root of the export -/
def spliceNames (export_ : Path) (pre : List Path) (target : Path) (rest : List Path) : Option (List Path) :=
  if target.head? = some '/' then
    (insideExport export_ target).bind fun t => (components '/' t ++ rest).foldlM push []
  else (components '/' target ++ rest).foldlM push pre.reverse

/-- The lookup is started again with the path of the names, or refused if there are none. -/
def Retries (d : Data) (names : Option (List Path)) (next : Next) : Prop :=
  match names with
  | none => ∃ err, next = .done (.called err)
  | some st => next = .lookup { d with path := written [] st }

/-- The open is started again with the path of the names, cut at the last one. -/
def Reopens (names : Option (List Path)) (next : Next) : Prop :=
  match names with
  | none => ∃ err, next = .done (.called err)
  | some st => ∃ path name, dataSplitPath (written [] st) = some (path,name) ∧ next = .lookup ⟨path,name,false⟩

/-- A target that is relative, or where only the root of the server is exported and the link is in it; or it leads above the root
even from the directory that the link is in. -/
def Replaces (export_ : Path) (pre : List Path) (target : Path) (rest : List Path) : Prop :=
  target.head? ≠ some '/' ∨ (pre = [] ∧ components '/' export_ = []) ∨
    (components '/' target ++ rest).foldlM push pre.reverse = none

section Names

variable {cs st st' qs pre rest names : List Path} {path target export_ raw : Path}

theorem push_names (h : cs.foldlM push st = some qs) (hcut : Cut '/' cs) (hst : Names st) : Names qs := by
  have hmem := foldlM_push_mem h
  refine ⟨fun d hd => ?_,fun d hd => ?_⟩
  · rcases hmem d hd with hd | ⟨hd,-⟩
    · exact hst.1 d hd
    · exact hcut d hd
  · rcases hmem d hd with hd | ⟨-,hd⟩
    · exact hst.2 d hd
    · exact hd

theorem writes_written (h : Names st) : Writes (written [] st) st.reverse := by
  cases st with
  | nil => exact ⟨rfl,fun h => absurd rfl h⟩
  | cons c st => exact h.reverse.writes_behind (by simp)

theorem written_inj (h : Names st) (h' : Names st') (he : written [] st = written [] st') : st = st' :=
  List.reverse_injective (Lookup3.writes_inj h.reverse h'.reverse (writes_written h) (he ▸ writes_written h'))

theorem good_written (h : Names st) : Good (written [] st) st.reverse := by
  cases st with
  | nil => exact .root
  | cons c st => exact .names (by simp) h.reverse.1 h.reverse.2

theorem good_names (h : Good path names) : Names names ∧ path = written [] names.reverse := by
  cases h with
  | root => exact ⟨.nil,rfl⟩
  | names hne hcut hplain =>
    refine ⟨⟨hcut,hplain⟩,?_⟩
    obtain ⟨pre,l,rfl⟩ := dropLast_concat hne
    simp [written]

/-- A normalized path that is not empty is the one of its names. -/
theorem normalized_written (hst : Names st) (hw : Writes path st.reverse) (hn : nfsNormalizePath target = .ok path)
    (hne : path ≠ []) : path = written [] st := by
  obtain ⟨names,hg⟩ := good_of_normalized hn hne
  obtain ⟨hnames,he⟩ := good_names hg
  have hw' : Writes path names := by
    have h := writes_written hnames.reverse
    rwa [← he,List.reverse_reverse] at h
  obtain rfl := Lookup3.writes_inj hnames hst.reverse hw' hw
  rwa [List.reverse_reverse] at he

/-- A normalized export is made of names, or is the root. -/
theorem export_names (h : nfsNormalizePath raw = .ok export_) : Names (components '/' export_) := by
  rcases nfsNormalizePath_shape h with rfl | rfl | ⟨cs,-,hcut,hplain,rfl⟩
  · exact .nil
  · exact .nil
  · rw [components_glue hcut,Names.filter ⟨hcut,hplain⟩]
    exact ⟨hcut,hplain⟩

/-- A target inside the export starts with its components. -/
theorem inside_components {t : Path} (h : insideExport export_ target = some t) :
    components '/' target = components '/' export_ ++ components '/' t := by
  have hall : ∀ c ∈ export_.rtakeWhile (· = '/'), c = '/' := fun c hc => by simpa using List.mem_rtakeWhile_imp hc
  have hsplit : export_.rdropWhile (· = '/') ++ export_.rtakeWhile (· = '/') = export_ := List.rdropWhile_append_rtakeWhile
  have hstops : Stops '/' (export_.rtakeWhile (· = '/')) := by
    cases hc : export_.rtakeWhile (· = '/') with
    | nil => exact .inl rfl
    | cons c slashes => exact .inr ⟨slashes,by rw [hall c (by simp [hc])]⟩
  have hexport : components '/' export_ = components '/' (export_.rdropWhile (· = '/')) := by
    have hnil := Lookup3.components_slashes hall []
    rw [List.append_nil] at hnil
    conv_lhs => rw [← hsplit,components_append hstops,hnil]
    exact List.append_nil _
  unfold insideExport at h
  simp only at h
  split at h
  · rename_i hin
    obtain ⟨⟨s,rfl⟩,hstop⟩ := hin
    rw [List.drop_left] at hstop h
    obtain rfl := Option.some.inj h
    rw [hexport]
    exact components_append hstop
  · simp at h

/-- The names behind a link are the ones that the path with the target put in leads to, exactly if the target replaces what it
should. -/
theorem spliceNames_iff (hexp : nfsNormalizePath raw = .ok export_)
    (hin : target.head? = some '/' → (insideExport export_ target).isSome) :
    spliceNames export_ pre target rest = (components '/' target ++ rest).foldlM push pre.reverse ↔
      Replaces export_ pre target rest := by
  unfold spliceNames Replaces
  by_cases habs : target.head? = some '/'
  · obtain ⟨t,ht⟩ := Option.isSome_iff_exists.mp (hin habs)
    have hes := export_names hexp
    have hbase : (components '/' target ++ rest).foldlM push pre.reverse =
        (components '/' t ++ rest).foldlM push ((components '/' export_).reverse ++ pre.reverse) := by
      rw [inside_components ht,List.append_assoc,Lookup3.foldlM_push_append _ hes]
    rw [if_pos habs,ht,Option.bind_some,hbase]
    simp only [habs,ne_eq,not_true_eq_false,false_or]
    cases hfold : (components '/' t ++ rest).foldlM push [] with
    | none =>
      constructor
      · exact fun h => .inr h.symm
      · rintro (⟨rfl,he⟩ | h)
        · rw [he]
          exact hfold.symm
        · exact h.symm
    | some qs =>
      have hbelow := Lookup3.foldlM_push_below ((components '/' export_).reverse ++ pre.reverse) hfold
      rw [List.nil_append] at hbelow
      rw [hbelow]
      simp only [Option.some.injEq,reduceCtorEq,or_false]
      constructor
      · intro h
        have hnil : (components '/' export_).reverse ++ pre.reverse = [] := by
          have hlen := congrArg List.length h
          rw [← List.length_eq_zero_iff]
          simp only [List.length_append] at hlen ⊢
          omega
        simpa [and_comm] using hnil
      · rintro ⟨rfl,he⟩
        simp [he]
  · simp [habs]

end Names

section Lookup

variable {ι : Type} {ns : Namespace ι} {op : Op ns} {cwd target export_ raw : Path} {d : Data} {pre rest names : List Path}
  {next : Next} {m : ι}

theorem Retries.unique {x y : Option (List Path)} (h : Retries d x next) (h' : Retries d y next)
    (hx : ∀ st, x = some st → Names st) (hy : ∀ st, y = some st → Names st) : x = y := by
  cases x with
  | none =>
    obtain ⟨err,he⟩ := h
    cases y with
    | none => rfl
    | some st => simp [he,Retries] at h'
  | some st =>
    have hnext : next = .lookup { d with path := written [] st } := h
    cases y with
    | none =>
      obtain ⟨err,he⟩ := h'
      simp [hnext] at he
    | some st' =>
      have hnext' : next = .lookup { d with path := written [] st' } := h'
      rw [hnext] at hnext'
      have he := congrArg Data.path (Next.lookup.inj hnext')
      rw [written_inj (hx st rfl) (hy st' rfl) he]

theorem spliceNames_names (hpre : Names pre) (hrest : Names rest) :
    ∀ st, spliceNames export_ pre target rest = some st → Names st := by
  intro st h
  unfold spliceNames at h
  split at h
  · obtain ⟨t,-,h⟩ := Option.bind_eq_some_iff.mp h
    exact push_names h ((Lookup3.components_cut t).append hrest.1) .nil
  · exact push_names h ((Lookup3.components_cut target).append hrest.1) hpre.reverse

/-- What is looked up in the place of a path behind its link -/
theorem spliced_retries (hpre : Names pre) (hrest : Names rest) :
    Retries d ((components '/' target ++ rest).foldlM push pre.reverse) (spliced cwd d pre target rest) := by
  obtain ⟨ts,hcut,he,hne,hfilter⟩ := Lookup3.components_eq_filter target
  -- what is behind the target ends with a name or, behind the last component, with the `/`
  obtain ⟨tail,htail,hglue,hpush,hlast⟩ : ∃ tail, Cut '/' tail ∧ glue '/' tail = '/' :: (glue '/' rest).drop 1 ∧
      (∀ st, tail.foldlM push st = rest.foldlM push st) ∧
      ∃ s l, '/' :: (glue '/' rest).drop 1 = s ++ '/' :: l ∧ '/' ∉ l ∧ (l = [] ∨ Plain l) := by
    by_cases h0 : rest = []
    · subst h0
      exact ⟨[[]],by simp [Cut],rfl,fun _ => rfl,[],[],rfl,by simp,.inl rfl⟩
    · obtain ⟨r,l,rfl⟩ := dropLast_concat h0
      refine ⟨r ++ [l],hrest.1,?_,fun _ => rfl,glue '/' r,l,?_,hrest.1 l (by simp),.inr (hrest.2 l (by simp))⟩
      · cases r <;> simp
      · cases r <;> simp
  obtain ⟨s,l,hs,hl,h0⟩ := hlast
  have hpath : glue '/' pre ++ '/' :: (target ++ '/' :: (glue '/' rest).drop 1) = glue '/' (pre ++ (ts ++ tail)) := by
    rw [glue_append,glue_append,he,hglue]
    simp
  have hfold : (pre ++ (ts ++ tail)).foldlM push [] = (components '/' target ++ rest).foldlM push pre.reverse := by
    rw [Lookup3.foldlM_push_append [] hpre,List.append_nil,List.foldlM_append,List.foldlM_append,hfilter,
      foldlM_push_filter _ (.inl rfl)]
    cases ts.foldlM push pre.reverse with
    | none => rfl
    | some st => exact hpush st
  have hwrites := Lookup3.normalize_writes (hpre.1.append (hcut.append htail)) (by simp [hne])
  have hhead : (glue '/' (pre ++ (ts ++ tail))).head? = some '/' := by
    rw [← hpath]
    cases pre <;> rfl
  unfold spliced Next.ofLookup nfs4LookupPathAsync nfs4ResolvePath
  simp only [hpath]
  rw [if_pos hhead]
  rw [hfold] at hwrites
  cases hq : (components '/' target ++ rest).foldlM push pre.reverse with
  | none =>
    rw [hq] at hwrites
    obtain ⟨e,herr⟩ := hwrites
    rw [herr]
    exact ⟨-12,rfl⟩
  | some st =>
    rw [hq] at hwrites
    obtain ⟨hst,path,hok,hw⟩ := hwrites
    have hnil : path ≠ [] := by
      rw [← hpath,hs] at hok
      refine nfsNormalizePath_ne_nil hl h0 (s := glue '/' pre ++ '/' :: (target ++ s)) ?_
      simpa using hok
    have hst' : Names st := by
      have h := hst.reverse
      rwa [List.reverse_reverse] at h
    rw [hok,normalized_written hst' hw hok hnil]
    rfl

/-- A link on the way of a lookup is read, and what is looked up then leads where the link does exactly if the target replaces what
it should. -/
theorem splice_iff {idx : ℕ} (hg : Good d.path names) (hread : d.reading = false)
    (hs : ns.seek ns.root names = .link idx target rest m) (hfollow : op.follow cwd d ≠ none)
    (hexp : nfsNormalizePath raw = .ok export_) (hin : target.head? = some '/' → (insideExport export_ target).isSome) :
    ∃ next, Reads op cwd d next ∧
      (Retries d (spliceNames export_ (names.take (idx-1)) target rest) next ↔
        Replaces export_ (names.take (idx-1)) target rest) := by
  obtain ⟨hnames,-⟩ := good_names hg
  obtain ⟨c,hsplit,-⟩ := @LinkAt.of_seek _ _ op d _ _ _ _ _ hg hs
  have hpre : Names (names.take (idx-1)) := ⟨fun e he => hnames.1 e (List.mem_of_mem_take he),
    fun e he => hnames.2 e (List.mem_of_mem_take he)⟩
  have hrest : Names rest := by
    rw [hsplit] at hnames
    exact ⟨hnames.1.right.tail,fun e he => hnames.2 e (by simp [he])⟩
  have hround := @round_follow _ _ op cwd _ _ hg hread
  have hf : op.follow cwd d = some (spliced cwd d (names.take (idx-1)) target rest) := by
    unfold Op.follow at hfollow ⊢
    simp only [hg.pathNames,hs] at hfollow ⊢
    split at hfollow
    · exact absurd rfl hfollow
    · rw [if_neg ‹_›]
  rw [hf] at hround
  refine ⟨_,hround,?_⟩
  have hcode := @spliced_retries cwd target d _ rest hpre hrest
  rw [← spliceNames_iff hexp hin]
  constructor
  · exact fun h => h.unique hcode (spliceNames_names hpre hrest)
      fun st he => push_names he ((Lookup3.components_cut target).append hrest.1) hpre.reverse
  · intro h
    rw [h]
    exact hcode

theorem dataSplitPath_written {c : Path} {st : List Path} (h : Names (c :: st)) :
    dataSplitPath (written [] (c :: st)) = some (written [] st,c) := by
  have hw : written [] (c :: st) = glue '/' (st.reverse ++ [c]) := by rw [← List.reverse_cons]; rfl
  rw [hw,dataSplitPath_glue h.1.head]
  cases st with
  | nil => rfl
  | cons d st => simp [written]

theorem Reopens.unique {x y : Option (List Path)} (h : Reopens x next) (h' : Reopens y next)
    (hx : ∀ st, x = some st → Names st) (hy : ∀ st, y = some st → Names st) : x = y := by
  cases x with
  | none =>
    obtain ⟨err,he⟩ := h
    cases y with
    | none => rfl
    | some st =>
      obtain ⟨path,name,-,he'⟩ := h'
      simp [he] at he'
  | some st =>
    obtain ⟨path,name,hsplit,hnext⟩ := h
    cases y with
    | none =>
      obtain ⟨err,he⟩ := h'
      simp [hnext] at he
    | some st' =>
      obtain ⟨path',name',hsplit',hnext'⟩ := h'
      rw [hnext,Next.lookup.injEq,Data.mk.injEq] at hnext'
      obtain ⟨rfl,rfl,-⟩ := hnext'
      have hroot : dataSplitPath (written [] []) = some (['/'],[]) := by rfl
      cases st with
      | nil =>
        cases st' with
        | nil => rfl
        | cons c st' =>
          rw [hroot,Option.some.injEq,Prod.mk.injEq] at hsplit
          rw [dataSplitPath_written (hy _ rfl),Option.some.injEq,Prod.mk.injEq] at hsplit'
          exact absurd (hsplit'.2.trans hsplit.2.symm) ((hy _ rfl).2 c (by simp)).1
      | cons c st =>
        rw [dataSplitPath_written (hx _ rfl),Option.some.injEq,Prod.mk.injEq] at hsplit
        cases st' with
        | nil =>
          rw [hroot,Option.some.injEq,Prod.mk.injEq] at hsplit'
          exact absurd (hsplit.2.trans hsplit'.2.symm) ((hx _ rfl).2 c (by simp)).1
        | cons c' st' =>
          rw [dataSplitPath_written (hy _ rfl),Option.some.injEq,Prod.mk.injEq] at hsplit'
          have hst := written_inj (hx _ rfl).tail (hy _ rfl).tail (hsplit.1.trans hsplit'.1.symm)
          rw [hst,hsplit.2.trans hsplit'.2.symm]

/-- The path of an open with the target behind it becomes empty, and cannot be cut. -/
def Vanishes (d : Data) (target : Path) : Prop :=
  resolve (d.path ++ '/' :: target) = some [] ∧ EndsInDots (d.path ++ '/' :: target)

/-- What is opened in the place of a path with its link -/
theorem reopened_reopens (hg : Good d.path names) :
    (Vanishes d target → reopened cwd d target = .done .crash) ∧
      (¬ Vanishes d target →
        Reopens ((components '/' target).foldlM push names.reverse) (reopened cwd d target)) := by
  obtain ⟨ts,hcut,he,hne,hfilter⟩ := Lookup3.components_eq_filter target
  obtain ⟨ds,hds,hpath,hpush⟩ : ∃ ds, Cut '/' ds ∧ d.path = glue '/' ds ∧ ds.foldlM push [] = some names.reverse := by
    generalize d.path = path at hg
    cases hg with
    | root => exact ⟨[[]],by simp [Cut],rfl,rfl⟩
    | names _ hcut hplain =>
      refine ⟨names,hcut,rfl,?_⟩
      rw [foldlM_push_plain [] hplain,List.append_nil]
  have hglue : d.path ++ '/' :: target = glue '/' (ds ++ ts) := by rw [glue_append,he,hpath]
  have hfold : (ds ++ ts).foldlM push [] = (components '/' target).foldlM push names.reverse := by
    rw [List.foldlM_append,hpush,Option.bind_eq_bind,Option.bind_some,hfilter,foldlM_push_filter _ (.inl rfl)]
  have hwrites := Lookup3.normalize_writes (hds.append hcut) (by simp [hne])
  have hres : resolve (d.path ++ '/' :: target) = ((components '/' target).foldlM push names.reverse).map List.reverse := by
    rw [hglue,resolve_glue (hds.append hcut) (by simp [hne]),hfold]
  have hnorm := nfsNormalizePath_normalizes (d.path ++ '/' :: target)
  have hhead : (d.path ++ '/' :: target).head? = some '/' := by
    rw [hpath]
    obtain ⟨t,ts,rfl⟩ := List.exists_cons_of_ne_nil hne
    cases ds <;> rfl
  rw [hfold,← hglue] at hwrites
  have hcode : nfs4ResolvePath cwd (d.path ++ '/' :: target) = nfsNormalizePath (d.path ++ '/' :: target) := by
    rw [nfs4ResolvePath,if_pos hhead]
  unfold reopened
  rw [hcode]
  constructor
  · intro hv
    have hq : (components '/' target).foldlM push names.reverse = some [] := by
      have := hv.1
      rw [hres,Option.map_eq_some_iff] at this
      obtain ⟨st,hst,hrev⟩ := this
      rw [hst,List.reverse_eq_nil_iff.mp hrev]
    rw [hq] at hwrites
    obtain ⟨-,path,hok,hw⟩ := hwrites
    have hnil : path = [] := by
      by_contra hne
      obtain rfl := normalized_written .nil hw hok hne
      refine hnorm.mp ?_ hv
      unfold Normalizes
      rw [hok]
      exact ⟨by simp [hv.1],by rw [hv.1]; rfl,.inl rfl,rfl⟩
    rw [hok,hnil]
    rfl
  · intro hv
    have hnorm := hnorm.mpr hv
    cases hq : (components '/' target).foldlM push names.reverse with
    | none =>
      rw [hq] at hwrites
      obtain ⟨e,herr⟩ := hwrites
      rw [herr]
      exact ⟨-22,rfl⟩
    | some st =>
      rw [hq] at hwrites
      obtain ⟨hst,path,hok,hw⟩ := hwrites
      have hst' : Names st := by
        have h := hst.reverse
        rwa [List.reverse_reverse] at h
      have hnil : path ≠ [] := by
        unfold Normalizes at hnorm
        rw [hok] at hnorm
        rintro rfl
        exact not_canonical_nil hnorm.2.2.1
      obtain rfl := normalized_written hst' hw hok hnil
      obtain ⟨dir,name,names',hsplit,hdir⟩ := (good_written hst').split
      refine ⟨dir,name,hsplit,?_⟩
      rw [hok]
      simp only [hsplit]
      exact @ofLookup_good cwd ⟨dir,name,false⟩ names' hdir

/-- The link at the end of an open is read, and what is opened then is where the link leads exactly if the target replaces what it
should and leaves something to open. -/
theorem reopen_iff {n k : ι} (hg : Good d.path names) (hread : d.reading = false) (hs : ns.seek ns.root names = .node n)
    (hopen : op.isOpen ∧ ¬ op.noFollow) (hk : ns.lookup n d.name = .ok k) (hlink : ns.link k = some target)
    (hexp : nfsNormalizePath raw = .ok export_) (hin : target.head? = some '/' → (insideExport export_ target).isSome) :
    ∃ next, Reads op cwd d next ∧
      (Reopens (spliceNames export_ names target []) next ↔ Replaces export_ names target [] ∧ ¬ Vanishes d target) := by
  obtain ⟨hnames,-⟩ := good_names hg
  have hround := @round_follow _ _ op cwd _ _ hg hread
  have hf : op.follow cwd d = some (reopened cwd d target) := by
    unfold Op.follow
    rw [hg.pathNames,hs]
    simp only [hopen,hk,hlink]
    rfl
  rw [hf] at hround
  refine ⟨_,hround,?_⟩
  obtain ⟨hcrash,hcode⟩ := @reopened_reopens cwd target d names hg
  have hiff := @spliceNames_iff names [] target export_ raw hexp hin
  rw [List.append_nil] at hiff
  rw [← hiff]
  constructor
  · intro h
    have hv : ¬ Vanishes d target := by
      intro hv
      rw [hcrash hv] at h
      cases hsn : spliceNames export_ names target [] with
      | none =>
        rw [hsn] at h
        obtain ⟨err,he⟩ := h
        simp at he
      | some st =>
        rw [hsn] at h
        obtain ⟨path,name,-,he⟩ := h
        simp at he
    exact ⟨h.unique (hcode hv) (spliceNames_names hnames .nil)
      fun st he => push_names he (Lookup3.components_cut target) hnames.reverse,hv⟩
  · rintro ⟨h,hv⟩
    rw [h]
    exact hcode hv

end Lookup

section Same

open Resolution (Place Outcome Resolves Reaches Descends Meets)
open Lookup3 (Fh Flags Rooted)

variable {α ι : Type}

/-- Every object of the namespace has a handle, behind which the export shows it. -/
structure Serves (ex : Export α) (ns : Namespace ι) (handle : ι → Fh) : Prop where
  root : ex.rootfh = handle ns.root
  lookup : ∀ n c,
    match ns.lookup n c with
    | .error _ => ∃ st, ex.server.lookup (handle n) c = .error st
    | .ok m => ∃ attr, ex.server.lookup (handle n) c = .ok (handle m,attr) ∧
        ex.server.isLink attr = (ns.link m).isSome
  readlink : ∀ {n target}, ns.link n = some target → ex.server.readlink (handle n) = .ok target

/-- A lookup that follows every link, with requests of its own that succeed -/
def look (ns : Namespace ι) : Op ns := ⟨false,false,fun _ _ => 0,by simp⟩

/-- How a lookup ends against where the resolution does -/
inductive Arrives (ns : Namespace ι) (handle : ι → Fh) : Result → Outcome → Prop
  | reached {d : Data} {n : ι} : ns.seek ns.root (pathNames d.path) = .node n →
      Arrives ns handle (.continued d) (.reached (handle n))
  | failed {err : ℤ} : Arrives ns handle (.called err) .failed

/-- The lookup is over after finitely many COMPOUNDs, and ends as the resolution does. -/
def Over (ns : Namespace ι) (handle : ι → Fh) (cwd : Path) (d : Data) (o : Outcome) : Prop :=
  ∀ sent, ∃ fuel sent' r, run (look ns) cwd fuel sent d = some (sent',r) ∧ Arrives ns handle r o

/-- The links that the resolution meets are relative. -/
def Relative (ex : Export α) (p : Place) : Prop :=
  ∀ rest fh target, Meets ex p rest fh → ex.server.readlink fh = .ok target → target.head? ≠ some '/'

variable {ex : Export α} {ns : Namespace ι} {handle : ι → Fh} {cwd : Path} {d : Data} {n m : ι} {st names : List Path}
  {above : List Fh} {dir fh : Fh} {c : Path}

theorem Serves.found (sv : Serves ex ns handle) {attr : α} (h : ex.server.lookup (handle n) c = .ok (fh,attr)) :
    ∃ m, ns.lookup n c = .ok m ∧ fh = handle m ∧ ex.server.isLink attr = (ns.link m).isSome := by
  have hl := sv.lookup n c
  cases hn : ns.lookup n c with
  | error st =>
    rw [hn] at hl
    obtain ⟨st',he⟩ := hl
    rw [he] at h
    simp at h
  | ok m =>
    rw [hn] at hl
    obtain ⟨attr',he,hlink⟩ := hl
    rw [he,Except.ok.injEq,Prod.mk.injEq] at h
    exact ⟨m,rfl,h.1.symm,h.2 ▸ hlink⟩

theorem Serves.missing (sv : Serves ex ns handle) {status : ℤ} (h : ex.server.lookup (handle n) c = .error status) :
    ∃ st, ns.lookup n c = .error st := by
  have hl := sv.lookup n c
  cases hn : ns.lookup n c with
  | error st => exact ⟨st,rfl⟩
  | ok m =>
    rw [hn] at hl
    obtain ⟨attr,he,-⟩ := hl
    rw [he] at h
    simp at h

/-- The walk through the namespace comes down the same directories. -/
theorem Serves.rooted (sv : Serves ex ns handle) (hr : Rooted ex.server ex.rootfh st above dir) :
    ∃ n, dir = handle n ∧ ns.link n = none ∧
      ∀ todo, ns.seek ns.root (st.reverse ++ todo) = Found.behind^[st.length] (ns.seek n todo) := by
  induction hr with
  | root => exact ⟨ns.root,sv.root,ns.root_link,fun _ => rfl⟩
  | @down st above dir fh c attr _ _ _ hl hlink ih =>
    obtain ⟨n,rfl,-,hseek⟩ := ih
    obtain ⟨m,hm,rfl,hlm⟩ := sv.found hl
    have hnone : ns.link m = none := by
      rw [hlm,Bool.not_eq_true,Option.isSome_eq_false_iff,Option.isNone_iff_eq_none] at hlink
      exact hlink
    refine ⟨m,rfl,hnone,fun todo => ?_⟩
    rw [List.reverse_cons,List.append_assoc,List.singleton_append,hseek,List.length_cons,Function.iterate_succ_apply]
    simp only [Namespace.seek,hm,hnone]

theorem behind_failed (k : ℕ) (st : ℤ) : Found.behind^[k] (.failed st : Found ι) = .failed st := by
  induction k with
  | zero => rfl
  | succ k ih =>
    rw [Function.iterate_succ_apply]
    exact ih

theorem behind_node (k : ℕ) : Found.behind^[k] (.node n) = .node n := by
  induction k with
  | zero => rfl
  | succ k ih =>
    rw [Function.iterate_succ_apply]
    exact ih

theorem behind_link (k idx : ℕ) (target : Path) (rest : List Path) :
    Found.behind^[k] (.link idx target rest n) = .link (idx+k) target rest n := by
  induction k generalizing idx with
  | zero => rfl
  | succ k ih =>
    rw [Function.iterate_succ_apply]
    refine (ih (idx+1)).trans ?_
    rw [Nat.add_assoc,Nat.add_comm 1]

theorem over_of_round {r : Result} {o : Outcome} (h : round (look ns) cwd d = (⟨1,0⟩,.done r))
    (ha : Arrives ns handle r o) : Over ns handle cwd d o := by
  intro sent
  refine ⟨1,⟨sent.compounds+1,sent.readlinks⟩,r,?_,ha⟩
  rw [run_succ,h]
  rfl

theorem look_failed {st : ℤ} (hs : ns.seek ns.root (pathNames d.path) = .failed st) :
    Over ns handle cwd d .failed := by
  have h := walk_seek ns ((look ns).fill d) ns.root_link (pathNames d.path)
  rw [hs] at h
  obtain ⟨h0,hne,hst⟩ := h
  have hans : ((look ns).answer d).2 = st := hst
  exact over_of_round (round_done (cb_failed (hans ▸ h0) (hans ▸ hne)) (by simp)) .failed

theorem look_node (hread : d.reading = false) (hs : ns.seek ns.root (pathNames d.path) = .node n) :
    Over ns handle cwd d (.reached (handle n)) := by
  have h := walk_seek ns ((look ns).fill d) ns.root_link (pathNames d.path)
  rw [hs] at h
  have hfill : (look ns).fill d n = ([.other],0) := by simp [Op.fill,look,hread]
  have hans : (look ns).answer d =
      (.other :: (passed (pathNames d.path).length ([.getattr false,.other],0)).1,0) := by
    unfold Op.answer Namespace.compound
    rw [h.2,hfill]
    rfl
  have hl : OpRes.getattr true ∉ ((look ns).answer d).1 := by
    rw [hans,mem_passed (by simp)]
    simp
  have ho : OpRes.open_ errSymlink ∉ ((look ns).answer d).1 := by
    rw [hans,mem_passed (by simp)]
    simp
  exact over_of_round (round_done (cb_plain hl ho (by rw [hans])) (by simp [hread])) (.reached hs)

/-- A link that the lookup follows: it goes on with the path that the link leads to. -/
theorem look_link {idx : ℕ} {target : Path} {rest : List Path} {o : Outcome} (hg : Good d.path names) (hread : d.reading = false)
    (hs : ns.seek ns.root names = .link idx target rest m)
    (h : match spliced cwd d (names.take (idx-1)) target rest with
      | .done r => Arrives ns handle r o
      | .lookup d' => Over ns handle cwd d' o
      | .readlink _ _ => False) : Over ns handle cwd d o := by
  have hround := @round_follow _ _ (look ns) cwd _ _ hg hread
  have hf : (look ns).follow cwd d = some (spliced cwd d (names.take (idx-1)) target rest) := by
    unfold Op.follow
    rw [hg.pathNames,hs]
    have hfill : ((look ns).fill d m).2 = 0 := by simp [Op.fill,look,hread]
    refine if_neg ?_
    rintro ⟨-,hc | hc⟩
    · exact hc.1 hfill
    · exact absurd hc.1 (by simp [look])
  rw [hf] at hround
  intro sent
  obtain ⟨k,hk⟩ := run_reads hround sent
  cases hnext : spliced cwd d (names.take (idx-1)) target rest with
  | done r =>
    rw [hnext] at h hk
    exact ⟨0+k,_,r,hk 0,h⟩
  | lookup d' =>
    rw [hnext] at h hk
    obtain ⟨fuel,sent',r,hrun,ha⟩ := h ⟨sent.compounds+2,sent.readlinks+1⟩
    exact ⟨fuel+k,sent',r,(hk fuel).trans hrun,ha⟩
  | readlink idx names =>
    rw [hnext] at h
    exact h.elim

/-- The lookup of the path that leads to the place, with all links that the resolution meets relative -/
theorem descends_over (sv : Serves ex ns handle) {p : Place} {o : Outcome}
    (h : Descends ex ⟨false,false⟩ (Relative ex) st p o) (ho : o ≠ .loop) (cwd : Path) :
    match p.todo.foldlM push st with
    | none => o = .failed
    | some qs => ∀ d, Good d.path qs.reverse → d.reading = false → Over ns handle cwd d o := by
  induction h with
  | @dir st p hr htodo =>
    rw [htodo]
    intro d hg hread
    obtain ⟨n,hdir,-,hseek⟩ := sv.rooted hr
    rw [hdir]
    refine look_node hread ?_
    have h := hseek []
    rw [List.append_nil] at h
    rw [hg.pathNames,h]
    exact behind_node _
  | above hnone => rw [hnone]
  | skip _ _ hsame ih => exact hsame ▸ ih ho
  | @missing st rest p c status hr htodo hn hl =>
    rw [htodo,foldlM_push_plain st hn.2]
    intro d hg hread
    obtain ⟨n,hdir,-,hseek⟩ := sv.rooted hr
    rw [hdir] at hl
    obtain ⟨st',he⟩ := sv.missing hl
    refine @look_failed _ _ handle cwd d st' ?_
    rw [List.reverse_append,List.reverse_reverse] at hg
    rw [hg.pathNames,hseek]
    simp only [Namespace.seek,he]
    exact behind_failed ..
  | @stop st rest p c fh attr o hr htodo hn hl hlink hrel hmeet =>
    obtain ⟨n,hdir,-,-⟩ := sv.rooted hr
    have hl' := hl
    rw [hdir] at hl'
    obtain ⟨m,-,rfl,hlm⟩ := sv.found hl'
    rw [hlm] at hlink
    obtain ⟨t,ht⟩ := Option.isSome_iff_exists.mp hlink
    have hread := sv.readlink ht
    have hhead := hrel rest (handle m) t ⟨c,attr,htodo,(hn.2 c (by simp)).2.2,hl,by rw [hlm,ht]; rfl⟩ hread
    simp only [Resolution.meet,Bool.false_eq_true,and_false,if_false,hread,Resolution.target,if_neg hhead] at hmeet
    split at hmeet
    · exact absurd (Sum.inr.inj hmeet).symm ho
    · simp at hmeet
  | @follow st rest p q c fh attr o hr htodo hn hl hlink hrel hmeet _ ih =>
    obtain ⟨n,hdir,-,hseek⟩ := sv.rooted hr
    have hl' := hl
    rw [hdir] at hl'
    obtain ⟨m,hm,rfl,hlm⟩ := sv.found hl'
    rw [hlm] at hlink
    obtain ⟨t,ht⟩ := Option.isSome_iff_exists.mp hlink
    have hread := sv.readlink ht
    have hhead := hrel rest (handle m) t ⟨c,attr,htodo,(hn.2 c (by simp)).2.2,hl,by rw [hlm,ht]; rfl⟩ hread
    simp only [Resolution.meet,Bool.false_eq_true,and_false,if_false,hread,Resolution.target,if_neg hhead] at hmeet
    split at hmeet
    · simp at hmeet
    · obtain rfl := Sum.inl.inj hmeet
      have hq := ih st hr ho
      simp only [Resolution.lexical_push] at hq
      rw [htodo,foldlM_push_plain st hn.2]
      intro d hg hd
      rw [List.reverse_append,List.reverse_reverse] at hg
      have hs : ns.seek ns.root (st.reverse ++ c :: rest) = .link (1+st.length) t rest m := by
        rw [hseek]
        simp only [Namespace.seek,hm,ht]
        exact behind_link ..
      refine look_link hg hd hs ?_
      have htake : (st.reverse ++ c :: rest).take (1+st.length-1) = st.reverse := by
        rw [Nat.add_sub_cancel_left,← List.length_reverse,List.take_left]
      have hretry := @spliced_retries cwd t d st.reverse rest hr.names.reverse hn.tail
      rw [List.reverse_reverse] at hretry
      rw [htake]
      cases hfold : (components '/' t ++ rest).foldlM push st with
      | none =>
        rw [hfold] at hq hretry
        obtain ⟨err,he⟩ := hretry
        rw [he,show o = .failed from hq]
        exact .failed
      | some qs =>
        rw [hfold] at hq hretry
        have hqs : Names qs := push_names hfold ((Lookup3.components_cut t).append hn.tail.1) hr.names
        rw [show spliced cwd d st.reverse t rest = _ from hretry]
        exact hq _ (good_written hqs) hd

/-- The path that `nfs4_resolve_path` normalizes -/
def absolute (cwd path : Path) : Path := if path.head? = some '/' then path else cwd ++ '/' :: path

/-- Both lookups of a path end, at the same object or with an error. -/
def SameObject (ex : Export α) (ns : Namespace ι) (handle : ι → Fh) (cwd path : Path) : Prop :=
  ∃ o r, (∃ n, ∀ fuel ≥ n, Lookup3.lookup ex.server ex.mounted ⟨false,false⟩ fuel cwd path = some r) ∧
    Resolution.Agrees r o ∧
    match start (look ns) cwd path with
    | none => o = .failed
    | some none => False
    | some (some d) => Over ns handle cwd d o

theorem absolute_head {cwd : Path} (hc : Stops '/' cwd) (path : Path) : ∃ t, absolute cwd path = '/' :: t := by
  unfold absolute
  split
  · rename_i h
    cases path with
    | nil => simp at h
    | cons c path => exact ⟨path,by rw [show c = '/' by simpa using h]⟩
  · rcases hc with rfl | ⟨t,rfl⟩
    · exact ⟨path,rfl⟩
    · exact ⟨t ++ '/' :: path,rfl⟩

/-- Both resolvers start with the same names. -/
theorem absolute_push (cwd path : Path) : (components '/' (NestedMounts.fullPath cwd path)).foldlM push [] =
    (components '/' (absolute cwd path)).foldlM push [] := by
  unfold NestedMounts.fullPath absolute
  by_cases hp : path = []
  · subst hp
    have hdot : components '/' ['/','.'] = [['.']] := by decide
    have hroot : components '/' ['/'] = [] := by decide
    simp only [if_true,List.head?_cons,List.head?_nil,reduceCtorEq,if_false,Option.some.injEq]
    rw [if_neg (by decide),components_append (.inr ⟨_,rfl⟩),components_append (.inr ⟨_,rfl⟩),hdot,hroot,List.append_nil,
      List.foldlM_append]
    cases (components '/' cwd).foldlM push [] <;> rfl
  · simp only [if_neg hp]

/-- With relative links only, and no more than may be followed, both versions of the protocol lead to the same object. -/
theorem same_object (sv : Serves ex ns handle) {cwd path : Path} (hc : Stops '/' cwd)
    (hrel : ∀ p, Reaches ex ⟨false,false⟩ (Resolution.start ex cwd path) p → Relative ex p)
    (hloop : ¬ Resolves ex ⟨false,false⟩ (Resolution.start ex cwd path) .loop)
    (hdots : ¬ (resolve (absolute cwd path) = some [] ∧ EndsInDots (absolute cwd path))) :
    SameObject ex ns handle cwd path := by
  have hfits : ∀ p, Reaches ex ⟨false,false⟩ (Resolution.start ex cwd path) p → Resolution.Fits ex ⟨false,false⟩ p :=
    fun p hp rest fh hmeets => ⟨by simp,fun _ _ target hread habs => absurd habs (hrel p hp rest fh target hmeets hread)⟩
  obtain ⟨o,r,ho,hends,hagrees⟩ := (Resolution.lookup_resolves ex ⟨false,false⟩ cwd path hc).2 hfits
  refine ⟨o,r,hends,hagrees,?_⟩
  have hover := descends_over sv (Resolution.start_descends ho hrel) (fun h => hloop (h ▸ ho)) cwd
  have htodo : (Resolution.start ex cwd path).todo = Resolution.lexical (components '/' (NestedMounts.fullPath cwd path)) := rfl
  rw [htodo,Resolution.lexical_push,absolute_push] at hover
  obtain ⟨t,habs⟩ := absolute_head hc path
  obtain ⟨cs,hcut,he,hne,hcomp⟩ := Lookup3.components_eq_filter t
  have hwrites := Lookup3.normalize_writes hcut hne
  have hcode : nfs4ResolvePath cwd path = nfsNormalizePath (absolute cwd path) := rfl
  have hnorm := (nfsNormalizePath_normalizes (absolute cwd path)).mpr hdots
  rw [habs,components_cons_self,hcomp,foldlM_push_filter [] (.inl rfl)] at hover
  rw [he,← habs,← hcode] at hwrites
  unfold start
  cases hq : cs.foldlM push [] with
  | none =>
    rw [hq] at hover hwrites
    obtain ⟨e,herr⟩ := hwrites
    rw [herr]
    exact hover
  | some st =>
    rw [hq] at hover hwrites
    obtain ⟨hst,w,hok,hw⟩ := hwrites
    have hst' : Names st := by
      have h := hst.reverse
      rwa [List.reverse_reverse] at h
    have hnil : w ≠ [] := by
      unfold Normalizes at hnorm
      rw [← hcode,hok] at hnorm
      rintro rfl
      exact not_canonical_nil hnorm.2.2.1
    obtain rfl := normalized_written hst' hw hok hnil
    have hgood := good_written hst'
    rw [hok]
    simp only [look,Bool.false_eq_true,if_false,nfs4LookupPathAsync,hgood.resolved cwd,Except.map]
    exact hover _ hgood rfl

/-- At every link, of a lookup and of an open, the retried path is the one that the link leads to exactly if its target replaces what
it should; with relative links both versions of the protocol come to the same object. -/
theorem splice_agrees (sv : Serves ex ns handle) {raw : Path} (hexp : nfsNormalizePath raw = .ok ex.export_) :
    (∀ (op : Op ns) cwd d names idx target rest m, Good d.path names → d.reading = false →
      ns.seek ns.root names = .link idx target rest m → op.follow cwd d ≠ none →
      (target.head? = some '/' → (insideExport ex.export_ target).isSome) →
      ∃ next, Reads op cwd d next ∧ (Retries d (spliceNames ex.export_ (names.take (idx-1)) target rest) next ↔
        Replaces ex.export_ (names.take (idx-1)) target rest)) ∧
    (∀ (op : Op ns) cwd d names target n k, Good d.path names → d.reading = false →
      ns.seek ns.root names = .node n → op.isOpen ∧ ¬ op.noFollow → ns.lookup n d.name = .ok k → ns.link k = some target →
      (target.head? = some '/' → (insideExport ex.export_ target).isSome) →
      ∃ next, Reads op cwd d next ∧ (Reopens (spliceNames ex.export_ names target []) next ↔
        Replaces ex.export_ names target [] ∧ ¬ Vanishes d target)) ∧
    ∀ cwd path, Stops '/' cwd → (∀ p, Reaches ex ⟨false,false⟩ (Resolution.start ex cwd path) p → Relative ex p) →
      ¬ Resolves ex ⟨false,false⟩ (Resolution.start ex cwd path) .loop →
      ¬ (resolve (absolute cwd path) = some [] ∧ EndsInDots (absolute cwd path)) → SameObject ex ns handle cwd path :=
  ⟨fun _ _ _ _ _ _ _ _ hg hread hs hfollow hin => splice_iff hg hread hs hfollow hexp hin,
    fun _ _ _ _ _ _ _ hg hread hs hopen hk hlink hin => reopen_iff hg hread hs hopen hk hlink hexp hin,
    fun _ _ hc hrel hloop hdots => same_object sv hc hrel hloop hdots⟩

end Same

section Tree

open Resolution (Resolves Place)

/-- The directory `a` with the link `l` in it, beside the directory `d` with `x` in it -/
def treeNs (target : Path) : Namespace UInt8 where
  root := 0
  link n := if n = 2 then some target else none
  lookup n c :=
    if n = 0 ∧ c = ['a'] then .ok 1
    else if n = 1 ∧ c = ['l'] then .ok 2
    else if n = 0 ∧ c = ['d'] then .ok 3
    else if n = 3 ∧ c = ['x'] then .ok 4
    else .error 2
  root_link := rfl
  status := by
    intro n c st h
    split_ifs at h
    simp only [Except.error.injEq] at h
    subst h
    decide

/-- A namespace as an export, with a byte for the handle of a node -/
def exported (ns : Namespace UInt8) (export_ : Path) : Export Bool where
  server :=
    { lookup := fun fh c =>
        match fh with
        | [n] => (ns.lookup n c).map fun m => ([m],(ns.link m).isSome)
        | _ => .error 2
      readlink := fun fh =>
        match fh with
        | [n] =>
          match ns.link n with
          | some target => .ok target
          | none => .error 22
        | _ => .error 22
      getattr := fun _ => .ok false
      isLink := id }
  rootfh := [ns.root]
  export_ := export_
  root_dir := ⟨false,rfl,by simp⟩
  lookup_status := by
    intro fh c st h
    simp only at h
    split at h
    · rename_i n
      cases hl : ns.lookup n c with
      | error e =>
        simp only [hl,Except.map,Except.error.injEq] at h
        exact h ▸ (ns.status hl).1
      | ok m => simp [hl,Except.map] at h
    · simp only [Except.error.injEq] at h
      omega
  readlink_status := by
    intro fh st h
    simp only at h
    split at h
    · split at h
      · simp at h
      · simp only [Except.error.injEq] at h
        omega
    · simp only [Except.error.injEq] at h
      omega

theorem exported_serves (ns : Namespace UInt8) (export_ : Path) : Serves (exported ns export_) ns fun n => [n] where
  root := rfl
  lookup := by
    intro n c
    cases hl : ns.lookup n c with
    | error st => exact ⟨st,by simp [exported,hl,Except.map]⟩
    | ok m => exact ⟨(ns.link m).isSome,by simp [exported,hl,Except.map],rfl⟩
  readlink := by
    intro n target h
    simp [exported,h]

/-- `/a/l/x`, with the target `../d` -/
theorem splice_agrees_relative : nfsNormalizePath ['/','e'] = .ok ['/','e'] ∧
    SameObject (exported (treeNs ['.','.','/','d']) ['/','e']) (treeNs ['.','.','/','d']) (fun n => [n]) ['/']
      ['/','a','/','l','/','x'] := by
  have hexp : nfsNormalizePath ['/','e'] = .ok ['/','e'] := by rfl
  refine ⟨hexp,(splice_agrees (exported_serves _ _) hexp).2.2 _ _ (.inr ⟨[],rfl⟩) ?_ ?_ ?_⟩
  · intro p _ rest fh target _ hread
    have ht : target = ['.','.','/','d'] := by
      rcases fh with _ | ⟨n,_ | _⟩
      · simp [exported] at hread
      · by_cases hn : n = 2
        · simpa [exported,treeNs,hn] using hread.symm
        · simp [exported,treeNs,hn] at hread
      · simp [exported] at hread
    simp [ht]
  · intro h
    have ho := h.unique (.next rfl (.next rfl (.next rfl (.next rfl (.next rfl (.stop rfl))))))
    simp at ho
  · rintro ⟨h,-⟩
    revert h
    decide

/-- In the export `/e` the link `/a/l` to `/e/d` leads to `/a/e/d`. -/
theorem splice_agrees_fails :
    (∃ next, Reads (look (treeNs ['/','e','/','d'])) ['/'] ⟨['/','a','/','l'],[],false⟩ next ∧
      ¬ Retries ⟨['/','a','/','l'],[],false⟩ (spliceNames ['/','e'] [['a']] ['/','e','/','d'] []) next) ∧
    ¬ SameObject (exported (treeNs ['/','e','/','d']) ['/','e']) (treeNs ['/','e','/','d']) (fun n => [n]) ['/']
      ['/','a','/','l'] := by
  constructor
  · refine ⟨.lookup ⟨['/','a','/','e','/','d'],[],false⟩,.inl (by rfl),?_⟩
    have hn : spliceNames ['/','e'] [['a']] ['/','e','/','d'] [] = some [['d']] := by rfl
    rw [hn]
    intro h
    have hpath := congrArg Data.path (Next.lookup.inj h)
    revert hpath
    decide
  · rintro ⟨o,r,⟨n,hn⟩,ha,hover⟩
    have hr : Lookup3.lookup (exported (treeNs ['/','e','/','d']) ['/','e']).server
        (exported (treeNs ['/','e','/','d']) ['/','e']).mounted ⟨false,false⟩ 9 ['/'] ['/','a','/','l'] =
          some (.continued [3] (some false) ['/','d']) := by rfl
    obtain rfl := Resolution.lookup_unique hr hn
    cases ha
    have hs : start (look (treeNs ['/','e','/','d'])) ['/'] ['/','a','/','l'] = some (some ⟨['/','a','/','l'],[],false⟩) := by rfl
    rw [hs] at hover
    obtain ⟨fuel,sent',r,hrun,har⟩ := hover ⟨0,0⟩
    have hfirst : round (look (treeNs ['/','e','/','d'])) ['/'] ⟨['/','a','/','l'],[],false⟩ =
        (⟨2,1⟩,.lookup ⟨['/','a','/','e','/','d'],[],false⟩) := by rfl
    have hsecond : round (look (treeNs ['/','e','/','d'])) ['/'] ⟨['/','a','/','e','/','d'],[],false⟩ =
        (⟨1,0⟩,.done (.called (-2))) := by rfl
    have hcalled : r = .called (-2) := by
      rcases fuel with _ | _ | fuel
      · simp [run] at hrun
      · rw [run_succ,hfirst] at hrun
        simp [resume,run] at hrun
      · rw [run_succ,hfirst,resume,run_succ,hsecond,resume] at hrun
        exact (Prod.mk.inj (Option.some.inj hrun)).2.symm
    rw [hcalled] at har
    cases har

end Tree

end Splice
end Libnfs
