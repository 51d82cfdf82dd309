import Libnfs.Sattr
import Libnfs.Splice

/-! The SETATTRs of `nfs4_chmod_async_internal`, `nfs4_chown_async_internal` and `nfs4_utimes_async_internal`: the objects
that they are for, and what they set, against the same operations of `lib/nfs_v3.c`. -/
namespace Libnfs
namespace AttributeSetters

open Paths Normalize Lookup4
open Sattr (Setter)

variable {ι : Type}

/-- Where the LOOKUPs of a COMPOUND come to if none fails: the current filehandle for what is behind them -/
def arrives (ns : Namespace ι) : ι → List Path → Option ι
  | n, [] => some n
  | n, c :: cs =>
    if (ns.link n).isSome then none
    else
      match ns.lookup n c with
      | .error _ => none
      | .ok m => arrives ns m cs

/-- A lookup whose requests of its own are a SETATTR, with the status that it has at each object -/
def setattr (ns : Namespace ι) (noFollow : Bool) (status : ι → ℤ) : Op ns := ⟨false,noFollow,fun n _ => status n,@status_of_lookup ι ns status⟩

variable {ns : Namespace ι}

/-- The objects of the SETATTRs that a lookup sends, one behind the LOOKUPs of each of its COMPOUNDs -/
def setattrs (op : Op ns) (cwd : Path) : ℕ → Data → List ι
  | 0, _ => []
  | fuel+1, d =>
    (arrives ns ns.root (pathNames d.path)).toList ++
      match (round op cwd d).2 with
      | .lookup d => setattrs op cwd fuel d
      | _ => []

/-- `init_cb_data_split_path` for a chown, `init_cb_data_full_path` for the others -/
def splits : Setter → Bool
  | .chown _ _ => true
  | _ => false

/-- The call, up to its first COMPOUND. The outer `none` is a call that returns an error, the inner one is a crash. -/
def begins (split : Bool) (cwd path : Path) : Option (Option Data) :=
  match nfs4ResolvePath cwd path with
  | .error _ => none
  | .ok path =>
    match if split then dataSplitPath path else some (path,[]) with
    | none => some none
    | some (path,name) =>
      match nfs4LookupPathAsync cwd ⟨path,name,false⟩ with
      | .error _ => none
      | .ok d => some (some d)

/-- A path names the object that a lookup of it with nothing else to do comes to. -/
def Names (ns : Namespace ι) (noFollow : Bool) (cwd path : Path) (n : ι) : Prop :=
  ∃ d, begins false cwd path = some (some d) ∧ ∃ fuel sent e,
    run (setattr ns noFollow fun _ => 0) cwd fuel ⟨0,0⟩ d = some (sent,.continued e) ∧
      arrives ns ns.root (pathNames e.path) = some n

/-- The SETATTRs are for the object that the path names, and for no other. -/
def Acts (ns : Namespace ι) (setter : Setter) (noFollow : Bool) (status : ι → ℤ) (cwd path : Path) : Prop :=
  match begins (splits setter) cwd path with
  | none => ∀ n, ¬ Names ns noFollow cwd path n
  | some none => False
  | some (some d) =>
    ∀ n, (∃ fuel, n ∈ setattrs (setattr ns noFollow status) cwd fuel d) ↔ Names ns noFollow cwd path n

/-- No symbolic link is to be followed that the path itself names. -/
def Direct (ns : Namespace ι) (noFollow : Bool) (cwd path : Path) : Prop :=
  noFollow = true ∨ ∀ n, Names ns true cwd path n → ns.link n = none

/-- The path without its last component names the same object, or none where the path names none. -/
def DirectoryNamed (ns : Namespace ι) (noFollow : Bool) (cwd path : Path) : Prop :=
  ∀ p, nfs4ResolvePath cwd path = .ok p → ∃ dir name, dataSplitPath p = some (dir,name) ∧ Direct ns noFollow cwd dir ∧
    ∀ n, Names ns noFollow cwd dir n ↔ Names ns noFollow cwd path n

section Round

variable {op : Op ns} {cwd : Path} {d e : Data} {names : List Path} {n m : ι} {noFollow : Bool} {status status' : ι → ℤ}

theorem arrives_seek (hn : ns.link n = none) (names : List Path) :
    arrives ns n names =
      match ns.seek n names with
      | .failed _ => none
      | .link _ _ rest m => if rest = [] then some m else none
      | .node m => some m := by
  induction names generalizing n with
  | nil => rfl
  | cons c names ih =>
    simp only [arrives,Namespace.seek,hn,Option.isSome_none,Bool.false_eq_true,if_false]
    cases hl : ns.lookup n c with
    | error st => rfl
    | ok m =>
      cases hm : ns.link m with
      | some target => cases names <;> simp [arrives,hm]
      | none =>
        simp only [hm,ih hm]
        cases ns.seek m names <;> rfl

theorem walk_arrives (tail : ι → List OpRes × ℤ) (h : arrives ns n names = some m) :
    ns.walk tail n names = passed names.length (.getattr (ns.link m).isSome :: (tail m).1,(tail m).2) := by
  induction names generalizing n with
  | nil =>
    obtain rfl := Option.some.inj h
    rfl
  | cons c names ih =>
    simp only [arrives] at h
    by_cases hlink : (ns.link n).isSome
    · simp [hlink] at h
    · rw [if_neg hlink] at h
      cases hl : ns.lookup n c with
      | error st => simp [hl] at h
      | ok k =>
        rw [hl] at h
        simp only [Namespace.walk,if_neg hlink,hl,ih h]
        rfl

/-- Only an open has an OPEN that finds a link. -/
theorem open_notMem (hopen : op.isOpen = false) (hread : d.reading = false) (n : ι) (names : List Path) :
    OpRes.open_ errSymlink ∉ (ns.walk (op.fill d) n names).1 := by
  induction names generalizing n with
  | nil => simp [Namespace.walk,Op.fill,hopen,hread]
  | cons c names ih =>
    simp only [Namespace.walk]
    split
    · simp
    · split
      · simp
      · simpa using ih _

/-- What `nfs4_lookup_path_1_cb` does without such an OPEN -/
theorem cb_shape {res : List OpRes × ℤ} (ho : OpRes.open_ errSymlink ∉ res.1) :
    (∃ idx names, nfs4LookupPath1Cb op cwd d res = .readlink idx names) ∨
      ∃ r, nfs4LookupPath1Cb op cwd d res = .done r ∧ ∀ e, r = .continued e → e = d := by
  unfold nfs4LookupPath1Cb
  by_cases hfail : res.2 ≠ 0 ∧ res.2 ≠ errSymlink
  · rw [if_pos hfail]
    exact .inr ⟨_,rfl,by simp⟩
  · rw [if_neg hfail]
    simp only [ho,and_false,if_false]
    split
    · exact .inr ⟨_,rfl,by simp⟩
    · split
      · exact .inr ⟨_,rfl,by simp⟩
      · split
        · exact .inl ⟨_,_,rfl⟩
        · split
          · exact .inr ⟨_,rfl,by simp⟩
          · exact .inl ⟨_,_,rfl⟩

/-- A lookup that is not for an open reads a link at once. -/
theorem round_reads (hopen : op.isOpen = false) (hread : d.reading = false) {next : Next} (h : Reads op cwd d next) :
    round op cwd d = (⟨2,1⟩,next) := by
  rcases h with h | ⟨h,-⟩
  · exact h
  · exfalso
    have ho : OpRes.open_ errSymlink ∉ (op.answer d).1 := by
      simpa [Op.answer,Namespace.compound] using open_notMem hopen hread ns.root (pathNames d.path)
    rcases @cb_shape _ _ op cwd d _ ho with ⟨idx,names,hcb⟩ | ⟨r,hcb,hr⟩
    · simp [round_readlink hcb] at h
    · simp [round_done hcb fun e he => hr e he ▸ hread] at h

theorem fill_setattr (hread : d.reading = false) (n : ι) :
    (setattr ns noFollow status).fill d n = ([.other],status n) := by
  simp [Op.fill,setattr,hread]

theorem arrives_answer (hread : d.reading = false) (h : arrives ns ns.root (pathNames d.path) = some n) :
    (setattr ns noFollow status).answer d = (.other :: (passed (pathNames d.path).length
      (.getattr (ns.link n).isSome :: [.other],status n)).1,status n) := by
  unfold Op.answer Namespace.compound
  rw [walk_arrives _ h,fill_setattr hread]
  rfl

/-- A lookup that has arrived, and finds no link to follow -/
theorem round_arrived (hread : d.reading = false) (h : arrives ns ns.root (pathNames d.path) = some n)
    (hn : ns.link n = none ∨ noFollow = true) :
    round (setattr ns noFollow fun _ => 0) cwd d = (⟨1,0⟩,.done (.continued d)) := by
  have hans := @arrives_answer _ _ d n noFollow (fun _ => 0) hread h
  refine round_done ?_ (by simp [hread])
  have ho : OpRes.open_ errSymlink ∉ ((setattr ns noFollow fun _ => 0).answer d).1 := by
    rw [hans,mem_passed (by simp)]
    simp
  have hlink : ¬ (OpRes.getattr true ∈ ((setattr ns noFollow fun _ => 0).answer d).1 ∧
      ¬ ((setattr ns noFollow fun _ => 0).noFollow ∧ ¬ (setattr ns noFollow fun _ => 0).isOpen)) := by
    rintro ⟨hmem,hno⟩
    rw [hans,mem_passed (by simp)] at hmem
    rcases hn with hn | rfl
    · simp [hn] at hmem
    · exact hno ⟨rfl,by simp [setattr]⟩
  unfold nfs4LookupPath1Cb
  rw [if_neg (by simp [hans]),if_neg fun hc => ho hc.2,if_pos ⟨by rw [hans],hlink⟩]

theorem round_missed {st : ℤ} (hs : ns.seek ns.root (pathNames d.path) = .failed st) :
    ∃ err, round op cwd d = (⟨1,0⟩,.done (.called err)) := by
  have h := walk_seek ns (op.fill d) ns.root_link (pathNames d.path)
  rw [hs] at h
  obtain ⟨h0,hne,hst⟩ := h
  have hans : (op.answer d).2 = st := hst
  exact ⟨_,round_done (cb_failed (hans ▸ h0) (hans ▸ hne)) (by simp)⟩

end Round

section Steps

open Relation (ReflTransGen)

variable {cwd : Path} {d e : Data} {names : List Path} {n m : ι} {noFollow : Bool} {status status' : ι → ℤ}

/-- A link is followed, and the lookup starts again with another path. -/
def Steps (op : Op ns) (cwd : Path) (d e : Data) : Prop := op.follow cwd d = some (.lookup e)

/-- The path is normalized, and the lookup is not the one that reads the link of an open. -/
def Tidy (d : Data) : Prop := (∃ names, Good d.path names) ∧ d.reading = false

theorem Steps.tidy {op : Op ns} (h : Steps op cwd d e) (hd : Tidy d) : Tidy e := by
  obtain ⟨⟨names,hg⟩,hread⟩ := hd
  exact follow_good hg hread h

theorem follow_setattr (hread : d.reading = false) : (setattr ns noFollow status).follow cwd d =
    match ns.seek ns.root (pathNames d.path) with
    | .failed _ | .node _ => none
    | .link idx target rest m =>
      if rest = [] ∧ ((status m ≠ 0 ∧ status m ≠ errSymlink) ∨ noFollow = true) then none
      else some (spliced cwd d ((pathNames d.path).take (idx-1)) target rest) := by
  unfold Op.follow
  cases ns.seek ns.root (pathNames d.path) with
  | failed st => rfl
  | node n => simp [setattr]
  | link idx target rest m =>
    simp only [fill_setattr hread]
    simp [setattr]

/-- A link on the way is followed by every operation. -/
theorem Steps.of_noFollow (hread : d.reading = false) (h : Steps (setattr ns true status) cwd d e) :
    Steps (setattr ns noFollow status') cwd d e := by
  unfold Steps at h ⊢
  rw [follow_setattr hread] at h ⊢
  cases hs : ns.seek ns.root (pathNames d.path) with
  | failed st => simp [hs] at h
  | node n => simp [hs] at h
  | link idx target rest m =>
    simp only [hs] at h ⊢
    by_cases hrest : rest = []
    · simp [hrest] at h
    · simpa [hrest] using h

/-- A link is on the way, or the path names it. -/
theorem Steps.cases (hread : d.reading = false) (h : Steps (setattr ns noFollow status) cwd d e) :
    Steps (setattr ns true status') cwd d e ∨
      noFollow = false ∧ ∃ m, arrives ns ns.root (pathNames d.path) = some m ∧ ns.link m ≠ none := by
  have hw := walk_seek ns (fun _ => ([],0)) ns.root_link (pathNames d.path)
  have ha := arrives_seek ns.root_link (pathNames d.path)
  unfold Steps at h ⊢
  rw [follow_setattr hread] at h ⊢
  cases hs : ns.seek ns.root (pathNames d.path) with
  | failed st => simp [hs] at h
  | node n => simp [hs] at h
  | link idx target rest m =>
    simp only [hs] at h hw ha ⊢
    by_cases hrest : rest = []
    · rw [if_pos hrest] at ha
      have hno : noFollow = false := by
        by_contra hno
        simp [hrest,hno] at h
      exact .inr ⟨hno,m,ha,by simp [hw.2.2.2.1]⟩
    · left
      simpa [hrest] using h

/-- Where no link is followed, the lookup has failed, or come to an object that it may keep. -/
theorem follow_none (hread : d.reading = false) (h : (setattr ns noFollow status).follow cwd d = none) :
    (∃ st, ns.seek ns.root (pathNames d.path) = .failed st) ∨
      ∃ n, arrives ns ns.root (pathNames d.path) = some n ∧
        (ns.link n = none ∨ noFollow = true ∨ (status n ≠ 0 ∧ status n ≠ errSymlink)) := by
  have hw := walk_seek ns (fun _ => ([],0)) ns.root_link (pathNames d.path)
  have ha := arrives_seek ns.root_link (pathNames d.path)
  rw [follow_setattr hread] at h
  cases hs : ns.seek ns.root (pathNames d.path) with
  | failed st => exact .inl ⟨st,rfl⟩
  | node n =>
    simp only [hs] at hw ha
    exact .inr ⟨n,ha,.inl hw.1⟩
  | link idx target rest m =>
    simp only [hs] at h ha
    split at h
    · rename_i hc
      rw [if_pos hc.1] at ha
      exact .inr ⟨m,ha,.inr hc.2.symm⟩
    · simp at h

/-- At an object that it may keep, a lookup follows no link. -/
theorem follow_kept (hread : d.reading = false) (ha : arrives ns ns.root (pathNames d.path) = some n)
    (hn : ns.link n = none ∨ noFollow = true) : (setattr ns noFollow status).follow cwd d = none := by
  have hw := walk_seek ns (fun _ => ([],0)) ns.root_link (pathNames d.path)
  rw [arrives_seek ns.root_link] at ha
  rw [follow_setattr hread]
  cases hs : ns.seek ns.root (pathNames d.path) with
  | failed st => rfl
  | node k => rfl
  | link idx target rest m =>
    simp only [hs] at hw ha ⊢
    split at ha
    · rename_i hrest
      obtain rfl := Option.some.inj ha
      rcases hn with hn | rfl
      · simp [hn] at hw
      · simp [hrest]
    · simp at ha

/-- The objects of the SETATTRs are those that the lookup arrives at, with one path or another. -/
theorem setattrs_iff (hd : Tidy d) : (∃ fuel, n ∈ setattrs (setattr ns noFollow status) cwd fuel d) ↔
    ∃ e, ReflTransGen (Steps (setattr ns noFollow status) cwd) d e ∧ arrives ns ns.root (pathNames e.path) = some n := by
  constructor
  · rintro ⟨fuel,hmem⟩
    induction fuel generalizing d with
    | zero => simp [setattrs] at hmem
    | succ fuel ih =>
      rw [setattrs,List.mem_append,Option.mem_toList] at hmem
      rcases hmem with hmem | hmem
      · exact ⟨d,.refl,hmem⟩
      · obtain ⟨⟨names,hg⟩,hread⟩ := hd
        have hround := @round_follow _ _ (setattr ns noFollow status) cwd _ _ hg hread
        cases hf : (setattr ns noFollow status).follow cwd d with
        | none =>
          rw [hf] at hround
          obtain ⟨r,hr,-⟩ := hround
          simp [hr] at hmem
        | some next =>
          rw [hf] at hround
          rw [round_reads rfl hread hround] at hmem
          cases next with
          | done r => simp at hmem
          | readlink idx names => simp at hmem
          | lookup d' =>
            have hstep : Steps (setattr ns noFollow status) cwd d d' := hf
            obtain ⟨e,hde,he⟩ := ih (hstep.tidy ⟨⟨names,hg⟩,hread⟩) hmem
            exact ⟨e,.head hstep hde,he⟩
  · rintro ⟨e,hde,he⟩
    induction hde using ReflTransGen.head_induction_on with
    | refl =>
      refine ⟨1,?_⟩
      rw [setattrs,he]
      simp
    | @head d d' hstep _ ih =>
      obtain ⟨fuel,hmem⟩ := ih (hstep.tidy hd)
      obtain ⟨⟨names,hg⟩,hread⟩ := hd
      have hround := @round_follow _ _ (setattr ns noFollow status) cwd _ _ hg hread
      rw [show (setattr ns noFollow status).follow cwd d = _ from hstep] at hround
      refine ⟨fuel+1,?_⟩
      rw [setattrs,round_reads rfl hread hround]
      simp [hmem]

/-- The object that a path names is where the lookup stops. -/
theorem named_iff (hd : Tidy d) (sent : Sent) :
    (∃ fuel sent' e, run (setattr ns noFollow fun _ => 0) cwd fuel sent d = some (sent',.continued e) ∧
      arrives ns ns.root (pathNames e.path) = some n) ↔
    ∃ e, ReflTransGen (Steps (setattr ns noFollow fun _ => 0) cwd) d e ∧
      arrives ns ns.root (pathNames e.path) = some n ∧ (ns.link n = none ∨ noFollow = true) := by
  constructor
  · rintro ⟨fuel,sent',e,hrun,he⟩
    induction fuel generalizing d sent with
    | zero => simp [run] at hrun
    | succ fuel ih =>
      have hread := hd.2
      obtain ⟨names,hg⟩ := hd.1
      have hround := @round_follow _ _ (setattr ns noFollow fun _ => 0) cwd _ _ hg hread
      rw [run_succ] at hrun
      cases hf : (setattr ns noFollow fun _ => 0).follow cwd d with
      | none =>
        rcases follow_none hread hf with ⟨st,hs⟩ | ⟨k,hk,hkeep⟩
        · obtain ⟨err,hr⟩ := @round_missed _ _ (setattr ns noFollow fun _ => 0) cwd _ _ hs
          simp [hr,resume] at hrun
        · have hkeep : ns.link k = none ∨ noFollow = true := by simpa using hkeep
          rw [round_arrived hread hk hkeep] at hrun
          simp only [resume,Option.some.injEq,Prod.mk.injEq,Result.continued.injEq] at hrun
          obtain ⟨-,rfl⟩ := hrun
          rw [hk,Option.some.injEq] at he
          exact ⟨d,.refl,he ▸ hk,he ▸ hkeep⟩
      | some next =>
        rw [hf] at hround
        rw [round_reads rfl hread hround] at hrun
        cases next with
        | done r =>
          rcases follow_cases hf with ⟨err,-,herr⟩ | hcrash | ⟨d',hd'⟩
          · obtain rfl := Next.done.inj herr
            simp [resume] at hrun
          · obtain rfl := Next.done.inj hcrash
            simp [resume] at hrun
          · simp at hd'
        | readlink idx names => simp [resume] at hrun
        | lookup d' =>
          have hstep : Steps (setattr ns noFollow fun _ => 0) cwd d d' := hf
          obtain ⟨e',hde,he'⟩ := ih (hstep.tidy hd) _ hrun
          exact ⟨e',.head hstep hde,he'⟩
  · rintro ⟨e,hde,he,hkeep⟩
    induction hde using ReflTransGen.head_induction_on generalizing sent with
    | refl =>
      refine ⟨1,⟨sent.compounds+1,sent.readlinks⟩,e,?_,he⟩
      rw [run_succ,round_arrived hd.2 he hkeep]
      rfl
    | @head d d' hstep _ ih =>
      obtain ⟨fuel,sent',e',hrun,he'⟩ := ih (hstep.tidy hd) ⟨sent.compounds+2,sent.readlinks+1⟩
      have hread := hd.2
      obtain ⟨names,hg⟩ := hd.1
      have hround := @round_follow _ _ (setattr ns noFollow fun _ => 0) cwd _ _ hg hread
      rw [show (setattr ns noFollow fun _ => 0).follow cwd d = _ from hstep] at hround
      refine ⟨fuel+1,sent',e',?_,he'⟩
      rw [run_succ,round_reads rfl hread hround]
      exact hrun

/-- A lookup stops at one object at most. -/
theorem stop_unique {op : Op ns} (hde : ReflTransGen (Steps op cwd) d e) (he : op.follow cwd e = none) {e' : Data}
    (hde' : ReflTransGen (Steps op cwd) d e') (he' : op.follow cwd e' = none) : e = e' := by
  induction hde using ReflTransGen.head_induction_on with
  | refl =>
    rcases hde'.cases_head with rfl | ⟨x,hx,-⟩
    · rfl
    · rw [Steps,he] at hx
      simp at hx
  | @head d x hstep _ ih =>
    rcases hde'.cases_head with rfl | ⟨y,hy,hye⟩
    · rw [Steps,he'] at hstep
      simp at hstep
    · rw [Steps,hstep,Option.some.injEq,Next.lookup.injEq] at hy
      exact ih (hy ▸ hye)

end Steps

section Acts

open Relation (ReflTransGen)

variable {cwd path : Path} {d : Data} {n m : ι} {noFollow : Bool} {status : ι → ℤ}

theorem begins_start (op : Op ns) : begins op.isOpen cwd path = start op cwd path := rfl

theorem begins_tidy (ns : Namespace ι) {split : Bool} (h : begins split cwd path = some (some d)) : Tidy d :=
  start_good ((@begins_start _ _ cwd path (⟨split,false,fun _ _ => 0,by simp [errSymlink]⟩ : Op ns)).symm.trans h)

theorem names_iff (h : begins false cwd path = some (some d)) : Names ns noFollow cwd path n ↔
    ∃ e, ReflTransGen (Steps (setattr ns noFollow fun _ => 0) cwd) d e ∧
      arrives ns ns.root (pathNames e.path) = some n ∧ (ns.link n = none ∨ noFollow = true) := by
  rw [← named_iff (begins_tidy ns h) ⟨0,0⟩]
  constructor
  · rintro ⟨d',hd',hrun⟩
    rw [h,Option.some.injEq,Option.some.injEq] at hd'
    exact hd' ▸ hrun
  · exact fun hrun => ⟨d,h,hrun⟩

theorem Tidy.steps {op : Op ns} {e : Data} (hd : Tidy d) (h : ReflTransGen (Steps op cwd) d e) : Tidy e := by
  induction h with
  | refl => exact hd
  | tail _ hstep ih => exact hstep.tidy ih

theorem names_unique (h : Names ns noFollow cwd path n) (h' : Names ns noFollow cwd path m) : n = m := by
  obtain ⟨d,hd,-⟩ := id h
  obtain ⟨e,hde,he,hn⟩ := (names_iff hd).mp h
  obtain ⟨e',hde',he',hm⟩ := (names_iff hd).mp h'
  have htidy := begins_tidy ns hd
  obtain rfl := stop_unique hde (follow_kept (htidy.steps hde).2 he hn) hde' (follow_kept (htidy.steps hde').2 he' hm)
  exact Option.some.inj (he.symm.trans he')

/-- Every operation comes past where one that follows no last link does. -/
theorem steps_lift {e : Data} {status' : ι → ℤ} (hd : Tidy d) (h : ReflTransGen (Steps (setattr ns true status) cwd) d e) :
    ReflTransGen (Steps (setattr ns noFollow status') cwd) d e := by
  induction h with
  | refl => exact .refl
  | tail hde hstep ih => exact ih.tail (hstep.of_noFollow (hd.steps hde).2)

/-- A link that is followed is never what a path names. -/
theorem Names.kept (h : Names ns noFollow cwd path n) : ns.link n = none ∨ noFollow = true := by
  obtain ⟨d,hd,-⟩ := id h
  obtain ⟨-,-,-,hn⟩ := (names_iff hd).mp h
  exact hn

/-- What a path names with its last link not followed is sent a SETATTR. -/
theorem Names.setattrs (h : Names ns true cwd path n) (hb : begins false cwd path = some (some d)) :
    ∃ fuel, n ∈ setattrs (setattr ns noFollow status) cwd fuel d := by
  have hd := begins_tidy ns hb
  obtain ⟨e,hde,he,-⟩ := (names_iff hb).mp h
  exact (setattrs_iff hd).mpr ⟨e,steps_lift hd hde,he⟩

theorem direct_of_acts (h : begins false cwd path = some (some d))
    (hn : ∀ n, (∃ fuel, n ∈ setattrs (setattr ns noFollow status) cwd fuel d) → ns.link n = none ∨ noFollow = true) :
    Direct ns noFollow cwd path := by
  by_contra hdirect
  obtain ⟨hno,hlink⟩ := not_or.mp hdirect
  push Not at hlink
  obtain ⟨m,hm,hlink⟩ := hlink
  exact (hn m (hm.setattrs h)).elim hlink hno

/-- The SETATTRs of a lookup are for the object that its path names exactly if it meets no link at the end of a path. -/
theorem acts_iff (h : begins false cwd path = some (some d)) :
    (∀ n, (∃ fuel, n ∈ setattrs (setattr ns noFollow status) cwd fuel d) ↔ Names ns noFollow cwd path n) ↔
      Direct ns noFollow cwd path := by
  have hd := begins_tidy ns h
  constructor
  · exact fun hacts => direct_of_acts h fun n hn => ((hacts n).mp hn).kept
  · intro hdirect n
    have hstraight : ∀ {s : ι → ℤ} {e : Data}, ReflTransGen (Steps (setattr ns noFollow s) cwd) d e →
        ReflTransGen (Steps (setattr ns true fun _ => 0) cwd) d e := by
      intro s e hde
      induction hde with
      | refl => exact .refl
      | @tail x y hdx hstep ih =>
        rcases hstep.cases (hd.steps hdx).2 with hstep | ⟨hno,m,hm,hlink⟩
        · exact ih.tail hstep
        · have hnames := hdirect.resolve_left (by simp [hno]) m ((names_iff h).mpr ⟨x,ih,hm,.inr rfl⟩)
          exact absurd hnames hlink
    rw [setattrs_iff hd,names_iff h]
    constructor
    · rintro ⟨e,hde,he⟩
      have hnf := hstraight hde
      refine ⟨e,steps_lift hd hnf,he,?_⟩
      rcases hdirect with hno | hdirect
      · exact .inr hno
      · exact .inl (hdirect n ((names_iff h).mpr ⟨e,hnf,he,.inr rfl⟩))
    · rintro ⟨e,hde,he,-⟩
      exact ⟨e,steps_lift hd (hstraight hde),he⟩

/-- A SETATTR has no use for the last component that is cut off. -/
theorem Steps.renamed {e : Data} (hread : d.reading = false) (name : Path) (h : Steps (setattr ns noFollow status) cwd d e) :
    Steps (setattr ns noFollow status) cwd { d with name := name } { e with name := name } := by
  unfold Steps at h ⊢
  rw [follow_setattr hread] at h
  rw [@follow_setattr _ _ _ { d with name := name } _ _ hread]
  cases hs : ns.seek ns.root (pathNames d.path) with
  | failed st => simp [hs] at h
  | node n => simp [hs] at h
  | link idx target rest m =>
    simp only [hs] at h ⊢
    split at h
    · simp at h
    · rename_i hc
      rw [if_neg hc]
      rw [Option.some.injEq] at h ⊢
      unfold spliced Next.ofLookup nfs4LookupPathAsync at h ⊢
      dsimp only at h ⊢
      generalize nfs4ResolvePath cwd _ = r at h ⊢
      cases r with
      | error err => simp [Except.map] at h
      | ok path =>
        obtain rfl := Next.lookup.inj h
        rfl

theorem setattrs_renamed (hd : Tidy d) (name : Path)
    (h : ∃ fuel, n ∈ setattrs (setattr ns noFollow status) cwd fuel d) :
    ∃ fuel, n ∈ setattrs (setattr ns noFollow status) cwd fuel { d with name := name } := by
  obtain ⟨e,hde,he⟩ := (setattrs_iff hd).mp h
  have hrenamed : Tidy { d with name := name } := ⟨hd.1,hd.2⟩
  refine (setattrs_iff hrenamed).mpr ⟨{ e with name := name },?_,he⟩
  clear h he
  suffices h : ReflTransGen (Steps (setattr ns noFollow status) cwd) { d with name := name } { e with name := name } ∧
      Tidy e from h.1
  induction hde with
  | refl => exact ⟨.refl,hd⟩
  | tail _ hstep ih => exact ⟨ih.1.tail (hstep.renamed ih.2.2 name),hstep.tidy ih.2⟩

/-- A chmod or a utimes is for the object that its path names exactly if that is no link which it follows. -/
theorem full_path_acts {setter : Setter} (hs : splits setter = false) :
    Acts ns setter noFollow status cwd path ↔ Direct ns noFollow cwd path := by
  unfold Acts
  rw [hs]
  cases hb : begins false cwd path with
  | none =>
    have hn : ∀ b n, ¬ Names ns b cwd path n := by
      rintro b n ⟨d,hd,-⟩
      simp [hb] at hd
    exact iff_of_true (hn noFollow) (.inr fun n h => absurd h (hn true n))
  | some od =>
    cases od with
    | none =>
      unfold begins at hb
      split at hb
      · simp at hb
      · simp only [Bool.false_eq_true,if_false] at hb
        split at hb <;> simp at hb
    | some d => exact acts_iff hb

/-- A chown is for the directory that its path is cut to. -/
theorem split_path_acts {setter : Setter} (hs : splits setter = true) :
    Acts ns setter noFollow status cwd path ↔ DirectoryNamed ns noFollow cwd path := by
  unfold Acts DirectoryNamed
  rw [hs]
  cases hp : nfs4ResolvePath cwd path with
  | error err =>
    have hb : ∀ split, begins split cwd path = none := fun split => by simp [begins,hp]
    rw [hb]
    refine iff_of_true (fun n => ?_) (by simp)
    rintro ⟨d,hd,-⟩
    simp [hb] at hd
  | ok p =>
    simp only [Except.ok.injEq,forall_eq']
    cases hsplit : dataSplitPath p with
    | none =>
      have hb : begins true cwd path = some none := by simp [begins,hp,hsplit]
      rw [hb]
      simp
    | some r =>
      obtain ⟨dir,name⟩ := r
      have hne : p ≠ [] := by
        rintro rfl
        simp [dataSplitPath] at hsplit
      obtain ⟨names,hgood⟩ := good_of_normalized hp hne
      obtain ⟨dir',name',names',hsplit',hdir⟩ := hgood.split
      obtain ⟨rfl,rfl⟩ := Prod.mk.inj (Option.some.inj (hsplit.symm.trans hsplit'))
      have hb : begins true cwd path = some (some ⟨dir,name,false⟩) := by
        simp [begins,hp,hsplit,nfs4LookupPathAsync,hdir.resolved cwd,Except.map]
      have hbdir : begins false cwd dir = some (some ⟨dir,[],false⟩) := by
        simp [begins,nfs4LookupPathAsync,hdir.resolved cwd,Except.map]
      have hdtidy : ∀ name, Tidy ⟨dir,name,false⟩ := fun name => ⟨⟨names',hdir⟩,rfl⟩
      have hsame : ∀ n, (∃ fuel, n ∈ setattrs (setattr ns noFollow status) cwd fuel ⟨dir,name,false⟩) ↔
          ∃ fuel, n ∈ setattrs (setattr ns noFollow status) cwd fuel ⟨dir,[],false⟩ := fun n =>
        ⟨setattrs_renamed (hdtidy name) [],setattrs_renamed (hdtidy []) name⟩
      rw [hb]
      simp only [hsame,Option.some.injEq,Prod.mk.injEq]
      have hiff := @acts_iff _ ns cwd dir _ noFollow status hbdir
      constructor
      · intro hacts
        have hdirect := direct_of_acts hbdir fun n hn => ((hacts n).mp hn).kept
        exact ⟨dir,name,⟨rfl,rfl⟩,hdirect,fun n => ((hiff.mpr hdirect n).symm.trans (hacts n))⟩
      · rintro ⟨dir',name',⟨rfl,rfl⟩,hdirect,hnames⟩ n
        rw [← hnames n]
        exact hiff.mpr hdirect n

end Acts

section Versions

open Resolution (Export Resolves Reaches)
open Lookup3 (Fh)
open Splice (Serves SameObject Relative absolute)

variable {α : Type} {ex : Export α} {handle : ι → Fh} {cwd path : Path}

/-- The object of the SETATTR in `nfs3_chmod_continue_internal`, `nfs3_chown_continue_internal` and
`nfs3_utimes_continue_internal`: `data->fh`, where the lookup gets so far -/
def nfs3Object : Lookup3.Result α → Option Fh
  | .continued fh _ _ => some fh
  | _ => none

theorem run_mono {op : Op ns} {fuel k : ℕ} (hk : fuel ≤ k) {sent : Sent} {d : Data} {x : Sent × Result}
    (h : run op cwd fuel sent d = some x) : run op cwd k sent d = some x := by
  induction fuel generalizing k sent d with
  | zero => simp [run] at h
  | succ fuel ih =>
    obtain ⟨k,rfl⟩ : ∃ j, k = j+1 := ⟨k-1,by omega⟩
    rw [run_succ] at h ⊢
    cases hnext : (round op cwd d).2 with
    | done r => rwa [hnext] at h
    | readlink idx names => simp [hnext,resume] at h
    | lookup d' =>
      rw [hnext] at h
      exact ih (by omega) h

/-- Where the lookups of both versions come to the same object, it is the one that the path names. -/
theorem same_object_names (h : SameObject ex ns handle cwd path) :
    ∃ r, (∃ k, ∀ fuel ≥ k, Lookup3.lookup ex.server ex.mounted ⟨false,false⟩ fuel cwd path = some r) ∧
      ∀ fh, nfs3Object r = some fh ↔ ∃ n, Names ns false cwd path n ∧ fh = handle n := by
  obtain ⟨o,r,hr,hagrees,hover⟩ := h
  refine ⟨r,hr,fun fh => ?_⟩
  have hfailed : o = .failed → (∀ n, ¬ Names ns false cwd path n) →
      (nfs3Object r = some fh ↔ ∃ n, Names ns false cwd path n ∧ fh = handle n) := by
    rintro rfl hn
    refine iff_of_false ?_ ?_
    · cases hagrees <;> simp [nfs3Object]
    · rintro ⟨n,h,-⟩
      exact hn n h
  rw [← begins_start,show (Splice.look ns).isOpen = false from rfl] at hover
  cases hb : begins false cwd path with
  | none =>
    rw [hb] at hover
    refine hfailed hover ?_
    rintro n ⟨d,hd,-⟩
    simp [hb] at hd
  | some od =>
    cases od with
    | none =>
      rw [hb] at hover
      exact hover.elim
    | some d =>
      rw [hb] at hover
      obtain ⟨fuel,sent,r4,hrun,harr⟩ := hover ⟨0,0⟩
      cases harr with
      | failed =>
        refine hfailed rfl ?_
        rintro n ⟨d',hd',fuel',sent',e,hrun',-⟩
        rw [hb,Option.some.injEq,Option.some.injEq] at hd'
        subst hd'
        have h1 := run_mono (le_max_left fuel fuel') hrun
        have h2 := run_mono (le_max_right fuel fuel') hrun'
        have h3 := h1.symm.trans h2
        simp at h3
      | @reached e n hs =>
        have hn : Names ns false cwd path n := by
          refine ⟨d,hb,fuel,sent,e,hrun,?_⟩
          rw [arrives_seek ns.root_link,hs]
        cases hagrees
        simp only [nfs3Object,Option.some.injEq]
        constructor
        · rintro rfl
          exact ⟨n,hn,rfl⟩
        · rintro ⟨m,hm,rfl⟩
          rw [names_unique hn hm]

/-- Where the setter's path leads to what it names -/
def OnTarget (ns : Namespace ι) (setter : Setter) (noFollow : Bool) (cwd path : Path) : Prop :=
  if splits setter then DirectoryNamed ns noFollow cwd path else Direct ns noFollow cwd path

/-- A chmod and a utimes are for the object that the path names exactly if they follow no link that it names, a chown exactly if the
path without its last component names the same; a chown sets what version 3 does exactly if no id is negative. With relative links
the object is the one of version 3. -/
theorem setters_act (ns : Namespace ι) :
    (∀ setter noFollow status cwd path, Acts ns setter noFollow status cwd path ↔ OnTarget ns setter noFollow cwd path) ∧
    (∀ uid gid, (Sattr.sattr3 (.chown uid gid)).owner = (if uid ≠ -1 then some (Sattr.decimal uid.toNat) else none) ∧
      (Sattr.sattr3 (.chown uid gid)).ownerGroup = (if gid ≠ -1 then some (Sattr.decimal gid.toNat) else none) ∧
      (Sattr.sattr4 (.chown uid gid) = Sattr.sattr3 (.chown uid gid) ↔ 0 ≤ uid.toInt ∧ 0 ≤ gid.toInt)) ∧
    ∀ {α : Type} {ex : Export α} {handle : ι → Fh} {cwd path : Path}, Serves ex ns handle → Stops '/' cwd →
      (∀ p, Reaches ex ⟨false,false⟩ (Resolution.start ex cwd path) p → Relative ex p) →
      ¬ Resolves ex ⟨false,false⟩ (Resolution.start ex cwd path) .loop →
      ¬ (resolve (absolute cwd path) = some [] ∧ EndsInDots (absolute cwd path)) →
      ∃ r, (∃ k, ∀ fuel ≥ k, Lookup3.lookup ex.server ex.mounted ⟨false,false⟩ fuel cwd path = some r) ∧
        ∀ fh, nfs3Object r = some fh ↔ ∃ n, Names ns false cwd path n ∧ fh = handle n := by
  refine ⟨fun setter noFollow status cwd path => ?_,fun uid gid => ⟨rfl,rfl,Sattr.sets_agree _⟩,
    fun sv hc hrel hloop hdots => same_object_names (Splice.same_object sv hc hrel hloop hdots)⟩
  unfold OnTarget
  by_cases hs : splits setter = true
  · rw [if_pos hs]
    exact split_path_acts hs
  · rw [if_neg hs]
    exact full_path_acts (by simpa using hs)

open Splice (treeNs exported exported_serves)

/-- The directory `/a` -/
theorem setters_act_directory : ∃ r, (∃ k, ∀ fuel ≥ k,
    Lookup3.lookup (exported (treeNs ['.','.','/','d']) ['/','e']).server (exported (treeNs ['.','.','/','d']) ['/','e']).mounted
      ⟨false,false⟩ fuel ['/'] ['/','a'] = some r) ∧
    ∀ fh, nfs3Object r = some fh ↔ ∃ n, Names (treeNs ['.','.','/','d']) false ['/'] ['/','a'] n ∧ fh = [n] := by
  refine (setters_act (treeNs ['.','.','/','d'])).2.2 (exported_serves _ _) (.inr ⟨[],rfl⟩) ?_ ?_ ?_
  · intro p _ rest fh target _ hread
    have ht : target = ['.','.','/','d'] := by
      rcases fh with _ | ⟨n,_ | _⟩
      · simp [exported] at hread
      · by_cases hn : n = 2
        · simpa [exported,treeNs,hn] using hread.symm
        · simp [exported,treeNs,hn] at hread
      · simp [exported] at hread
    simp [ht]
  · intro h
    have ho := h.unique (.next rfl (.stop rfl))
    simp at ho
  · rintro ⟨h,-⟩
    revert h
    decide

/-- A chown of `/a` is for the root, a chmod of the link `/a/l` for the link, and the group `-1` is set. -/
theorem setters_act_fails :
    ¬ Acts (treeNs ['.','.','/','d']) (.chown 5 6) false (fun _ => 0) ['/'] ['/','a'] ∧
    ¬ Acts (treeNs ['.','.','/','d']) (.chmod 420) false (fun _ => 0) ['/'] ['/','a','/','l'] ∧
    Sattr.sattr4 (.chown 5 (-1)) ≠ Sattr.sattr3 (.chown 5 (-1)) := by
  refine ⟨fun h => ?_,fun h => ?_,fun h => ?_⟩
  · have hb : begins (splits (.chown 5 6)) ['/'] ['/','a'] = some (some ⟨['/'],['a'],false⟩) := by rfl
    unfold Acts at h
    rw [hb] at h
    have h0 : Names (treeNs ['.','.','/','d']) false ['/'] ['/','a'] 0 := (h 0).mp ⟨1,by decide +kernel⟩
    have h1 : Names (treeNs ['.','.','/','d']) false ['/'] ['/','a'] 1 :=
      ⟨⟨['/','a'],[],false⟩,by rfl,1,⟨1,0⟩,⟨['/','a'],[],false⟩,by rfl,by rfl⟩
    exact absurd (names_unique h0 h1) (by decide)
  · have hb : begins (splits (.chmod 420)) ['/'] ['/','a','/','l'] = some (some ⟨['/','a','/','l'],[],false⟩) := by rfl
    unfold Acts at h
    rw [hb] at h
    have h2 : Names (treeNs ['.','.','/','d']) false ['/'] ['/','a','/','l'] 2 := (h 2).mp ⟨1,by decide +kernel⟩
    rcases h2.kept with hlink | hno
    · simp [treeNs] at hlink
    · simp at hno
  · exact absurd ((Sattr.sets_agree _).mp h).2 (by decide)

end Versions

end AttributeSetters
end Libnfs
