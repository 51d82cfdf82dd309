import Libnfs.NameVersions

/-! A session of operations that make, remove and move names, over both versions of the protocol. -/
namespace Libnfs
namespace NameChanges

open Paths Normalize
open Lookup3 (Fh nfsstat3ToErrno)
open Lookup4 (Data Good nfs4ResolvePath dataSplitPath)
open Nfs4 (Argop Filler)
open ParentSplit (NameOp named lastName)

variable {σ ι α : Type} {site : Site σ ι α} {cwd path : Path} {s : σ} {func func' : Filler} {ops : List Argop}

section Paths

variable {names : List Path}

/-- A path in the current directory ends with its last name. -/
theorem absolute_last (cwd : Path) (hne : lastName path ≠ []) :
    '/' ∉ lastName path ∧ ∃ pre, Splice.absolute cwd path = pre ++ '/' :: lastName path := by
  rcases ParentSplit.cut_last path with hn | ⟨pre,name,hn,rfl⟩
  · rw [ParentSplit.lastName_alone hn] at hne ⊢
    have hhead : ¬ path.head? = some '/' := by
      intro hh
      obtain ⟨t,rfl⟩ := List.head?_eq_some_iff.mp hh
      simp at hn
    exact ⟨hn,cwd,if_neg hhead⟩
  · rw [ParentSplit.lastName_behind hn]
    refine ⟨hn,?_⟩
    unfold Splice.absolute
    split
    · exact ⟨pre,rfl⟩
    · exact ⟨cwd ++ '/' :: pre,by simp⟩

theorem good_components {path : Path} (h : Good path names) : components '/' path = names := by
  cases h with
  | root => rfl
  | names _ hcut hplain =>
    have hcs : Lookup3.Names names := ⟨hcut,hplain⟩
    rw [components_glue hcut,hcs.filter]

/-- What `init_cb_data_split_path` cuts a path into -/
theorem init_split (hc : Stops '/' cwd) (hl : Plain (lastName path)) :
    (parents cwd path = none → initCbDataSplitPath cwd path = .error .refused) ∧
      ∀ names, parents cwd path = some names →
        ∃ dir, initCbDataSplitPath cwd path = .ok ⟨dir,lastName path,false⟩ ∧ Good dir names := by
  have hnamed := ParentSplit.nfs4Target_named hc hl
  unfold ParentSplit.nfs4Target at hnamed
  unfold parents initCbDataSplitPath
  obtain ⟨hslash,pre,hpre⟩ := absolute_last cwd hl.1
  cases hres : nfs4ResolvePath cwd path with
  | error e =>
    rw [hres] at hnamed
    rw [← hnamed]
    exact ⟨fun _ => rfl,fun names hn => by simp [Except.toOption] at hn⟩
  | ok w =>
    have hne : w ≠ [] := by
      have hw : nfsNormalizePath (pre ++ '/' :: lastName path) = .ok w := hpre ▸ hres
      exact nfsNormalizePath_ne_nil hslash (.inr hl) hw
    obtain ⟨ns,hg⟩ := Lookup4.good_of_normalized hres hne
    obtain ⟨hns,hw⟩ := Splice.good_names hg
    obtain ⟨st,rfl⟩ : ∃ st, ns = st.reverse := ⟨ns.reverse,by simp⟩
    rw [List.reverse_reverse] at hw
    have hlast : ∀ x, named cwd path = some x → x.2 = lastName path := by
      intro x hx
      obtain ⟨st,-,rfl⟩ := Option.map_eq_some_iff.mp hx
      rfl
    cases st with
    | nil =>
      have hsplit : dataSplitPath w = some (['/'],[]) := by rw [hw]; rfl
      rw [hres] at hnamed
      simp only [Except.toOption,Option.bind_some,hsplit,Option.map_some] at hnamed
      exact absurd (hlast _ hnamed.symm).symm hl.1
    | cons c st =>
      have hst := hns.reverse
      rw [List.reverse_reverse] at hst
      have hsplit := Splice.dataSplitPath_written hst
      rw [← hw] at hsplit
      have hgood := Splice.good_written hst.tail
      rw [hres] at hnamed
      simp only [Except.toOption,Option.bind_some,hsplit,Option.map_some,good_components hgood] at hnamed
      obtain rfl : c = lastName path := hlast _ hnamed.symm
      rw [← hnamed]
      refine ⟨fun hn => by simp at hn,fun names hn => ?_⟩
      obtain rfl := Option.some.inj hn
      exact ⟨written [] st,by simp only [hsplit],good_components hgood ▸ hgood⟩

/-- What the operation looks up over NFSv3, and the name that it is about -/
theorem split_parents (op : NameOp) (hc : Stops '/' cwd) (hl : Plain (lastName path))
    (hroot : ¬ (path = '/' :: lastName path ∧ resolve (cwd ++ ['/']) ≠ some [])) :
    (op.split path).2 = lastName path ∧ resolve (NestedMounts.fullPath cwd ((op.split path).1.getD [])) = parents cwd path := by
  constructor
  · rcases ParentSplit.cut_last path with hn | ⟨pre,name,hn,rfl⟩
    · rw [(ParentSplit.split_alone op hn).2,ParentSplit.lastName_alone hn]
    · rw [ParentSplit.split_behind op hn,ParentSplit.lastName_behind hn]
  · have h := (ParentSplit.nfs3Target_named_iff op hc hl).mpr hroot
    rw [ParentSplit.nfs3Target_eq] at h
    rw [parents,← h,Option.map_map]
    exact Option.map_id'.symm

theorem whole_full (hc : Stops '/' cwd) (path : Path) : resolve (NestedMounts.fullPath cwd path) = whole cwd path := by
  obtain ⟨t,ht⟩ := Resolution.fullPath_absolute hc path
  obtain ⟨t',ht'⟩ := Splice.absolute_head hc path
  have h := Splice.absolute_push cwd path
  unfold whole resolve
  rw [if_pos (by rw [ht]; rfl),if_pos (by rw [ht']; rfl),h]

/-- Only a path that ends in dots and stands for the root is written as nothing. -/
theorem normalized_nil (h : nfsNormalizePath path = .ok []) : resolve path = some [] ∧ EndsInDots path := by
  obtain ⟨pre,l,hcut,rfl⟩ := nfsNormalizePath_absolute h
  rw [nfsNormalizePath_glue hcut] at h
  rw [endsInDots_glue (hcut l (by simp)),resolve_glue hcut (by simp),List.foldlM_append]
  cases hst : pre.foldlM push [] with
  | none => simp [hst] at h
  | some st =>
    cases hpush : push st l with
    | none => simp [hst,hpush] at h
    | some st' =>
      simp only [hst,hpush,Except.ok.injEq] at h
      obtain rfl : st' = [] := by
        cases st' with
        | nil => rfl
        | cons c st' => simp [written,glue_eq_nil] at h
      have hl : l ≠ [] := by
        rintro rfl
        simp [written] at h
      refine ⟨by simp [hpush],?_⟩
      exact (push_eq_nil hpush).resolve_left hl

/-- What `nfs4_resolve_path` makes of a path -/
theorem whole_resolved (hdots : ¬ (whole cwd path = some [] ∧ EndsInDots (Splice.absolute cwd path))) :
    (whole cwd path = none → ∃ e, nfs4ResolvePath cwd path = .error e) ∧
      ∀ names, whole cwd path = some names → ∃ w, nfs4ResolvePath cwd path = .ok w ∧ Good w names := by
  refine ⟨normalized_of_resolve.1,fun names hn => ?_⟩
  obtain ⟨w,hw,rfl,-,-⟩ := normalized_of_resolve.2 names hn
  have hne : w ≠ [] := by
    rintro rfl
    exact hdots (normalized_nil hw)
  obtain ⟨ns,hg⟩ := Lookup4.good_of_normalized hw hne
  exact ⟨w,hw,good_components hg ▸ hg⟩

end Paths

section Operations

/-- The operation is over, and leaves what the change makes of the volume. -/
def Site.Comes (site : Site σ ι α) (s : σ) (x : Option (Change ι)) (run : ℕ → Option (σ × Report)) : Prop :=
  ∃ k r, (∀ fuel ≥ k, run fuel = some ((site.made s x).1,r)) ∧ r.ok = (site.made s x).2

/-- The operations of a COMPOUND, at an object, make the change. -/
def Site.Fills (site : Site σ ι α) (s : σ) (ops : List Argop) (n : ι) (c : Change ι) : Prop :=
  (site.made s (some c)).1 = (site.fill s n ops).2 ∧ ((site.made s (some c)).2 = true ↔ (site.fill s n ops).1 = 0)

/-- The status that a change is answered with, and the volume behind it -/
def answered (s : σ) : Except ℤ σ → ℤ × σ
  | .error st => (st,s)
  | .ok s' => (0,s')

/-- What is answered makes the change. -/
theorem made_answer {e : Except ℤ σ} {c : Change ι} (h : e.toOption = site.change s c) (hst : ∀ st, e = .error st → st ≠ 0) :
    site.made s (some c) = ((answered s e).2,decide ((answered s e).1 = 0)) := by
  unfold Site.made
  rw [Option.bind_some,← h]
  cases e with
  | error st => exact congrArg (s,·) (decide_eq_false (hst st rfl)).symm
  | ok s' => rfl

theorem called_ok {err : ℤ} (h : err ≠ 0) : (Report.called err).ok = false :=
  decide_eq_false fun he => h (Report.called.inj he)

theorem reply3_comes {r : Request3} {c : Change ι} (h : site.asked3 r = some c) :
    ∃ rep, site.reply3 s r = ((site.made s (some c)).1,rep) ∧ rep.ok = (site.made s (some c)).2 := by
  unfold Site.reply3
  rw [h,made_answer (site.same3 s c) fun _ => site.status3]
  cases ha : site.answer3 s c with
  | error st =>
    have hst := site.status3 ha
    refine ⟨.called (nfsstat3ToErrno st),by simp only [ha,answered],?_⟩
    exact (called_ok (Resolution.nfsstat3ToErrno_neg hst).1.ne).trans (decide_eq_false hst).symm
  | ok s' => exact ⟨.called 0,by simp only [ha,answered],rfl⟩

/-- The last operation of a COMPOUND is answered. -/
theorem fills_answer {e : Except ℤ σ} {c : Change ι} {n : ι} (h : e.toOption = site.change s c)
    (hst : ∀ st, e = .error st → st ≠ 0) (hfill : site.fill s n ops = answered s e) : site.Fills s ops n c := by
  unfold Site.Fills
  rw [made_answer h hst,hfill]
  exact ⟨rfl,decide_eq_true_iff⟩

theorem fills_create {type : Nfs4.CreateType} {attrs : Option Nfs4.SetAttrs} {name : Path} {object : Object}
    (h : created type attrs = some object) (n : ι) : site.Fills s [.create type name attrs] n (.make n name object) := by
  refine fills_answer (site.same4 s _) (fun _ => site.status4) ?_
  simp only [Site.fill,Site.ops4,Site.op4,h]
  cases site.answer4 s (.make n name object) <;> rfl

theorem fills_link {m n : ι} {name : Path} : site.Fills s [.savefh,.putfh (site.handle n),.link name] m (.link m n name) := by
  refine fills_answer (site.same4 s _) (fun _ => site.status4) ?_
  simp only [Site.fill,Site.ops4,Site.op4,site.node_handle]
  cases site.answer4 s (.link m n name) <;> rfl

theorem fills_rename {n n' : ι} {name newname : Path} :
    site.Fills s [.savefh,.putfh (site.handle n'),.rename name newname] n (.rename n name n' newname) := by
  refine fills_answer (site.same4 s _) (fun _ => site.status4) ?_
  simp only [Site.fill,Site.ops4,Site.op4,site.node_handle]
  cases site.answer4 s (.rename n name n' newname) <;> rfl

/-- A REMOVE does what `c` would do, where the other kind of removal would fail. -/
theorem fills_remove {n : ι} {name : Path} {c : Change ι}
    (h : (site.change s (.unlink n name)).or (site.change s (.rmdir n name)) = site.change s c) :
    site.Fills s [.remove name] n c := by
  refine fills_answer ((site.removes4 s n name).trans h) (fun _ => site.removed4) ?_
  simp only [Site.fill,Site.ops4,Site.op4]
  cases site.remove4 s n name <;> rfl

section Parent

variable {op : NameOp} {n : Option ι}

/-- The lookup of a path over NFSv4 is over against the object, or does not begin. -/
def Site.Begins4 (site : Site σ ι α) (cwd : Path) (s : σ) (func : Filler) (ops : List Argop) (path : Path) (n : Option ι) : Prop :=
  (initCbDataSplitPath cwd path = .error .refused ∧ n = none) ∨
    ∃ d names, initCbDataSplitPath cwd path = .ok d ∧ (d.name = lastName path ∧ d.reading = false) ∧ Good d.path names ∧
      site.Over4 cwd s func ops d n

/-- The lookup of a parent directory comes to the same directory in both versions. -/
theorem Site.SmoothParent.ends (h : site.SmoothParent cwd s func path) (hc : Stops '/' cwd)
    (hp : populate func (lastName path) = some (ops,func')) (hgar : .garbage ∉ ops) :
    ∃ n, site.Find s (parents cwd path) n ∧ (∀ op : NameOp, site.Over3 cwd s ((op.split path).1.getD []) n) ∧
      site.Begins4 cwd s func ops path n := by
  obtain ⟨hl,hroot,hsmooth⟩ := h
  have hsplit := fun op => (@split_parents cwd path op hc hl hroot).2
  obtain ⟨hnone,hsome⟩ := init_split hc hl
  cases hpar : parents cwd path with
  | none => exact ⟨none,.above,fun op => over3_refused ((hsplit op).trans hpar),.inl ⟨hnone hpar,rfl⟩⟩
  | some names =>
    obtain ⟨dir,hinit,hgood⟩ := hsome names hpar
    obtain ⟨n,hfind,hsettles,hover⟩ := (hsmooth names hpar).ends (Splice.good_names hgood).1 hp hgar
    exact ⟨n,hfind,fun op => over3_settles ((hsplit op).trans hpar) hsettles,
      .inr ⟨_,names,hinit,⟨rfl,rfl⟩,hgood,hover cwd ⟨dir,lastName path,false⟩ hgood rfl rfl⟩⟩

theorem lookupPath4_good {names : List Path} {d : Data} {fuel : ℕ} {failed : Report} (hg : Good d.path names) :
    site.lookupPath4 cwd s fuel func failed d = site.lookup4 cwd fuel s func d := by
  unfold Site.lookupPath4 Lookup4.nfs4LookupPathAsync
  rw [hg.resolved cwd]
  rfl

/-- Over NFSv3 the request is sent with the handle of the parent directory. -/
theorem inParent3_comes {request : Fh → Path → Option Request3} {c : ι → Change ι} (h : site.Over3 cwd s ((op.split path).1.getD []) n)
    (hr : ∀ n, ∃ r, request (site.handle n) (op.split path).2 = some r ∧ site.asked3 r = some (c n)) :
    site.Comes s (n.map c) fun fuel => site.inParent3 cwd fuel s ⟨false,false⟩ op path request := by
  obtain ⟨k,x,hk,hx⟩ := h
  cases hx with
  | @found n =>
    obtain ⟨r,hreq,hasked⟩ := hr n
    obtain ⟨rep,hrep,hok⟩ := @reply3_comes _ _ _ _ s _ _ hasked
    refine ⟨k,rep,fun fuel hf => ?_,hok⟩
    simp only [Site.inParent3,hk fuel hf,Option.map_some,hreq,hrep]
  | @missing r hr =>
    refine ⟨k,r,fun fuel hf => ?_,hr⟩
    simp only [Site.inParent3,hk fuel hf,Option.map_some]
    rfl

/-- The object with what the operations behind the lookup make of it -/
theorem over4_comes {d : Data} {c : ι → Change ι} (h : site.Over4 cwd s func ops d n)
    (hfills : ∀ m, n = some m → site.Fills s ops m (c m)) :
    ∃ k r, (∀ fuel ≥ k, site.lookup4 cwd fuel s func d = some ((site.made s (n.map c)).1,r)) ∧
      r.report.ok = (site.made s (n.map c)).2 := by
  obtain ⟨k,x,hk,hx⟩ := h
  cases hx with
  | @continued n h0 =>
    obtain ⟨hs,hok⟩ := hfills n rfl
    refine ⟨k,.continued (some n),fun fuel hf => ?_,(hok.mpr h0).symm⟩
    rw [hk fuel hf,Option.map_some,hs]
  | @denied n err h0 herr =>
    obtain ⟨hs,hok⟩ := hfills n rfl
    refine ⟨k,.over (.called err),fun fuel hf => ?_,(called_ok herr).trans (Bool.eq_false_iff.mpr fun hm => h0 (hok.mp hm)).symm⟩
    rw [hk fuel hf,Option.map_some,hs]
  | missing herr => exact ⟨k,_,hk,called_ok herr⟩

theorem inParent4_comes {c : ι → Change ι} (h : site.Begins4 cwd s func ops path n)
    (hfills : ∀ m, n = some m → site.Fills s ops m (c m)) :
    site.Comes s (n.map c) fun fuel => site.inParent4 cwd s fuel path func := by
  obtain ⟨hinit,rfl⟩ | ⟨d,names,hinit,-,hgood,hover⟩ := h
  · refine ⟨0,.refused,fun fuel _ => ?_,rfl⟩
    simp only [Site.inParent4,hinit]
    rfl
  · obtain ⟨k,r,hk,hr⟩ := over4_comes hover hfills
    refine ⟨k,r.report,fun fuel hf => ?_,hr⟩
    simp only [Site.inParent4,hinit,lookupPath4_good hgood,hk fuel hf,Option.map_some]

end Parent

section TwoPaths

variable {path' : Path} {m n : Option ι} {op : NameOp}

/-- Two lookups over NFSv3, and a request with both handles -/
def Site.both3 (site : Site σ ι α) (cwd : Path) (fuel : ℕ) (s : σ) (path path' : Path) (request : Fh → Fh → Request3) :
    Option (σ × Report) :=
  (site.lookuppath3 cwd fuel s ⟨false,false⟩ path).bind fun
    | .error r => some (s,r)
    | .ok fh => site.second3 cwd fuel s path' (request fh)

/-- A lookup of the parent directory over NFSv4, and what is done with its handle -/
def Site.first4 (site : Site σ ι α) (cwd : Path) (s : σ) (fuel : ℕ) (path : Path) (next : Data → σ → ι → Option (σ × Report)) :
    Option (σ × Report) :=
  match initCbDataSplitPath cwd path with
  | .error r => some (s,r)
  | .ok d => (site.lookupPath4 cwd s fuel .getfh .refused d).bind fun
    | (s,.over r) => some (s,r)
    | (s,.continued none) => some (s,.undefined)
    | (s,.continued (some n)) => next d s n

theorem second3_missing (h : site.Over3 cwd s path none) :
    ∃ k r, (∀ fuel ≥ k, ∀ request, site.second3 cwd fuel s path request = some (s,r)) ∧ r.ok = false := by
  obtain ⟨k,x,hk,hx⟩ := h
  cases hx with
  | @missing r hr =>
    cases r with
    | refused => exact ⟨k,.called (-12),fun fuel hf request => by simp only [Site.second3,hk fuel hf,Option.map_some],rfl⟩
    | called err => exact ⟨k,.called err,fun fuel hf request => by simp only [Site.second3,hk fuel hf,Option.map_some],hr⟩
    | undefined => exact ⟨k,.undefined,fun fuel hf request => by simp only [Site.second3,hk fuel hf,Option.map_some],hr⟩

/-- A second lookup that fails: it does not matter what the first has come to. -/
theorem both3_missing (h : site.Over3 cwd s path' none) (request : Fh → Fh → Request3) :
    site.Comes s none fun fuel => site.both3 cwd fuel s path path' request := by
  obtain ⟨k,x,hk,hx⟩ := over3_total site cwd s path
  obtain ⟨k',r',hk',hr'⟩ := second3_missing h
  cases x with
  | error r => exact ⟨k,r,fun fuel hf => by simp only [Site.both3,hk fuel hf,Option.bind_some]; rfl,hx r rfl⟩
  | ok fh =>
    refine ⟨max k k',r',fun fuel hf => ?_,hr'⟩
    simp only [Site.both3,hk fuel (le_of_max_le_left hf),Option.bind_some,hk' fuel (le_of_max_le_right hf)]
    rfl

theorem both3_comes {request : Fh → Fh → Request3} {n : ι} {c : ι → Change ι} (h : site.Over3 cwd s path m)
    (h' : site.Over3 cwd s path' (some n)) (hr : ∀ m, site.asked3 (request (site.handle m) (site.handle n)) = some (c m)) :
    site.Comes s (m.map c) fun fuel => site.both3 cwd fuel s path path' request := by
  obtain ⟨k,x,hk,hx⟩ := h
  obtain ⟨k',x',hk',hx'⟩ := h'
  cases hx' with
  | found =>
    cases hx with
    | @found m =>
      obtain ⟨rep,hrep,hok⟩ := @reply3_comes _ _ _ _ s _ _ (hr m)
      refine ⟨max k k',rep,fun fuel hf => ?_,hok⟩
      simp only [Site.both3,Site.second3,hk fuel (le_of_max_le_left hf),hk' fuel (le_of_max_le_right hf),Option.bind_some,
        Option.map_some,hrep]
    | @missing r hr =>
      refine ⟨k,r,fun fuel hf => ?_,hr⟩
      simp only [Site.both3,hk fuel hf,Option.bind_some]
      rfl

theorem first4_missing (h : site.Begins4 cwd s .getfh [.getfh] path none) (next : ℕ → Data → σ → ι → Option (σ × Report)) :
    site.Comes s none fun fuel => site.first4 cwd s fuel path (next fuel) := by
  obtain ⟨hinit,-⟩ | ⟨d,names,hinit,-,hgood,k,x,hk,hx⟩ := h
  · refine ⟨0,.refused,fun fuel _ => ?_,rfl⟩
    simp only [Site.first4,hinit]
    rfl
  · cases hx with
    | @missing err herr =>
      refine ⟨k,.called err,fun fuel hf => ?_,called_ok herr⟩
      simp only [Site.first4,hinit,lookupPath4_good hgood,hk fuel hf,Option.bind_some]
      rfl

/-- A GETFH behind the lookup leaves the volume alone. -/
theorem first4_found {n : ι} (h : site.Begins4 cwd s .getfh [.getfh] path (some n)) :
    ∃ k d, (d.name = lastName path ∧ d.reading = false) ∧ ∀ fuel ≥ k, ∀ next, site.first4 cwd s fuel path next = next d s n := by
  obtain ⟨-,hn⟩ | ⟨d,names,hinit,hname,hgood,k,x,hk,hx⟩ := h
  · simp at hn
  · have hfill : site.fill s n [.getfh] = (0,s) := rfl
    cases hx with
    | continued h0 =>
      refine ⟨k,d,hname,fun fuel hf next => ?_⟩
      simp only [Site.first4,hinit,lookupPath4_good hgood,hk fuel hf,Option.bind_some,hfill]
    | denied h0 _ => exact absurd rfl h0

end TwoPaths

section Commands

/-- The operations that look up one directory -/
theorem inParent_comes (hc : Stops '/' cwd) (h : site.SmoothParent cwd s func path)
    (hp : populate func (lastName path) = some (ops,func')) (hgar : .garbage ∉ ops) (op : NameOp)
    (request : Fh → Path → Option Request3) (c : ι → Change ι)
    (hr : ∀ n, (request (site.handle n) (lastName path)).bind site.asked3 = some (c n))
    (hfills : ∀ n, site.Find s (parents cwd path) (some n) → site.Fills s ops n (c n)) :
    ∃ n, site.Find s (parents cwd path) n ∧
      site.Comes s (n.map c) (fun fuel => site.inParent3 cwd fuel s ⟨false,false⟩ op path request) ∧
      site.Comes s (n.map c) (fun fuel => site.inParent4 cwd s fuel path func) := by
  obtain ⟨n,hfind,hover,hbegins⟩ := h.ends hc hp hgar
  have hname := (split_parents op hc h.plain h.root).1
  exact ⟨n,hfind,inParent3_comes (hover op) fun n => hname ▸ Option.bind_eq_some_iff.mp (hr n),
    inParent4_comes hbegins fun m hm => hfills m (hm ▸ hfind)⟩

theorem nfs4Link_eq (fuel : ℕ) (oldpath newpath : Path) : site.nfs4Link cwd s fuel oldpath newpath =
    site.first4 cwd s fuel newpath fun d s n =>
      (site.lookupPath4 cwd s fuel (.link (site.handle n)) (.called (-14)) { d with path := oldpath }).map fun r =>
        (r.1,r.2.report) := rfl

theorem nfs4Rename_eq (fuel : ℕ) (oldpath newpath : Path) : site.nfs4Rename cwd s fuel oldpath newpath =
    site.first4 cwd s fuel newpath fun d s n =>
      match initCbDataSplitPath cwd oldpath with
      | .error .refused => some (s,.called (-22))
      | .error r => some (s,r)
      | .ok d' => (site.lookupPath4 cwd s fuel (.rename (site.handle n) (some d.name)) (.called (-12)) d').map fun r =>
          (r.1,r.2.report) := rfl

/-- `nfs_link_async` in both versions -/
theorem link_comes (hc : Stops '/' cwd) {oldpath newpath : Path} (h : site.Suits cwd s (.link oldpath newpath)) :
    ∃ x, site.Means cwd s (.link oldpath newpath) x ∧
      site.Comes s x (fun fuel => site.nfs3Link cwd fuel s oldpath newpath) ∧
      site.Comes s x (fun fuel => site.nfs4Link cwd s fuel oldpath newpath) := by
  obtain ⟨hsm,hdots,hold⟩ := h
  obtain ⟨n,hfind,hover,hbegins⟩ := hsm.ends hc rfl (by simp)
  have hname := (split_parents .link hc hsm.plain hsm.root).1
  simp only [nfs4Link_eq]
  cases n with
  | none =>
    exact ⟨none,.linkNowhere hfind,both3_missing (hover .link) fun fh newdir => .link fh newdir (NameOp.link.split newpath).2,
      first4_missing hbegins _⟩
  | some n =>
    obtain ⟨k,d,⟨hd,hread⟩,hfirst⟩ := first4_found hbegins
    -- the object that is linked, over both versions
    obtain ⟨m,hm,hover3,hover4⟩ : ∃ m, site.Find s (whole cwd oldpath) m ∧ site.Over3 cwd s oldpath m ∧
        site.Comes s (m.map fun m => .link m n (lastName newpath)) fun fuel =>
          (site.lookupPath4 cwd s fuel (.link (site.handle n)) (.called (-14)) { d with path := oldpath }).map fun r =>
            (r.1,r.2.report) := by
      obtain ⟨hnone,hsome⟩ := whole_resolved hdots
      cases hw : whole cwd oldpath with
      | none =>
        obtain ⟨e,he⟩ := hnone hw
        refine ⟨none,.above,over3_refused ((whole_full hc oldpath).trans hw),0,.called (-14),fun fuel _ => ?_,rfl⟩
        simp only [Site.lookupPath4,Lookup4.nfs4LookupPathAsync,he]
        rfl
      | some names =>
        obtain ⟨w,hres,hgood⟩ := hsome names hw
        obtain ⟨m,hm,hsettles,hends⟩ := (hold n hfind names hw).ends (Splice.good_names hgood).1 rfl (by simp)
        obtain ⟨k',r,hk',hr⟩ := over4_comes (hends cwd { d with path := w } hgood hd hread) fun m _ => fills_link
        refine ⟨m,hm,over3_settles ((whole_full hc oldpath).trans hw) hsettles,k',r.report,fun fuel hf => ?_,hr⟩
        simp only [Site.lookupPath4,Lookup4.nfs4LookupPathAsync,hres]
        exact congrArg (Option.map fun r : σ × End ι => (r.1,r.2.report)) (hk' fuel hf)
    refine ⟨_,.link hfind hm,both3_comes hover3 (hover .link) fun m => ?_,?_⟩
    · simp only [Site.asked3,site.node_handle,hname]
      rfl
    · obtain ⟨k',r,hk',hr⟩ := hover4
      exact ⟨max k k',r,fun fuel hf => by
        rw [← hk' fuel (le_of_max_le_right hf)]
        exact hfirst fuel (le_of_max_le_left hf) _,hr⟩

/-- `nfs_rename_async` in both versions -/
theorem rename_comes (hc : Stops '/' cwd) {oldpath newpath : Path} (h : site.Suits cwd s (.rename oldpath newpath)) :
    ∃ x, site.Means cwd s (.rename oldpath newpath) x ∧
      site.Comes s x (fun fuel => site.nfs3Rename cwd fuel s oldpath newpath) ∧
      site.Comes s x (fun fuel => site.nfs4Rename cwd s fuel oldpath newpath) := by
  obtain ⟨hsm,hold⟩ := h
  obtain ⟨n',hfind',hover',hbegins'⟩ := hsm.ends hc rfl (by simp)
  have hname' := (split_parents .rename hc hsm.plain hsm.root).1
  simp only [nfs4Rename_eq]
  cases n' with
  | none =>
    refine ⟨none,.renameNowhere hfind',?_,first4_missing hbegins' _⟩
    exact both3_missing (hover' .rename) fun olddir newdir =>
      .rename olddir (NameOp.rename.split oldpath).2 newdir (NameOp.rename.split newpath).2
  | some n' =>
    obtain ⟨k,d,⟨hd,-⟩,hfirst⟩ := first4_found hbegins'
    have hsm' := hold n' hfind'
    have hp : populate (.rename (site.handle n') (some (lastName newpath))) (lastName oldpath) =
      some ([.savefh,.putfh (site.handle n'),.rename (lastName oldpath) (lastName newpath)],
        .rename (site.handle n') (some (lastName newpath))) := rfl
    obtain ⟨n,hfind,hover,hbegins⟩ := hsm'.ends hc hp (by simp)
    have hname := (split_parents .rename hc hsm'.plain hsm'.root).1
    refine ⟨_,.rename hfind' hfind,both3_comes (hover .rename) (hover' .rename) fun n => ?_,?_⟩
    · simp only [Site.asked3,site.node_handle,hname,hname']
      rfl
    · obtain ⟨hinit,rfl⟩ | ⟨d',names,hinit,-,hgood,hover4⟩ := hbegins
      · refine ⟨k,.called (-22),fun fuel hf => ?_,rfl⟩
        refine (hfirst fuel hf _).trans ?_
        simp only [hinit]
        rfl
      · obtain ⟨k',r,hk',hr⟩ := @over4_comes _ _ _ _ _ _ _ _ _ _ (fun n => .rename n (lastName oldpath) n' (lastName newpath))
          hover4 fun m _ => fills_rename
        refine ⟨max k k',r.report,fun fuel hf => ?_,hr⟩
        refine (hfirst fuel (le_of_max_le_left hf) _).trans ?_
        simp only [hinit,hd,lookupPath4_good hgood,hk' fuel (le_of_max_le_right hf),Option.map_some]

/-- `nfs_mknod_async` in both versions, for a device -/
theorem mknod_comes (hc : Stops '/' cwd) {mode : ℕ} {dev : ℤ} (h : site.Suits cwd s (.mknod path mode dev)) :
    ∃ x, site.Means cwd s (.mknod path mode dev) x ∧
      site.Comes s x (fun fuel => site.run3 cwd fuel s (.mknod path mode dev)) ∧
      site.Comes s x (fun fuel => site.nfs4Mknod cwd s fuel path mode dev) := by
  obtain ⟨htype,hmode,hsm⟩ := h
  have hrun : (fun fuel => site.nfs4Mknod cwd s fuel path mode dev) = fun fuel => site.inParent4 cwd s fuel path (.mknod mode dev) :=
    funext fun _ => if_pos htype
  rw [hrun]
  rcases htype with htype | htype
  · have hp : populate (.mknod mode dev) (lastName path) = some ([.create (.chr dev) (lastName path)
        (some (.mode (mode &&& 0o777)))],.mknod (Nfs4.htonl (mode-(mode &&& 0o170000))) dev) := by
      simp [populate,Nfs4.CbData.populate,Nfs4.nfs4PopulateMknod,htype,← hmode]
    obtain ⟨n,hfind,h3,h4⟩ := inParent_comes hc hsm hp (by simp) .mknod (nfs3MknodContinueInternal mode dev)
      (fun n => .make n (lastName path) (.chr (mode &&& 0o777) dev))
      (fun n => by simp [nfs3MknodContinueInternal,htype,Site.asked3,site.node_handle]) fun n _ => fills_create rfl n
    exact ⟨_,.chr hfind htype,h3,h4⟩
  · have hp : populate (.mknod mode dev) (lastName path) = some ([.create (.blk dev) (lastName path)
        (some (.mode (mode &&& 0o777)))],.mknod (Nfs4.htonl (mode-(mode &&& 0o170000))) dev) := by
      simp [populate,Nfs4.CbData.populate,Nfs4.nfs4PopulateMknod,htype,← hmode]
    obtain ⟨n,hfind,h3,h4⟩ := inParent_comes hc hsm hp (by simp) .mknod (nfs3MknodContinueInternal mode dev)
      (fun n => .make n (lastName path) (.blk (mode &&& 0o777) dev))
      (fun n => by simp [nfs3MknodContinueInternal,htype,Site.asked3,site.node_handle]) fun n _ => fills_create rfl n
    exact ⟨_,.blk hfind htype,h3,h4⟩

/-- An operation that suits the volume comes to what it means, in both versions. -/
theorem suits_comes (hc : Stops '/' cwd) {c : Command} (h : site.Suits cwd s c) :
    ∃ x, site.Means cwd s c x ∧ site.Comes s x (fun fuel => site.run3 cwd fuel s c) ∧
      site.Comes s x fun fuel => site.run4 cwd s fuel c := by
  cases c with
  | mkdir2 path mode =>
    obtain ⟨hbit,hsm⟩ := h
    obtain ⟨n,hfind,h3,h4⟩ := inParent_comes hc hsm rfl (by simp) .mkdir2 (fun dir name => some (.mkdir dir name mode))
      (fun n => .make n (lastName path) (.dir mode)) (fun n => by simp [Site.asked3,site.node_handle]) fun n _ =>
        fills_create rfl n
    refine ⟨_,.mkdir2 hfind,?_,h4⟩
    simp only [Site.run3,hbit]
    exact h3
  | mknod path mode dev => exact mknod_comes hc h
  | symlink target linkname =>
    obtain ⟨n,hfind,h3,h4⟩ := inParent_comes hc h rfl (by simp) .symlink
      (fun dir name => some (.symlink dir name 0o777 target)) (fun n => .make n (lastName linkname) (.lnk target))
      (fun n => by simp [Site.asked3,site.node_handle]) fun n _ => fills_create rfl n
    exact ⟨_,.symlink hfind,h3,h4⟩
  | unlink path =>
    obtain ⟨hsm,hother⟩ := h
    obtain ⟨n,hfind,h3,h4⟩ := inParent_comes hc hsm rfl (by simp) .unlink (fun dir name => some (.remove dir name))
      (fun n => .unlink n (lastName path)) (fun n => by simp [Site.asked3,site.node_handle])
      fun n hn => fills_remove (by rw [hother n hn,Option.or_none])
    exact ⟨_,.unlink hfind,h3,h4⟩
  | rmdir path =>
    obtain ⟨hsm,hother⟩ := h
    obtain ⟨n,hfind,h3,h4⟩ := inParent_comes hc hsm rfl (by simp) .rmdir (fun dir name => some (.rmdir dir name))
      (fun n => .rmdir n (lastName path)) (fun n => by simp [Site.asked3,site.node_handle])
      fun n hn => fills_remove (by rw [hother n hn,Option.none_or])
    exact ⟨_,.rmdir hfind,h3,h4⟩
  | link oldpath newpath => exact link_comes hc h
  | rename oldpath newpath => exact rename_comes hc h

end Commands

end Operations

section Session

theorem Site.Find.unique {names : Option (List Path)} {n n' : Option ι} (h : site.Find s names n) (h' : site.Find s names n') :
    n = n' := by
  cases h with
  | @found names n h =>
    cases h' with
    | @found _ n' h' =>
      have hh := congrArg site.node (Resolution.Outcome.reached.inj (h.unique h'))
      rw [site.node_handle,site.node_handle] at hh
      exact hh
    | missing h' => exact absurd (h.unique h') (by simp)
  | missing h =>
    cases h' with
    | found h' => exact absurd (h.unique h') (by simp)
    | missing h' => rfl
  | above =>
    cases h'
    rfl

/-- An operation means one thing. -/
theorem Site.Means.unique {c : Command} {x x' : Option (Change ι)} (h : site.Means cwd s c x) (h' : site.Means cwd s c x') :
    x = x' := by
  cases h with
  | mkdir2 h =>
    cases h' with
    | mkdir2 h' => rw [h.unique h']
  | chr h ht =>
    cases h' with
    | chr h' ht' => rw [h.unique h']
    | blk h' ht' => omega
  | blk h ht =>
    cases h' with
    | chr h' ht' => omega
    | blk h' ht' => rw [h.unique h']
  | symlink h =>
    cases h' with
    | symlink h' => rw [h.unique h']
  | unlink h =>
    cases h' with
    | unlink h' => rw [h.unique h']
  | rmdir h =>
    cases h' with
    | rmdir h' => rw [h.unique h']
  | link hn hm =>
    cases h' with
    | link hn' hm' =>
      obtain rfl := Option.some.inj (hn.unique hn')
      rw [hm.unique hm']
    | linkNowhere hn' => exact absurd (hn.unique hn') (by simp)
  | rename hn hm =>
    cases h' with
    | rename hn' hm' =>
      obtain rfl := Option.some.inj (hn.unique hn')
      rw [hm.unique hm']
    | renameNowhere hn' => exact absurd (hn.unique hn') (by simp)
  | linkNowhere hn =>
    cases h' with
    | link hn' hm' => exact absurd (hn'.unique hn) (by simp)
    | linkNowhere hn' => rfl
  | renameNowhere hn =>
    cases h' with
    | rename hn' hm' => exact absurd (hn'.unique hn) (by simp)
    | renameNowhere hn' => rfl

theorem Site.Performs.unique {cs : List Command} {s' s'' : σ} {bs bs' : List Bool} (h : site.Performs cwd s cs s' bs)
    (h' : site.Performs cwd s cs s'' bs') : s' = s'' ∧ bs = bs' := by
  induction h generalizing bs' with
  | nil =>
    cases h'
    exact ⟨rfl,rfl⟩
  | cons hm _ ih =>
    cases h' with
    | cons hm' h' =>
      obtain rfl := hm.unique hm'
      obtain ⟨rfl,rfl⟩ := ih h'
      exact ⟨rfl,rfl⟩

/-- One operation, and then the others -/
theorem session_cons {run : σ → Command → Option (σ × Report)} {c : Command} {cs : List Command} {s s' s'' : σ} {r : Report}
    {rs : List Report} (h : run s c = some (s',r)) (h' : session run s' cs = some (s'',rs)) :
    session run s (c :: cs) = some (s'',r :: rs) := by
  simp only [session,h,h',Option.map_some]

end Session

section Volume

open Resolution (Place Resolves)
open Lookup4 (Namespace errSymlink)

/-- A volume with a number for each object: the names in the directories, and the targets of the links -/
structure Volume where
  entries : List (UInt8 × Path × UInt8)
  targets : List (UInt8 × Path)
  next : UInt8

namespace Volume

variable (v : Volume)

def find (n : UInt8) (name : Path) : Option UInt8 := (v.entries.find? fun e => e.1 = n ∧ e.2.1 = name).map fun e => e.2.2

def link (n : UInt8) : Option Path := if n = 0 then none else v.targets.lookup n

def ns : Namespace UInt8 where
  root := 0
  link := v.link
  lookup n name := (v.find n name).elim (.error 2) .ok
  root_link := rfl
  status := by
    intro n c st h
    cases hf : v.find n c with
    | none =>
      simp only [hf,Option.elim_none,Except.error.injEq] at h
      subst h
      decide
    | some m => simp [hf] at h

def enter (n : UInt8) (name : Path) (m : UInt8) : Option Volume :=
  if (v.link n).isSome ∨ (v.find n name).isSome then none else some { v with entries := (n,name,m) :: v.entries }

def leave (n : UInt8) (name : Path) : Volume := { v with entries := v.entries.filter fun e => ¬ (e.1 = n ∧ e.2.1 = name) }

def made (object : Object) : Volume :=
  match object with
  | .lnk target => { v with targets := (v.next,target) :: v.targets, next := v.next+1 }
  | _ => { v with next := v.next+1 }

/-- A directory goes once there is nothing in it. -/
def change : Change UInt8 → Option Volume
  | .make n name object => (v.made object).enter n name v.next
  | .unlink n name => (v.find n name).bind fun m => if (v.link m).isSome then some (v.leave n name) else none
  | .rmdir n name => (v.find n name).bind fun m =>
    if (v.link m).isSome ∨ v.entries.any (·.1 = m) then none else some (v.leave n name)
  | .link m n name => v.enter n name m
  | .rename n name n' newname => (v.find n name).bind fun m => (v.leave n name).enter n' newname m

end Volume

/-- The directory that a change is made in -/
def Change.dir {ι : Type} : Change ι → ι
  | .make n _ _ => n
  | .unlink n _ => n
  | .rmdir n _ => n
  | .link _ n _ => n
  | .rename n _ _ _ => n

/-- A server for it; a change behind a link is refused with `NFS4ERR_SYMLINK`, and others with `EEXIST`. -/
def volumes : Site Volume UInt8 Bool where
  ns := Volume.ns
  ex v := Splice.exported v.ns ['/','e']
  handle n := [n]
  node fh := fh.head?
  change := Volume.change
  answer3 v c := (v.change c).elim (.error 17) .ok
  answer4 v c := (v.change c).elim (.error (if (v.link c.dir).isSome then errSymlink else 17)) .ok
  remove4 v n name := ((v.change (.unlink n name)).or (v.change (.rmdir n name))).elim (.error 17) .ok
  node_handle _ := rfl
  serves v := Splice.exported_serves v.ns ['/','e']
  same3 v c := by cases v.change c <;> rfl
  same4 v c := by cases v.change c <;> rfl
  removes4 v n name := by cases (v.change (.unlink n name)).or (v.change (.rmdir n name)) <;> rfl
  status3 := by
    intro v c st h
    cases hc : v.change c with
    | none =>
      simp only [hc,Option.elim_none,Except.error.injEq] at h
      omega
    | some v' => simp [hc] at h
  status4 := by
    intro v c st h
    cases hc : v.change c with
    | none =>
      simp only [hc,Option.elim_none,Except.error.injEq] at h
      rw [← h]
      split <;> decide
    | some v' => simp [hc] at h
  removed4 := by
    intro v n name st h
    cases hc : (v.change (.unlink n name)).or (v.change (.rmdir n name)) with
    | none =>
      simp only [hc,Option.elim_none,Except.error.injEq] at h
      omega
    | some v' => simp [hc] at h

/-- With relative targets only, and operations that have nothing to do at a link or are refused there -/
theorem volumes_follows {v : Volume} (hrel : ∀ e ∈ v.targets, e.2.head? ≠ some '/') {name : Path}
    (hp : populate func name = some (ops,func))
    (hfill : ∀ n, (v.link n).isSome → volumes.fill v n ops = (0,v) ∨ volumes.fill v n ops = (errSymlink,v)) (p : Place) :
    volumes.Follows v func name p := by
  intro rest fh target _ hread
  obtain ⟨n,rfl⟩ : ∃ n, fh = [n] := by
    rcases fh with _ | ⟨n,_ | _⟩
    · simp [volumes,Splice.exported] at hread
    · exact ⟨n,rfl⟩
    · simp [volumes,Splice.exported] at hread
  have hlink : v.link n = some target := by
    cases hl : v.link n with
    | none => simp [volumes,Splice.exported,Volume.ns,hl] at hread
    | some t => simpa [volumes,Splice.exported,Volume.ns,hl] using hread
  refine ⟨?_,ops,hp,fun _ m hm => ?_⟩
  · unfold Volume.link at hlink
    split at hlink
    · simp at hlink
    · obtain ⟨l₁,l₂,he,-⟩ := List.lookup_eq_some_iff.mp hlink
      exact hrel (n,target) (by rw [he]; simp)
  · obtain rfl : n = m := by simpa [volumes] using hm
    exact hfill n (by rw [hlink]; rfl)

/-- A path whose parent directory is there -/
theorem volumes_smooth {v : Volume} {fh : Fh} {names : List Path} (hparents : parents ['/'] path = some names)
    (hl : Plain (lastName path)) (hlead : volumes.Leads v names (.reached fh))
    (hfollows : ∀ p, volumes.Follows v func (lastName path) p) : volumes.SmoothParent ['/'] v func path where
  plain := hl
  root h := h.2 (by decide +kernel)
  smooth names' h := by
    obtain rfl := Option.some.inj (hparents.symm.trans h)
    exact ⟨fun p _ => hfollows p,fun hloop => absurd (hlead.unique hloop) (by simp)⟩

theorem volumes_find {v : Volume} {n : UInt8} {names : List Path} (hparents : parents ['/'] path = some names)
    (h : volumes.Leads v names (.reached [n])) : volumes.Find v (parents ['/'] path) (some n) := by
  rw [hparents]
  exact .found h

/-- `mkdir /a`, a link `/l` to it, `mkdir /l/b`, and `/a/b` is renamed to `/l/c`. -/
def demoCommands : List Command :=
  [.mkdir2 ['/','a'] 0o755,.symlink ['a'] ['/','l'],.mkdir2 ['/','l','/','b'] 0o755,.rename ['/','a','/','b'] ['/','l','/','c']]

def demoLinked : Volume := ⟨[(0,['l'],2),(0,['a'],1)],[(2,['a'])],3⟩

def demoMade : Volume := ⟨[(1,['b'],3),(0,['l'],2),(0,['a'],1)],[(2,['a'])],4⟩

theorem demo_link {v : Volume} (h : v.targets = [(2,['a'])]) {n : UInt8} (hn : (v.link n).isSome) : n = 2 := by
  unfold Volume.link at hn
  split at hn
  · simp at hn
  · rw [h] at hn
    by_contra h2
    rw [List.lookup_cons,beq_false_of_ne h2] at hn
    simp at hn

theorem demo_suits : volumes.SuitsAll ['/'] ⟨[],[],1⟩ demoCommands := by
  have hnone : ∀ n, (Volume.link ⟨[],[],1⟩ n).isSome → False := by
    intro n h
    simp [Volume.link] at h
  have hnone' : ∀ n, (Volume.link ⟨[(0,['a'],1)],[],2⟩ n).isSome → False := by
    intro n h
    simp [Volume.link] at h
  have hpa : parents ['/'] ['/','a'] = some [] := by decide +kernel
  have hpl : parents ['/'] ['/','l'] = some [] := by decide +kernel
  have hpb : parents ['/'] ['/','l','/','b'] = some [['l']] := by decide +kernel
  have hpc : parents ['/'] ['/','l','/','c'] = some [['l']] := by decide +kernel
  have hpo : parents ['/'] ['/','a','/','b'] = some [['a']] := by decide +kernel
  have hroot : ∀ v, volumes.Leads v [] (.reached [0]) := fun v => .stop rfl
  have hl2 : volumes.Leads demoLinked [['l']] (.reached [1]) := .next rfl (.next rfl (.stop rfl))
  have hl3 : volumes.Leads demoMade [['l']] (.reached [1]) := .next rfl (.next rfl (.stop rfl))
  have ha3 : volumes.Leads demoMade [['a']] (.reached [1]) := .next rfl (.stop rfl)
  have hrel : ∀ v : Volume, v.targets = [(2,['a'])] → ∀ e ∈ v.targets, e.2.head? ≠ some '/' := by
    intro v hv
    rw [hv]
    simp
  refine ⟨⟨by decide,volumes_smooth hpa ⟨by decide,by decide,by decide⟩ (hroot _)
    (volumes_follows (by simp) rfl fun n h => (hnone n h).elim)⟩,fun x hx => ?_⟩
  obtain rfl := hx.unique (.mkdir2 (volumes_find hpa (hroot _)))
  change volumes.SuitsAll ['/'] ⟨[(0,['a'],1)],[],2⟩ _
  refine ⟨volumes_smooth hpl ⟨by decide,by decide,by decide⟩ (hroot _)
    (volumes_follows (by simp) rfl fun n h => (hnone' n h).elim),fun x hx => ?_⟩
  obtain rfl := hx.unique (.symlink (volumes_find hpl (hroot _)))
  change volumes.SuitsAll ['/'] demoLinked _
  refine ⟨⟨by decide,volumes_smooth hpb ⟨by decide,by decide,by decide⟩ hl2
    (volumes_follows (hrel demoLinked rfl) rfl fun n h => ?_)⟩,fun x hx => ?_⟩
  · obtain rfl := demo_link rfl h
    exact .inr rfl
  obtain rfl := hx.unique (.mkdir2 (volumes_find hpb hl2))
  change volumes.SuitsAll ['/'] demoMade _
  refine ⟨⟨volumes_smooth hpc ⟨by decide,by decide,by decide⟩ hl3
    (volumes_follows (hrel demoMade rfl) rfl fun n _ => .inl rfl),fun n hn => ?_⟩,fun _ _ => trivial⟩
  obtain rfl := Option.some.inj (hn.unique (volumes_find hpc hl3))
  refine volumes_smooth hpo ⟨by decide,by decide,by decide⟩ ha3 (volumes_follows (hrel demoMade rfl) rfl fun n h => ?_)
  obtain rfl := demo_link rfl h
  exact .inr rfl

end Volume

end NameChanges
end Libnfs
