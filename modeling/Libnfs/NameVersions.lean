import Libnfs.NameChanges

/-! A session of operations on names comes out alike over both versions of the protocol. -/
namespace Libnfs
namespace NameChanges

open Paths Normalize
open Lookup3 (Fh Names Writes nfsstat3ToErrno)
open Lookup4 (Namespace Data Good Op errSymlink nfsstat4ToErrno pathNames walk_seek passed)
open Nfs4 (Argop Filler)
open ParentSplit (NameOp named lastName)
open Resolution (Export Place Outcome Resolves Descends Settles Agrees)

variable {σ ι α : Type}

section Version4

variable {ns : Namespace ι} {op : Op ns} {cwd : Path} {d : Data} {names : List Path} {n m : ι}

/-- The object that the LOOKUPs of a COMPOUND come to, when the walk ends here -/
def ended : Lookup4.Found ι → Option ι
  | .failed _ => none
  | .link _ _ rest m => if rest = [] then some m else none
  | .node m => some m

theorem ended_behind (f : Lookup4.Found ι) : ended f.behind = ended f := by cases f <;> rfl

theorem arrive_seek (hn : ns.link n = none) : arrive ns n names = ended (ns.seek n names) := by
  induction names generalizing n with
  | nil => rfl
  | cons c cs ih =>
    rw [arrive,Namespace.seek,hn]
    cases hl : ns.lookup n c with
    | error st => rfl
    | ok m =>
      cases hm : ns.link m with
      | none =>
        simp only [hm,ended_behind]
        exact ih hm
      | some target =>
        simp only [hm]
        cases cs with
        | nil => rfl
        | cons e cs => simp [arrive,hm,ended]

theorem nfsstat4ToErrno_ne_zero {status : ℤ} (h : status ≠ 0) : nfsstat4ToErrno status ≠ 0 := by
  have hall : ∀ e ∈ Lookup4.errnos, e.1 = 0 ∨ e.2 ≠ 0 := by decide
  unfold nfsstat4ToErrno
  cases hl : Lookup4.errnos.lookup status with
  | none => decide
  | some v =>
    obtain ⟨l₁,l₂,he,-⟩ := List.lookup_eq_some_iff.mp hl
    exact (hall (status,v) (by rw [he]; simp)).resolve_left h

theorem cb_missing {st : ℤ} (hs : ns.seek ns.root (pathNames d.path) = .failed st) :
    ∃ err ≠ 0, Lookup4.nfs4LookupPath1Cb op cwd d (op.answer d) = .done (.called err) := by
  have h := walk_seek ns (op.fill d) ns.root_link (pathNames d.path)
  rw [hs] at h
  obtain ⟨h0,hne,hst⟩ := h
  have hans : (op.answer d).2 = st := hst
  exact ⟨_,nfsstat4ToErrno_ne_zero (hans ▸ h0),Lookup4.cb_failed (hans ▸ h0) (hans ▸ hne)⟩

/-- All components are found, and no link is the last of them: the operations behind the LOOKUPs decide. -/
theorem cb_node (hread : d.reading = false) (hopen : op.isOpen = false) (hs : ns.seek ns.root (pathNames d.path) = .node n) :
    ((op.fill d n).2 = 0 → Lookup4.nfs4LookupPath1Cb op cwd d (op.answer d) = .done (.continued d)) ∧
      ((op.fill d n).2 ≠ 0 → ∃ err ≠ 0, Lookup4.nfs4LookupPath1Cb op cwd d (op.answer d) = .done (.called err)) := by
  have h := walk_seek ns (op.fill d) ns.root_link (pathNames d.path)
  rw [hs] at h
  have hfill : (op.fill d n).1 = [.other] := by simp [Op.fill,hread,hopen]
  have hans : op.answer d = (.other :: (passed (pathNames d.path).length ([.getattr false,.other],(op.fill d n).2)).1,(op.fill d n).2) := by
    unfold Op.answer Namespace.compound
    rw [h.2,hfill]
    rfl
  have hl : Lookup4.OpRes.getattr true ∉ (op.answer d).1 := by
    rw [hans,Lookup4.mem_passed (by simp)]
    simp
  have ho : Lookup4.OpRes.open_ errSymlink ∉ (op.answer d).1 := by
    rw [hans,Lookup4.mem_passed (by simp)]
    simp
  have hlook : Lookup4.OpRes.lookup errSymlink ∉ (op.answer d).1 := by
    rw [hans,Lookup4.mem_passed (by simp [errSymlink])]
    simp
  have hst : (op.answer d).2 = (op.fill d n).2 := by rw [hans]
  rw [← hst]
  refine ⟨Lookup4.cb_plain hl ho,fun h0 => ?_⟩
  by_cases hsym : (op.answer d).2 = errSymlink
  · exact ⟨-14,by decide,Lookup4.cb_notFound (.inl hl) ho hlook hsym⟩
  · exact ⟨_,nfsstat4ToErrno_ne_zero h0,Lookup4.cb_failed h0 hsym⟩

theorem spliced_called {pre rest : List Path} {target : Path} {err : ℤ}
    (h : Lookup4.spliced cwd d pre target rest = .done (.called err)) : err = -12 := by
  unfold Lookup4.spliced Lookup4.Next.ofLookup at h
  split at h
  · simpa using h.symm
  · simp at h

/-- A link on the way is read, if the operations behind it have nothing to say against it. -/
theorem round_link {idx : ℕ} {target : Path} {rest : List Path} (hg : Good d.path names) (hread : d.reading = false)
    (hopen : op.isOpen = false) (hfol : op.noFollow = false) (hs : ns.seek ns.root names = .link idx target rest m)
    (hst : rest = [] → (op.fill d m).2 = 0 ∨ (op.fill d m).2 = errSymlink) :
    Lookup4.round op cwd d = (⟨2,1⟩,Lookup4.spliced cwd d (names.take (idx-1)) target rest) := by
  obtain ⟨c,-,hat⟩ := @Lookup4.LinkAt.of_seek _ _ op d _ _ _ _ _ hg hs
  have hround := @Lookup4.round_follow _ _ op cwd _ _ hg hread
  have hf : op.follow cwd d = some (Lookup4.spliced cwd d (names.take (idx-1)) target rest) := by
    unfold Op.follow
    rw [hg.pathNames,hs]
    refine if_neg ?_
    rintro ⟨hrest,⟨h0,hne⟩ | ⟨hno,-⟩⟩
    · exact (hst hrest).elim h0 hne
    · rw [hfol] at hno
      simp at hno
  rw [hf] at hround
  refine hround.resolve_right ?_
  rintro ⟨hlook,-⟩
  have hfill : (op.fill d m).1 = [.other] := by simp [Op.fill,hread,hopen]
  have ho : Lookup4.OpRes.open_ errSymlink ∉ (op.answer d).1 := by
    rw [hat.answer,Lookup4.mem_passed (by simp),hfill]
    split <;> simp
  have hno : ∀ d', Lookup4.nfs4LookupPath1Cb op cwd d (op.answer d) ≠ .lookup d' := by
    intro d'
    unfold Lookup4.nfs4LookupPath1Cb
    split
    · simp
    · simp only
      rw [if_neg (by simp [ho])]
      split
      · simp
      · split
        · simp
        · split
          · simp
          · split <;> simp
  cases hcb : Lookup4.nfs4LookupPath1Cb op cwd d (op.answer d) with
  | done r =>
    rw [Lookup4.round_done hcb fun d' hr => (Chdir.cb_continued (hr ▸ hcb)) ▸ hread] at hlook
    simp at hlook
  | lookup d' => exact hno d' hcb
  | readlink idx links =>
    rw [Lookup4.round_readlink hcb] at hlook
    simp at hlook

end Version4

section Lookup

variable {site : Site σ ι α} {cwd name : Path} {s : σ} {func func' : Filler} {ops : List Argop} {d : Data} {names st : List Path}

/-- How a lookup of NFSv4 is over against the object that its path leads to -/
inductive Site.Ends4 (site : Site σ ι α) (s : σ) (ops : List Argop) : Option ι → σ × End ι → Prop
  | continued {n : ι} : (site.fill s n ops).1 = 0 → Ends4 site s ops (some n) ((site.fill s n ops).2,.continued (some n))
  | denied {n : ι} {err : ℤ} : (site.fill s n ops).1 ≠ 0 → err ≠ 0 →
      Ends4 site s ops (some n) ((site.fill s n ops).2,.over (.called err))
  | missing {err : ℤ} : err ≠ 0 → Ends4 site s ops none (s,.over (.called err))

/-- The lookup is over after finitely many COMPOUNDs. -/
def Site.Over4 (site : Site σ ι α) (cwd : Path) (s : σ) (func : Filler) (ops : List Argop) (d : Data) (n : Option ι) : Prop :=
  ∃ k r, (∀ fuel ≥ k, site.lookup4 cwd fuel s func d = some r) ∧ site.Ends4 s ops n r

/-- The outcome of a resolution that comes to the object, or fails -/
def Site.outcome (site : Site σ ι α) : Option ι → Outcome
  | none => .failed
  | some n => .reached (site.handle n)

theorem effect_eq (site : Site σ ι α) (s : σ) (ops : List Argop) : site.effect s ops names =
    ((ended ((site.ns s).seek (site.ns s).root names)).map fun n => (site.fill s n ops).2).getD s := by
  unfold Site.effect
  rw [arrive_seek (site.ns s).root_link]
  cases ended ((site.ns s).seek (site.ns s).root names) <;> rfl

theorem behind_answer (site : Site σ ι α) (s : σ) (ops : List Argop) (d : Data) :
    (site.ns s).compound ((site.behind s ops).fill d) (pathNames d.path) = (site.behind s ops).answer d := rfl

theorem behind_fill (hread : d.reading = false) (n : ι) : ((site.behind s ops).fill d n).2 = (site.fill s n ops).1 := by
  simp [Op.fill,Site.behind,hread]

section Round

variable (hp : populate func d.name = some (ops,func')) (hgar : .garbage ∉ ops)

include hp hgar

theorem lookup4_called {err : ℤ}
    (h : Lookup4.nfs4LookupPath1Cb (site.behind s ops) cwd d ((site.behind s ops).answer d) = .done (.called err)) (fuel : ℕ) :
    site.lookup4 cwd (fuel+1) s func d = some (site.effect s ops (pathNames d.path),.over (.called err)) := by
  simp only [Site.lookup4,hp,if_neg hgar,behind_answer,h]

theorem lookup4_continued
    (h : Lookup4.nfs4LookupPath1Cb (site.behind s ops) cwd d ((site.behind s ops).answer d) = .done (.continued d)) (fuel : ℕ) :
    site.lookup4 cwd (fuel+1) s func d =
      some (site.effect s ops (pathNames d.path),.continued (arrive (site.ns s) (site.ns s).root (pathNames d.path))) := by
  simp only [Site.lookup4,hp,if_neg hgar,behind_answer,h]

theorem lookup4_link (he : site.effect s ops (pathNames d.path) = s) {next : Lookup4.Next} (hread : d.reading = false)
    (h : Lookup4.round (site.behind s ops) cwd d = (⟨2,1⟩,next)) (fuel : ℕ) :
    (∀ d', next = .lookup d' → site.lookup4 cwd (fuel+1) s func d = site.lookup4 cwd fuel s func' d') ∧
      ∀ err, next = .done (.called err) → site.lookup4 cwd (fuel+1) s func d = some (s,.over (.called err)) := by
  cases hcb : Lookup4.nfs4LookupPath1Cb (site.behind s ops) cwd d ((site.behind s ops).answer d) with
  | done r =>
    rw [Lookup4.round_done hcb fun d' hr => (Chdir.cb_continued (hr ▸ hcb)) ▸ hread] at h
    simp at h
  | lookup d' =>
    rw [Lookup4.round_lookup hcb] at h
    simp at h
  | readlink idx links =>
    rw [Lookup4.round_readlink hcb] at h
    obtain rfl := (Prod.mk.inj h).2
    constructor
    · intro d' hd
      simp only [Site.lookup4,hp,if_neg hgar,behind_answer,hcb,he,hd]
    · intro err hd
      simp only [Site.lookup4,hp,if_neg hgar,behind_answer,hcb,he,hd]

/-- A lookup that comes to an object that is no link -/
theorem over4_node {n : ι} (hread : d.reading = false) (hs : (site.ns s).seek (site.ns s).root (pathNames d.path) = .node n) :
    site.Over4 cwd s func ops d (some n) := by
  obtain ⟨hok,hno⟩ := @cb_node _ _ (site.behind s ops) cwd _ _ hread rfl hs
  rw [behind_fill hread] at hok hno
  have heff : site.effect s ops (pathNames d.path) = (site.fill s n ops).2 := by
    rw [effect_eq,hs]
    rfl
  have harr : arrive (site.ns s) (site.ns s).root (pathNames d.path) = some n := by
    rw [arrive_seek (site.ns s).root_link,hs]
    rfl
  by_cases h0 : (site.fill s n ops).1 = 0
  · refine ⟨1,_,fun fuel hf => ?_,.continued h0⟩
    obtain ⟨k,rfl⟩ := Nat.exists_eq_add_of_le' hf
    rw [lookup4_continued hp hgar (hok h0) k,heff,harr]
  · obtain ⟨err,herr,hcb⟩ := hno h0
    refine ⟨1,_,fun fuel hf => ?_,.denied h0 herr⟩
    obtain ⟨k,rfl⟩ := Nat.exists_eq_add_of_le' hf
    rw [lookup4_called hp hgar hcb k,heff]

/-- A lookup that does not find a name -/
theorem over4_missing {st : ℤ} (hs : (site.ns s).seek (site.ns s).root (pathNames d.path) = .failed st) :
    site.Over4 cwd s func ops d none := by
  obtain ⟨err,herr,hcb⟩ := @cb_missing _ _ (site.behind s ops) cwd _ _ hs
  refine ⟨1,_,fun fuel hf => ?_,.missing herr⟩
  obtain ⟨k,rfl⟩ := Nat.exists_eq_add_of_le' hf
  rw [lookup4_called hp hgar hcb k,effect_eq,hs]
  rfl

end Round

/-- The lookup of the names that lead to a place ends where the resolution does. -/
theorem descends_lookup4 (hp : populate func name = some (ops,func')) (hgar : .garbage ∉ ops) {p : Place} {o : Outcome}
    (h : Descends (site.ex s) ⟨false,false⟩ (site.Follows s func name) st p o) (ho : o ≠ .loop) :
    ∃ n, o = site.outcome n ∧ (p.todo.foldlM push st = none → n = none) ∧
      ∀ qs, p.todo.foldlM push st = some qs → ∀ cwd d, Good d.path qs.reverse → d.name = name → d.reading = false →
        site.Over4 cwd s func ops d n := by
  have sv := site.serves s
  induction h with
  | @dir st p hr htodo =>
    obtain ⟨n,hdir,-,hseek⟩ := sv.rooted hr
    refine ⟨some n,by rw [hdir]; rfl,fun hnone => by simp [htodo] at hnone,fun qs hqs cwd d hg hname hread => ?_⟩
    rw [htodo] at hqs
    obtain rfl := Option.some.inj hqs
    refine over4_node (hname ▸ hp) hgar hread ?_
    have h := hseek []
    rw [List.append_nil] at h
    rw [hg.pathNames,h]
    exact Splice.behind_node _
  | above hnone => exact ⟨none,rfl,fun _ => rfl,fun qs hqs => by simp [hnone] at hqs⟩
  | skip _ _ hsame ih =>
    obtain ⟨n,hn,hnone,hall⟩ := ih ho
    exact ⟨n,hn,hsame ▸ hnone,hsame ▸ hall⟩
  | @missing st rest p c status hr htodo hn hl =>
    obtain ⟨n,hdir,-,hseek⟩ := sv.rooted hr
    rw [hdir] at hl
    obtain ⟨st',he⟩ := sv.missing hl
    refine ⟨none,rfl,fun _ => rfl,fun qs hqs cwd d hg hname hread => ?_⟩
    rw [htodo,foldlM_push_plain st hn.2] at hqs
    obtain rfl := Option.some.inj hqs
    suffices hs : (site.ns s).seek (site.ns s).root (pathNames d.path) = .failed st' from over4_missing (hname ▸ hp) hgar hs
    rw [List.reverse_append,List.reverse_reverse] at hg
    rw [hg.pathNames,hseek]
    simp only [Namespace.seek,he]
    exact Splice.behind_failed ..
  | @stop st rest p c fh attr o hr htodo hn hl hlink hfol hmeet =>
    obtain ⟨n,hdir,-,-⟩ := sv.rooted hr
    have hl' := hl
    rw [hdir] at hl'
    obtain ⟨m,-,rfl,hlm⟩ := sv.found hl'
    rw [hlm] at hlink
    obtain ⟨t,ht⟩ := Option.isSome_iff_exists.mp hlink
    have hread := sv.readlink ht
    obtain ⟨hhead,-⟩ := hfol rest (site.handle m) t ⟨c,attr,htodo,(hn.2 c (by simp)).2.2,hl,by rw [hlm,ht]; rfl⟩ hread
    simp only [Resolution.meet,Bool.false_eq_true,and_false,if_false,hread,Resolution.target,if_neg hhead] at hmeet
    split at hmeet
    · exact absurd (Sum.inr.inj hmeet).symm ho
    · simp at hmeet
  | @follow st rest p q c fh attr o hr htodo hn hl hlink hfol hmeet _ ih =>
    obtain ⟨n,hdir,-,hseek⟩ := sv.rooted hr
    have hl' := hl
    rw [hdir] at hl'
    obtain ⟨m,hm,rfl,hlm⟩ := sv.found hl'
    rw [hlm] at hlink
    obtain ⟨t,ht⟩ := Option.isSome_iff_exists.mp hlink
    have hread := sv.readlink ht
    obtain ⟨hhead,ops',hops',hquiet⟩ :=
      hfol rest (site.handle m) t ⟨c,attr,htodo,(hn.2 c (by simp)).2.2,hl,by rw [hlm,ht]; rfl⟩ hread
    rw [hp,Option.some.injEq,Prod.mk.injEq] at hops'
    obtain ⟨rfl,rfl⟩ := hops'
    simp only [Resolution.meet,Bool.false_eq_true,and_false,if_false,hread,Resolution.target,if_neg hhead] at hmeet
    split at hmeet
    · simp at hmeet
    · obtain rfl := Sum.inl.inj hmeet
      obtain ⟨n',hn',hnone,hall⟩ := ih st hr ho
      simp only [Resolution.lexical_push] at hnone hall
      refine ⟨n',hn',fun h => ?_,fun qs hqs cwd d hg hname hd => ?_⟩
      · rw [htodo,foldlM_push_plain st hn.2] at h
        simp at h
      · rw [htodo,foldlM_push_plain st hn.2] at hqs
        obtain rfl := Option.some.inj hqs
        rw [List.reverse_append,List.reverse_reverse] at hg
        have hs : (site.ns s).seek (site.ns s).root (st.reverse ++ c :: rest) = .link (1+st.length) t rest m := by
          rw [hseek]
          simp only [Namespace.seek,hm,ht]
          exact Splice.behind_link ..
        have hst : rest = [] → site.fill s m ops = (0,s) ∨ site.fill s m ops = (errSymlink,s) := fun h => hquiet h m rfl
        have hround := @round_link _ _ (site.behind s ops) cwd d _ m _ t rest hg hd rfl rfl hs fun h => by
          rw [behind_fill hd]
          exact (hst h).imp (congrArg Prod.fst) (congrArg Prod.fst)
        have heff : site.effect s ops (pathNames d.path) = s := by
          rw [effect_eq,hg.pathNames,hs,ended]
          by_cases hrest : rest = []
          · rw [if_pos hrest]
            exact (hst hrest).elim (congrArg Prod.snd) (congrArg Prod.snd)
          · rw [if_neg hrest]
            rfl
        have htake : (st.reverse ++ c :: rest).take (1+st.length-1) = st.reverse := by
          rw [Nat.add_sub_cancel_left,← List.length_reverse,List.take_left]
        have hretry := @Splice.spliced_retries cwd t d st.reverse rest hr.names.reverse hn.tail
        rw [List.reverse_reverse] at hretry
        rw [htake] at hround
        have hlinks := lookup4_link (hname ▸ hp) hgar heff hd hround
        cases hfold : (components '/' t ++ rest).foldlM push st with
        | none =>
          rw [hfold] at hretry
          obtain ⟨err,he⟩ := hretry
          obtain rfl := hnone hfold
          have herr : err ≠ 0 := by
            rw [spliced_called he]
            decide
          refine ⟨1,_,fun fuel hf => ?_,.missing herr⟩
          obtain ⟨j,rfl⟩ := Nat.exists_eq_add_of_le' hf
          exact (hlinks j).2 err he
        | some qs =>
          rw [hfold] at hretry
          have hqs : Names qs := Splice.push_names hfold ((Lookup3.components_cut t).append hn.tail.1) hr.names
          obtain ⟨k,r,hk,hr⟩ := hall qs hfold cwd { d with path := written [] qs } (Splice.good_written hqs) hname hd
          refine ⟨k+1,r,fun fuel hf => ?_,hr⟩
          obtain ⟨j,rfl⟩ := Nat.exists_eq_add_of_le' (show 1 ≤ fuel by omega)
          rw [(hlinks j).1 _ hretry]
          exact hk j (by omega)

end Lookup

section Version3

variable {ex : Export α} {flags : Lookup3.Flags} {cwd path w : Path} {names : List Path} {o : Outcome}

/-- A normalized path is written for its components. -/
theorem normalized_writes (h : nfsNormalizePath path = .ok w) : Names (components '/' w) ∧ Writes w (components '/' w) := by
  rcases nfsNormalizePath_shape h with rfl | rfl | ⟨cs,hne,hcut,hplain,rfl⟩
  · exact ⟨.nil,rfl,fun h => absurd rfl h⟩
  · exact ⟨.nil,rfl,fun h => absurd rfl h⟩
  · have hcs : Names cs := ⟨hcut,hplain⟩
    rw [components_glue hcut,hcs.filter]
    exact ⟨hcs,hcs.writes_behind hne⟩

/-- A path that climbs above the root is not normalized, and every other one is. -/
theorem normalized_of_resolve : (resolve path = none → ∃ e, nfsNormalizePath path = .error e) ∧
    ∀ names, resolve path = some names →
      ∃ w, nfsNormalizePath path = .ok w ∧ components '/' w = names ∧ Names names ∧ Writes w names := by
  rw [← ParentSplit.normalized_names]
  cases h : nfsNormalizePath path with
  | error e => exact ⟨fun _ => ⟨e,rfl⟩,fun names hn => by simp [Except.toOption] at hn⟩
  | ok w =>
    refine ⟨fun hn => by simp [Except.toOption] at hn,fun names hn => ?_⟩
    obtain rfl := Option.some.inj hn
    exact ⟨w,rfl,rfl,normalized_writes h⟩

theorem lookup_refused (h : resolve (NestedMounts.fullPath cwd path) = none) (fuel : ℕ) :
    Lookup3.lookup ex.server ex.mounted flags fuel cwd path = some .refused := by
  obtain ⟨e,he⟩ := normalized_of_resolve.1 h
  unfold Lookup3.lookup NestedMounts.nfs3LookuppathAsync
  rw [he]
  rfl

/-- The lookup of a path ends as the one of its names does. -/
theorem lookup_settles (h : resolve (NestedMounts.fullPath cwd path) = some names) (hs : Settles ex flags 0 names o) :
    ∃ r n, (∀ fuel ≥ n, Lookup3.lookup ex.server ex.mounted flags fuel cwd path = some r) ∧ Agrees r o := by
  obtain ⟨w,hw,-,-,hwrites⟩ := normalized_of_resolve.2 names h
  obtain ⟨r,⟨n,hn⟩,ha⟩ := Resolution.first_settles hwrites hs
  refine ⟨r,n,fun fuel hf => ?_,ha⟩
  unfold Lookup3.lookup NestedMounts.nfs3LookuppathAsync
  rw [hw]
  simp only [Except.map,Export.mounted,List.foldl_nil,ite_self]
  exact hn fuel hf

/-- What is told of a lookup is an error. -/
theorem internal_called {sv : Lookup3.Server α} {attr : Option α} {d : Lookup3.Data} {fh : Fh} {err : ℤ}
    (h : Lookup3.nfs3LookupPathAsyncInternal sv flags attr d fh = .done (.called err)) : err ≠ 0 := by
  unfold Lookup3.nfs3LookupPathAsyncInternal at h
  simp only at h
  repeat' split at h
  all_goals simp at h
  all_goals omega

theorem run_called {next : Lookup3.Next α} {fuel : ℕ} {err : ℤ} (hnext : ∀ err, next = .done (.called err) → err ≠ 0)
    (h : Lookup3.run ex.server ex.mounted flags fuel next = some (.called err)) : err ≠ 0 := by
  induction fuel generalizing next with
  | zero => simp [Lookup3.run] at h
  | succ fuel ih =>
    cases next with
    | done r =>
      simp only [Lookup3.run,Option.some.injEq] at h
      exact hnext err (by rw [h])
    | lookup d fh name =>
      refine ih (fun err he => ?_) h
      cases hl : ex.server.lookup fh name with
      | error st =>
        simp only [hl,Lookup3.nfs3LookupPath1Cb,Lookup3.Next.done.injEq,Lookup3.Result.called.injEq] at he
        exact he ▸ (Resolution.nfsstat3ToErrno_neg (ex.lookup_status hl)).1.ne
      | ok res => exact internal_called (by rwa [hl] at he)
    | readlink d fh =>
      refine ih (fun err he => ?_) h
      cases hl : ex.server.readlink fh with
      | error st =>
        simp only [hl,Lookup3.nfs3LookupPath2Cb,Lookup3.Next.done.injEq,Lookup3.Result.called.injEq] at he
        exact he ▸ (Resolution.nfsstat3ToErrno_neg (ex.readlink_status hl)).1.ne
      | ok target =>
        rw [hl] at he
        simp only [Lookup3.nfs3LookupPath2Cb] at he
        split at he
        · simp only [Lookup3.Next.done.injEq,Lookup3.Result.called.injEq] at he
          omega
        · split at he
          · simp only [Lookup3.Next.done.injEq,Lookup3.Result.called.injEq] at he
            omega
          · exact internal_called he

theorem lookup_called {fuel : ℕ} {err : ℤ}
    (h : Lookup3.lookup ex.server ex.mounted flags fuel cwd path = some (.called err)) : err ≠ 0 := by
  unfold Lookup3.lookup at h
  split at h
  · simp at h
  · refine run_called (fun err he => ?_) h
    unfold Lookup3.first at he
    simp only at he
    split at he
    · exact internal_called he
    · split at he
      · exact internal_called he
      · obtain ⟨attr,hattr,-⟩ := ex.root_dir
        have hroot : ex.mounted.rootfh = ex.rootfh := rfl
        rw [hroot,hattr] at he
        exact internal_called he

end Version3

section Both

variable {site : Site σ ι α} {cwd name path : Path} {s : σ} {func func' : Filler} {ops : List Argop} {names : List Path} {n : Option ι}

/-- How a lookup of NFSv3 is over against the object that its path leads to -/
inductive Site.Ends3 (site : Site σ ι α) : Option ι → Except Report Fh → Prop
  | found {n : ι} : Ends3 site (some n) (.ok (site.handle n))
  | missing {r : Report} : r.ok = false → Ends3 site none (.error r)

/-- The lookup is over after finitely many requests. -/
def Site.Over3 (site : Site σ ι α) (cwd : Path) (s : σ) (path : Path) (n : Option ι) : Prop :=
  ∃ k r, (∀ fuel ≥ k, site.lookuppath3 cwd fuel s ⟨false,false⟩ path = some r) ∧ site.Ends3 n r

theorem over3_settles (h : resolve (NestedMounts.fullPath cwd path) = some names)
    (hs : Settles (site.ex s) ⟨false,false⟩ 0 names (site.outcome n)) : site.Over3 cwd s path n := by
  obtain ⟨r,k,hk,ha⟩ := lookup_settles h hs
  cases n with
  | none =>
    cases ha with
    | called herr _ =>
      refine ⟨k,_,fun fuel hf => by rw [Site.lookuppath3,hk fuel hf]; rfl,.missing ?_⟩
      exact decide_eq_false fun h => herr.ne (Report.called.inj h)
    | refused => exact ⟨k,_,fun fuel hf => by rw [Site.lookuppath3,hk fuel hf]; rfl,.missing rfl⟩
  | some n =>
    cases ha
    exact ⟨k,_,fun fuel hf => by rw [Site.lookuppath3,hk fuel hf]; rfl,.found⟩

theorem over3_refused (h : resolve (NestedMounts.fullPath cwd path) = none) : site.Over3 cwd s path none :=
  ⟨0,_,fun fuel _ => by rw [Site.lookuppath3,lookup_refused h]; rfl,.missing rfl⟩

/-- Whatever a lookup is for, it is over. -/
theorem over3_total (site : Site σ ι α) (cwd : Path) (s : σ) (path : Path) :
    ∃ k r, (∀ fuel ≥ k, site.lookuppath3 cwd fuel s ⟨false,false⟩ path = some r) ∧ ∀ r', r = .error r' → r'.ok = false := by
  obtain ⟨r,k,hk⟩ := Resolution.lookup_ends (site.ex s).server (site.ex s).mounted ⟨false,false⟩ cwd path
  cases r with
  | refused =>
    refine ⟨k,.error .refused,fun fuel hf => by rw [Site.lookuppath3,hk fuel hf]; rfl,fun r' hr => ?_⟩
    exact Except.error.inj hr ▸ rfl
  | called err =>
    refine ⟨k,.error (.called err),fun fuel hf => by rw [Site.lookuppath3,hk fuel hf]; rfl,fun r' hr => ?_⟩
    have herr := lookup_called (hk k le_rfl)
    exact Except.error.inj hr ▸ decide_eq_false fun h => herr (Report.called.inj h)
  | continued fh attr savedPath =>
    exact ⟨k,.ok fh,fun fuel hf => by rw [Site.lookuppath3,hk fuel hf]; rfl,fun r' hr => by simp at hr⟩

/-- Both lookups of the names come to the same object. -/
theorem Site.Smooth.ends (h : site.Smooth s func name names) (hn : Names names) (hp : populate func name = some (ops,func'))
    (hgar : .garbage ∉ ops) :
    ∃ n, site.Find s (some names) n ∧ Settles (site.ex s) ⟨false,false⟩ 0 names (site.outcome n) ∧
      ∀ cwd d, Good d.path names → d.name = name → d.reading = false → site.Over4 cwd s func ops d n := by
  obtain ⟨hfol,hloop⟩ := h
  obtain ⟨o,ho⟩ := @Resolution.resolves_total _ (site.ex s) ⟨false,false⟩ ⟨0,[],(site.ex s).rootfh,names⟩
  have hlex : Resolution.Lexical names := .names hn.2
  have hfits : ∀ p, Resolution.Reaches (site.ex s) ⟨false,false⟩ ⟨0,[],(site.ex s).rootfh,names⟩ p →
      Resolution.Fits (site.ex s) ⟨false,false⟩ p :=
    fun p hp rest fh hmeets => ⟨by simp,fun _ _ target hread habs => absurd habs (hfol p hp rest fh target hmeets hread).1⟩
  have htracks := Resolution.descends_tracks (@Resolution.resolves_descends _ _ _ [] _ _ _ ho hfits hlex hn.1 .root)
  obtain ⟨n,rfl,-,hall⟩ := descends_lookup4 hp hgar
    (@Resolution.resolves_descends _ _ _ [] _ _ _ ho hfol hlex hn.1 .root) fun he => hloop (he ▸ ho)
  have hfold : names.foldlM push [] = some names.reverse := by
    rw [foldlM_push_plain [] hn.2,List.append_nil]
  unfold Resolution.Tracks at htracks
  simp only [hfold,List.reverse_reverse] at htracks
  have hall' := hall names.reverse hfold
  rw [List.reverse_reverse] at hall'
  refine ⟨n,?_,htracks,hall'⟩
  cases n with
  | none => exact .missing ho
  | some n => exact .found ho

end Both

end NameChanges
end Libnfs
