import Libnfs.Lookup3Walk
import Libnfs.Resolution

/-! The lookup of `lib/nfs_v3.c` without nested mounts, against the resolution of the path. -/
namespace Libnfs
namespace Resolution

open Paths Normalize NestedMounts Lookup3

variable {α : Type} (ex : Export α) (flags : Flags)

/-- The lookup has no nested mounts to switch to. -/
def Export.mounted (ex : Export α) : Mounted := ⟨ex.rootfh,ex.export_,[]⟩

/-- The callback, or the call itself, against where the resolution ends -/
inductive Agrees : Result α → Outcome → Prop
  | reached {fh : Fh} {attr : Option α} {savedPath : Path} : Agrees (.continued fh attr savedPath) (.reached fh)
  | loop : Agrees (.called (-40)) .loop
  | called {err : ℤ} : err < 0 → err ≠ -40 → Agrees (.called err) .failed
  | refused : Agrees .refused .failed

/-- The lookup is over after finitely many requests, and it ends where the resolution of the path does. -/
def Correct (cwd path : Path) : Prop :=
  ∃ o r, Resolves ex flags (start ex cwd path) o ∧
    (∃ n, ∀ fuel ≥ n, lookup ex.server ex.mounted flags fuel cwd path = some r) ∧ Agrees r o

/-- A symbolic link is met, with `rest` behind it. -/
def Meets (p : Place) (rest : List Path) (fh : Fh) : Prop :=
  ∃ c attr, p.todo = c :: rest ∧ c ≠ ['.','.'] ∧ ex.server.lookup p.dir c = .ok (fh,attr) ∧ ex.server.isLink attr

/-- A target that is relative, outside the export or above its root; or there is nothing behind the link, and the export is in
front of the target as it is written. -/
def Aligned (export_ : Path) (rest : List Path) (target : Path) : Prop :=
  target.head? = some '/' → ∀ t, insideExport export_ target = some t →
    (components '/' t).foldlM push [] = none ∨
      rest = [] ∧ export_ <+: target ∧ Stops '/' (target.drop export_.length)

/-- `O_NOFOLLOW` meets a link only at the end, and a link that is followed has an aligned target. -/
def Fits (p : Place) : Prop :=
  ∀ rest fh, Meets ex p rest fh →
    (flags.oNoFollow → rest = []) ∧
    ((rest = [] → ¬ flags.oNoFollow ∧ ¬ flags.noFollow) → p.links < maxLinkCount →
      ∀ target, ex.server.readlink fh = .ok target → Aligned ex.export_ rest target)

variable {ex flags}

theorem nfsstat3ToErrno_neg {status : ℤ} (h : status ≠ 0) :
    nfsstat3ToErrno status < 0 ∧ nfsstat3ToErrno status ≠ -40 := by
  have hall : ∀ e ∈ errnos, e.1 = 0 ∨ e.2 < 0 ∧ e.2 ≠ -40 := by simp [errnos]
  unfold nfsstat3ToErrno
  cases hl : errnos.lookup status with
  | none => decide
  | some v =>
    obtain ⟨l₁,l₂,he,-⟩ := List.lookup_eq_some_iff.mp hl
    exact (hall (status,v) (by rw [he]; simp)).resolve_left h

theorem errno_agrees {status : ℤ} (h : status ≠ 0) : Agrees (.called (nfsstat3ToErrno status) : Result α) .failed :=
  .called (nfsstat3ToErrno_neg h).1 (nfsstat3ToErrno_neg h).2

/-- What the code takes for inside the export is inside. -/
theorem insideExport_of_prefix {export_ target : Path} (hp : export_ <+: target)
    (hs : Stops '/' (target.drop export_.length)) :
    ∃ t, insideExport export_ target = some t ∧ components '/' t = components '/' (target.drop export_.length) := by
  obtain ⟨tail,rfl⟩ := hp
  rw [List.drop_left] at hs ⊢
  have hall : ∀ c ∈ export_.rtakeWhile (· = '/'), c = '/' := fun c hc => by simpa using List.mem_rtakeWhile_imp hc
  have hsplit : export_.rdropWhile (· = '/') ++ export_.rtakeWhile (· = '/') = export_ := List.rdropWhile_append_rtakeWhile
  have htarget : export_ ++ tail = export_.rdropWhile (· = '/') ++ (export_.rtakeWhile (· = '/') ++ tail) := by
    rw [← List.append_assoc,hsplit]
  refine ⟨export_.rtakeWhile (· = '/') ++ tail,?_,components_slashes hall tail⟩
  unfold insideExport
  rw [htarget]
  simp only [List.drop_left]
  rw [if_pos]
  refine ⟨List.prefix_append _ _,?_⟩
  cases hc : export_.rtakeWhile (· = '/') with
  | nil => exact hs
  | cons c slashes => exact .inr ⟨slashes ++ tail,by rw [hall c (by simp [hc])]; rfl⟩

/-- An absolute target that climbs above the root is refused, whether or not the code takes it for inside the export. -/
theorem cb_climbs {d : Data} {target t : Path} (habs : target.head? = some '/') (hin : insideExport ex.export_ target = some t)
    (hclimb : (components '/' t).foldlM push [] = none) :
    nfs3LookupPath2Cb ex.server ex.mounted flags d (.ok target) = .done (.called (-2)) := by
  by_cases hcode : ex.export_ <+: target ∧ Stops '/' (target.drop ex.export_.length)
  · obtain ⟨t',ht',hc⟩ := insideExport_of_prefix hcode.1 hcode.2
    obtain rfl := Option.some.inj (hin.symm.trans ht')
    have h := @cb_absolute _ ex.server ex.mounted flags d target habs hcode
    rw [hc] at hclimb
    have he : ex.mounted.export_ = ex.export_ := rfl
    rwa [he,hclimb] at h
  · simp only [nfs3LookupPath2Cb,Export.mounted]
    rw [newPath_absolute habs,if_neg hcode]

/-- The lookup from the root on, with every path that is written for the names, ends as it should. -/
def Settles (ex : Export α) (flags : Flags) (links : ℕ) (names : List Path) (o : Outcome) : Prop :=
  ∀ path, Writes path names → ∃ r, Ends ex.server ex.mounted flags
    (nfs3LookupPathAsyncInternal ex.server flags none ⟨path,path,links⟩ ex.rootfh) r ∧ Agrees r o

/-- The lookup of a path that leads to the place, with its links left -/
def Tracks (ex : Export α) (flags : Flags) (st : List Path) (p : Place) (o : Outcome) : Prop :=
  match p.todo.foldlM push st with
  | none => o = .failed
  | some qs => Settles ex flags p.links qs.reverse o

section Simulation

variable {st rest : List Path} {p q : Place} {o : Outcome} {fh : Fh} {c : Path}

/-- The lookup comes to the last directory of the place. -/
theorem settles_dir (hr : Rooted ex.server ex.rootfh st p.above p.dir) {cs : List Path} (hn : Names cs)
    (h : ∀ path attr, Writes path (st.reverse ++ cs) → ¬ Option.any ex.server.isLink attr →
      ∃ r, Ends ex.server ex.mounted flags
        (nfs3LookupPathAsyncInternal ex.server flags attr ⟨path,behind cs,p.links⟩ p.dir) r ∧ Agrees r o) :
    Settles ex flags p.links (st.reverse ++ cs) o := by
  intro path hw
  obtain ⟨attr,hattr,hafter⟩ := @Rooted.after _ ex.server ex.mounted flags ⟨path,path,p.links⟩ _ _ _ _ _ hr hn hw.1
  obtain ⟨r,he,ha⟩ := h path attr hw hattr
  exact ⟨r,hafter.ends he,ha⟩

theorem tracks_nil (hr : Rooted ex.server ex.rootfh st p.above p.dir) (htodo : p.todo = []) :
    Tracks ex flags st p (.reached p.dir) := by
  unfold Tracks
  rw [htodo]
  have h : Settles ex flags p.links (st.reverse ++ []) (.reached p.dir) :=
    settles_dir hr Names.nil fun path attr _ hattr => ⟨_,by rw [internal_nil hattr rfl]; exact .done,.reached⟩
  rwa [List.append_nil] at h

/-- A name behind the directory: the LOOKUP of it is next. -/
theorem tracks_name (hr : Rooted ex.server ex.rootfh st p.above p.dir) (htodo : p.todo = c :: rest) (hn : Names (c :: rest))
    (h : ∀ path, Writes path (st.reverse ++ c :: rest) → ∃ r, Ends ex.server ex.mounted flags
        (nfs3LookupPath1Cb ex.server flags ⟨path,behind rest,p.links⟩ (ex.server.lookup p.dir c)) r ∧ Agrees r o) :
    Tracks ex flags st p o := by
  unfold Tracks
  rw [htodo,foldlM_push_plain st hn.2]
  simp only [List.reverse_append,List.reverse_reverse]
  refine settles_dir hr hn fun path attr hw hattr => ?_
  obtain ⟨r,he,ha⟩ := h path hw
  exact ⟨r,by rw [internal_cons hattr hn hn.behind_strip]; exact (After.lookup (.refl _)).ends he,ha⟩

section Link

variable {attr : α} (hr : Rooted ex.server ex.rootfh st p.above p.dir) (htodo : p.todo = c :: rest) (hn : Names (c :: rest))
  (hl : ex.server.lookup p.dir c = .ok (fh,attr)) (hlink : ex.server.isLink attr) (ho : flags.oNoFollow → rest = [])

include hr htodo hn hl hlink ho

/-- A symbolic link that is behind the directory -/
theorem tracks_link (h : ∀ path, Writes path (st.reverse ++ c :: rest) → ∃ r, Ends ex.server ex.mounted flags
    (if rest = [] ∧ flags.oNoFollow then .done (.called (-40))
      else if rest = [] ∧ flags.noFollow then .done (.continued fh (some attr) path)
      else if p.links ≥ maxLinkCount then .done (.called (-40))
      else nfs3LookupPath2Cb ex.server ex.mounted flags ⟨path,behind rest,p.links+1⟩ (ex.server.readlink fh)) r ∧ Agrees r o) :
    Tracks ex flags st p o := by
  refine tracks_name hr htodo hn fun path hw => ?_
  obtain ⟨r,he,ha⟩ := h path hw
  refine ⟨r,?_,ha⟩
  have hat := @internal_link _ ex.server flags ⟨path,behind rest,p.links⟩ fh rest attr hlink hn.tail
  rw [hl]
  simp only [nfs3LookupPath1Cb]
  rw [show nfs3LookupPathAsyncInternal ex.server flags (some attr) ⟨path,behind rest,p.links⟩ fh = _ from hat]
  have hiff : (rest = [] ∧ flags.oNoFollow) ↔ flags.oNoFollow := ⟨fun h => h.2,fun h => ⟨ho h,h⟩⟩
  rw [if_congr hiff rfl rfl] at he
  split at he
  · rwa [if_pos ‹_›]
  · rw [if_neg ‹_›]
    split at he
    · rwa [if_pos ‹_›]
    · rw [if_neg ‹_›]
      split at he
      · rwa [if_pos ‹_›]
      · rw [if_neg ‹_›]
        exact (After.readlink (.refl _)).ends he

theorem tracks_stop (h : meet ex flags p rest fh = .inr o) : Tracks ex flags st p o := by
  refine tracks_link hr htodo hn hl hlink ho fun path hw => ?_
  unfold meet at h
  split at h
  · rw [if_pos ‹_›]
    obtain rfl := Sum.inr.inj h
    exact ⟨_,.done,.loop⟩
  · rw [if_neg ‹_›]
    split at h
    · rw [if_pos ‹_›]
      obtain rfl := Sum.inr.inj h
      exact ⟨_,.done,.reached⟩
    · rw [if_neg ‹_›]
      split at h
      · rw [if_pos ‹_›]
        obtain rfl := Sum.inr.inj h
        exact ⟨_,.done,.loop⟩
      · rw [if_neg ‹_›]
        cases hread : ex.server.readlink fh with
        | error status =>
          rw [hread] at h
          obtain rfl := Sum.inr.inj h
          exact ⟨_,.done,errno_agrees (ex.readlink_status hread)⟩
        | ok t =>
          simp only [hread,target] at h
          split at h
          · rename_i habs
            cases hin : insideExport ex.export_ t with
            | some t' => simp [hin] at h
            | none =>
              rw [hin] at h
              obtain rfl := Sum.inr.inj h
              have hnew : newPath ex.export_ ⟨path,behind rest,p.links+1⟩ t = none := by
                rw [newPath_absolute habs,if_neg]
                rintro ⟨hp,hs⟩
                obtain ⟨t',ht',-⟩ := insideExport_of_prefix hp hs
                simp [ht'] at hin
              refine ⟨.called (-2),?_,.called (by omega) (by omega)⟩
              simp only [nfs3LookupPath2Cb,Export.mounted,hnew]
              exact .done
          · simp at h

/-- A link is followed; `hq` is about the resolution behind it. -/
theorem tracks_follow (hfits : (rest = [] → ¬ flags.oNoFollow ∧ ¬ flags.noFollow) → p.links < maxLinkCount →
      ∀ target, ex.server.readlink fh = .ok target → Aligned ex.export_ rest target)
    (h : meet ex flags p rest fh = .inl q)
    (hq : ∀ st', Rooted ex.server ex.rootfh st' q.above q.dir → Tracks ex flags st' q o) : Tracks ex flags st p o := by
  refine tracks_link hr htodo hn hl hlink ho fun path hw => ?_
  unfold meet at h
  split at h
  · simp at h
  · rename_i h1
    rw [if_neg h1]
    split at h
    · simp at h
    · rename_i h2
      rw [if_neg h2]
      split at h
      · simp at h
      · rename_i h3
        rw [if_neg h3]
        cases hread : ex.server.readlink fh with
        | error status => simp [hread] at h
        | ok t =>
          simp only [hread,target] at h
          split at h
          · rename_i habs
            cases hin : insideExport ex.export_ t with
            | none => simp [hin] at h
            | some t' =>
              simp only [hin,Sum.inl.injEq] at h
              subst h
              have htr := hq [] .root
              unfold Tracks at htr
              simp only [lexical_push] at htr
              have hal := hfits (fun h0 => ⟨fun h => h1 ⟨h0,h⟩,fun h => h2 ⟨h0,h⟩⟩) (by omega) t hread
              rcases hal habs t' hin with hclimb | ⟨rfl,hp,hs⟩
              · rw [List.foldlM_append,hclimb] at htr
                rw [cb_climbs habs hin hclimb,show o = .failed from htr]
                exact ⟨_,.done,.called (by omega) (by omega)⟩
              · obtain ⟨t'',ht'',hc⟩ := insideExport_of_prefix hp hs
                obtain rfl := Option.some.inj (hin.symm.trans ht'')
                have hcb := @cb_absolute _ ex.server ex.mounted flags ⟨path,behind [],p.links+1⟩ t habs ⟨hp,hs⟩
                rw [List.append_nil,hc] at htr
                have he : ex.mounted.export_ = ex.export_ := rfl
                rw [he] at hcb
                cases hfold : (components '/' (t.drop ex.export_.length)).foldlM push [] with
                | none =>
                  rw [hfold] at htr hcb
                  rw [hcb,htr]
                  exact ⟨_,.done,.called (by omega) (by omega)⟩
                | some qs =>
                  rw [hfold] at htr hcb
                  obtain ⟨-,path',hw',he⟩ := hcb
                  rw [he]
                  exact htr path' hw'
          · rename_i hrel
            obtain rfl := Sum.inl.inj h
            have htr := hq st hr
            unfold Tracks at htr
            simp only [lexical_push] at htr
            have hdir : Names (st.reverse ++ c :: rest) := hr.names.reverse.append hn
            have hcb := @cb_relative _ ex.server ex.mounted flags ⟨path,behind rest,p.links+1⟩ st rest c t hrel hdir
              (hw.2 (by simp)) rfl
            cases hfold : (components '/' t ++ rest).foldlM push st with
            | none =>
              rw [hfold] at htr hcb
              rw [hcb,htr]
              exact ⟨_,.done,.called (by omega) (by omega)⟩
            | some qs =>
              rw [hfold] at htr hcb
              obtain ⟨-,path',hw',he⟩ := hcb
              rw [he]
              exact htr path' hw'

end Link

theorem meet_todo (h : meet ex flags p rest fh = .inl q) : ∃ t, q.todo = lexical (components '/' t ++ rest) := by
  unfold meet at h
  split at h
  · simp at h
  · split at h
    · simp at h
    · split at h
      · simp at h
      · split at h
        · simp at h
        · unfold target at h
          split at h
          · split at h
            · simp at h
            · obtain rfl := Sum.inl.inj h
              exact ⟨_,rfl⟩
          · obtain rfl := Sum.inl.inj h
            exact ⟨_,rfl⟩

theorem components_lexical {t : Path} (hcut : Cut '/' rest) : Cut '/' (lexical (components '/' t ++ rest)) :=
  fun _ hd => ((components_cut t).append hcut) _ (lexical_mem hd)

/-- A resolution with the names of the directories that it is in: where it comes to, and what it meets there; `P` holds where
that is a symbolic link. -/
inductive Descends (ex : Export α) (flags : Flags) (P : Place → Prop) : List Path → Place → Outcome → Prop
  | dir {st : List Path} {p : Place} : Rooted ex.server ex.rootfh st p.above p.dir → p.todo = [] →
      Descends ex flags P st p (.reached p.dir)
  | above {st : List Path} {p : Place} : p.todo.foldlM push st = none → Descends ex flags P st p .failed
  | skip {st st' : List Path} {p q : Place} {o : Outcome} : Descends ex flags P st' q o → q.links = p.links →
      q.todo.foldlM push st' = p.todo.foldlM push st → Descends ex flags P st p o
  | missing {st rest : List Path} {p : Place} {c : Path} {status : ℤ} : Rooted ex.server ex.rootfh st p.above p.dir →
      p.todo = c :: rest → Names (c :: rest) → ex.server.lookup p.dir c = .error status → Descends ex flags P st p .failed
  | stop {st rest : List Path} {p : Place} {c : Path} {fh : Fh} {attr : α} {o : Outcome} :
      Rooted ex.server ex.rootfh st p.above p.dir → p.todo = c :: rest → Names (c :: rest) →
      ex.server.lookup p.dir c = .ok (fh,attr) → ex.server.isLink attr → P p → meet ex flags p rest fh = .inr o →
      Descends ex flags P st p o
  | follow {st rest : List Path} {p q : Place} {c : Path} {fh : Fh} {attr : α} {o : Outcome} :
      Rooted ex.server ex.rootfh st p.above p.dir → p.todo = c :: rest → Names (c :: rest) →
      ex.server.lookup p.dir c = .ok (fh,attr) → ex.server.isLink attr → P p → meet ex flags p rest fh = .inl q →
      (∀ st', Rooted ex.server ex.rootfh st' q.above q.dir → Descends ex flags P st' q o) → Descends ex flags P st p o

/-- Every resolution descends. -/
theorem resolves_descends {P : Place → Prop} (h : Resolves ex flags p o) (hP : ∀ q, Reaches ex flags p q → P q)
    (hlex : Lexical p.todo) (hcut : Cut '/' p.todo) (hr : Rooted ex.server ex.rootfh st p.above p.dir) :
    Descends ex flags P st p o := by
  induction h generalizing st with
  | @stop p o hs =>
    unfold step at hs
    cases htodo : p.todo with
    | nil =>
      simp only [htodo,Sum.inr.injEq] at hs
      exact hs ▸ .dir hr htodo
    | cons c rest =>
      rw [htodo] at hlex hcut
      simp only [htodo] at hs
      by_cases hc : c = ['.','.']
      · rw [if_pos hc] at hs
        cases habove : p.above with
        | cons dir above => simp [habove] at hs
        | nil =>
          rw [habove] at hs hr
          obtain rfl := Sum.inr.inj hs
          generalize p.dir = dir at hr
          cases hr
          refine .above ?_
          rw [htodo,hc]
          rfl
      · rw [if_neg hc] at hs
        have hn : Names (c :: rest) := ⟨hcut,hlex.tail hc⟩
        cases hl : ex.server.lookup p.dir c with
        | error status =>
          rw [hl] at hs
          obtain rfl := Sum.inr.inj hs
          exact .missing hr htodo hn hl
        | ok res =>
          obtain ⟨fh,attr⟩ := res
          simp only [hl] at hs
          by_cases hlink : ex.server.isLink attr
          · rw [if_pos hlink] at hs
            exact .stop hr htodo hn hl hlink (hP p .refl) hs
          · simp [hlink] at hs
  | @next p q o hs _ ih =>
    have hrest : ∀ q', Reaches ex flags q q' → P q' := fun q' hq => hP q' (.head hs hq)
    unfold step at hs
    cases htodo : p.todo with
    | nil => simp [htodo] at hs
    | cons c rest =>
      rw [htodo] at hlex hcut
      simp only [htodo] at hs
      by_cases hc : c = ['.','.']
      · rw [if_pos hc] at hs
        subst hc
        obtain ⟨links,above,dir,todo⟩ := p
        cases hr with
        | root => simp at hs
        | @down st above dir _ c attr hr hplain hcut' hl hlink =>
          simp only [Sum.inl.injEq] at hs htodo
          subst hs htodo
          refine .skip (ih hrest hlex.rest hcut.tail hr) rfl ?_
          rw [List.foldlM_cons,push_dotDot,Option.bind_eq_bind,Option.bind_some]
      · rw [if_neg hc] at hs
        have hn : Names (c :: rest) := ⟨hcut,hlex.tail hc⟩
        cases hl : ex.server.lookup p.dir c with
        | error status => simp [hl] at hs
        | ok res =>
          obtain ⟨fh,attr⟩ := res
          simp only [hl] at hs
          by_cases hlink : ex.server.isLink attr
          · rw [if_pos hlink] at hs
            obtain ⟨t,ht⟩ := meet_todo hs
            exact .follow hr htodo hn hl hlink (hP p .refl) hs fun st' hr' =>
              ih hrest (ht ▸ lexical_spec _) (ht ▸ components_lexical hcut.tail) hr'
          · rw [if_neg hlink] at hs
            obtain rfl := Sum.inl.inj hs
            refine .skip (ih hrest hlex.rest hcut.tail (.down hr (hn.2 c (by simp)) hn.1.head hl hlink)) rfl ?_
            rw [htodo,List.foldlM_cons,push_plain (hn.2 c (by simp)),Option.bind_eq_bind,Option.bind_some]

/-- Where the resolution is, the lookup of the path that leads there ends as the resolution does. -/
theorem descends_tracks (h : Descends ex flags (Fits ex flags) st p o) : Tracks ex flags st p o := by
  induction h with
  | dir hr htodo => exact tracks_nil hr htodo
  | above hnone =>
    unfold Tracks
    rw [hnone]
  | skip _ hlinks hsame ih =>
    unfold Tracks at ih ⊢
    rwa [hsame,hlinks] at ih
  | missing hr htodo hn hl =>
    refine tracks_name hr htodo hn fun path _ => ⟨_,?_,errno_agrees (ex.lookup_status hl)⟩
    rw [hl]
    exact .done
  | @stop st rest p c fh attr o hr htodo hn hl hlink hfits hmeet =>
    have hf := hfits rest fh ⟨c,attr,htodo,(hn.2 c (by simp)).2.2,hl,hlink⟩
    exact tracks_stop hr htodo hn hl hlink hf.1 hmeet
  | @follow st rest p q c fh attr o hr htodo hn hl hlink hfits hmeet _ ih =>
    have hf := hfits rest fh ⟨c,attr,htodo,(hn.2 c (by simp)).2.2,hl,hlink⟩
    exact tracks_follow hr htodo hn hl hlink hf.1 hf.2 hmeet ih

end Simulation

/-- The lookup goes on from the root with these names, or is refused if there are none. -/
def Restarts (ex : Export α) (flags : Flags) (links : ℕ) (names : Option (List Path)) (next : Next α) : Prop :=
  match names with
  | none => next = .done (.called (-2))
  | some st => Names st.reverse ∧ ∃ path, Writes path st.reverse ∧
      next = nfs3LookupPathAsyncInternal ex.server flags none ⟨path,path,links⟩ ex.rootfh

/-- The names that a lookup goes on with -/
theorem Restarts.unique {links : ℕ} {names names' : Option (List Path)} {next : Next α}
    (h : Restarts ex flags links names next) (h' : Restarts ex flags links names' next) : names = names' := by
  have hno : ∀ {st : List Path}, Restarts ex flags links (some st) next → next ≠ .done (.called (-2)) := by
    rintro st ⟨hn,path,hw,rfl⟩ hcalled
    rcases internal_start ex.server flags ex.rootfh path links with he | ⟨d,name,he,-⟩
    all_goals simp [he] at hcalled
  cases names with
  | none =>
    cases names' with
    | none => rfl
    | some st' => exact absurd h (hno h')
  | some st =>
    cases names' with
    | none => exact absurd h' (hno h)
    | some st' =>
      obtain ⟨hn,path,hw,rfl⟩ := h
      obtain ⟨hn',path',hw',he⟩ := h'
      have hpath : path = path' := by
        rcases internal_start ex.server flags ex.rootfh path links with h1 | ⟨d,name,h1,hd⟩ <;>
          rcases internal_start ex.server flags ex.rootfh path' links with h2 | ⟨d',name',h2,hd'⟩ <;>
          rw [h1,h2] at he
        · simpa using he
        · simp at he
        · simp at he
        · rw [← hd,← hd',(Next.lookup.inj he).1]
      subst hpath
      exact congrArg some (List.reverse_injective (writes_inj hn hn' hw hw'))

/-- Behind a link that is read the lookup goes on as the resolution does, exactly if the target is aligned. -/
theorem restart_iff {st rest : List Path} {p q : Place} {c path t : Path} (hst : Names (st.reverse ++ c :: rest))
    (hw : Writes path (st.reverse ++ c :: rest)) (hq : target ex p rest t = .inl q) :
    Restarts ex flags (p.links+1) (q.todo.foldlM push (if t.head? = some '/' then [] else st))
        (nfs3LookupPath2Cb ex.server ex.mounted flags ⟨path,behind rest,p.links+1⟩ (.ok t)) ↔ Aligned ex.export_ rest t := by
  unfold target at hq
  unfold Aligned
  by_cases habs : t.head? = some '/'
  · rw [if_pos habs] at hq ⊢
    cases hin : insideExport ex.export_ t with
    | none => simp [hin] at hq
    | some t' =>
      simp only [hin,Sum.inl.injEq] at hq
      subst hq
      simp only [lexical_push,List.foldlM_append,habs,forall_const,Option.some.injEq,forall_eq']
      by_cases hcode : ex.export_ <+: t ∧ Stops '/' (t.drop ex.export_.length)
      · obtain ⟨t'',ht'',hc⟩ := insideExport_of_prefix hcode.1 hcode.2
        obtain rfl := Option.some.inj (hin.symm.trans ht'')
        have hcb : Restarts ex flags (p.links+1) ((components '/' (t.drop ex.export_.length)).foldlM push [])
            (nfs3LookupPath2Cb ex.server ex.mounted flags ⟨path,behind rest,p.links+1⟩ (.ok t)) := by
          have h := @cb_absolute _ ex.server ex.mounted flags ⟨path,behind rest,p.links+1⟩ t habs hcode
          unfold Restarts
          exact h
        rw [hc]
        cases hfold : (components '/' (t.drop ex.export_.length)).foldlM push [] with
        | none =>
          rw [hfold] at hcb
          simpa using hcb
        | some qs =>
          rw [hfold] at hcb
          have hrest : rest.foldlM push qs = some (rest.reverse ++ qs) :=
            foldlM_push_plain qs fun d hd => hst.2 d (by simp [hd])
          simp only [Option.bind_eq_bind,Option.bind_some,hrest,reduceCtorEq,false_or]
          constructor
          · intro h
            have he := Option.some.inj (h.unique hcb)
            exact ⟨by simpa using he,hcode⟩
          · rintro ⟨rfl,-⟩
            exact hcb
      · have hcb : nfs3LookupPath2Cb ex.server ex.mounted flags ⟨path,behind rest,p.links+1⟩ (.ok t) =
            .done (.called (-2)) := by
          simp only [nfs3LookupPath2Cb,Export.mounted]
          rw [newPath_absolute habs,if_neg hcode]
        rw [hcb]
        constructor
        · intro h
          have he := h.unique (show Restarts ex flags (p.links+1) none _ from rfl)
          left
          cases hfold : (components '/' t').foldlM push [] with
          | none => rfl
          | some qs =>
            have hrest : rest.foldlM push qs = some (rest.reverse ++ qs) :=
              foldlM_push_plain qs fun d hd => hst.2 d (by simp [hd])
            simp [hfold,hrest] at he
        · rintro (h | ⟨-,h⟩)
          · rw [h]
            rfl
          · exact absurd h hcode
  · rw [if_neg habs] at hq ⊢
    obtain rfl := Sum.inl.inj hq
    simp only [habs,false_implies,iff_true,lexical_push]
    have h := @cb_relative _ ex.server ex.mounted flags ⟨path,behind rest,p.links+1⟩ st rest c t habs hst (hw.2 (by simp)) rfl
    unfold Restarts
    exact h

/-- Every lookup is over after finitely many requests. -/
theorem internal_ends (sv : Server α) (mounted : Mounted) (attr : Option α) (d : Data) (fh : Fh) :
    ∃ r, Ends sv mounted flags (nfs3LookupPathAsyncInternal sv flags attr d fh) r := by
  unfold nfs3LookupPathAsyncInternal
  simp only
  split
  · exact ⟨_,.done⟩
  · split
    · split
      · exact ⟨_,.done⟩
      · rename_i hlinks
        cases hread : sv.readlink fh with
        | error status =>
          refine ⟨.called (nfsstat3ToErrno status),(After.readlink (.refl _)).ends ?_⟩
          rw [hread]
          exact .done
        | ok t =>
          suffices h : ∃ r, Ends sv mounted flags (nfs3LookupPath2Cb sv mounted flags
              ⟨d.savedPath,d.path.dropWhile (· = '/'),d.linkCount+1⟩ (.ok t)) r by
            obtain ⟨r,hr⟩ := h
            refine ⟨r,(After.readlink (.refl _)).ends ?_⟩
            rw [hread]
            exact hr
          simp only [nfs3LookupPath2Cb]
          split
          · exact ⟨_,.done⟩
          · split
            · exact ⟨_,.done⟩
            · rename_i path _
              exact internal_ends sv mounted none ⟨path,path,d.linkCount+1⟩ mounted.rootfh
    · cases hname : nextName (d.path.dropWhile (· = '/')) with
      | none => exact ⟨_,.done⟩
      | some res =>
        obtain ⟨name,path⟩ := res
        have hlt : path.length < d.path.length := by
          rcases @nextName_components (d.path.dropWhile (· = '/')) with ⟨hn,-⟩ | ⟨n,rest,hn,-,hlt⟩
          · simp [hn] at hname
          · rw [hn] at hname
            obtain ⟨-,rfl⟩ := Prod.mk.inj (Option.some.inj hname)
            exact hlt.trans_le (List.length_dropWhile_le ..)
        cases hl : sv.lookup fh name with
        | error status =>
          refine ⟨.called (nfsstat3ToErrno status),(After.lookup (.refl _)).ends ?_⟩
          rw [hl]
          exact .done
        | ok res =>
          obtain ⟨fh',attr'⟩ := res
          obtain ⟨r,hr⟩ := internal_ends sv mounted (some attr') { d with path := path } fh'
          refine ⟨r,(After.lookup (.refl _)).ends ?_⟩
          rw [hl]
          exact hr
termination_by (maxLinkCount-d.linkCount,d.path.length)
decreasing_by
  · exact Prod.Lex.right _ hlt
  · exact Prod.Lex.left _ _ (by omega)

/-- The lookup of a path ends, whatever the server answers. -/
theorem lookup_ends (sv : Server α) (mounted : Mounted) (flags : Flags) (cwd path : Path) :
    ∃ r n, ∀ fuel ≥ n, lookup sv mounted flags fuel cwd path = some r := by
  unfold lookup
  cases nfs3LookuppathAsync cwd mounted.nestedMounts path with
  | error e => exact ⟨.refused,0,fun _ _ => rfl⟩
  | ok s =>
    obtain ⟨r,n,hn⟩ : ∃ r, Ends sv mounted flags (first sv mounted flags s) r := by
      unfold first
      simp only
      split
      · exact internal_ends ..
      · split
        · exact internal_ends ..
        · cases sv.getattr mounted.rootfh with
          | error status => exact ⟨_,.done⟩
          | ok attr => exact internal_ends ..
    exact ⟨r,n,hn⟩

theorem fullPath_absolute {cwd : Path} (hc : Stops '/' cwd) (path : Path) : ∃ t, fullPath cwd path = '/' :: t := by
  unfold fullPath
  simp only
  generalize (if path = [] then ['.'] else path) = path
  split
  · rename_i h
    cases path with
    | nil => simp at h
    | cons c path => exact ⟨path,by rw [show c = '/' by simpa using h]⟩
  · rcases hc with rfl | ⟨t,rfl⟩
    · exact ⟨path,rfl⟩
    · exact ⟨t ++ '/' :: path,rfl⟩

theorem start_descends {P : Place → Prop} {cwd path : Path} {o : Outcome} (h : Resolves ex flags (start ex cwd path) o)
    (hP : ∀ p, Reaches ex flags (start ex cwd path) p → P p) : Descends ex flags P [] (start ex cwd path) o :=
  resolves_descends h hP (lexical_spec _) (fun _ hd => components_cut (fullPath cwd path) _ (lexical_mem hd)) .root

/-- A lookup that starts from the path that is written for the names -/
theorem first_settles {path : Path} {names : List Path} {o : Outcome} (hw : Writes path names)
    (h : Settles ex flags 0 names o) :
    ∃ r, Ends ex.server ex.mounted flags (first ex.server ex.mounted flags ⟨none,path,0⟩) r ∧ Agrees r o := by
  obtain ⟨r,he,ha⟩ := h path hw
  by_cases hne : path = []
  · subst hne
    obtain ⟨attr,hattr,hdir⟩ := ex.root_dir
    have hr : Ends ex.server ex.mounted flags
        (nfs3LookupPathAsyncInternal ex.server flags none ⟨[],[],0⟩ ex.rootfh) (.continued ex.rootfh none []) := by
      rw [internal_nil (by simp) rfl]
      exact .done
    obtain rfl := he.unique hr
    cases ha
    refine ⟨.continued ex.rootfh (some attr) [],?_,.reached⟩
    have hfirst : first ex.server ex.mounted flags ⟨none,[],0⟩ =
        nfs3LookupPathAsyncInternal ex.server flags (some attr) ⟨[],[],0⟩ ex.rootfh := by
      simp [first,nfs3LookupPathGetattrCb,Export.mounted,hattr]
    rw [hfirst,internal_nil (by simpa using hdir) rfl]
    exact .done
  · refine ⟨r,?_,ha⟩
    have hfirst : first ex.server ex.mounted flags ⟨none,path,0⟩ =
        nfs3LookupPathAsyncInternal ex.server flags none ⟨path,path,0⟩ ex.rootfh := by
      simp [first,hne,Export.mounted]
    rwa [hfirst]

/-- The lookup of every path ends, and where the resolution does if all places on the way fit. -/
theorem lookup_resolves (ex : Export α) (flags : Flags) (cwd path : Path) (hc : Stops '/' cwd) :
    (∃ r n, ∀ fuel ≥ n, lookup ex.server ex.mounted flags fuel cwd path = some r) ∧
      ((∀ p, Reaches ex flags (start ex cwd path) p → Fits ex flags p) → Correct ex flags cwd path) := by
  refine ⟨lookup_ends ..,fun hfits => ?_⟩
  obtain ⟨o,ho⟩ := @resolves_total _ ex flags (start ex cwd path)
  obtain ⟨t,hfull⟩ := fullPath_absolute hc path
  obtain ⟨cs,hcut,he,hne,hcomp⟩ := components_eq_filter t
  have htodo : (start ex cwd path).todo = lexical (components '/' (fullPath cwd path)) := rfl
  have htracks := descends_tracks (start_descends ho hfits)
  unfold Tracks at htracks
  rw [htodo,lexical_push,hfull,components_cons_self,hcomp,foldlM_push_filter [] (.inl rfl)] at htracks
  have hwrites := normalize_writes hcut hne
  unfold Correct lookup nfs3LookuppathAsync
  rw [hfull,← he]
  cases hfold : cs.foldlM push [] with
  | none =>
    rw [hfold] at htracks hwrites
    obtain ⟨e,herr⟩ := hwrites
    rw [herr]
    exact ⟨o,.refused,ho,⟨0,fun _ _ => rfl⟩,htracks ▸ .refused⟩
  | some st =>
    rw [hfold] at htracks hwrites
    obtain ⟨-,w,hok,hw⟩ := hwrites
    obtain ⟨r,⟨n,hn⟩,ha⟩ := first_settles hw htracks
    refine ⟨o,r,ho,⟨n,fun fuel hf => ?_⟩,ha⟩
    rw [hok]
    simp only [Except.map,Export.mounted,List.foldl_nil,ite_self]
    exact hn fuel hf

theorem lookup_unique {sv : Server α} {mounted : Mounted} {cwd path : Path} {fuel n : ℕ} {r r' : Result α}
    (h : lookup sv mounted flags fuel cwd path = some r)
    (h' : ∀ fuel ≥ n, lookup sv mounted flags fuel cwd path = some r') : r = r' := by
  unfold lookup at h h'
  cases hs : nfs3LookuppathAsync cwd mounted.nestedMounts path with
  | error e =>
    simp only [hs] at h h'
    exact Option.some.inj (h.symm.trans (h' n le_rfl))
  | ok s =>
    simp only [hs] at h h'
    exact (run_add h).unique ⟨n,h'⟩

/-- The link `l` beside the directory `d` with `x` in it -/
def tree (export_ target : Path) : Export Bool where
  server :=
    { lookup := fun fh c =>
        if fh = [0] ∧ c = ['l'] then .ok ([1],true)
        else if fh = [0] ∧ c = ['d'] then .ok ([2],false)
        else if fh = [2] ∧ c = ['x'] then .ok ([3],false)
        else .error 2
      readlink := fun fh => if fh = [1] then .ok target else .error 22
      getattr := fun _ => .ok false
      isLink := id }
  rootfh := [0]
  export_ := export_
  root_dir := ⟨false,rfl,by simp⟩
  lookup_status := by
    intro fh c st h
    simp only at h
    split_ifs at h
    simp only [Except.error.injEq] at h
    omega
  readlink_status := by
    intro fh st h
    simp only at h
    split_ifs at h
    simp only [Except.error.injEq] at h
    omega

/-- `/l/x`, with the target `d` of the link -/
theorem lookup_resolves_relative : Stops '/' [] ∧ Correct (tree ['/','e'] ['d']) ⟨false,false⟩ [] ['/','l','/','x'] := by
  refine ⟨.inl rfl,(lookup_resolves _ _ _ _ (.inl rfl)).2 fun p _ rest fh _ => ⟨by simp,fun _ _ t hread habs => ?_⟩⟩
  have ht : t = ['d'] := by
    simp only [tree] at hread
    split_ifs at hread
    exact (Except.ok.inj hread).symm
  simp [ht] at habs

/-- An absolute target loses what is behind the link; in an export that ends with `/` it is taken for outside; and `O_NOFOLLOW`
stops at a link that is not the last component. -/
theorem lookup_resolves_fails :
    ¬ Correct (tree ['/','e'] ['/','e','/','d']) ⟨false,false⟩ ['/'] ['/','l','/','x'] ∧
    ¬ Correct (tree ['/'] ['/','d']) ⟨false,false⟩ ['/'] ['/','l'] ∧
    ¬ Correct (tree ['/','e'] ['d']) ⟨false,true⟩ ['/'] ['/','l','/','x'] := by
  refine ⟨?_,?_,?_⟩
  · rintro ⟨o,r,ho,⟨n,hn⟩,ha⟩
    obtain rfl := ho.unique (.next rfl (.next rfl (.next rfl (.stop rfl))))
    have hr : lookup (tree ['/','e'] ['/','e','/','d']).server (tree ['/','e'] ['/','e','/','d']).mounted ⟨false,false⟩ 9
      ['/'] ['/','l','/','x'] = some (.continued [2] (some false) ['/','d']) := by rfl
    obtain rfl := lookup_unique hr hn
    cases ha
  · rintro ⟨o,r,ho,⟨n,hn⟩,ha⟩
    obtain rfl := ho.unique (.next rfl (.next rfl (.stop rfl)))
    have hr : lookup (tree ['/'] ['/','d']).server (tree ['/'] ['/','d']).mounted ⟨false,false⟩ 9
      ['/'] ['/','l'] = some (.called (-2)) := by rfl
    obtain rfl := lookup_unique hr hn
    cases ha
  · rintro ⟨o,r,ho,⟨n,hn⟩,ha⟩
    obtain rfl := ho.unique (.next rfl (.next rfl (.next rfl (.stop rfl))))
    have hr : lookup (tree ['/','e'] ['d']).server (tree ['/','e'] ['d']).mounted ⟨false,true⟩ 9
      ['/'] ['/','l','/','x'] = some (.called (-40)) := by rfl
    obtain rfl := lookup_unique hr hn
    cases ha

end Resolution
end Libnfs
