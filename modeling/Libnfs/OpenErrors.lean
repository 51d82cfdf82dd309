import Libnfs.Nfs3Async

/-! The error that an open of `lib/nfs_v3.c` reports for a reply with an error status, in every run. -/
namespace Libnfs
namespace OpenErrors

open Paths Normalize NestedMounts Lookup3 Async Nfs3

/-- The callback that the stage was given -/
def stageCb : Stage → Cb
  | .lookupPath1 l _ | .lookupPath2 l _ | .lookupPathGetattr l _ => l.cb
  | .simple _ cb | .getacl cb | .opendir cb _ _ | .opendir2 cb _ | .opendir3 cb | .writeAppend _ cb | .pwriteMcb _ _ cb
  | .open _ _ cb | .openTrunc _ _ cb | .create _ cb => cb

/-- `nfs3_initial_open_cb` is called, not `nfs3_open_create_cb`. -/
def initial : Cb → Bool
  | .initialOpen _ => true
  | .base _ => false

/-- The lookup of the path, or the one of the directory for a CREATE -/
def OpenLook (o : OpenCbData) (l : Look) : Prop :=
  l = ⟨false,.initialOpen o,.final (.open o.flags)⟩ ∨ l = ⟨false,.base .openCreate,.final (.create o)⟩

/-- The stages of an open -/
inductive OpenStage (o : OpenCbData) : Stage → Prop
  | lookupPath1 {l : Look} (d : Data) : OpenLook o l → OpenStage o (.lookupPath1 l d)
  | lookupPath2 {l : Look} (d : Data) : OpenLook o l → OpenStage o (.lookupPath2 l d)
  | lookupPathGetattr {l : Look} (d : Data) : OpenLook o l → OpenStage o (.lookupPathGetattr l d)
  | open (fh : Fh) : OpenStage o (.open o.flags fh (.initialOpen o))
  | openTrunc (fh : Fh) : OpenStage o (.openTrunc o.flags fh (.initialOpen o))
  | create : OpenStage o (.create o (.base .openCreate))

section Sends

variable {o : OpenCbData} {ctx : Ctx} {call : Result → M Unit} {l : Look}

theorem task_sends {r : Rpc} {stage : Stage} (hcall : ∀ r, Sends (OpenStage o) (call r)) (hs : OpenStage o stage) :
    Sends (OpenStage o) (task call r stage) :=
  (Sends.submit hs).bind fun _ => Sends.ite (.pure _) ((hcall _).bind fun _ => .pure _)

theorem checked_sends {reply : Reply} {k : Resok → M Unit} (hcall : ∀ r, Sends (OpenStage o) (call r))
    (hk : ∀ res, Sends (OpenStage o) (k res)) : Sends (OpenStage o) (checked call reply k) := by
  rcases reply with _ | _ | _ | (status | res)
  · exact hcall _
  · exact hcall _
  · exact hcall _
  · exact hcall _
  · exact hk res

theorem perform_sends {continue_ : Path → Fh → Option Attr → M ℤ} (hcall : ∀ r, Sends (OpenStage o) (call r))
    (hl : OpenLook o l) (hc : ∀ p fh attr, Sends (OpenStage o) (continue_ p fh attr)) (next : Next Attr) :
    Sends (OpenStage o) (perform call continue_ l next) := by
  rcases next with (_ | err | ⟨fh,attr,savedPath⟩) | ⟨d,fh,name⟩ | ⟨d,fh⟩
  · exact .pure _
  · exact hcall _
  · exact (Sends.may _).bind fun _ => Sends.ite (hc _ _ _).discard (hcall _)
  · exact (task_sends hcall (.lookupPath1 d hl)).discard
  · exact (task_sends hcall (.lookupPath2 d hl)).discard

theorem nfs3LookuppathAsync_sends {continue_ : Path → Fh → Option Attr → M ℤ} {freeable : Bool} {path : Path}
    (hcall : ∀ r, Sends (OpenStage o) (call r)) (hl : OpenLook o l)
    (hc : ∀ p fh attr, Sends (OpenStage o) (continue_ p fh attr)) :
    Sends (OpenStage o) (Nfs3.nfs3LookuppathAsync ctx call continue_ l freeable path) := by
  have hstart : Sends (OpenStage o) (startLookup ctx call continue_ l path) := by
    refine (Sends.may _).bind fun b => ?_
    refine Sends.ite ?_ (.pure _)
    cases NestedMounts.nfs3LookuppathAsync ctx.cwd ctx.mounted.nestedMounts path with
    | error e => exact .pure _
    | ok s =>
      dsimp only
      cases s.fh with
      | some mnt =>
        refine (Sends.may _).bind fun b => Sends.ite ?_ (Sends.crash.bind fun _ => .pure _)
        exact (perform_sends hcall hl hc _).bind fun _ => .pure _
      | none =>
        refine Sends.ite ((perform_sends hcall hl hc _).bind fun _ => .pure _) ?_
        exact (Sends.submit (.lookupPathGetattr _ hl)).bind fun _ => Sends.ite (.pure _) (.pure _)
  refine (Sends.may _).bind fun b => Sends.ite hstart ?_
  cases freeable with
  | true => exact .pure _
  | false => exact Sends.crash.bind fun _ => .pure _

theorem openCreate_sends (r : Result) : Sends (OpenStage o) (BaseCb.openCreate.call r) := Sends.tell _

theorem create_sends (p : Path) (fh : Fh) (attr : Option Attr) :
    Sends (OpenStage o) ((Final.create o).continue ctx BaseCb.openCreate.call (.base .openCreate) p fh attr) :=
  task_sends openCreate_sends .create

theorem nfs3InitialOpenCb_sends (r : Result) : Sends (OpenStage o) (nfs3InitialOpenCb ctx o r) := by
  refine Sends.ite (Sends.tell _) (Sends.ite ?_ (Sends.ite (Sends.tell _) (Sends.tell _)))
  refine (Sends.times _ _).bind fun b => Sends.ite ?_ (Sends.tell _)
  refine Sends.bind (nfs3LookuppathAsync_sends openCreate_sends (.inr rfl) (@create_sends o ctx)) fun _ => ?_
  exact Sends.ite (Sends.tell _) (.pure _)

theorem open_sends (p : Path) (fh : Fh) (attr : Option Attr) : Sends (OpenStage o)
    ((Final.open o.flags).continue ctx (nfs3InitialOpenCb ctx o) (.initialOpen o) p fh attr) := by
  refine Sends.ite ((nfs3InitialOpenCb_sends _).bind fun _ => .pure _) ?_
  exact task_sends nfs3InitialOpenCb_sends (.open fh)

theorem look_sends (hl : OpenLook o l) :
    (∀ r, Sends (OpenStage o) (l.cb.call ctx r)) ∧ ∀ next, Sends (OpenStage o) (l.perform ctx next) := by
  rcases hl with rfl | rfl
  · exact ⟨nfs3InitialOpenCb_sends,perform_sends nfs3InitialOpenCb_sends (.inl rfl) (@open_sends o ctx)⟩
  · exact ⟨openCreate_sends,perform_sends openCreate_sends (.inr rfl) (@create_sends o ctx)⟩

/-- A stage of an open goes on with stages of an open. -/
theorem handle_sends {stage : Stage} (h : OpenStage o stage) (input : Ctx × Reply) :
    Sends (OpenStage o) (stage.handle input) := by
  obtain ⟨ctx,reply⟩ := input
  cases h with
  | lookupPath1 d hl => exact checked_sends (look_sends hl).1 fun _ => (look_sends hl).2 _
  | lookupPath2 d hl =>
    refine checked_sends (look_sends hl).1 fun res => Sends.ite ((look_sends hl).2 _) ?_
    exact (Sends.may _).bind fun _ => Sends.ite ((look_sends hl).2 _) ((look_sends hl).1 _)
  | lookupPathGetattr d hl => exact checked_sends (look_sends hl).1 fun _ => (look_sends hl).2 _
  | «open» fh =>
    refine checked_sends nfs3InitialOpenCb_sends fun res => Sends.ite (nfs3InitialOpenCb_sends _) (Sends.ite ?_ ?_)
    · exact (task_sends nfs3InitialOpenCb_sends (.openTrunc fh)).discard
    · exact (Sends.may _).bind fun _ => Sends.ite (nfs3InitialOpenCb_sends _) (nfs3InitialOpenCb_sends _)
  | openTrunc fh =>
    exact checked_sends nfs3InitialOpenCb_sends fun _ =>
      (Sends.may _).bind fun _ => Sends.ite (nfs3InitialOpenCb_sends _) (nfs3InitialOpenCb_sends _)
  | create =>
    exact checked_sends openCreate_sends fun _ =>
      (Sends.times _ _).bind fun _ => Sends.ite (openCreate_sends _) (openCreate_sends _)

theorem call_sends (path : Path) (flags : OpenFlags) (mode : ℕ) :
    Sends (OpenStage ⟨path,flags,mode⟩) ((Op.open path flags mode).call ctx) := by
  refine (Sends.times _ _).bind fun b => Sends.ite ?_ (.pure _)
  refine Sends.bind (nfs3LookuppathAsync_sends nfs3InitialOpenCb_sends (.inl rfl) (@open_sends _ ctx)) fun _ => ?_
  exact Sends.ite (.pure _) (.pure _)

end Sends

/-- Every request of an open, in any run, waits with one of its stages. -/
theorem after_stages (path : Path) (flags : OpenFlags) (mode : ℕ) (ctx : Ctx) (env : Env Site)
    (es : List (Event (Ctx × Reply) Site)) :
    ∀ stage ∈ (after (outcome (.open path flags mode) ctx env).2 es).pending, OpenStage ⟨path,flags,mode⟩ stage := by
  have hrun : ∀ es w, World.All (OpenStage ⟨path,flags,mode⟩) w → World.All (OpenStage ⟨path,flags,mode⟩) (after w es) := by
    intro es
    induction es with
    | nil => exact fun w h => h
    | cons e es ih =>
      intro w h
      refine ih _ ?_
      unfold answer
      by_cases hc : w.crashed
      · rwa [if_pos hc]
      · rw [if_neg hc]
        cases hs : w.pending[e.index]? with
        | none => exact h
        | some stage =>
          refine handle_sends (h stage (List.mem_of_getElem? hs)) e.reply e.env trivial 0 _ fun st hst => ?_
          exact h st (List.mem_of_mem_eraseIdx hst)
  exact hrun es _ (call_sends path flags mode env trivial 0 _ fun _ h => absurd h List.not_mem_nil)

/-- A status of an error that `nfsstat3_to_errno` has in its table -/
def Mapped (status : ℤ) : Prop := status ≠ 0 ∧ status ∈ errnos.map Prod.fst

/-- No errno is a status: the second conversion gives `-ERANGE`. -/
theorem errno_twice {status : ℤ} (h : Mapped status) :
    nfsstat3ToErrno (nfsstat3ToErrno status) = -34 ∧ nfsstat3ToErrno status ≠ 0 ∧
      (nfsstat3ToErrno status = -34 ↔ status = 69) ∧ (nfsstat3ToErrno status = -17 ↔ status = 17) ∧
        (nfsstat3ToErrno status = -2 ↔ status = 2) := by
  obtain ⟨h0,hm⟩ := h
  simp only [errnos,List.map_cons,List.map_nil,List.mem_cons,List.not_mem_nil,or_false] at hm
  rcases hm with rfl | rfl | rfl | rfl | rfl | rfl | rfl | rfl | rfl | rfl | rfl | rfl | rfl | rfl | rfl | rfl | rfl |
    rfl | rfl | rfl | rfl | rfl | rfl | rfl | rfl | rfl | rfl | rfl | rfl
  case inl => exact absurd rfl h0
  all_goals decide

/-- A path that is not found is created. -/
def GoesOn (flags : OpenFlags) (stage : Stage) (status : ℤ) : Prop := status = 2 ∧ flags.creat ∧ initial (stageCb stage)

/-- The reply makes the open tell its user the errno of the status. -/
def Delivers (w : World Rpc Nfs3.Result Stage Shared) (e : Event (Ctx × Reply) Site) (status : ℤ) : Prop :=
  (answer Stage.handle w e).calls = .ofErr (nfsstat3ToErrno status) :: w.calls

section Delivery

variable {o : OpenCbData} {ctx : Ctx} {stage : Stage} {status : ℤ}

theorem handle_error (h : OpenStage o stage) : stage.handle (ctx,.success (.error status)) =
    (stageCb stage).call ctx (.ofErr (nfsstat3ToErrno status)) := by
  cases h <;> rfl

theorem stageCb_cases (h : OpenStage o stage) : stageCb stage = .initialOpen o ∨ stageCb stage = .base .openCreate := by
  cases h with
  | lookupPath1 d hl | lookupPath2 d hl | lookupPathGetattr d hl =>
    rcases hl with rfl | rfl
    · exact .inl rfl
    · exact .inr rfl
  | «open» fh => exact .inl rfl
  | openTrunc fh => exact .inl rfl
  | create => exact .inr rfl

/-- An error that does not lead to a CREATE is converted once more, except for one. -/
theorem nfs3InitialOpenCb_error {r : Nfs3.Result} (hne : r.err ≠ 0) (hno : ¬ (r.err = -2 ∧ o.flags.creat)) :
    nfs3InitialOpenCb ctx o r =
      Act.tell (.ofErr (if r.err = -17 ∧ o.flags.creat ∧ o.flags.excl then -17 else nfsstat3ToErrno r.err)) := by
  unfold nfs3InitialOpenCb
  by_cases hx : r.err = -17 ∧ o.flags.creat ∧ o.flags.excl
  · rw [if_pos hx,if_pos hx]
  · rw [if_neg hx,if_neg hno,if_pos hne,if_neg hx]

/-- What the callback of an open tells for an errno -/
theorem call_error (h : OpenStage o stage) (hm : Mapped status) (hg : ¬ GoesOn o.flags stage status) :
    (stageCb stage).call ctx (.ofErr (nfsstat3ToErrno status)) =
      Act.tell (.ofErr (if status = 17 ∧ o.flags.creat ∧ o.flags.excl ∧ initial (stageCb stage) then -17 else -34)) := by
  obtain ⟨htwice,hne,-,hexist,hnoent⟩ := errno_twice hm
  rcases stageCb_cases h with hcb | hcb
  · have hinit : initial (stageCb stage) := by
      rw [hcb]
      rfl
    have hno : ¬ (nfsstat3ToErrno status = -2 ∧ o.flags.creat) := fun hn => hg ⟨hnoent.mp hn.1,hn.2,hinit⟩
    have hcall := @nfs3InitialOpenCb_error o ctx (.ofErr (nfsstat3ToErrno status)) hne hno
    have hiff : ((Nfs3.Result.ofErr (nfsstat3ToErrno status)).err = -17 ∧ o.flags.creat ∧ o.flags.excl) ↔
        status = 17 ∧ o.flags.creat ∧ o.flags.excl ∧ initial (stageCb stage) :=
      ⟨fun h => ⟨hexist.mp h.1,h.2.1,h.2.2,hinit⟩,fun h => ⟨hexist.mpr h.1,h.2.1,h.2.2.1⟩⟩
    rw [← if_congr hiff rfl rfl,hcb]
    refine hcall.trans ?_
    rw [show nfsstat3ToErrno (Nfs3.Result.ofErr (nfsstat3ToErrno status)).err = -34 from htwice]
  · have hinit : ¬ initial (stageCb stage) := by
      rw [hcb]
      decide
    rw [if_neg fun hy => hinit hy.2.2.2,hcb,← htwice]
    exact congrArg Act.tell (if_pos hne)

theorem delivers_iff {w : World Rpc Nfs3.Result Stage Shared} {e : Event (Ctx × Reply) Site} (h : OpenStage o stage)
    (hc : w.crashed = false) (hp : w.pending[e.index]? = some stage) (hr : e.reply.2 = .success (.error status))
    (hm : Mapped status) (hg : ¬ GoesOn o.flags stage status) :
    Delivers w e status ↔ status = 69 ∨ status = 17 ∧ o.flags.creat ∧ o.flags.excl ∧ initial (stageCb stage) := by
  obtain ⟨-,-,hdquot,hexist,-⟩ := errno_twice hm
  have hreply : e.reply = (e.reply.1,.success (.error status)) := Prod.ext rfl hr
  unfold Delivers answer
  rw [if_neg (by simp [hc]),hp]
  dsimp only
  rw [hreply,handle_error h,call_error h hm hg]
  by_cases hx : status = 17 ∧ o.flags.creat ∧ o.flags.excl ∧ initial (stageCb stage)
  · rw [if_pos hx]
    refine iff_of_true ?_ (.inr hx)
    rw [hexist.mpr hx.1]
    rfl
  · rw [if_neg hx,or_iff_left hx]
    simp only [Act.tell,Result.ofErr,List.cons.injEq,Result.mk.injEq,and_true]
    rw [← hdquot]
    exact eq_comm

end Delivery

/-- In every run of an open, a reply with an error status gives the user the errno of this status exactly if it is
`NFS3ERR_DQUOT`, or `NFS3ERR_EXIST` for the path of an open with `O_CREAT|O_EXCL`. -/
theorem open_delivers_iff (path : Path) (flags : OpenFlags) (mode : ℕ) (ctx : Ctx) (env : Env Site)
    (es : List (Event (Ctx × Reply) Site)) (e : Event (Ctx × Reply) Site) (stage : Stage) (status : ℤ)
    (hc : (after (outcome (.open path flags mode) ctx env).2 es).crashed = false)
    (hp : (after (outcome (.open path flags mode) ctx env).2 es).pending[e.index]? = some stage)
    (hr : e.reply.2 = .success (.error status)) (hm : Mapped status) (hg : ¬ GoesOn flags stage status) :
    Delivers (after (outcome (.open path flags mode) ctx env).2 es) e status ↔
      status = 69 ∨ status = 17 ∧ flags.creat ∧ flags.excl ∧ initial (stageCb stage) :=
  delivers_iff (after_stages path flags mode ctx env es stage (List.mem_of_getElem? hp)) hc hp hr hm hg

/-- A new mount of `/e` -/
def mountedCtx : Ctx := ⟨['/'],⟨[0],['/','e'],[]⟩,4096,fun _ => none,fun _ _ => none⟩

def sure : Env Site := fun _ _ => true

def readOnly : OpenFlags := ⟨false,false,false,false,false,false,false,false⟩

/-- The LOOKUP of the last component of `/f` -/
def lookupF : Stage := .lookupPath1 ⟨false,.initialOpen ⟨['/','f'],readOnly,0⟩,.final (.open readOnly)⟩ ⟨['/','f'],[],0⟩

theorem open_delivers_iff_dquot :
    Delivers (after (outcome (.open ['/','f'] readOnly 0) mountedCtx sure).2 []) ⟨0,(mountedCtx,.success (.error 69)),sure⟩ 69 ↔
      (69 : ℤ) = 69 ∨ (69 : ℤ) = 17 ∧ readOnly.creat ∧ readOnly.excl ∧ initial (stageCb lookupF) :=
  open_delivers_iff ['/','f'] readOnly 0 mountedCtx sure [] ⟨0,(mountedCtx,.success (.error 69)),sure⟩ lookupF 69 (by rfl)
    (by rfl) rfl ⟨by decide,by decide⟩ fun h => absurd h.1 (by decide)

/-- A file that does not exist: the open reports `-ERANGE`. -/
theorem open_missing_erange : ¬ ∀ (path : Path) (flags : OpenFlags) (mode : ℕ) (ctx : Ctx) (env : Env Site)
    (es : List (Event (Ctx × Reply) Site)) (e : Event (Ctx × Reply) Site) (stage : Stage) (status : ℤ),
    (after (outcome (.open path flags mode) ctx env).2 es).crashed = false →
    (after (outcome (.open path flags mode) ctx env).2 es).pending[e.index]? = some stage →
    e.reply.2 = .success (.error status) → Mapped status → ¬ GoesOn flags stage status →
    Delivers (after (outcome (.open path flags mode) ctx env).2 es) e status := by
  intro h
  have hd := h ['/','f'] readOnly 0 mountedCtx sure [] ⟨0,(mountedCtx,.success (.error 2)),sure⟩ lookupF 2 (by rfl) (by rfl)
    rfl ⟨by decide,by decide⟩ fun hg => absurd hg.2.1 (by decide)
  have herr : (answer Stage.handle (after (outcome (.open ['/','f'] readOnly 0) mountedCtx sure).2 [])
      ⟨0,(mountedCtx,.success (.error 2)),sure⟩).calls = [.ofErr (-34)] := by rfl
  have hresult := (List.cons.inj (herr.symm.trans hd)).1
  exact absurd (congrArg Nfs3.Result.err hresult) (by decide)

end OpenErrors
end Libnfs
