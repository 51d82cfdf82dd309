import Mathlib.Order.Bounds.Basic
import Libnfs.RpcMsg

/-! `rpc_process_call` of `lib/pdu.c`: what a server context does with a message. Built without krb5, for LP64. -/
namespace Libnfs
namespace Dispatch

open ByteWords Zdr Zdrmem

/-- `enum accept_stat`, as far as `rpc_process_call` sends it -/
inductive AcceptStat
  | progUnavail | progMismatch | procUnavail | garbageArgs
  deriving DecidableEq

/-- `struct service_proc`; `α` are the decoded arguments. -/
structure ServiceProc (α : Type) where
  proc : Int32
  decodeFn : Zop α
  decodeBufSize : Int32

/-- `struct rpc_endpoint` -/
structure Endpoint (α : Type) where
  program : Int32
  version : Int32
  procs : List (ServiceProc α)

/-- What a message comes to: an error reply in the out queue, no memory for it, the call of a handler with the message
and the arguments, or the end of the process. -/
inductive Outcome (α : Type)
  | queued (reply : List UInt8)
  | noMemory
  | handler (p : ServiceProc α) (call : RpcMsg Unit) (args : α)
  | crash

/-- The `results.proc` of a zeroed message is NULL. -/
def nullProc : Codec Unit := ⟨fun _ => Zop.fault,fun _ => Zop.fault⟩

/-- What `rpc_send_error_reply` puts behind the verifier -/
def errorData (err : AcceptStat) (minVers maxVers : Int32) : ReplyData Unit :=
  match err with
  | .progUnavail => .none 1 (by decide)
  | .progMismatch => .mismatchInfo minVers.toUInt32 maxVers.toUInt32
  | .procUnavail => .none 3 (by decide)
  | .garbageArgs => .none 4 (by decide)

/-- The reply with the null verifier -/
def errorMsg (xid : UInt32) (err : AcceptStat) (minVers maxVers : Int32) : RpcMsg Unit :=
  .reply xid (.areply ⟨0,[]⟩ (errorData err minVers maxVers))

/-- `ZDR_ENCODEBUF_MINSIZE` -/
def encodebufMinsize : ℕ := 4096

variable {α : Type}

/-- `rpc_send_error_reply` with `rpc_allocate_reply_pdu`; `mem` is the outcome of its `malloc`. -/
def rpcSendErrorReply (mem : Bool) (xid : UInt32) (err : AcceptStat) (minVers maxVers : Int32) : Outcome α :=
  if mem then
    match (Zdrmem.zdrReplymsg nullProc).enc (errorMsg xid err minVers maxVers)
      (zdrmemCreate (List.replicate encodebufMinsize 0) encodebufMinsize) with
    | (.ok (),z) => .queued (z.buf.take z.pos.toNat)
    | (.fail,_) => .noMemory
    | (.fault,_) => .crash
  else .noMemory

/-- The variables of the loop over the endpoints -/
structure Search where
  minVersion : Int32
  maxVersion : Int32
  foundProgram : Bool

/-- The loop over the endpoints -/
def searchEndpoints (prog vers : UInt32) : List (Endpoint α) → Search → Option (Endpoint α) × Search
  | [], s => (none,s)
  | e :: es, s =>
    if prog = e.program.toUInt32 then
      let s : Search := if s.foundProgram then s else { s with minVersion := e.version, maxVersion := e.version }
      let s : Search := if e.version < s.minVersion then { s with minVersion := e.version } else s
      let s : Search := if e.version > s.maxVersion then { s with maxVersion := e.version } else s
      let s : Search := { s with foundProgram := true }
      if vers = e.version.toUInt32 then (some e,s) else searchEndpoints prog vers es s
    else searchEndpoints prog vers es s

/-- `c.call.body.cbody`. In a reply the program lies on the padding in front of `areply` and `rreply`; the version on
the flavor of the verifier or the `stat` of `rreply`, and the procedure on the padding behind the one or the data behind the
other. -/
structure Cbody where
  xid : UInt32
  prog : UInt32
  vers : UInt32
  proc : UInt32

def cbody : RpcMsg Unit → Cbody
  | .call xid c => ⟨xid,c.prog,c.vers,c.proc⟩
  | .reply xid (.areply verf _) => ⟨xid,0,verf.oaFlavor,0⟩
  | .reply xid (.rreply (.mismatchInfo low _)) => ⟨xid,0,0,low⟩
  | .reply xid (.rreply (.authStat stat)) => ⟨xid,0,1,stat⟩
  | .reply xid (.rreply (.none stat _)) => ⟨xid,0,stat,0⟩

/-- The arguments of a procedure, in memory of their own if they need it -/
def ServiceProc.args (p : ServiceProc α) : Zop α := do
  if p.decodeBufSize ≠ 0 then zdrMalloc p.decodeBufSize.toUInt32.toNat
  p.decodeFn

/-- The loop over the procedures -/
def callProc (mem : Bool) (msg : RpcMsg Unit) (z : Zdrs) : List (ServiceProc α) → Outcome α
  | [] => rpcSendErrorReply mem (cbody msg).xid .procUnavail 0 0
  | p :: ps =>
    if p.proc.toUInt32 = (cbody msg).proc then
      match p.args z with
      | (.fail,_) => rpcSendErrorReply mem (cbody msg).xid .garbageArgs 0 0
      | (.fault,_) => .crash
      | (.ok args,_) => .handler p msg args
    else callProc mem msg z ps

/-- `rpc_process_call` behind `zdr_callmsg` -/
def dispatch (mem : Bool) (endpoints : List (Endpoint α)) (msg : RpcMsg Unit) (z : Zdrs) : Outcome α :=
  match searchEndpoints (cbody msg).prog (cbody msg).vers endpoints ⟨0,0,false⟩ with
  | (some endpoint,_) => callProc mem msg z endpoint.procs
  | (none,s) =>
    if ¬ s.foundProgram then rpcSendErrorReply mem (cbody msg).xid .progUnavail 0 0
    else rpcSendErrorReply mem (cbody msg).xid .progMismatch s.minVersion s.maxVersion

/-- The `xid` of the message that `zdr_callmsg` leaves behind -/
def decodedXid (z : Zdrs) : UInt32 :=
  match zdrUInt.dec 0 z with
  | (.ok xid,_) => xid
  | _ => 0

/-- `rpc_process_call` -/
def rpcProcessCall (mem : Bool) (endpoints : List (Endpoint α)) (zdr : Zdrs) : Outcome α :=
  match (zdrCallmsg nullProc).dec 0 zdr with
  | (.fail,_) => rpcSendErrorReply mem (decodedXid zdr) .garbageArgs 0 0
  | (.fault,_) => .crash
  | (.ok msg,z) => dispatch mem endpoints msg z

/-- No results are marshalled. -/
def noResults : Format Unit where
  Valid _ := False
  bytes _ := []

/-- The error reply as it is marshalled, if there is memory for it -/
def errorReply (mem : Bool) (xid : UInt32) (err : AcceptStat) (minVers maxVers : Int32) : Outcome α :=
  if mem then .queued ((Format.rpcMsg true noResults).bytes (errorMsg xid err minVers maxVers)) else .noMemory

/-- The versions of a program -/
def versions (endpoints : List (Endpoint α)) (prog : UInt32) : Set Int32 :=
  { v | ∃ e ∈ endpoints, prog = e.program.toUInt32 ∧ e.version = v }

/-- The endpoint of a program and a version: the one that was registered last -/
def serving (endpoints : List (Endpoint α)) (c : Cbody) : Option (Endpoint α) :=
  endpoints.find? fun e => c.prog = e.program.toUInt32 ∧ c.vers = e.version.toUInt32

/-- The procedure of an endpoint -/
def procOf (e : Endpoint α) (c : Cbody) : Option (ServiceProc α) := e.procs.find? fun p => p.proc.toUInt32 = c.proc

/-- The one outcome that a call should have -/
inductive Answers (mem : Bool) (endpoints : List (Endpoint α)) (msg : RpcMsg Unit) (z : Zdrs) : Outcome α → Prop
  | progUnavail : versions endpoints (cbody msg).prog = ∅ →
      Answers mem endpoints msg z (errorReply mem (cbody msg).xid .progUnavail 0 0)
  | progMismatch {low high : Int32} : IsLeast (versions endpoints (cbody msg).prog) low →
      IsGreatest (versions endpoints (cbody msg).prog) high → serving endpoints (cbody msg) = none →
      Answers mem endpoints msg z (errorReply mem (cbody msg).xid .progMismatch low high)
  | procUnavail {e : Endpoint α} : serving endpoints (cbody msg) = some e → procOf e (cbody msg) = none →
      Answers mem endpoints msg z (errorReply mem (cbody msg).xid .procUnavail 0 0)
  | garbageArgs {e : Endpoint α} {p : ServiceProc α} {z' : Zdrs} : serving endpoints (cbody msg) = some e →
      procOf e (cbody msg) = some p → p.args z = (.fail,z') →
      Answers mem endpoints msg z (errorReply mem (cbody msg).xid .garbageArgs 0 0)
  | handler {e : Endpoint α} {p : ServiceProc α} {z' : Zdrs} {args : α} : serving endpoints (cbody msg) = some e →
      procOf e (cbody msg) = some p → p.args z = (.ok args,z') → Answers mem endpoints msg z (.handler p msg args)

/-- No handler and no crash -/
def Outcome.Refused : Outcome α → Prop
  | .queued _ | .noMemory => True
  | .handler _ _ _ | .crash => False

/-- The body of the loop for an endpoint of the program -/
def Search.see (s : Search) (e : Endpoint α) : Search :=
  let s : Search := if s.foundProgram then s else { s with minVersion := e.version, maxVersion := e.version }
  let s : Search := if e.version < s.minVersion then { s with minVersion := e.version } else s
  let s : Search := if e.version > s.maxVersion then { s with maxVersion := e.version } else s
  { s with foundProgram := true }

section Search

variable {prog vers : UInt32} {e : Endpoint α} {endpoints seen : List (Endpoint α)} {s : Search}

theorem searchEndpoints_cons : searchEndpoints prog vers (e :: endpoints) s =
    if prog = e.program.toUInt32 then
      if vers = e.version.toUInt32 then (some e,s.see e) else searchEndpoints prog vers endpoints (s.see e)
    else searchEndpoints prog vers endpoints s := rfl

/-- The variables of the loop behind the endpoints `seen` -/
def Covers (seen : List (Endpoint α)) (prog : UInt32) (s : Search) : Prop :=
  if s.foundProgram then IsLeast (versions seen prog) s.minVersion ∧ IsGreatest (versions seen prog) s.maxVersion
  else versions seen prog = ∅

theorem versions_other (h : prog ≠ e.program.toUInt32) : versions (seen ++ [e]) prog = versions seen prog := by
  ext v
  simp only [versions,Set.mem_ofPred_eq,List.mem_append,List.mem_singleton]
  constructor
  · rintro ⟨x,hx | rfl,hp,hv⟩
    · exact ⟨x,hx,hp,hv⟩
    · exact absurd hp h
  · rintro ⟨x,hx,hp,hv⟩
    exact ⟨x,.inl hx,hp,hv⟩

theorem mem_versions (h : prog = e.program.toUInt32) {v : Int32} :
    v ∈ versions (seen ++ [e]) prog ↔ v ∈ versions seen prog ∨ v = e.version := by
  simp only [versions,Set.mem_ofPred_eq,List.mem_append,List.mem_singleton]
  constructor
  · rintro ⟨x,hx | rfl,hp,hv⟩
    · exact .inl ⟨x,hx,hp,hv⟩
    · exact .inr hv.symm
  · rintro (⟨x,hx,hp,hv⟩ | rfl)
    · exact ⟨x,.inl hx,hp,hv⟩
    · exact ⟨e,.inr rfl,h,rfl⟩

theorem Search.see_min (s : Search) (e : Endpoint α) : (s.see e).minVersion =
    if s.foundProgram ∧ ¬ e.version < s.minVersion then s.minVersion else e.version := by
  unfold Search.see
  by_cases hf : s.foundProgram
  · by_cases hlt : e.version < s.minVersion
    · by_cases hgt : e.version > s.maxVersion <;> simp [hf,hlt,hgt]
    · by_cases hgt : e.version > s.maxVersion <;> simp [hf,hlt,hgt]
  · simp [hf,Int32.lt_irrefl]

theorem Search.see_max (s : Search) (e : Endpoint α) : (s.see e).maxVersion =
    if s.foundProgram ∧ ¬ e.version > s.maxVersion then s.maxVersion else e.version := by
  unfold Search.see
  by_cases hf : s.foundProgram
  · by_cases hlt : e.version < s.minVersion
    · by_cases hgt : e.version > s.maxVersion <;> simp [hf,hlt,hgt]
    · by_cases hgt : e.version > s.maxVersion <;> simp [hf,hlt,hgt]
  · simp [hf,Int32.lt_irrefl]

theorem Search.see_found (s : Search) (e : Endpoint α) : (s.see e).foundProgram = true := rfl

theorem Covers.see (h : Covers seen prog s) (hp : prog = e.program.toUInt32) : Covers (seen ++ [e]) prog (s.see e) := by
  unfold Covers at h
  unfold Covers
  rw [if_pos (s.see_found e),s.see_min e,s.see_max e]
  by_cases hf : s.foundProgram
  · rw [if_pos hf] at h
    obtain ⟨⟨hlow,hleast⟩,hhigh,hgreatest⟩ := h
    constructor
    · by_cases hlt : e.version < s.minVersion
      · rw [if_neg (by simp [hlt])]
        refine ⟨(mem_versions hp).mpr (.inr rfl),fun v hv => ?_⟩
        rcases (mem_versions hp).mp hv with hv | rfl
        · exact Int32.le_trans (Int32.le_of_lt hlt) (hleast hv)
        · exact Int32.le_refl _
      · rw [if_pos ⟨hf,hlt⟩]
        refine ⟨(mem_versions hp).mpr (.inl hlow),fun v hv => ?_⟩
        rcases (mem_versions hp).mp hv with hv | rfl
        · exact hleast hv
        · exact Int32.not_lt.mp hlt
    · by_cases hgt : e.version > s.maxVersion
      · rw [if_neg (by simp [hgt])]
        refine ⟨(mem_versions hp).mpr (.inr rfl),fun v hv => ?_⟩
        rcases (mem_versions hp).mp hv with hv | rfl
        · exact Int32.le_trans (hgreatest hv) (Int32.le_of_lt hgt)
        · exact Int32.le_refl _
      · rw [if_pos ⟨hf,hgt⟩]
        refine ⟨(mem_versions hp).mpr (.inl hhigh),fun v hv => ?_⟩
        rcases (mem_versions hp).mp hv with hv | rfl
        · exact hgreatest hv
        · exact Int32.not_lt.mp hgt
  · rw [if_neg hf] at h
    have hmem : ∀ v, v ∈ versions (seen ++ [e]) prog ↔ v = e.version := by
      intro v
      rw [mem_versions hp,h]
      simp
    rw [if_neg (by simp [hf]),if_neg (by simp [hf])]
    refine ⟨⟨(hmem _).mpr rfl,fun v hv => ?_⟩,(hmem _).mpr rfl,fun v hv => ?_⟩
    all_goals
      rw [(hmem v).mp hv]
      exact Int32.le_refl _

/-- The loop finds the endpoint of the program and the version, or the range of the versions. -/
theorem searchEndpoints_spec (hs : Covers seen prog s) : (searchEndpoints prog vers endpoints s).1 =
      endpoints.find? (fun e => prog = e.program.toUInt32 ∧ vers = e.version.toUInt32) ∧
    ((searchEndpoints prog vers endpoints s).1 = none →
      Covers (seen ++ endpoints) prog (searchEndpoints prog vers endpoints s).2) := by
  induction endpoints generalizing seen s with
  | nil =>
    refine ⟨rfl,fun _ => ?_⟩
    rw [List.append_nil]
    exact hs
  | cons e endpoints ih =>
    have happ : seen ++ e :: endpoints = (seen ++ [e]) ++ endpoints := by simp
    rw [searchEndpoints_cons,happ]
    by_cases hp : prog = e.program.toUInt32
    · rw [if_pos hp]
      by_cases hv : vers = e.version.toUInt32
      · rw [if_pos hv,List.find?_cons_of_pos (by simp [hp,hv])]
        exact ⟨rfl,by simp⟩
      · rw [if_neg hv,List.find?_cons_of_neg (by simp [hv])]
        exact ih (hs.see hp)
    · rw [if_neg hp,List.find?_cons_of_neg (by simp [hp])]
      refine ih ?_
      unfold Covers
      rw [versions_other hp]
      exact hs

end Search

theorem meets_nullProc : Meets nullProc noResults := ⟨fun _ h => h.elim,fun _ h => h.elim,fun _ _ h => h.elim⟩

theorem errorMsg_valid (xid : UInt32) (err : AcceptStat) (minVers maxVers : Int32) :
    (Format.rpcMsg true noResults).Valid (errorMsg xid err minVers maxVers) := by
  refine ⟨?_,fun _ => ⟨xid,_,rfl⟩⟩
  rintro xid' b hb verf d rfl r rfl
  cases err <;> simp [errorMsg,errorData] at hb

theorem errorMsg_length (xid : UInt32) (err : AcceptStat) (minVers maxVers : Int32) :
    ((Format.rpcMsg true noResults).bytes (errorMsg xid err minVers maxVers)).length ≤ 32 := by
  cases err <;> simp [errorMsg,errorData,Format.rpcMsg,Format.replyBody,Format.replyData,Format.auth,Format.word,
    Format.sized,beBytes,padLen]

/-- The error reply that is queued is the marshalled one. -/
theorem rpcSendErrorReply_eq (mem : Bool) (xid : UInt32) (err : AcceptStat) (minVers maxVers : Int32) :
    (rpcSendErrorReply mem xid err minVers maxVers : Outcome α) = errorReply mem xid err minVers maxVers := by
  unfold rpcSendErrorReply errorReply
  cases mem with
  | false => rw [if_neg (by simp),if_neg (by simp)]
  | true =>
    have hlen := errorMsg_length xid err minVers maxVers
    obtain ⟨buf,hbuf⟩ : ∃ buf : List UInt8, buf = List.replicate encodebufMinsize 0 := ⟨_,rfl⟩
    have hz : zdrmemCreate (List.replicate encodebufMinsize 0) encodebufMinsize =
        { buf := buf, size := 4096, pos := 0 } := by
      rw [hbuf]
      rfl
    have hsize : buf.length = 4096 := by
      rw [hbuf,List.length_replicate]
      rfl
    have hfit : Fit { buf := buf, size := 4096, pos := 0 } ((Format.rpcMsg true noResults).bytes
        (errorMsg xid err minVers maxVers)).length :=
      ⟨by simp,by simp only; omega,by simp [hsize],by simp⟩
    obtain ⟨z',henc,hw⟩ := (meets_rpcMsg meets_nullProc true).writes _ (errorMsg_valid xid err minVers maxVers) _
      (by simp) hfit
    rw [if_pos rfl,if_pos rfl,hz,Zdrmem.zdrReplymsg,henc]
    have hbytes : z'.buf.take z'.pos.toNat = (Format.rpcMsg true noResults).bytes (errorMsg xid err minVers maxVers) := by
      rw [hw.buf,hw.pos]
      simp [overwrite]
    simp only [hbytes]

theorem errorReply_refused (mem : Bool) (xid : UInt32) (err : AcceptStat) (a b : Int32) :
    (errorReply mem xid err a b : Outcome α).Refused := by
  unfold errorReply
  split <;> trivial

section Dispatch

variable {mem : Bool} {endpoints : List (Endpoint α)} {msg : RpcMsg Unit} {z : Zdrs}

theorem callProc_none {procs : List (ServiceProc α)} (h : procs.find? (fun p => p.proc.toUInt32 = (cbody msg).proc) = none) :
    callProc mem msg z procs = errorReply mem (cbody msg).xid .procUnavail 0 0 := by
  induction procs with
  | nil => exact rpcSendErrorReply_eq ..
  | cons p procs ih =>
    by_cases hp : p.proc.toUInt32 = (cbody msg).proc
    · rw [List.find?_cons_of_pos (by simp [hp])] at h
      simp at h
    · rw [List.find?_cons_of_neg (by simp [hp])] at h
      rw [callProc,if_neg hp]
      exact ih h

theorem callProc_some {procs : List (ServiceProc α)} {p : ServiceProc α}
    (h : procs.find? (fun p => p.proc.toUInt32 = (cbody msg).proc) = some p) : callProc mem msg z procs =
      match p.args z with
      | (.fail,_) => errorReply mem (cbody msg).xid .garbageArgs 0 0
      | (.fault,_) => .crash
      | (.ok args,_) => .handler p msg args := by
  induction procs with
  | nil => simp at h
  | cons q procs ih =>
    by_cases hq : q.proc.toUInt32 = (cbody msg).proc
    · rw [List.find?_cons_of_pos (by simp [hq])] at h
      obtain rfl := Option.some.inj h
      rw [callProc,if_pos hq,rpcSendErrorReply_eq]
    · rw [List.find?_cons_of_neg (by simp [hq])] at h
      rw [callProc,if_neg hq]
      exact ih h

theorem dispatch_unserved (h : serving endpoints (cbody msg) = none) : (dispatch mem endpoints msg z).Refused ∧
    Answers mem endpoints msg z (dispatch mem endpoints msg z) := by
  have hinit : Covers ([] : List (Endpoint α)) (cbody msg).prog ⟨0,0,false⟩ := by simp [Covers,versions]
  obtain ⟨hfind,hcovers⟩ := @searchEndpoints_spec _ _ (cbody msg).vers endpoints _ _ hinit
  have hnone := hfind.trans h
  have hc := hcovers hnone
  rw [List.nil_append] at hc
  unfold dispatch
  cases hs : searchEndpoints (cbody msg).prog (cbody msg).vers endpoints ⟨0,0,false⟩ with
  | mk found s =>
    rw [hs] at hnone hc
    simp only at hnone
    subst hnone
    simp only
    rw [rpcSendErrorReply_eq,rpcSendErrorReply_eq]
    unfold Covers at hc
    by_cases hf : s.foundProgram
    · rw [if_pos hf] at hc
      rw [if_neg (not_not.mpr hf)]
      exact ⟨errorReply_refused ..,.progMismatch hc.1 hc.2 h⟩
    · rw [if_neg hf] at hc
      rw [if_pos hf]
      exact ⟨errorReply_refused ..,.progUnavail hc⟩

theorem dispatch_served {e : Endpoint α} (h : serving endpoints (cbody msg) = some e) :
    dispatch mem endpoints msg z = callProc mem msg z e.procs := by
  have hinit : Covers ([] : List (Endpoint α)) (cbody msg).prog ⟨0,0,false⟩ := by simp [Covers,versions]
  obtain ⟨hfind,-⟩ := @searchEndpoints_spec _ _ (cbody msg).vers endpoints _ _ hinit
  have hsome := hfind.trans h
  unfold dispatch
  cases hs : searchEndpoints (cbody msg).prog (cbody msg).vers endpoints ⟨0,0,false⟩ with
  | mk found s =>
    rw [hs] at hsome
    simp only at hsome
    subst hsome
    rfl

/-- The procedure that a message is for -/
def target (endpoints : List (Endpoint α)) (msg : RpcMsg Unit) : Option (ServiceProc α) :=
  (serving endpoints (cbody msg)).bind fun e => procOf e (cbody msg)

theorem dispatch_noTarget (h : target endpoints msg = none) : (dispatch mem endpoints msg z).Refused ∧
    Answers mem endpoints msg z (dispatch mem endpoints msg z) := by
  cases hs : serving endpoints (cbody msg) with
  | none => exact dispatch_unserved hs
  | some e =>
    have hp : procOf e (cbody msg) = none := by simpa [target,hs] using h
    rw [dispatch_served hs,callProc_none hp]
    exact ⟨errorReply_refused ..,.procUnavail hs hp⟩

theorem dispatch_target {p : ServiceProc α} (h : target endpoints msg = some p) : dispatch mem endpoints msg z =
    match p.args z with
    | (.fail,_) => errorReply mem (cbody msg).xid .garbageArgs 0 0
    | (.fault,_) => .crash
    | (.ok args,_) => .handler p msg args := by
  obtain ⟨e,hs,hp⟩ := Option.bind_eq_some_iff.mp h
  rw [dispatch_served hs,callProc_some hp]

/-- A call is answered as it should be unless the decoder of its arguments leaves the buffer. -/
theorem dispatch_answers : Answers mem endpoints msg z (dispatch mem endpoints msg z) ↔
    ∀ p, target endpoints msg = some p → (p.args z).1 ≠ .fault := by
  cases ht : target endpoints msg with
  | none => simp [(dispatch_noTarget ht).2]
  | some p =>
    obtain ⟨e,hs,hp⟩ := Option.bind_eq_some_iff.mp ht
    rw [dispatch_target ht]
    simp only [Option.some.injEq,forall_eq']
    cases ha : p.args z with
    | mk r z' =>
      cases r with
      | ok args => simp [Answers.handler hs hp ha]
      | fail => simp [Answers.garbageArgs hs hp ha]
      | fault =>
        simp only [ne_eq,not_true_eq_false,iff_false]
        intro hans
        generalize ho : Outcome.crash = out at hans
        cases hans <;> first | simp at ho | (unfold errorReply at ho; split at ho <;> simp at ho)

/-- Any other message gets no handler unless the arguments of one are decoded from it. -/
theorem dispatch_refused : (dispatch mem endpoints msg z).Refused ↔
    ∀ p, target endpoints msg = some p → (p.args z).1 = .fail := by
  cases ht : target endpoints msg with
  | none => simp [(dispatch_noTarget ht).1]
  | some p =>
    rw [dispatch_target ht]
    simp only [Option.some.injEq,forall_eq']
    cases ha : p.args z with
    | mk r z' =>
      cases r with
      | ok args => simp [Outcome.Refused]
      | fail => simp [errorReply_refused]
      | fault => simp [Outcome.Refused]

end Dispatch

section NullProc

variable {β : Type} {bad : α → Prop} {bad' : β → Prop}

/-- `m` does what `m'` does, and crashes where `m'` returns a bad value. -/
def Nulled (bad : α → Prop) (m m' : Zop α) : Prop := ∀ z,
  match m' z with
  | (.ok a,z') => (bad a → (m z).1 = .fault) ∧ (¬ bad a → m z = (.ok a,z'))
  | (.fail,z') => m z = (.fail,z')
  | (.fault,z') => m z = (.fault,z')

theorem Nulled.same (m : Zop α) (h : ∀ z a z', m z = (.ok a,z') → ¬ bad a) : Nulled bad m m := by
  intro z
  cases hm : m z with
  | mk r z' =>
    cases r with
    | ok a => exact ⟨fun hb => absurd hb (h z a z' hm),fun _ => rfl⟩
    | fail => rfl
    | fault => rfl

theorem Nulled.bind {f f' : β → Zop α} (m : Zop β) (h : ∀ a, Nulled bad (f a) (f' a)) :
    Nulled bad (m >>= f) (m >>= f') := by
  intro z
  cases hm : m z with
  | mk r y =>
    cases r with
    | ok a =>
      rw [Zop.bind_ok hm,Zop.bind_ok hm]
      exact h a y
    | fail => rw [Zop.bind_fail hm,Zop.bind_fail hm]
    | fault => rw [Zop.bind_fault hm,Zop.bind_fault hm]

theorem Nulled.map {m m' : Zop α} (g : α → β) (h : Nulled bad m m') (hg : ∀ a, bad' (g a) ↔ bad a) :
    Nulled bad' (m >>= fun a => pure (g a)) (m' >>= fun a => pure (g a)) := by
  intro z
  have hz := h z
  cases hm : m' z with
  | mk r y =>
    rw [hm] at hz
    cases r with
    | fail => rw [Zop.bind_fail hm,Zop.bind_fail hz]
    | fault => rw [Zop.bind_fault hm,Zop.bind_fault hz]
    | ok a =>
      rw [Zop.bind_ok hm]
      refine ⟨fun hb => ?_,fun hb => ?_⟩
      · have hfault := hz.1 ((hg a).mp hb)
        have hmz : m z = (.fault,(m z).2) := by rw [← hfault]
        rw [Zop.bind_fault hmz]
      · rw [Zop.bind_ok (hz.2 fun ha => hb ((hg a).mpr ha))]
        rfl

/-- An accepted reply with results -/
def IsResults : RpcMsg Unit → Prop
  | .reply _ (.areply _ (.results _)) => True
  | _ => False

/-- The decoder without a `results.proc` crashes on results. -/
theorem nulled_callmsg : Nulled IsResults ((zdrCallmsg nullProc).dec 0) ((zdrCallmsg zdrVoid).dec 0) := by
  have hdata : Nulled (fun d => ∃ r, d = .results r) ((replyData nullProc).dec 0) ((replyData zdrVoid).dec 0) := by
    refine .bind _ fun stat => ?_
    by_cases h0 : stat = 0
    · rw [dif_pos h0,dif_pos h0]
      intro z
      exact ⟨fun _ => rfl,fun hb => absurd ⟨(),rfl⟩ hb⟩
    · rw [dif_neg h0,dif_neg h0]
      refine .same _ fun z d z' hd => ?_
      rintro ⟨r,rfl⟩
      by_cases h2 : stat = 2
      · rw [dif_pos h2] at hd
        obtain ⟨low,y,-,hd⟩ := Zop.of_bind_ok hd
        obtain ⟨high,y',-,hd⟩ := Zop.of_bind_ok hd
        simp [Pure.pure,Zop.pure] at hd
      · rw [dif_neg h2] at hd
        simp [Pure.pure,Zop.pure] at hd
  have hbody : Nulled (fun b => ∃ verf r, b = .areply verf (.results r)) ((libnfsRpcReplyBody nullProc).dec 0)
      ((libnfsRpcReplyBody zdrVoid).dec 0) := by
    refine .bind _ fun stat => ?_
    by_cases h0 : stat = 0
    · rw [if_pos h0,if_pos h0]
      refine .bind _ fun verf => hdata.map (ReplyBody.areply verf) fun d => ?_
      constructor
      · rintro ⟨v,r,he⟩
        obtain ⟨-,rfl⟩ := ReplyBody.areply.inj he
        exact ⟨r,rfl⟩
      · rintro ⟨r,rfl⟩
        exact ⟨verf,r,rfl⟩
    · rw [if_neg h0,if_neg h0]
      refine .same _ fun z b z' hb => ?_
      rintro ⟨verf,r,rfl⟩
      by_cases h1 : stat = 1
      · rw [if_pos h1] at hb
        obtain ⟨rr,y,-,hb⟩ := Zop.of_bind_ok hb
        simp [Pure.pure,Zop.pure] at hb
      · rw [if_neg h1] at hb
        simp [Zop.fail] at hb
  refine .bind _ fun xid => .bind _ fun direction => ?_
  by_cases h0 : direction = 0
  · rw [if_pos h0,if_pos h0]
    refine .same _ fun z m z' hm hbad => ?_
    obtain ⟨c,y,-,hm⟩ := Zop.of_bind_ok hm
    simp only [Pure.pure,Zop.pure,Prod.mk.injEq,Res.ok.injEq] at hm
    rw [← hm.1] at hbad
    exact hbad
  · rw [if_neg h0,if_neg h0]
    by_cases h1 : direction = 1
    · rw [if_pos h1,if_pos h1]
      refine hbody.map (RpcMsg.reply xid) fun b => ?_
      constructor
      · intro hbad
        cases b with
        | rreply r => exact hbad.elim
        | areply verf d =>
          cases d with
          | results r => exact ⟨verf,r,rfl⟩
          | mismatchInfo low high => exact hbad.elim
          | none stat h => exact hbad.elim
      · rintro ⟨verf,r,rfl⟩
        trivial
    · rw [if_neg h1,if_neg h1]
      exact .same _ fun z m z' hm => by simp [Zop.fail] at hm

end NullProc

section Process

variable {mem : Bool} {endpoints : List (Endpoint α)} {zdr : Zdrs} {msg : RpcMsg Unit} {z : Zdrs}

theorem rpcProcessCall_ok (h : (zdrCallmsg nullProc).dec 0 zdr = (.ok msg,z)) :
    rpcProcessCall mem endpoints zdr = dispatch mem endpoints msg z := by
  simp only [rpcProcessCall,h]

theorem rpcProcessCall_fail (h : (zdrCallmsg nullProc).dec 0 zdr = (.fail,z)) :
    rpcProcessCall mem endpoints zdr = errorReply mem (decodedXid zdr) .garbageArgs 0 0 := by
  rw [← rpcSendErrorReply_eq]
  simp only [rpcProcessCall,h]

theorem rpcProcessCall_fault (h : (zdrCallmsg nullProc).dec 0 zdr = (.fault,z)) :
    rpcProcessCall mem endpoints zdr = .crash := by
  simp only [rpcProcessCall,h]

end Process

/-- What a server context should do with a message: nothing but an error for one that is not a call -/
def Dispatched (mem : Bool) (endpoints : List (Endpoint α)) (zdr : Zdrs) (out : Outcome α) : Prop :=
  match (zdrCallmsg nullProc).dec 0 zdr with
  | (.ok (.call xid c),z) => Answers mem endpoints (.call xid c) z out
  | _ => out.Refused

/-- The message is decoded within its buffer, and the arguments of a call are; it is no accepted reply with results, and from
another reply no arguments are decoded for a procedure of program 0. -/
def Harmless (endpoints : List (Endpoint α)) (zdr : Zdrs) : Prop :=
  match (zdrCallmsg zdrVoid).dec 0 zdr with
  | (.ok (.call xid c),z) => ∀ p, target endpoints (.call xid c) = some p → (p.args z).1 ≠ .fault
  | (.ok (.reply xid b),z) => ¬ IsResults (.reply xid b) ∧
      ∀ p, target endpoints (.reply xid b) = some p → (p.args z).1 = .fail
  | (.fail,_) => True
  | (.fault,_) => False

/-- Every message is dispatched as it should be exactly if it is harmless. -/
theorem rpcProcessCall_dispatched (mem : Bool) (endpoints : List (Endpoint α)) (zdr : Zdrs) :
    Dispatched mem endpoints zdr (rpcProcessCall mem endpoints zdr) ↔ Harmless endpoints zdr := by
  have hnull := nulled_callmsg zdr
  cases hdec : (zdrCallmsg zdrVoid).dec 0 zdr with
  | mk r z =>
    rw [hdec] at hnull
    cases r with
    | fail =>
      have hrefused : (rpcProcessCall mem endpoints zdr).Refused := by
        rw [rpcProcessCall_fail hnull]
        exact errorReply_refused ..
      simp only [Dispatched,Harmless,hdec,show _ = _ from hnull,hrefused]
    | fault =>
      simp only [Dispatched,Harmless,hdec,show _ = _ from hnull,rpcProcessCall_fault hnull,Outcome.Refused]
    | ok msg =>
      obtain ⟨hbad,hgood⟩ := hnull
      cases msg with
      | call xid c =>
        have hn := hgood fun h => h
        simp only [Dispatched,Harmless,hdec,hn,rpcProcessCall_ok hn]
        exact dispatch_answers
      | reply xid b =>
        by_cases hr : IsResults (.reply xid b)
        · have hfault := hbad hr
          cases hn : (zdrCallmsg nullProc).dec 0 zdr with
          | mk r y =>
            rw [hn] at hfault
            simp only at hfault
            subst hfault
            simp only [Dispatched,Harmless,hdec,hn,rpcProcessCall_fault hn,Outcome.Refused,hr,not_true_eq_false,
              false_and]
        · have hn := hgood hr
          simp only [Dispatched,Harmless,hdec,hn,rpcProcessCall_ok hn,hr,not_false_eq_true,true_and]
          exact dispatch_refused

/-- An accepted reply with results, as a server may be sent it -/
def results : List UInt8 := [0,0,0,7, 0,0,0,1, 0,0,0,0, 0,0,0,0, 0,0,0,0, 0,0,0,0]

/-- A reply with results ends a server. -/
theorem rpcProcessCall_crashes : ¬ Dispatched true ([] : List (Endpoint Unit)) (zdrmemCreate results results.length)
    (rpcProcessCall true [] (zdrmemCreate results results.length)) := by
  have hfault : ((zdrCallmsg nullProc).dec 0 (zdrmemCreate results results.length)).1 = .fault := by rfl
  generalize zdrmemCreate results results.length = zdr at hfault
  cases hdec : (zdrCallmsg nullProc).dec 0 zdr with
  | mk r z =>
    rw [hdec] at hfault
    simp only at hfault
    subst hfault
    simp only [Dispatched,hdec,rpcProcessCall_fault hdec,Outcome.Refused]
    exact fun h => h

end Dispatch
end Libnfs
