import Libnfs.ServerContext

/-! A server context as a function from the stream of calls to the stream of replies. -/
namespace Libnfs
namespace ServerContext

open ByteWords Zdr Zdrmem Dispatch RecordMark Transition
open Rpc (marking)

variable {α β : Type} {handler : Handler α β} {s t : ServerContext α β} {endpoints : List (Endpoint α)} {app : β}

/-- The state of the application behind some records, and the replies to them -/
def converse (handler : Handler α β) (endpoints : List (Endpoint α)) (app : β) (records : List (List UInt8)) : β × List (List UInt8) :=
  records.foldl (fun x record =>
    let y := responses handler true endpoints x.1 record
    (y.1,x.2 ++ y.2)) (app,[])

theorem converse_concat (records : List (List UInt8)) (record : List UInt8) :
    converse handler endpoints app (records ++ [record]) =
      ((responses handler true endpoints (converse handler endpoints app records).1 record).1,
        (converse handler endpoints app records).2 ++
          (responses handler true endpoints (converse handler endpoints app records).1 record).2) := by
  simp [converse]

/-- Nothing is registered any more, no call is answered later, and there is memory. -/
def Steady : ServiceEvent α β → Prop
  | .memory ok => ok = true
  | .register _ => False
  | .deferred _ _ _ _ => False
  | _ => True

theorem Steady.fulfils {e : ServiceEvent α β} (h : Steady e) : s.Fulfils (fun _ _ _ _ => True) e := by
  cases e with
  | deferred i r app io => exact h.elim
  | _ => trivial

/-- A context that does what `converse` says -/
structure Converses (handler : Handler α β) (endpoints : List (Endpoint α)) (app : β) (s : ServerContext α β) : Prop where
  served : Served (fun _ _ _ _ => True) s
  registered : s.endpoints = endpoints
  mem : s.server.rpc.memOk = true
  said : converse handler endpoints app (s.handled.map Prod.fst) = (s.app,s.answered.map Prod.snd)
  inStep : s.server.InStep

/-- A record is handled in step with `converse`. -/
theorem Converses.process (h : Converses handler endpoints app s) (hs : s.fate = .serving) {rpc : Rpc} {bs : List UInt8}
    {ios : List Sending} (hne : bs ≠ []) (hrec : IsRecord marking ((split marking s.taken).rest++bs))
    (hsh : rpc.shared = s.server.rpc.shared) (hp : rpc.pdu = none) (hx : rpc.rmXid.length = 8)
    (hv : ((s.took rpc bs).process handler (((split marking s.taken).rest++bs).drop 4) ios).fate = .serving)
    (hin : ((s.took rpc bs).process handler (((split marking s.taken).rest++bs).drop 4) ios).server.InStep) :
    Converses handler endpoints app ((s.took rpc bs).process handler (((split marking s.taken).rest++bs).drop 4) ios) := by
  have hserved := h.served.process (fun _ _ _ _ _ _ => trivial) hs hne hrec hsh hp hx hv
  generalize ((split marking s.taken).rest++bs).drop 4 = record at hserved hv hin ⊢
  have hmem : (s.took rpc bs).server.rpc.memOk = true :=
    (show rpc.shared.memOk = s.server.rpc.shared.memOk by rw [hsh]).trans h.mem
  have hends : (s.took rpc bs).endpoints = endpoints := h.registered
  have hsaid : converse handler endpoints app ((s.took rpc bs).handled.map Prod.fst) =
      ((s.took rpc bs).app,(s.took rpc bs).answered.map Prod.snd) := h.said
  have hlive : (s.took rpc bs).fate = .serving := hs
  generalize s.took rpc bs = u at hserved hv hin hmem hends hsaid hlive ⊢
  obtain ⟨t,out,hout,he,hsent⟩ := process_serving hlive hv
  rw [hmem,hends] at hout
  have hresp : responses handler true endpoints u.app record = respond handler true u.app out := by rw [responses,← hout]
  rw [hmem] at hsent
  have hfin := Rpc.finished_shared t.server.rpc
  rw [he] at hserved hin ⊢
  refine ⟨hserved,hsent.endpoints.trans hends,?_,?_,hin⟩
  · show t.server.rpc.rpcFinishedPdu.shared.memOk = true
    rw [hfin]
    exact hsent.mem.trans hmem
  · show converse handler endpoints app (t.handled.map Prod.fst) = (t.app,t.answered.map Prod.snd)
    have hsnd : ∀ l : List (List UInt8), (l.map (record,·)).map Prod.snd = l := fun l => by
      rw [List.map_map]
      exact List.map_id _
    rw [hsent.handled,hsent.app,hsent.answered,List.map_append,List.map_append,List.map_singleton,converse_concat,hsaid,hresp,hsnd]

theorem init_converses (handler : Handler α β) (app : β) : Converses handler [] app (init app : ServerContext α β) :=
  ⟨init_served app,rfl,rfl,rfl,Server.init_inStep⟩

/-- One event keeps a context in step with `converse`. -/
theorem act_converses (h : Converses handler endpoints app s) (hs : s.fate = .serving) {e : ServiceEvent α β} (he : Steady e)
    (hw : WritesHeadOnly s e) (hv : (s.act handler e).fate = .serving) : Converses handler endpoints app (s.act handler e) := by
  have hin := act_inStep h.served h.inStep hs hw hv
  have hserved := act_served h.served (fun _ _ _ _ _ _ => trivial) hs e (Steady.fulfils he) hv
  cases e with
  | memory ok => exact ⟨hserved,h.registered,he,h.said,hin⟩
  | disableSocket val => exact ⟨hserved,h.registered,h.mem,h.said,hin⟩
  | register e => exact he.elim
  | recv r ios =>
    simp only [act] at hv hserved hin ⊢
    rcases recvStep_cases h.served.reader r ios hv with ⟨rpc,he,hsh,-⟩ | ⟨rpc,bs,he,hsh,-⟩ | ⟨rpc,bs,he,hne,hrec,hsh,hp,hx⟩
    · have hmem : rpc.memOk = true := (show rpc.shared.memOk = s.server.rpc.shared.memOk by rw [hsh]).trans h.mem
      rw [he] at hserved hin ⊢
      exact ⟨hserved,h.registered,hmem,h.said,hin⟩
    · have hmem : rpc.memOk = true := (show rpc.shared.memOk = s.server.rpc.shared.memOk by rw [hsh]).trans h.mem
      rw [he] at hserved hin ⊢
      exact ⟨hserved,h.registered,hmem,h.said,hin⟩
    · rw [he] at hv hin ⊢
      exact h.process hs hne hrec hsh hp hx hv hin
  | deferred i r app io => exact he.elim
  | write ws =>
    simp only [act] at hv hserved hin ⊢
    split
    · exact h
    · rename_i hne
      rw [if_neg hne] at hv hserved hin
      by_cases hok : (s.server.rpc.rpcWriteToSocket ws).2 = true
      · rw [if_pos hok] at hserved hin ⊢
        refine ⟨hserved,h.registered,?_,h.said,hin⟩
        obtain ⟨q,w,n,b,hf⟩ := Rpc.rpcWriteToSocket_frame s.server.rpc ws
        show (s.server.rpc.rpcWriteToSocket ws).1.memOk = true
        rw [hf]
        exact h.mem
      · rw [if_neg hok] at hv
        simp [ended] at hv
  | pollError => simp [act,ended] at hv

/-- The services that `rpc_register_service` makes known, the last one first -/
def registering (endpoints : List (Endpoint α)) : List (ServiceEvent α β) := endpoints.reverse.map .register

theorem after_registering (handler : Handler α β) (app : β) (endpoints : List (Endpoint α)) :
    after handler app (registering endpoints) = { (init app : ServerContext α β) with endpoints := endpoints } := by
  unfold registering
  induction endpoints with
  | nil => rfl
  | cons e endpoints ih =>
    rw [after] at ih
    rw [after,List.reverse_cons,List.map_append,run_append,ih]
    rfl

section Demo

theorem headOnly_of_length {rpc : Rpc} (h : rpc.outqueue.length ≤ 1) (ws : List Writev) : Server.HeadOnly rpc ws := by
  intro p q ps hq
  simp [hq] at h

end Demo

end ServerContext
end Libnfs
