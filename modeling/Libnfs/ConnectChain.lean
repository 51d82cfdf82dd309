import Libnfs.Transition

/-! Connecting to a program (`lib/libnfs.c`): the chain of callbacks from `rpc_connect_program_async`
and `rpc_connect_port_async` on, over the connections of one context (`lib/socket.c`). Built without
krb5 and TLS, for TCP.

`rpc_connect_async` turns reconnecting off, and it stays off as long as a chain is under way. Of the
queues only the PDUs of the chains are modelled; a PDU is in `pdus` while it is in a queue and in
`pdu` while its reply is being received. -/
namespace Libnfs
namespace ConnectChain

open Transition

/-- The callbacks `rpc_connect_program_1_cb` to `rpc_connect_program_5_cb` -/
inductive Stage
  | cb1
  | cb2
  | cb3
  | cb4
  | cb5
  deriving DecidableEq, Repr

/-- How `rpc_connect_sockaddr_async` ends: without a socket, with a socket that could not be set up
or connected, or with a connection that is being set up. -/
inductive Socket
  | unopened
  | refused
  | connecting
  deriving DecidableEq, Repr

/-- What a callback finds: whether a request could be allocated and queued, the port in the reply of
the portmapper, whether the server has an address, and what becomes of a new socket. -/
structure Env where
  task : Bool := true
  port : ℕ := 2049
  address : Bool := true
  socket : Socket := .connecting
  deriving DecidableEq, Repr

/-- A callback and the number of the `rpc_cb_data` that is passed to it -/
structure Holder where
  stage : Stage
  data : ℕ
  deriving DecidableEq, Repr

/-- The context. `called` are the `rpc_cb_data` whose user callback was invoked and `freed` those
that were freed, in order; `started` and `rejected` are those of the calls that returned 0 and -1.
`fault` says that freed data was used. -/
structure Chain where
  fd : Bool := false
  isConnected : Bool := false
  connectCb : Option Holder := none
  pdus : List Holder := []
  pdu : Option Holder := none
  next : ℕ := 0
  called : List ℕ := []
  freed : List ℕ := []
  started : List ℕ := []
  rejected : List ℕ := []
  fault : Bool := false
  deriving DecidableEq, Repr

namespace Chain

/-- The code reads `*data`. -/
def use (id : ℕ) (f : Chain → Chain) (c : Chain) : Chain :=
  if id ∈ c.freed then { c with fault := true } else f c

/-- `free_rpc_cb_data` -/
def free (id : ℕ) (c : Chain) : Chain := { c with freed := c.freed ++ [id] }

/-- `data->cb(..); free_rpc_cb_data(data)` -/
def finish (id : ℕ) : Chain → Chain := use id fun c => ({ c with called := c.called ++ [id] }).free id

/-- `rpc->connect_cb = NULL` -/
def clear (c : Chain) : Chain := { c with connectCb := none }

def queue (h : Holder) (c : Chain) : Chain := { c with pdus := c.pdus ++ [h] }

/-- A callback with a status other than `RPC_STATUS_SUCCESS` -/
def failCb (h : Holder) (c : Chain) : Chain :=
  match h.stage with
  | .cb1 | .cb4 | .cb5 => c.clear.finish h.data
  | .cb2 | .cb3 => c.finish h.data

/-- The callbacks of the PDUs, one after the other -/
def failAll (hs : List Holder) (c : Chain) : Chain := hs.foldl (fun c h => c.failCb h) c

/-- `rpc_error_all_pdus` -/
def rpcErrorAllPdus (c : Chain) : Chain := ({ c with pdus := [] }).failAll c.pdus

/-- `maybe_call_connect_cb` with an error -/
def failConnectCb (c : Chain) : Chain :=
  match c.connectCb with
  | none => c
  | some h => c.clear.failCb h

/-- `rpc_disconnect` -/
def rpcDisconnect (c : Chain) : Chain :=
  if c.isConnected then ({ c with fd := false, isConnected := false }).rpcErrorAllPdus.failConnectCb
  else { c with fd := false }

/-- `rpc_connect_async`, and what it returns; a context that is not a TCP client is refused like one
that is connected. -/
def rpcConnectAsync (h : Holder) (env : Env) (c : Chain) : Chain × Bool :=
  if c.fd then (c,false)
  else if !env.address then (c,false)
  else
    match env.socket with
    | .unopened => ({ c with connectCb := some h },false)
    | .refused => ({ c with connectCb := some h, fd := true },false)
    | .connecting => ({ c with connectCb := some h, fd := true },true)

/-- `rpc_connect_program_3_cb` with a port -/
def connectPort (id : ℕ) (env : Env) (c : Chain) : Chain :=
  match c.rpcConnectAsync ⟨.cb4,id⟩ env with
  | (c,true) => c
  | (c,false) => c.finish id

/-- A callback with `RPC_STATUS_SUCCESS` -/
def successCb (h : Holder) (env : Env) (c : Chain) : Chain :=
  match h.stage with
  | .cb1 => if env.task then c.clear.queue ⟨.cb2,h.data⟩ else c.clear.finish h.data
  | .cb2 => if env.task then c.use h.data (queue ⟨.cb3,h.data⟩) else c.finish h.data
  | .cb3 => if env.port = 0 then c.finish h.data else c.rpcDisconnect.use h.data (connectPort h.data env)
  | .cb4 => if env.task then c.clear.use h.data (queue ⟨.cb5,h.data⟩) else c.clear.finish h.data
  | .cb5 => c.clear.finish h.data

/-- `maybe_call_connect_cb` with `RPC_STATUS_SUCCESS` -/
def successConnectCb (env : Env) (c : Chain) : Chain :=
  match c.connectCb with
  | none => c
  | some h => c.clear.successCb h env

/-- What `rpc_read_from_socket` meets: the header of the reply to a PDU, or the rest of a reply,
which is one of success or not. -/
inductive Read
  | header (i : ℕ)
  | rest (success : Bool) (env : Env)
  deriving DecidableEq, Repr

def readOne (c : Chain) : Read → Chain
  | .header i =>
    match c.pdu, c.pdus[i]? with
    | none, some h => { c with pdu := some h, pdus := c.pdus.eraseIdx i }
    | _, _ => c
  | .rest success env =>
    match c.pdu with
    | none => c
    | some h =>
      let c := { c with pdu := none }
      if success then c.successCb h env else c.failCb h

def rpcReadFromSocket (rs : List Read) (c : Chain) : Chain := rs.foldl readOne c

/-- The PDUs that `rpc_timeout_scan` finds expired; none of a chain is retried. -/
def rpcTimeoutScan (expired : Holder → Bool) (c : Chain) : Chain :=
  ({ c with pdus := c.pdus.filter fun h => !expired h }).failAll (c.pdus.filter expired)

/-- What happens in a call of `rpc_service`: the PDUs that are expired, whether the scan wants a new
connection, an error on the socket or `revents` of -1, POLLOUT, the error that is pending on the
socket, what is read, and whether reading and writing fail. -/
structure Poll where
  expired : Holder → Bool := fun _ => false
  reconnect : Bool := false
  error : Bool := false
  out : Bool := false
  soError : Bool := false
  env : Env := {}
  reads : List Read := []
  readError : Bool := false
  writeError : Bool := false

/-- `rpc_service` -/
def rpcService (p : Poll) (c : Chain) : Chain :=
  let c := c.rpcTimeoutScan p.expired
  if p.reconnect then c.rpcErrorAllPdus
  else if p.error then c.failConnectCb
  else if !c.isConnected && c.fd && p.out then
    if p.soError then c.failConnectCb else ({ c with isConnected := true }).successConnectCb p.env
  else
    let c := c.rpcReadFromSocket p.reads
    if p.readError || p.writeError then c.rpcErrorAllPdus else c

/-- `rpc_connect_program_async` and `rpc_connect_port_async`, which start with the callbacks 1 and
4. -/
def connect (stage : Stage) (env : Env) (c : Chain) : Chain :=
  match ({ c with next := c.next+1 }).rpcConnectAsync ⟨stage,c.next⟩ env with
  | (c',true) => { c' with started := c'.started ++ [c.next] }
  | (c',false) => { c'.free c.next with rejected := c'.rejected ++ [c.next] }

end Chain

inductive Event
  | rpcConnectProgramAsync (env : Env)
  | rpcConnectPortAsync (env : Env)
  | rpcService (p : Chain.Poll)
  | rpcDisconnect

def step (c : Chain) : Event → Chain
  | .rpcConnectProgramAsync env => c.connect .cb1 env
  | .rpcConnectPortAsync env => c.connect .cb4 env
  | .rpcService p => c.rpcService p
  | .rpcDisconnect => c.rpcDisconnect

namespace Chain

/-- The data that some callback is still going to be called with -/
def held (c : Chain) : List ℕ := (c.connectCb.toList ++ (c.pdu.toList ++ c.pdus)).map Holder.data

/-- Every call that returned 0 has its user callback invoked, or its data is held, or in `hand`
while a callback runs. -/
structure Ledger (c : Chain) (hand : List ℕ) : Prop where
  started : c.started.Perm (c.called ++ (c.held ++ hand))
  freed : c.freed.Perm (c.called ++ c.rejected)
  nodup : (c.started ++ c.rejected).Nodup
  bound : ∀ id ∈ c.started ++ c.rejected, id < c.next
  fault : c.fault = false

/-- Connecting comes before the first PDU, and PDUs are gone when the connection is. -/
structure Shape (c : Chain) : Prop where
  open_of_connected : c.isConnected = true → c.fd = true
  connecting : c.connectCb ≠ none → c.fd = true ∧ c.pdus = [] ∧ c.pdu = none
  connected : c.pdus ≠ [] ∨ c.pdu ≠ none → c.isConnected = true

/-- User callbacks were invoked and their data freed. -/
def done (c : Chain) (ids : List ℕ) : Chain :=
  { c with called := c.called ++ ids, freed := c.freed ++ ids }

@[simp] theorem done_connectCb (c : Chain) (ids : List ℕ) : (c.done ids).connectCb = c.connectCb := rfl
@[simp] theorem done_pdus (c : Chain) (ids : List ℕ) : (c.done ids).pdus = c.pdus := rfl
@[simp] theorem done_pdu (c : Chain) (ids : List ℕ) : (c.done ids).pdu = c.pdu := rfl
@[simp] theorem done_fd (c : Chain) (ids : List ℕ) : (c.done ids).fd = c.fd := rfl
@[simp] theorem done_isConnected (c : Chain) (ids : List ℕ) : (c.done ids).isConnected = c.isConnected := rfl
@[simp] theorem done_held (c : Chain) (ids : List ℕ) : (c.done ids).held = c.held := rfl

theorem done_nil (c : Chain) : c.done [] = c := by simp [done]

theorem done_done (c : Chain) (a b : List ℕ) : (c.done a).done b = c.done (a++b) := by
  simp [done,List.append_assoc]

section

variable {c : Chain} {id : ℕ} {hand : List ℕ}

theorem Ledger.nodup_called (h : c.Ledger hand) : (c.called ++ (c.held ++ hand)).Nodup :=
  h.started.nodup_iff.mp (List.nodup_append.mp h.nodup).1

/-- Data that is not in `called` was not freed. -/
theorem Ledger.not_freed (h : c.Ledger (id::hand)) : id ∉ c.freed := by
  intro hf
  rcases List.mem_append.mp (h.freed.mem_iff.mp hf) with hc | hr
  · have hd := (List.nodup_append.mp h.nodup_called).2.2 id hc id (by simp)
    exact hd rfl
  · have hs : id ∈ c.started := h.started.mem_iff.mpr (by simp)
    exact (List.nodup_append.mp h.nodup).2.2 id hs id hr rfl

theorem Ledger.done (ids : List ℕ) (h : c.Ledger (ids++hand)) : (c.done ids).Ledger hand := by
  refine ⟨?_,?_,h.nodup,h.bound,h.fault⟩
  · rw [List.perm_iff_count]
    intro a
    have hs := List.perm_iff_count.mp h.started a
    simp only [Chain.done,List.count_append] at hs ⊢
    show List.count a c.started = _ + (List.count a c.held + _)
    omega
  · rw [List.perm_iff_count]
    intro a
    have hs := List.perm_iff_count.mp h.freed a
    simp only [Chain.done,List.count_append] at hs ⊢
    omega

theorem Ledger.finish (h : c.Ledger (id::hand)) : c.finish id = c.done [id] := by
  rw [Chain.finish,use,if_neg h.not_freed]
  rfl

theorem clear_eq (hc : c.connectCb = none) : c.clear = c := by rw [clear,← hc]

theorem Ledger.failCb {d : Holder} (h : c.Ledger (d.data::hand)) (hc : c.connectCb = none) :
    c.failCb d = c.done [d.data] := by
  rw [Chain.failCb,clear_eq hc,h.finish]
  cases d.stage <;> rfl

theorem Ledger.failAll {ds : List Holder} (h : c.Ledger (ds.map Holder.data ++ hand))
    (hc : c.connectCb = none) : c.failAll ds = c.done (ds.map Holder.data) := by
  induction ds generalizing c with
  | nil => exact c.done_nil.symm
  | cons d ds ih =>
    have h1 : c.Ledger (d.data::(ds.map Holder.data ++ hand)) := h
    have hd : (c.done [d.data]).Ledger (ds.map Holder.data ++ hand) := h1.done
    have ht := ih hd hc
    rw [Chain.failAll] at ht ⊢
    rw [List.foldl_cons,h1.failCb hc,ht,done_done]
    rfl

/-- Data that moves between the holders and the hand -/
theorem Ledger.move {c' : Chain} {hand' : List ℕ} (h : c.Ledger hand)
    (hp : (c'.held ++ hand').Perm (c.held ++ hand)) (hc : c'.called = c.called) (hf : c'.freed = c.freed)
    (hs : c'.started = c.started) (hr : c'.rejected = c.rejected) (hn : c'.next = c.next)
    (hx : c'.fault = c.fault) : c'.Ledger hand' := by
  refine ⟨?_,?_,?_,?_,?_⟩
  · rw [hs,hc]
    exact h.started.trans (hp.symm.append_left _)
  · rw [hf,hc,hr]
    exact h.freed
  · rw [hs,hr]
    exact h.nodup
  · rw [hs,hr,hn]
    exact h.bound
  · rw [hx]
    exact h.fault

/-- All PDUs of the queues are failed. -/
theorem Ledger.rpcErrorAllPdus (h : c.Ledger hand) (hc : c.connectCb = none) :
    c.rpcErrorAllPdus = ({ c with pdus := [] } : Chain).done (c.pdus.map Holder.data) := by
  have hm : ({ c with pdus := [] } : Chain).Ledger (c.pdus.map Holder.data ++ hand) := by
    refine h.move ?_ rfl rfl rfl rfl rfl rfl
    rw [List.perm_iff_count]
    intro a
    simp only [held,List.map_append,List.count_append,List.map_nil,List.count_nil]
    omega
  exact hm.failAll hc

/-- The state between two calls, and inside of a callback -/
structure Good (c : Chain) (hand : List ℕ) : Prop where
  ledger : c.Ledger hand
  shape : c.Shape

theorem Shape.done (h : c.Shape) (ids : List ℕ) : (c.done ids).Shape :=
  ⟨h.open_of_connected,h.connecting,h.connected⟩

theorem Good.finish (h : c.Good (id::hand)) : (c.finish id).Good hand := by
  rw [h.ledger.finish]
  exact ⟨h.ledger.done _,h.shape.done _⟩

theorem Good.rpcErrorAllPdus (h : c.Good hand) : c.rpcErrorAllPdus.Good hand := by
  by_cases hp : c.pdus = []
  · have he : c.rpcErrorAllPdus = c := by
      rw [Chain.rpcErrorAllPdus,hp]
      show ({ c with pdus := [] } : Chain) = c
      rw [← hp]
    rwa [he]
  have hc : c.connectCb = none := by
    by_contra hc
    exact hp (h.shape.connecting hc).2.1
  have hm : ({ c with pdus := [] } : Chain).Ledger (c.pdus.map Holder.data ++ hand) := by
    refine h.ledger.move ?_ rfl rfl rfl rfl rfl rfl
    rw [List.perm_iff_count]
    intro a
    simp only [held,List.map_append,List.count_append,List.map_nil,List.count_nil]
    omega
  have hs : ({ c with pdus := [] } : Chain).Shape :=
    ⟨h.shape.open_of_connected,fun hne => absurd hc hne,fun _ => h.shape.connected (.inl hp)⟩
  rw [h.ledger.rpcErrorAllPdus hc]
  exact ⟨hm.done,hs.done _⟩

theorem Good.failConnectCb (h : c.Good hand) : c.failConnectCb.Good hand := by
  rw [Chain.failConnectCb]
  cases hc : c.connectCb with
  | none => exact h
  | some d =>
    have hs := h.shape.connecting (by simp [hc])
    have hl : c.clear.Ledger (d.data::hand) := by
      refine h.ledger.move ?_ rfl rfl rfl rfl rfl rfl
      simp [held,clear,hc,hs.2.1,hs.2.2]
    show (c.clear.failCb d).Good hand
    rw [hl.failCb rfl]
    have hcs : c.clear.Shape :=
      ⟨h.shape.open_of_connected,fun hne => absurd rfl hne,h.shape.connected⟩
    exact ⟨Ledger.done [d.data] hl,hcs.done _⟩

/-- A connection that is closed while no connect is under way and no reply is half read. -/
theorem Good.rpcDisconnect (h : c.Good hand) (hc : c.connectCb = none) (hp : c.pdu = none) :
    c.rpcDisconnect.Good hand ∧ c.rpcDisconnect.fd = false ∧ c.rpcDisconnect.isConnected = false ∧
      c.rpcDisconnect.connectCb = none ∧ c.rpcDisconnect.pdus = [] ∧ c.rpcDisconnect.pdu = none := by
  by_cases hi : c.isConnected
  · have hl : ({ c with fd := false, isConnected := false } : Chain).Ledger hand :=
      h.ledger.move (List.Perm.refl _) rfl rfl rfl rfl rfl rfl
    have he : c.rpcDisconnect = ({ c with fd := false, isConnected := false, pdus := [] } : Chain).done
        (c.pdus.map Holder.data) := by
      rw [Chain.rpcDisconnect,if_pos hi,hl.rpcErrorAllPdus hc,Chain.failConnectCb]
      simp only [done_connectCb,hc]
    have hm : ({ c with fd := false, isConnected := false, pdus := [] } : Chain).Ledger
        (c.pdus.map Holder.data ++ hand) := by
      refine h.ledger.move ?_ rfl rfl rfl rfl rfl rfl
      rw [List.perm_iff_count]
      intro a
      simp only [held,List.map_append,List.count_append,List.map_nil,List.count_nil]
      omega
    have hs : ({ c with fd := false, isConnected := false, pdus := [] } : Chain).Shape :=
      ⟨fun hne => by simp at hne,fun hne => absurd hc hne,fun hne => by simp [hp] at hne⟩
    rw [he]
    exact ⟨⟨hm.done,hs.done _⟩,rfl,rfl,hc,rfl,hp⟩
  · have he : c.rpcDisconnect = { c with fd := false } := by rw [Chain.rpcDisconnect,if_neg hi]
    have hq : c.pdus = [] := by
      by_contra hq
      exact hi (h.shape.connected (.inl hq))
    rw [he]
    refine ⟨⟨h.ledger.move (List.Perm.refl _) rfl rfl rfl rfl rfl rfl,⟨?_,?_,?_⟩⟩,rfl,?_,hc,hq,hp⟩
    · intro hne
      exact absurd hne hi
    · intro hne
      exact absurd hc hne
    · intro hne
      simp [hp,hq] at hne
    · simpa using hi

theorem Good.queue (h : c.Good (id::hand)) (hc : c.connectCb = none) (hi : c.isConnected = true)
    (stage : Stage) : (c.queue ⟨stage,id⟩).Good hand := by
  refine ⟨h.ledger.move ?_ rfl rfl rfl rfl rfl rfl,h.shape.open_of_connected,fun hne => absurd hc hne,
    fun _ => hi⟩
  rw [List.perm_iff_count]
  intro a
  simp only [Chain.queue,held,List.map_append,List.count_append,List.map_cons,List.map_nil,
    List.count_cons,List.count_nil]
  omega

theorem Good.use {f : Chain → Chain} (h : c.Good (id::hand)) : c.use id f = f c := by
  rw [Chain.use,if_neg h.ledger.not_freed]

/-- The second connect of a chain, unless its socket fails -/
theorem Good.connectPort {env : Env} (h : c.Good (id::hand)) (he : env.socket = .connecting)
    (hf : c.fd = false) (hc : c.connectCb = none) (hq : c.pdus = [])
    (hp : c.pdu = none) : (c.connectPort id env).Good hand := by
  rw [Chain.connectPort,rpcConnectAsync,if_neg (by simp [hf])]
  by_cases ha : env.address
  · rw [if_neg (by simp [ha]),he]
    refine ⟨h.ledger.move ?_ rfl rfl rfl rfl rfl rfl,fun _ => rfl,fun _ => ⟨rfl,hq,hp⟩,fun hne => ?_⟩
    · simp [held,hc,hq,hp]
    · simp [hq,hp] at hne
  · rw [if_pos (by simp [ha])]
    exact h.finish

/-- A callback with success over an established connection -/
theorem Good.successCb {d : Holder} {env : Env} (h : c.Good (d.data::hand)) (he : env.socket = .connecting)
    (hi : c.isConnected = true) (hc : c.connectCb = none) (hp : c.pdu = none) :
    (c.successCb d env).Good hand := by
  rw [Chain.successCb]
  split
  · rw [clear_eq hc]
    split
    · exact h.queue hc hi .cb2
    · exact h.finish
  · split
    · rw [h.use]
      exact h.queue hc hi .cb3
    · exact h.finish
  · split
    · exact h.finish
    · obtain ⟨hd,hf,_,hc,hq,hp⟩ := h.rpcDisconnect hc hp
      rw [hd.use]
      exact hd.connectPort he hf hc hq hp
  · rw [clear_eq hc]
    split
    · rw [h.use]
      exact h.queue hc hi .cb5
    · exact h.finish
  · rw [clear_eq hc]
    exact h.finish

/-- While a PDU is held no connect is under way. -/
theorem Shape.no_connect (h : c.Shape) (hp : c.pdus ≠ [] ∨ c.pdu ≠ none) : c.connectCb = none := by
  by_contra hc
  obtain ⟨_,hq,hn⟩ := h.connecting hc
  rcases hp with hp | hp
  · exact hp hq
  · exact hp hn

theorem Good.readOne {r : Read} (h : c.Good []) (hr : ∀ b env, r = .rest b env → env.socket = .connecting) :
    (c.readOne r).Good [] := by
  cases r with
  | header i =>
    rw [Chain.readOne]
    split
    · next d hp hd =>
      have hq : c.pdus ≠ [] := by
        intro hq
        simp [hq] at hd
      have hi := h.shape.connected (.inl hq)
      refine ⟨h.ledger.move ?_ rfl rfl rfl rfl rfl rfl,h.shape.open_of_connected,
        fun hne => absurd (h.shape.no_connect (.inl hq)) hne,fun _ => hi⟩
      obtain ⟨hlt,hget⟩ := List.getElem?_eq_some_iff.mp hd
      have hperm := List.getElem_cons_eraseIdx_perm hlt
      rw [hget] at hperm
      have hm := hperm.map Holder.data
      rw [List.perm_iff_count] at hm ⊢
      intro a
      have ha := hm a
      simp only [held,hp,List.map_append,List.count_append,Option.toList,List.map_cons,List.map_nil,
        List.count_cons,List.count_nil] at ha ⊢
      omega
    · exact h
  | rest b env =>
    rw [Chain.readOne]
    cases hp : c.pdu with
    | none => exact h
    | some d =>
      have hne : c.pdu ≠ none := by simp [hp]
      have hi := h.shape.connected (.inr hne)
      have hc := h.shape.no_connect (.inr hne)
      have hg : ({ c with pdu := none } : Chain).Good [d.data] := by
        refine ⟨h.ledger.move ?_ rfl rfl rfl rfl rfl rfl,h.shape.open_of_connected,
          fun hne => absurd hc hne,fun _ => hi⟩
        rw [List.perm_iff_count]
        intro a
        simp only [held,hp,List.map_append,List.count_append,Option.toList,List.map_cons,List.map_nil,
          List.count_cons,List.count_nil]
        omega
      cases b with
      | true => exact hg.successCb (hr true env rfl) hi hc rfl
      | false =>
        show (({ c with pdu := none } : Chain).failCb d).Good []
        rw [hg.ledger.failCb hc]
        exact ⟨Ledger.done [d.data] hg.ledger,hg.shape.done _⟩

theorem Good.rpcReadFromSocket {rs : List Read} (h : c.Good [])
    (hr : ∀ b env, .rest b env ∈ rs → env.socket = .connecting) : (c.rpcReadFromSocket rs).Good [] := by
  induction rs generalizing c with
  | nil => exact h
  | cons r rs ih =>
    apply ih (h.readOne _)
    · exact fun b env hm => hr b env (List.mem_cons_of_mem _ hm)
    · exact fun b env hm => hr b env (by rw [hm]; exact List.mem_cons_self)

theorem Good.rpcTimeoutScan (h : c.Good []) (expired : Holder → Bool) :
    (c.rpcTimeoutScan expired).Good [] := by
  by_cases hp : c.pdus = []
  · have he : c.rpcTimeoutScan expired = c := by
      rw [Chain.rpcTimeoutScan,hp]
      show ({ c with pdus := [] } : Chain) = c
      rw [← hp]
    rwa [he]
  have hc := h.shape.no_connect (.inl hp)
  have hs : ({ c with pdus := c.pdus.filter fun d => !expired d } : Chain).Shape :=
    ⟨h.shape.open_of_connected,fun hne => absurd hc hne,fun _ => h.shape.connected (.inl hp)⟩
  have hm : ({ c with pdus := c.pdus.filter fun d => !expired d } : Chain).Ledger
      ((c.pdus.filter expired).map Holder.data ++ []) := by
    refine h.ledger.move ?_ rfl rfl rfl rfl rfl rfl
    have hperm := (List.filter_append_perm expired c.pdus).map Holder.data
    rw [List.perm_iff_count] at hperm ⊢
    intro a
    have ha := hperm a
    simp only [held,List.map_append,List.count_append,List.count_nil] at ha ⊢
    omega
  rw [Chain.rpcTimeoutScan,hm.failAll hc]
  exact ⟨hm.done,hs.done _⟩

theorem Good.connected (h : c.Good []) (hf : c.fd = true) :
    ({ c with isConnected := true } : Chain).Good [] :=
  ⟨h.ledger.move (List.Perm.refl _) rfl rfl rfl rfl rfl rfl,fun _ => hf,h.shape.connecting,fun _ => rfl⟩

theorem Good.successConnectCb {env : Env} (h : c.Good []) (he : env.socket = .connecting)
    (hi : c.isConnected = true) : (c.successConnectCb env).Good [] := by
  rw [Chain.successConnectCb]
  split
  · exact h
  · next d hc =>
    obtain ⟨_,hq,hp⟩ := h.shape.connecting (by simp [hc])
    have hg : c.clear.Good [d.data] := by
      refine ⟨h.ledger.move ?_ rfl rfl rfl rfl rfl rfl,h.shape.open_of_connected,
        fun hne => absurd rfl hne,fun _ => hi⟩
      simp [held,clear,hc,hq,hp]
    exact hg.successCb he hi rfl hp

end

end Chain

/-- The steps on which the chain keeps its promise: no socket of a connect fails at once, and
`rpc_disconnect` is not called while a connect is under way or a reply of a chain is half read. -/
def Safe (c : Chain) : Event → Prop
  | .rpcConnectProgramAsync env => env.socket = .connecting
  | .rpcConnectPortAsync env => env.socket = .connecting
  | .rpcService p =>
    p.env.socket = .connecting ∧ ∀ b env, .rest b env ∈ p.reads → env.socket = .connecting
  | .rpcDisconnect => c.connectCb = none ∧ c.pdu = none

namespace Chain

variable {c : Chain}

theorem Good.rpcService {p : Poll} (h : c.Good []) (hp : p.env.socket = .connecting)
    (hr : ∀ b env, .rest b env ∈ p.reads → env.socket = .connecting) : (c.rpcService p).Good [] := by
  rw [Chain.rpcService]
  have hs := h.rpcTimeoutScan p.expired
  generalize c.rpcTimeoutScan p.expired = y at hs
  simp only
  split
  · exact hs.rpcErrorAllPdus
  split
  · exact hs.failConnectCb
  split
  · next hout =>
    split
    · exact hs.failConnectCb
    · simp only [Bool.and_eq_true] at hout
      exact (hs.connected hout.1.2).successConnectCb hp rfl
  · have hread := hs.rpcReadFromSocket hr
    split
    · exact hread.rpcErrorAllPdus
    · exact hread

/-- Without a socket nothing is held. -/
theorem Shape.closed (h : c.Shape) (hf : c.fd = false) : c.connectCb = none ∧ c.pdus = [] ∧ c.pdu = none := by
  have hi : ¬ c.isConnected = true := by
    intro hi
    have := h.open_of_connected hi
    simp [hf] at this
  refine ⟨?_,?_,?_⟩
  · by_contra hc
    have := (h.connecting hc).1
    simp [hf] at this
  · by_contra hq
    exact hi (h.connected (.inl hq))
  · by_contra hp
    exact hi (h.connected (.inr hp))

theorem Shape.held_nil (h : c.Shape) (hf : c.fd = false) : c.held = [] := by
  obtain ⟨hc,hq,hp⟩ := h.closed hf
  simp [held,hc,hq,hp]

theorem Good.connect {stage : Stage} {env : Env} (h : c.Good []) (he : env.socket = .connecting) :
    (c.connect stage env).Good [] := by
  have hfresh : c.next ∉ c.started ++ c.rejected := fun hm => Nat.lt_irrefl _ (h.ledger.bound _ hm)
  have hrejected : ({ free c.next { c with next := c.next+1 } with
      rejected := c.rejected ++ [c.next] } : Chain).Good [] := by
    refine ⟨⟨h.ledger.started,?_,?_,?_,h.ledger.fault⟩,h.shape.open_of_connected,h.shape.connecting,
      h.shape.connected⟩
    · show (c.freed ++ [c.next]).Perm (c.called ++ (c.rejected ++ [c.next]))
      rw [← List.append_assoc]
      exact h.ledger.freed.append_right _
    · show (c.started ++ (c.rejected ++ [c.next])).Nodup
      rw [← List.append_assoc]
      exact h.ledger.nodup.append (List.nodup_singleton _) (by simpa using hfresh)
    · intro id hid
      have hid : id ∈ c.started ++ (c.rejected ++ [c.next]) := hid
      rw [← List.append_assoc,List.mem_append,List.mem_singleton] at hid
      rcases hid with hid | hid
      · exact Nat.lt_succ_of_lt (h.ledger.bound id hid)
      · rw [hid]
        exact Nat.lt_succ_self _
  by_cases hf : c.fd
  · have hr : c.connect stage env = { free c.next { c with next := c.next+1 } with
        rejected := c.rejected ++ [c.next] } := by
      rw [Chain.connect,rpcConnectAsync,if_pos hf]
    rwa [hr]
  by_cases ha : env.address
  · have hf : c.fd = false := by simpa using hf
    obtain ⟨_,hq,hp⟩ := h.shape.closed hf
    have hr : c.connect stage env = { c with
        next := c.next+1, connectCb := some ⟨stage,c.next⟩, fd := true, started := c.started ++ [c.next] } := by
      rw [Chain.connect,rpcConnectAsync,if_neg (by simp [hf]),if_neg (by simp [ha]),he]
    rw [hr]
    refine ⟨⟨?_,h.ledger.freed,?_,?_,h.ledger.fault⟩,fun _ => rfl,fun _ => ⟨rfl,hq,hp⟩,h.shape.connected⟩
    · have hs := h.ledger.started
      rw [h.shape.held_nil hf,List.append_nil,List.append_nil] at hs
      simp only [held,hq,hp,Option.toList,List.append_nil,List.map_cons,List.map_nil]
      exact hs.append_right _
    · show (c.started ++ [c.next] ++ c.rejected).Nodup
      have hperm : (c.started ++ [c.next] ++ c.rejected).Perm (c.next::(c.started ++ c.rejected)) := by
        rw [List.append_assoc]
        exact List.perm_middle
      exact hperm.nodup_iff.mpr (List.nodup_cons.mpr ⟨hfresh,h.ledger.nodup⟩)
    · intro id hid
      have hid : id ∈ c.started ++ [c.next] ++ c.rejected := hid
      simp only [List.mem_append,List.mem_singleton] at hid
      have hb := h.ledger.bound id
      simp only [List.mem_append] at hb
      show id < c.next+1
      rcases hid with (hid | hid) | hid
      · exact Nat.lt_succ_of_lt (hb (.inl hid))
      · omega
      · exact Nat.lt_succ_of_lt (hb (.inr hid))
  · have hr : c.connect stage env = { free c.next { c with next := c.next+1 } with
        rejected := c.rejected ++ [c.next] } := by
      rw [Chain.connect,rpcConnectAsync,if_neg hf,if_pos (by simp [ha])]
    rwa [hr]

theorem Good.step {e : Event} (h : c.Good []) (hs : Safe c e) : (step c e).Good [] := by
  cases e with
  | rpcConnectProgramAsync env => exact h.connect hs
  | rpcConnectPortAsync env => exact h.connect hs
  | rpcService p => exact h.rpcService hs.1 hs.2
  | rpcDisconnect => exact (h.rpcDisconnect hs.1 hs.2).1

/-- The user callback of a call that returned 0 is invoked once: it was, or some callback of the
chain still holds its data, and on a closed socket it was. That of a call that returned -1 is not
invoked, and no data is used after it was freed. -/
structure Once (c : Chain) : Prop where
  valid : c.fault = false
  rejected : ∀ id ∈ c.rejected, id ∉ c.called
  atMost : c.called.Nodup
  pending : ∀ id ∈ c.started, id ∈ c.called ∨ id ∈ c.held
  settled : c.fd = false → ∀ id ∈ c.started, id ∈ c.called

theorem Good.once (h : c.Good []) : c.Once := by
  have hn := h.ledger.nodup_called
  have hd := List.nodup_append.mp h.ledger.nodup
  have hpend : ∀ id ∈ c.started, id ∈ c.called ∨ id ∈ c.held := by
    intro id hid
    simpa using h.ledger.started.mem_iff.mp hid
  refine ⟨h.ledger.fault,fun id hid hc => ?_,(List.nodup_append.mp hn).1,hpend,fun hf id hid => ?_⟩
  · have hs : id ∈ c.started := h.ledger.started.mem_iff.mpr (List.mem_append_left _ hc)
    exact hd.2.2 id hs id hid rfl
  · rcases hpend id hid with hc | hh
    · exact hc
    · rw [h.shape.held_nil hf] at hh
      simp at hh

theorem good_init : ({} : Chain).Good [] := by
  refine ⟨⟨by simp [held],by simp,by simp,by simp,rfl⟩,by simp,by simp,by simp⟩

end Chain

/-- Over every run of connects, calls of `rpc_service` and of `rpc_disconnect` whose steps are safe
the user callbacks are invoked exactly once. -/
theorem connect_once {es : List Event} (hs : Guarded step Safe {} es) : (run step {} es).Once := by
  have hg : (run step {} es).Good [] :=
    guarded_induction step (P := fun c => c.Good []) hs Chain.good_init fun _ _ hu he => hu.step he
  exact hg.once

/-- A connect that asks the portmapper for the port -/
def portmapped : List Event :=
  [.rpcConnectProgramAsync {},.rpcService { out := true },
    .rpcService { reads := [.header 0,.rest true {},.header 0] },.rpcService { reads := [.rest true {}] },
    .rpcService { out := true },.rpcService { reads := [.header 0,.rest true {}] },.rpcDisconnect]

theorem connect_once_portmapped : (run step {} portmapped).Once ∧ (run step {} portmapped).called = [0] := by
  refine ⟨connect_once ⟨rfl,⟨rfl,by simp⟩,⟨rfl,by simp⟩,⟨rfl,by simp⟩,⟨rfl,by simp⟩,⟨rfl,by simp⟩,?_,trivial⟩,
    by decide⟩
  exact ⟨by decide,by decide⟩

/-- A connect that fails at once: the call returns -1 and frees its data, but the callback stays
installed, and the next error on the socket calls it. -/
theorem connect_dangling : ¬ ∀ es : List Event, (run step {} es).Once := by
  intro h
  have hv := (h [.rpcConnectPortAsync { socket := .refused },.rpcService { error := true }]).valid
  have hf : (run step {} [.rpcConnectPortAsync { socket := .refused },
      .rpcService { error := true }]).fault = true := by decide
  rw [hf] at hv
  simp at hv

end ConnectChain
end Libnfs
