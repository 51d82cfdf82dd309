import Libnfs.Tls

/-! What a TLS client keeps over a run: nothing but AUTH_TLS calls is written in the clear, and the
assertions of the TLS code hold. -/
namespace Libnfs
namespace Tls

open Transition

namespace Client

/-- No PDU is queued on an empty queue of an open socket without the handshake completed on it, and
while a reconnect is under way `rpc_connect_program_5_cb` is not called and reconnecting not turned
off. -/
structure Guarded (c : Client) : Prop where
  calls : ∀ q ∈ c.calls, q.empty = true → q.connected = true → q.secure = true
  clears : ∀ b ∈ c.clears, b = false

structure Private (c : Client) : Prop where
  useTls : c.useTls = true
  isOpen : c.isConnected = true → c.fd = true
  connecting : c.fd = true → c.isConnected = false → c.connectCb = true ∧ c.autoReconnect ≠ 0
  secured : c.isConnected = true → c.state = .completed → c.secured = some c.conn
  wire : ∀ w ∈ c.wire, w.kind = .app → w.secure = true

/-- An AUTH_TLS call of a reconnect only fails when the handshake is over, and no connection is given
up while there is a session. -/
structure Orderly (c : Client) : Prop where
  failures : ∀ s ∈ c.failures, s = .completed ∨ s = .failed
  losses : ∀ b ∈ c.losses, b = false

structure Sound (c : Client) : Prop where
  useTls : c.useTls = true
  version : c.nfsVersion = 3 ∨ c.nfsVersion = 4
  running : c.aborted = false
  session : ∀ k, c.session = some k → c.state = .inProgress ∧ k = c.conn ∧ c.isConnected = true ∧ c.fd = true

/-- What a piece of the code leads to: the ghost lists only grow, and along good ones each invariant
is kept. -/
structure Leads (c d : Client) : Prop where
  guarded : d.Guarded → c.Guarded ∧ (c.Private → d.Private)
  orderly : d.Orderly → c.Orderly ∧ (c.Sound → d.Sound)

namespace Leads

variable {c d e : Client}

theorem refl (c : Client) : Leads c c := ⟨fun h => ⟨h,id⟩,fun h => ⟨h,id⟩⟩

theorem trans (h : Leads c d) (h' : Leads d e) : Leads c e := by
  refine ⟨fun he => ?_,fun he => ?_⟩
  · obtain ⟨hd,hp⟩ := h'.guarded he
    obtain ⟨hc,hq⟩ := h.guarded hd
    exact ⟨hc,fun hi => hp (hq hi)⟩
  · obtain ⟨hd,hp⟩ := h'.orderly he
    obtain ⟨hc,hq⟩ := h.orderly hd
    exact ⟨hc,fun hi => hp (hq hi)⟩

theorem foldl {α : Type} {f : Client → α → Client} (h : ∀ c a, Leads c (f c a)) (l : List α) (c : Client) :
    Leads c (l.foldl f c) := by
  induction l generalizing c with
  | nil => exact refl c
  | cons a l ih => exact (h c a).trans (ih (f c a))

end Leads

/-- Only the queues and what no invariant reads differ. -/
structure Frame (c d : Client) : Prop where
  fd : d.fd = c.fd
  conn : d.conn = c.conn
  isConnected : d.isConnected = c.isConnected
  useTls : d.useTls = c.useTls
  nfsVersion : d.nfsVersion = c.nfsVersion
  autoReconnect : d.autoReconnect = c.autoReconnect
  connectCb : d.connectCb = c.connectCb
  state : d.state = c.state
  session : d.session = c.session
  aborted : d.aborted = c.aborted
  secured : d.secured = c.secured
  wire : d.wire = c.wire
  calls : d.calls = c.calls
  clears : d.clears = c.clears
  failures : d.failures = c.failures
  losses : d.losses = c.losses

namespace Frame

variable {c d e : Client}

theorem refl (c : Client) : Frame c c :=
  ⟨rfl,rfl,rfl,rfl,rfl,rfl,rfl,rfl,rfl,rfl,rfl,rfl,rfl,rfl,rfl,rfl⟩

theorem trans (h : Frame c d) (h' : Frame d e) : Frame c e := by
  refine ⟨?_,?_,?_,?_,?_,?_,?_,?_,?_,?_,?_,?_,?_,?_,?_,?_⟩
  · rw [h'.fd,h.fd]
  · rw [h'.conn,h.conn]
  · rw [h'.isConnected,h.isConnected]
  · rw [h'.useTls,h.useTls]
  · rw [h'.nfsVersion,h.nfsVersion]
  · rw [h'.autoReconnect,h.autoReconnect]
  · rw [h'.connectCb,h.connectCb]
  · rw [h'.state,h.state]
  · rw [h'.session,h.session]
  · rw [h'.aborted,h.aborted]
  · rw [h'.secured,h.secured]
  · rw [h'.wire,h.wire]
  · rw [h'.calls,h.calls]
  · rw [h'.clears,h.clears]
  · rw [h'.failures,h.failures]
  · rw [h'.losses,h.losses]

theorem foldl {α : Type} {f : Client → α → Client} (h : ∀ c a, Frame c (f c a)) (l : List α) (c : Client) :
    Frame c (l.foldl f c) := by
  induction l generalizing c with
  | nil => exact refl c
  | cons a l ih => exact (h c a).trans (ih (f c a))

theorem guarded (h : Frame c d) (hd : d.Guarded) : c.Guarded :=
  ⟨by rw [← h.calls]; exact hd.calls,by rw [← h.clears]; exact hd.clears⟩

theorem orderly (h : Frame c d) (hd : d.Orderly) : c.Orderly :=
  ⟨by rw [← h.failures]; exact hd.failures,by rw [← h.losses]; exact hd.losses⟩

theorem leads (h : Frame c d) : Leads c d := by
  refine ⟨fun hd => ⟨h.guarded hd,fun hc => ⟨?_,?_,?_,?_,?_⟩⟩,fun hd => ⟨h.orderly hd,fun hc => ⟨?_,?_,?_,?_⟩⟩⟩
  · rw [h.useTls]
    exact hc.useTls
  · rw [h.isConnected,h.fd]
    exact hc.isOpen
  · rw [h.isConnected,h.fd,h.connectCb,h.autoReconnect]
    exact hc.connecting
  · rw [h.isConnected,h.state,h.secured,h.conn]
    exact hc.secured
  · rw [h.wire]
    exact hc.wire
  · rw [h.useTls]
    exact hc.useTls
  · rw [h.nfsVersion]
    exact hc.version
  · rw [h.aborted]
    exact hc.running
  · rw [h.session,h.state,h.conn,h.isConnected,h.fd]
    exact hc.session

theorem enqueueWait (p : Pdu) (c : Client) : Frame c (c.enqueueWait p) := by
  rw [Client.enqueueWait]
  exact ⟨rfl,rfl,rfl,rfl,rfl,rfl,rfl,rfl,rfl,rfl,rfl,rfl,rfl,rfl,rfl,rfl⟩

theorem rpcReturnToOutqueue (p : Pdu) (c : Client) : Frame c (c.rpcReturnToOutqueue p) := by
  rw [Client.rpcReturnToOutqueue]
  split <;> exact ⟨rfl,rfl,rfl,rfl,rfl,rfl,rfl,rfl,rfl,rfl,rfl,rfl,rfl,rfl,rfl,rfl⟩

theorem requeueAll (c : Client) : Frame c c.requeueAll := by
  have h : Frame c { c with waitpdu := c.waitpdu.map fun _ => [], pdu := none } :=
    ⟨rfl,rfl,rfl,rfl,rfl,rfl,rfl,rfl,rfl,rfl,rfl,rfl,rfl,rfl,rfl,rfl⟩
  exact h.trans (foldl (fun c p => rpcReturnToOutqueue p c) _ _)

end Frame

namespace Leads

section

variable {c : Client} {requeue : Client → Client} (hr : ∀ c, Leads c (requeue c))

theorem clear (c : Client) : Leads c c.rpcConnectProgram5Cb := by
  refine ⟨fun hd => ?_,fun hd => ⟨⟨hd.failures,hd.losses⟩,fun hc => ⟨hc.useTls,hc.version,hc.running,hc.session⟩⟩⟩
  have hb : (c.fd && !c.isConnected) = false := hd.clears _ (List.mem_append_right _ List.mem_cons_self)
  refine ⟨⟨hd.calls,fun b hm => hd.clears b (List.mem_append_left _ hm)⟩,fun hc => ?_⟩
  refine ⟨hc.useTls,hc.isOpen,fun hf hi => ?_,hc.secured,hc.wire⟩
  have hf' : c.fd = true := hf
  have hi' : c.isConnected = false := hi
  simp [hf',hi'] at hb

/-- The socket is closed when there is no session. -/
theorem close (hs : c.Orderly → c.Sound → c.session = none) :
    Leads c { c with fd := false, isConnected := false } := by
  refine ⟨fun hd => ⟨⟨hd.calls,hd.clears⟩,fun hc => ?_⟩,fun hd => ⟨⟨hd.failures,hd.losses⟩,fun hc => ?_⟩⟩
  · exact ⟨hc.useTls,fun h => by simp at h,fun h => by simp at h,fun h => by simp at h,hc.wire⟩
  · refine ⟨hc.useTls,hc.version,hc.running,fun k hk => ?_⟩
    have hk' : c.session = some k := hk
    rw [hs ⟨hd.failures,hd.losses⟩ hc] at hk'
    simp at hk'

/-- An assertion that holds on every orderly run -/
theorem check {p : Bool} {f : Client → Client} (hp : c.Orderly → c.Sound → p = true)
    (hf : p = true → Leads c (f c)) : Leads c (c.check p f) := by
  rw [Client.check]
  split
  · next h => exact hf h
  · next h =>
    refine ⟨fun hd => ⟨⟨hd.calls,hd.clears⟩,fun hc => ⟨hc.useTls,hc.isOpen,hc.connecting,hc.secured,hc.wire⟩⟩,
      fun hd => ⟨⟨hd.failures,hd.losses⟩,fun hc => ?_⟩⟩
    exact absurd (hp ⟨hd.failures,hd.losses⟩ hc) h

include hr

theorem reconnectCbTls (hs : c.Orderly → c.state = .completed ∨ c.state = .failed) :
    Leads c (c.reconnectCbTls requeue) := by
  apply check (fun _ hc => hc.useTls)
  intro _
  apply check (fun ho _ => by simpa using hs ho)
  intro _
  split
  · next hf =>
    apply trans (close _) (hr _)
    intro _ hc
    by_contra hne
    obtain ⟨k,hk⟩ := Option.ne_none_iff_exists'.mp hne
    have h := (hc.session k hk).1
    rw [hf] at h
    simp at h
  · exact refl c

theorem callCont (cb : Cont) (hs : c.Orderly → c.state = .completed ∨ c.state = .failed) :
    Leads c (callCont requeue cb c) := by
  cases cb with
  | program5 => exact clear c
  | reconnectTls => exact reconnectCbTls hr hs

theorem authFailed (cb : Cont) (c : Client) : Leads c (c.authFailed requeue cb) := by
  cases cb with
  | program5 => exact clear c
  | reconnectTls =>
    have hn : Leads c { c with failures := c.failures ++ [c.state] } :=
      ⟨fun hd => ⟨⟨hd.calls,hd.clears⟩,fun hc => ⟨hc.useTls,hc.isOpen,hc.connecting,hc.secured,hc.wire⟩⟩,
        fun hd => ⟨⟨fun s hs => hd.failures s (List.mem_append_left _ hs),hd.losses⟩,
          fun hc => ⟨hc.useTls,hc.version,hc.running,hc.session⟩⟩⟩
    apply hn.trans (reconnectCbTls hr _)
    exact fun ho => ho.failures _ (List.mem_append_right _ List.mem_cons_self)

theorem failPdu (p : Pdu) (c : Client) : Leads c (c.failPdu requeue p) := by
  rw [Client.failPdu]
  split
  · exact refl c
  · exact authFailed hr _ c

theorem failAll (ps : List Pdu) (c : Client) : Leads c (c.failAll requeue ps) :=
  foldl (fun c p => failPdu hr p c) ps c

theorem rpcErrorAllPdus (c : Client) : Leads c (c.rpcErrorAllPdus requeue) := by
  have h : Frame c { c with outqueue := [] } :=
    ⟨rfl,rfl,rfl,rfl,rfl,rfl,rfl,rfl,rfl,rfl,rfl,rfl,rfl,rfl,rfl,rfl⟩
  refine (h.leads.trans (failAll hr c.outqueue _)).trans (foldl (fun d i => ?_) _ _)
  have hd : Frame d { d with waitpdu := d.waitpdu.set i [] } :=
    ⟨rfl,rfl,rfl,rfl,rfl,rfl,rfl,rfl,rfl,rfl,rfl,rfl,rfl,rfl,rfl,rfl⟩
  exact hd.leads.trans (failAll hr _ _)

end

/-- A connection without a session is given up, whatever becomes of `connect_cb`. -/
theorem drop (c : Client) (b : Bool) : Leads c ({ c with connectCb := b } : Client).drop := by
  refine ⟨fun hd => ⟨⟨hd.calls,hd.clears⟩,fun hc => ?_⟩,
    fun hd => ⟨⟨hd.failures,fun b hm => hd.losses b (List.mem_append_left _ hm)⟩,fun hc => ?_⟩⟩
  · exact ⟨hc.useTls,fun h => by simp [Client.drop] at h,fun h => by simp [Client.drop] at h,
      fun h => by simp [Client.drop] at h,hc.wire⟩
  · refine ⟨hc.useTls,hc.version,hc.running,fun k hk => ?_⟩
    have hl : c.session.isSome = false := hd.losses _ (List.mem_append_right _ List.mem_cons_self)
    have hk' : c.session = some k := hk
    simp [hk'] at hl

/-- A new attempt to connect on a context without a connection -/
theorem attempt {c : Client} (hi : c.isConnected = false) (ha : c.autoReconnect ≠ 0) (retries : ℤ)
    (fd : Bool) : Leads c { c with numRetries := retries, connectCb := true, conn := c.conn+1, fd := fd } := by
  refine ⟨fun hd => ⟨⟨hd.calls,hd.clears⟩,fun hc => ?_⟩,fun hd => ⟨⟨hd.failures,hd.losses⟩,fun hc => ?_⟩⟩
  · exact ⟨hc.useTls,fun h => by simp [hi] at h,fun _ _ => ⟨rfl,ha⟩,fun h => by simp [hi] at h,hc.wire⟩
  · refine ⟨hc.useTls,hc.version,hc.running,fun k hk => ?_⟩
    have h := (hc.session k hk).2.2.1
    simp [hi] at h

/-- Without reconnecting `connect_cb` does not matter, as no connect is under way. -/
theorem unset {c : Client} (ha : c.autoReconnect = 0) (b : Bool) : Leads c { c with connectCb := b } := by
  refine ⟨fun hd => ⟨⟨hd.calls,hd.clears⟩,fun hc => ?_⟩,
    fun hd => ⟨⟨hd.failures,hd.losses⟩,fun hc => ⟨hc.useTls,hc.version,hc.running,hc.session⟩⟩⟩
  exact ⟨hc.useTls,hc.isOpen,fun hf hi => absurd ha (hc.connecting hf hi).2,hc.secured,hc.wire⟩

theorem requeue_succ {sockets : ℕ → Socket} {fuel : ℕ} (ih : ∀ c, Leads c (Client.requeue sockets fuel c))
    (c : Client) (b : Bool) : Leads c (Client.requeue sockets (fuel+1) { c with connectCb := b }) := by
  rw [Client.requeue]
  split
  · next ha =>
    have ha : c.autoReconnect = 0 := ha
    exact (unset ha b).trans (rpcErrorAllPdus ih _)
  · next ha =>
    have hf := Frame.requeueAll ({ c with connectCb := b } : Client).drop
    have hl := (drop c b).trans hf.leads
    have hi := hf.isConnected
    have ha' := hf.autoReconnect
    generalize ({ c with connectCb := b } : Client).drop.requeueAll = d at hf hl hi ha'
    have hi : d.isConnected = false := hi
    have ha : d.autoReconnect ≠ 0 := by
      rw [ha']
      exact ha
    simp only
    split
    · split
      · have h := attempt hi ha (d.numRetries-1) d.fd
        exact (hl.trans h).trans (rpcErrorAllPdus ih _)
      · exact (hl.trans (attempt hi ha (d.numRetries-1) true)).trans (rpcErrorAllPdus ih _)
      · exact hl.trans (attempt hi ha (d.numRetries-1) true)
    · exact hl.trans (rpcErrorAllPdus ih d)

theorem requeue (sockets : ℕ → Socket) (fuel : ℕ) (c : Client) : Leads c (Client.requeue sockets fuel c) := by
  induction fuel generalizing c with
  | zero => exact refl c
  | succ fuel ih => exact requeue_succ ih c c.connectCb

theorem rpcReconnectRequeue (env : Env) (c : Client) : Leads c (c.rpcReconnectRequeue env) :=
  requeue env.sockets _ c

theorem rpcReconnectRequeue_clear (env : Env) (c : Client) (b : Bool) :
    Leads c (({ c with connectCb := b } : Client).rpcReconnectRequeue env) :=
  requeue_succ (requeue env.sockets _) c b

/-- The handshake goes to the state `s`, with the session `t`. -/
theorem enter {c : Client} {s : HandshakeState} {t u : Option ℕ} (hu : s = .completed → u = some c.conn)
    (ht : c.Sound → ∀ k, t = some k → s = .inProgress ∧ k = c.conn ∧ c.isConnected = true ∧ c.fd = true) :
    Leads c { c with state := s, session := t, secured := u } := by
  refine ⟨fun hd => ⟨⟨hd.calls,hd.clears⟩,fun hc => ?_⟩,fun hd => ⟨⟨hd.failures,hd.losses⟩,fun hc => ?_⟩⟩
  · exact ⟨hc.useTls,hc.isOpen,hc.connecting,fun _ hs => hu hs,hc.wire⟩
  · exact ⟨hc.useTls,hc.version,hc.running,ht hc⟩

/-- `do_tls_handshake` returns one of three states, and leaves a session only in progress. -/
theorem doTlsHandshake (env : Env) (c : Client) :
    Leads c { (c.doTlsHandshake env).2 with state := (c.doTlsHandshake env).1 } ∧
      ((c.doTlsHandshake env).1 = .inProgress ∨ (c.doTlsHandshake env).1 = .completed ∨
        (c.doTlsHandshake env).1 = .failed) := by
  rw [Client.doTlsHandshake]
  split
  · next hf =>
    refine ⟨enter (c := c) (u := c.secured) (fun h => by simp at h) (fun hc k hk => ?_),.inr (.inr rfl)⟩
    have h := (hc.session k hk).2.2.2
    simp [h] at hf
  split
  · next hi =>
    refine ⟨enter (c := c) (u := c.secured) (fun h => by simp at h) (fun hc k hk => ?_),.inr (.inr rfl)⟩
    have h := (hc.session k hk).2.2.1
    simp [h] at hi
  next hf hi =>
  have hf : c.fd = true := by simpa using hf
  have hi : c.isConnected = true := by simpa using hi
  split
  · split
    · next hs _ =>
      exact ⟨enter (c := c) (u := c.secured) (fun h => by simp at h) (fun _ k hk => by simp [hs] at hk),
        .inr (.inr rfl)⟩
    · next hs _ =>
      exact ⟨enter (c := c) (u := c.secured) (fun h => by simp at h) (fun _ k hk => by simp [hs] at hk),
        .inr (.inr rfl)⟩
    · refine ⟨enter (c := c) (u := c.secured) (fun h => by simp at h) (fun hc k hk => ?_),.inl rfl⟩
      refine ⟨rfl,?_,hi,hf⟩
      cases hs : c.session with
      | none => simpa [hs] using hk.symm
      | some j =>
        have hj := (hc.session j hs).2.1
        rw [hs] at hk
        simp only [Option.getD_some,Option.some.injEq] at hk
        rw [← hk,hj]
    · exact ⟨enter (c := c) (t := none) (fun _ => rfl) (fun _ k hk => by simp at hk),.inr (.inl rfl)⟩
    · exact ⟨enter (c := c) (t := none) (u := c.secured) (fun h => by simp at h)
        (fun _ k hk => by simp at hk),.inr (.inr rfl)⟩
  · next hn =>
    refine ⟨⟨fun hd => ⟨⟨hd.calls,hd.clears⟩,fun hc => ?_⟩,
      fun hd => ⟨⟨hd.failures,hd.losses⟩,fun hc => ?_⟩⟩,.inr (.inr rfl)⟩
    · exact ⟨hc.useTls,hc.isOpen,hc.connecting,fun _ hs => by simp at hs,hc.wire⟩
    · cases hs : c.session with
      | none => simp [hs] at hn
      | some j =>
        have hj := (hc.session j hs).1
        simp [hj] at hn

theorem resume (env : Env) {c : Client} (hs : c.state = .inProgress ∨ c.state = .completed ∨ c.state = .failed) :
    Leads c (c.resume env) := by
  rw [Client.resume]
  rcases hs with hs | hs | hs
  · rw [hs]
    exact refl c
  · rw [hs]
    exact callCont (rpcReconnectRequeue env) c.data (fun _ => .inl hs)
  · rw [hs]
    exact callCont (rpcReconnectRequeue env) c.data (fun _ => .inr hs)

theorem handshake (env : Env) (c : Client) : Leads c (c.handshake env) := by
  obtain ⟨hl,hs⟩ := doTlsHandshake env c
  exact hl.trans (resume env hs)

theorem rpcConnectProgram41Cb (env : Env) (success : Bool) (cb : Cont) (c : Client) :
    Leads c (c.rpcConnectProgram41Cb env success cb) := by
  cases success with
  | true =>
    have h : Frame c { c with data := cb } :=
      ⟨rfl,rfl,rfl,rfl,rfl,rfl,rfl,rfl,rfl,rfl,rfl,rfl,rfl,rfl,rfl,rfl⟩
    exact h.leads.trans (handshake env _)
  | false => exact authFailed (rpcReconnectRequeue env) cb c

/-- The AUTH_TLS call is in flight, or nothing of it is left. -/
theorem rpcNullTaskAuthtls_cases (env : Env) (version : ℕ) (cb : Cont) (c : Client) :
    ((c.rpcNullTaskAuthtls env version cb).2 = true ∧
      Frame { c with state := .waitingForStarttls, wire := c.wire ++ [Sent.mk c.conn (.auth cb) c.secure] }
        (c.rpcNullTaskAuthtls env version cb).1) ∨
    ((c.rpcNullTaskAuthtls env version cb).2 = false ∧ ∃ s a,
      Frame { c with state := s, aborted := a } (c.rpcNullTaskAuthtls env version cb).1 ∧
        (s = c.state ∨ s = .waitingForStarttls) ∧
        (c.useTls = true → version = 3 ∨ version = 4 → a = c.aborted)) := by
  rw [Client.rpcNullTaskAuthtls]
  split
  · split
    · simp only
      split
      · refine .inl ⟨rfl,Frame.trans ?_ (Frame.enqueueWait _ _)⟩
        exact ⟨rfl,rfl,rfl,rfl,rfl,rfl,rfl,rfl,rfl,rfl,rfl,rfl,rfl,rfl,rfl,rfl⟩
      · refine .inr ⟨rfl,.waitingForStarttls,c.aborted,?_,.inr rfl,fun _ _ => rfl⟩
        exact ⟨rfl,rfl,rfl,rfl,rfl,rfl,rfl,rfl,rfl,rfl,rfl,rfl,rfl,rfl,rfl,rfl⟩
    · exact .inr ⟨rfl,c.state,c.aborted,Frame.refl c,.inl rfl,fun _ _ => rfl⟩
  · next hn =>
    refine .inr ⟨rfl,c.state,true,Frame.refl _,.inl rfl,fun hu hv => ?_⟩
    exact absurd ⟨hu,hv⟩ hn

/-- A socket that was never connected is closed. -/
theorem lost {c : Client} (hi : c.isConnected = false) {s : HandshakeState} {a b : Bool}
    (ha : c.Sound → a = c.aborted) :
    Leads c { c with state := s, aborted := a, connectCb := b, fd := false } := by
  refine ⟨fun hd => ⟨⟨hd.calls,hd.clears⟩,fun hc => ?_⟩,fun hd => ⟨⟨hd.failures,hd.losses⟩,fun hc => ?_⟩⟩
  · exact ⟨hc.useTls,fun h => by simp [hi] at h,fun h => by simp at h,fun h => by simp [hi] at h,hc.wire⟩
  · refine ⟨hc.useTls,hc.version,?_,fun k hk => ?_⟩
    · rw [← hc.running]
      exact ha hc
    · have h := (hc.session k hk).2.2.1
      simp [hi] at h

/-- The AUTH_TLS call is sent on a new connection. -/
theorem waiting {c : Client} (hf : c.fd = true) (hi : c.isConnected = false) {w : Sent} {cb : Cont}
    (hw : w.kind = .auth cb) :
    Leads c { c with isConnected := true, connectCb := false, state := .waitingForStarttls, wire := c.wire ++ [w] } := by
  refine ⟨fun hd => ⟨⟨hd.calls,hd.clears⟩,fun hc => ?_⟩,fun hd => ⟨⟨hd.failures,hd.losses⟩,fun hc => ?_⟩⟩
  · refine ⟨hc.useTls,fun _ => hf,fun _ h => by simp at h,fun _ h => by simp at h,fun v hv hk => ?_⟩
    rcases List.mem_append.mp hv with hv | hv
    · exact hc.wire v hv hk
    · rw [List.mem_singleton.mp hv,hw] at hk
      simp at hk
  · refine ⟨hc.useTls,hc.version,hc.running,fun k hk => ?_⟩
    have h := (hc.session k hk).2.2.1
    simp [hi] at h

/-- The AUTH_TLS call on a new connection, whether it is sent or not -/
theorem reconnected (env : Env) {c : Client} (hf : c.fd = true) (hi : c.isConnected = false) :
    Leads c (({ c with isConnected := true, connectCb := false } : Client).reconnectCb env true) := by
  rw [Client.reconnectCb,if_pos rfl]
  have hcase := rpcNullTaskAuthtls_cases env c.nfsVersion .reconnectTls
    { c with isConnected := true, connectCb := false }
  simp only
  generalize hr : ({ c with isConnected := true, connectCb := false } : Client).rpcNullTaskAuthtls env
    c.nfsVersion .reconnectTls = r at hcase ⊢
  obtain ⟨d,b⟩ := r
  split
  · rcases hcase with ⟨hb,hframe⟩ | ⟨hb,s,a,hframe,-,ha⟩
    · have hb : b = true := hb
      subst hb
      exact (waiting hf hi rfl).trans hframe.leads
    · have hb : b = false := hb
      subst hb
      refine ((lost (s := s) (b := false) hi (fun hc => ha hc.useTls hc.version)).trans (Frame.leads ?_)).trans
        (rpcReconnectRequeue env _)
      exact ⟨rfl,hframe.conn,hi.symm,hframe.useTls,hframe.nfsVersion,hframe.autoReconnect,
        hframe.connectCb,hframe.state,hframe.session,hframe.aborted,hframe.secured,hframe.wire,
        hframe.calls,hframe.clears,hframe.failures,hframe.losses⟩
  · next hu =>
    refine ⟨fun hd => ⟨⟨hd.calls,hd.clears⟩,fun hc => ?_⟩,fun hd => ⟨⟨hd.failures,hd.losses⟩,fun hc => ?_⟩⟩
    · exact absurd hc.useTls hu
    · exact absurd hc.useTls hu

/-- `maybe_call_connect_cb` when the connect failed -/
theorem maybeCallConnectCb_fail (env : Env) (c : Client) : Leads c (c.maybeCallConnectCb env false) := by
  rw [Client.maybeCallConnectCb]
  split
  · exact rpcReconnectRequeue_clear env c false
  · exact refl c

/-- `maybe_call_connect_cb` when the socket is connected -/
theorem maybeCallConnectCb_connected (env : Env) {c : Client} (hf : c.fd = true) (hi : c.isConnected = false) :
    Leads c (({ c with isConnected := true } : Client).maybeCallConnectCb env true) := by
  rw [Client.maybeCallConnectCb]
  split
  · exact reconnected env hf hi
  · next hcb =>
    refine ⟨fun hd => ⟨⟨hd.calls,hd.clears⟩,fun hc => ?_⟩,fun hd => ⟨⟨hd.failures,hd.losses⟩,fun hc => ?_⟩⟩
    · exact absurd (hc.connecting hf hi).1 hcb
    · refine ⟨hc.useTls,hc.version,hc.running,fun k hk => ?_⟩
      have h := (hc.session k hk).2.2.1
      simp [hi] at h

/-- Nothing of the application is written unless the handshake on the connection was completed. -/
theorem rpcWriteToSocket (io : Io) {c : Client} (hs : c.Guarded → c.Private → c.fd = true → c.secure = true) :
    Leads c (c.rpcWriteToSocket io).1 := by
  rw [Client.rpcWriteToSocket]
  split
  · next hf =>
    apply trans _ (Frame.foldl (fun c p => Frame.enqueueWait p c) _ _).leads
    refine ⟨fun hd => ⟨⟨hd.calls,hd.clears⟩,fun hc => ?_⟩,
      fun hd => ⟨⟨hd.failures,hd.losses⟩,fun hc => ⟨hc.useTls,hc.version,hc.running,hc.session⟩⟩⟩
    refine ⟨hc.useTls,hc.isOpen,hc.connecting,hc.secured,fun w hw hk => ?_⟩
    rcases List.mem_append.mp hw with hw | hw
    · exact hc.wire w hw hk
    · obtain ⟨p,-,rfl⟩ := List.mem_map.mp hw
      exact hs ⟨hd.calls,hd.clears⟩ hc hf
  · exact refl c

theorem rpcQueuePdu (io : Io) (c : Client) : Leads c (c.rpcQueuePdu io) := by
  have hn : Leads c { c with
      calls := c.calls ++ [⟨c.outqueue.isEmpty,c.fd,c.secure⟩]
      xid := c.xid+1
      outqueue := c.outqueue ++ [⟨c.xid,.app⟩] } :=
    ⟨fun hd => ⟨⟨fun q hq => hd.calls q (List.mem_append_left _ hq),hd.clears⟩,
        fun hc => ⟨hc.useTls,hc.isOpen,hc.connecting,hc.secured,hc.wire⟩⟩,
      fun hd => ⟨⟨hd.failures,hd.losses⟩,fun hc => ⟨hc.useTls,hc.version,hc.running,hc.session⟩⟩⟩
  rw [Client.rpcQueuePdu]
  split
  · next he =>
    apply hn.trans (rpcWriteToSocket io _)
    intro hg _ hf
    exact hg.calls _ (List.mem_append_right _ List.mem_cons_self) he hf
  · exact hn

theorem scanOne (c : Client) (s : Scan) : Leads c (c.scanOne s) := by
  cases s with
  | queue io => exact rpcQueuePdu io c
  | expire xid retry env =>
    rw [Client.scanOne]
    split
    · next p _ =>
      split
      · exact refl c
      · have h : Frame c { c with outqueue := c.outqueue.erase p } :=
          ⟨rfl,rfl,rfl,rfl,rfl,rfl,rfl,rfl,rfl,rfl,rfl,rfl,rfl,rfl,rfl,rfl⟩
        exact h.leads.trans (failPdu (rpcReconnectRequeue env) p _)
    · split
      · next p _ =>
        have h : Frame c { c with waitpdu := c.waitpdu.map fun (q : List Pdu) => q.erase p } :=
          ⟨rfl,rfl,rfl,rfl,rfl,rfl,rfl,rfl,rfl,rfl,rfl,rfl,rfl,rfl,rfl,rfl⟩
        simp only
        split
        · exact (h.trans (Frame.rpcReturnToOutqueue p _)).leads
        · exact h.leads.trans (failPdu (rpcReconnectRequeue env) p _)
      · exact refl c

theorem readOne (c : Client) (r : Read) : Leads c (c.readOne r) := by
  cases r with
  | queue io => exact rpcQueuePdu io c
  | header xid =>
    rw [Client.readOne]
    split <;> exact Frame.leads ⟨rfl,rfl,rfl,rfl,rfl,rfl,rfl,rfl,rfl,rfl,rfl,rfl,rfl,rfl,rfl,rfl⟩
  | rest success env =>
    rw [Client.readOne]
    split
    · exact refl c
    · split
      · exact Frame.leads ⟨rfl,rfl,rfl,rfl,rfl,rfl,rfl,rfl,rfl,rfl,rfl,rfl,rfl,rfl,rfl,rfl⟩
      · next cb _ =>
        apply (rpcConnectProgram41Cb env success cb c).trans (Frame.leads _)
        exact ⟨rfl,rfl,rfl,rfl,rfl,rfl,rfl,rfl,rfl,rfl,rfl,rfl,rfl,rfl,rfl,rfl⟩

end Leads

/-- With the handshake completed an open socket is connected. -/
def Steady (c : Client) : Prop := c.state = .completed → c.fd = true → c.isConnected = true

section

variable {requeue : Client → Client} (hr : ∀ c, (requeue c).state = c.state)

theorem foldl_state {α : Type} {f : Client → α → Client} (h : ∀ c a, (f c a).state = c.state) (l : List α)
    (c : Client) : (l.foldl f c).state = c.state := by
  induction l generalizing c with
  | nil => rfl
  | cons a l ih => rw [List.foldl_cons,ih,h]

include hr

theorem reconnectCbTls_state (c : Client) : (c.reconnectCbTls requeue).state = c.state := by
  rw [reconnectCbTls,check]
  split
  · rw [check]
    split
    · split
      · rw [hr]
      · rfl
    · rfl
  · rfl

theorem callCont_state (cb : Cont) (c : Client) : (callCont requeue cb c).state = c.state := by
  cases cb with
  | program5 => rfl
  | reconnectTls => exact reconnectCbTls_state hr c

theorem failPdu_state (p : Pdu) (c : Client) : (c.failPdu requeue p).state = c.state := by
  rw [failPdu]
  split
  · rfl
  · exact callCont_state hr _ _

theorem failAll_state (ps : List Pdu) (c : Client) : (c.failAll requeue ps).state = c.state :=
  foldl_state (fun c p => failPdu_state hr p c) ps c

theorem rpcErrorAllPdus_state (c : Client) : (c.rpcErrorAllPdus requeue).state = c.state := by
  have hf : ∀ c i, (failChain requeue c i).state = c.state := fun c i => failAll_state hr _ _
  rw [rpcErrorAllPdus,foldl_state hf,failAll_state hr]

/-- `reconnect_cb_tls` makes a new connection in state FAILED only. -/
theorem reconnectCbTls_steady {c : Client} (h : c.Steady) : (c.reconnectCbTls requeue).Steady := by
  by_cases hs : c.state = .failed
  · intro hd
    rw [reconnectCbTls_state hr,hs] at hd
    simp at hd
  · rw [reconnectCbTls,check]
    split
    · rw [check,if_neg hs]
      split
      · exact h
      · exact h
    · exact h

theorem callCont_steady (cb : Cont) {c : Client} (h : c.Steady) : (callCont requeue cb c).Steady := by
  cases cb with
  | program5 => exact h
  | reconnectTls => exact reconnectCbTls_steady hr h

end

theorem requeue_state (sockets : ℕ → Socket) (fuel : ℕ) (c : Client) :
    (requeue sockets fuel c).state = c.state := by
  induction fuel generalizing c with
  | zero => rfl
  | succ fuel ih =>
    have hd : c.drop.requeueAll.state = c.state := (Frame.requeueAll c.drop).state
    rw [requeue]
    split
    · rw [rpcErrorAllPdus_state ih]
    · simp only
      split
      · split
        · rw [rpcErrorAllPdus_state ih,hd]
        · rw [rpcErrorAllPdus_state ih,hd]
        · exact hd
      · rw [rpcErrorAllPdus_state ih,hd]

theorem rpcReconnectRequeue_state (env : Env) (c : Client) : (c.rpcReconnectRequeue env).state = c.state :=
  requeue_state env.sockets _ c

/-- The handshake is only completed on a connection. -/
theorem doTlsHandshake_steady (env : Env) (c : Client) :
    ({ (c.doTlsHandshake env).2 with state := (c.doTlsHandshake env).1 } : Client).Steady := by
  rw [doTlsHandshake]
  split
  · exact fun h => by simp at h
  split
  · exact fun h => by simp at h
  next hi =>
  have hi : c.isConnected = true := by simpa using hi
  split
  · split <;> exact fun _ _ => hi
  · exact fun _ _ => hi

theorem handshake_steady (env : Env) (c : Client) : (c.handshake env).Steady := by
  have h := doTlsHandshake_steady env c
  rw [handshake]
  simp only
  rw [resume]
  split
  · exact h
  · exact callCont_steady (rpcReconnectRequeue_state env) _ h
  · exact callCont_steady (rpcReconnectRequeue_state env) _ h
  · exact h

theorem Frame.steady {c d : Client} (hf : Frame c d) (h : c.Steady) : d.Steady := by
  rw [Steady,hf.state,hf.fd,hf.isConnected]
  exact h

theorem rpcQueuePdu_steady (io : Io) {c : Client} (h : c.Steady) : (c.rpcQueuePdu io).Steady := by
  rw [rpcQueuePdu]
  split
  · rw [rpcWriteToSocket]
    split
    · exact (Frame.foldl (fun c p => Frame.enqueueWait p c) _ _).steady h
    · exact h
  · exact h

theorem readOne_steady (r : Read) {c : Client} (h : c.Steady) : (c.readOne r).Steady := by
  cases r with
  | queue io => exact rpcQueuePdu_steady io h
  | header xid =>
    rw [readOne]
    split <;> exact h
  | rest success env =>
    rw [readOne]
    split
    · exact h
    · split
      · exact h
      · next cb _ =>
        show (c.rpcConnectProgram41Cb env success cb).Steady
        cases success with
        | true => exact handshake_steady env _
        | false => exact callCont_steady (rpcReconnectRequeue_state env) cb h

theorem rpcReadFromSocket_steady (rs : List Read) {c : Client} (h : c.Steady) :
    (c.rpcReadFromSocket rs).Steady := by
  rw [rpcReadFromSocket]
  induction rs generalizing c with
  | nil => exact h
  | cons r rs ih => exact ih (readOne_steady r h)

namespace Leads

/-- `rpc_service` writes in state COMPLETED only, which is the state of the connection it has. -/
theorem serviceIo (p : Poll) {c : Client} (h : p.out = true → c.Steady) : Leads c (c.serviceIo p) := by
  rw [Client.serviceIo]
  have hl : Leads c (if p.input then c.rpcReadFromSocket p.reads else c) := by
    split
    · exact foldl readOne p.reads c
    · exact refl c
  have hs : p.out = true → (if p.input then c.rpcReadFromSocket p.reads else c).Steady := by
    intro ho
    split
    · exact rpcReadFromSocket_steady p.reads (h ho)
    · exact h ho
  generalize (if p.input then c.rpcReadFromSocket p.reads else c) = d at hl hs
  split
  · exact hl.trans (rpcReconnectRequeue p.env d)
  split
  · exact hl
  next hu =>
  split
  · next ho =>
    simp only [Bool.and_eq_true] at ho
    have hw : Leads d (d.rpcWriteToSocket p.io).1 := by
      apply rpcWriteToSocket
      intro _ hd hf
      have hstate : d.state = .completed := by
        by_contra hne
        exact hu ⟨hd.useTls,hne⟩
      simpa [secure] using hd.secured (hs ho.1 hstate hf) hstate
    generalize d.rpcWriteToSocket p.io = r at hw
    obtain ⟨e,b⟩ := r
    cases b with
    | true => exact (hl.trans hw).trans (rpcReconnectRequeue p.env e)
    | false => exact hl.trans hw
  · exact hl

theorem rpcService (p : Poll) (c : Client) : Leads c (c.rpcService p) := by
  rw [Client.rpcService]
  have hl : Leads c (c.rpcTimeoutScan p.scan) := foldl scanOne p.scan c
  generalize c.rpcTimeoutScan p.scan = d at hl
  refine hl.trans ?_
  split
  · exact rpcReconnectRequeue p.env d
  split
  · split
    · exact rpcReconnectRequeue p.env d
    · exact maybeCallConnectCb_fail p.env d
  split
  · next hc =>
    simp only [Bool.and_eq_true,Bool.not_eq_true'] at hc
    split
    · exact maybeCallConnectCb_fail p.env d
    · exact maybeCallConnectCb_connected p.env hc.1.2 hc.1.1
  next hc =>
  split
  · apply check (fun _ hd => hd.useTls)
    intro _
    exact (handshake p.env d).trans (foldl (fun c io => rpcQueuePdu io c) p.after _)
  · apply serviceIo p
    intro ho _ hf
    by_contra hi
    apply hc
    simpa [ho,hf] using hi

theorem rpcSetAutoreconnect (n : ℤ) (c : Client) : Leads c (c.rpcSetAutoreconnect n) := by
  refine ⟨fun hd => ?_,
    fun hd => ⟨⟨hd.failures,hd.losses⟩,fun hc => ⟨hc.useTls,hc.version,hc.running,hc.session⟩⟩⟩
  have hb : (c.fd && !c.isConnected && n = 0) = false := hd.clears _ (List.mem_append_right _ List.mem_cons_self)
  refine ⟨⟨hd.calls,fun b hm => hd.clears b (List.mem_append_left _ hm)⟩,fun hc => ?_⟩
  refine ⟨hc.useTls,hc.isOpen,fun hf hi => ⟨(hc.connecting hf hi).1,fun hn => ?_⟩,hc.secured,hc.wire⟩
  have hf' : c.fd = true := hf
  have hi' : c.isConnected = false := hi
  have hn' : n = 0 := hn
  simp [hf',hi',hn'] at hb

theorem step (c : Client) (e : Event) : Leads c (step c e) := by
  cases e with
  | rpcQueuePdu io => exact rpcQueuePdu io c
  | rpcService p => exact rpcService p c
  | rpcSetAutoreconnect n => exact rpcSetAutoreconnect n c

end Leads

theorem run_leads (c : Client) (es : List Event) : Leads c (run step c es) := by
  induction es generalizing c with
  | nil => exact Leads.refl c
  | cons e es ih => exact (Leads.step c e).trans (ih (step c e))

end Client

section

variable (version nfsVersion chains queued : ℕ) (env : Env)

theorem connected_private : (connected version nfsVersion chains queued env).Private := by
  rw [connected]
  rcases Client.Leads.rpcNullTaskAuthtls_cases env version .program5 _ with ⟨-,h⟩ | ⟨-,s,a,h,hs,-⟩
  · refine ⟨h.useTls,fun _ => h.fd,fun _ hi => ?_,fun _ hs => ?_,fun w hw hk => ?_⟩
    · rw [h.isConnected] at hi
      simp at hi
    · rw [h.state] at hs
      simp at hs
    · rw [h.wire] at hw
      rw [List.mem_singleton.mp hw] at hk
      simp at hk
  · refine ⟨h.useTls,fun _ => h.fd,fun _ hi => ?_,fun _ hc => ?_,fun w hw hk => ?_⟩
    · rw [h.isConnected] at hi
      simp at hi
    · rw [h.state] at hc
      rcases hs with rfl | rfl <;> simp at hc
    · rw [h.wire] at hw
      simp at hw

theorem connected_sound (hv : version = 3 ∨ version = 4) (hn : nfsVersion = 3 ∨ nfsVersion = 4) :
    (connected version nfsVersion chains queued env).Sound := by
  rw [connected]
  rcases Client.Leads.rpcNullTaskAuthtls_cases env version .program5 _ with ⟨-,h⟩ | ⟨-,s,a,h,-,ha⟩
  · refine ⟨h.useTls,?_,h.aborted,fun k hk => ?_⟩
    · rw [h.nfsVersion]
      exact hn
    · rw [h.session] at hk
      simp at hk
  · refine ⟨h.useTls,?_,?_,fun k hk => ?_⟩
    · rw [h.nfsVersion]
      exact hn
    · rw [h.aborted]
      exact ha rfl hv
    · rw [h.session] at hk
      simp at hk

/-- Over every run in which the application queues no PDU on an empty queue of an open socket before
the handshake on it, and in which under a reconnect `rpc_connect_program_5_cb` is not called and
reconnecting not turned off, only AUTH_TLS calls are written in the clear. -/
theorem no_plaintext_before_tls (es : List Event)
    (hg : (run step (connected version nfsVersion chains queued env) es).Guarded) :
    ∀ w ∈ (run step (connected version nfsVersion chains queued env) es).wire, w.kind = .app → w.secure = true := by
  obtain ⟨-,hp⟩ := (Client.run_leads _ es).guarded hg
  exact (hp (connected_private version nfsVersion chains queued env)).wire

/-- Over every run in which no AUTH_TLS call of a reconnect fails before the handshake is over, and no
connection is given up while there is a session, the assertions of the TLS code hold. -/
theorem tls_assertions_hold (es : List Event) (hv : version = 3 ∨ version = 4)
    (hn : nfsVersion = 3 ∨ nfsVersion = 4)
    (ho : (run step (connected version nfsVersion chains queued env) es).Orderly) :
    let c := run step (connected version nfsVersion chains queued env) es
    c.aborted = false ∧ (∀ k, c.session = some k → c.state = .inProgress ∧ k = c.conn) ∧
      ∀ e : Env, (c.doTlsHandshake e).1 = .inProgress ∨ (c.doTlsHandshake e).1 = .completed ∨
        (c.doTlsHandshake e).1 = .failed := by
  obtain ⟨-,hs⟩ := (Client.run_leads _ es).orderly ho
  have h := hs (connected_sound version nfsVersion chains queued env hv hn)
  refine ⟨h.running,fun k hk => ?_,fun e => (Client.Leads.doTlsHandshake e _).2⟩
  exact ⟨(h.session k hk).1,(h.session k hk).2.1⟩

end

/-- The reply to the first AUTH_TLS call, a handshake in two turns, and a READ -/
def firstRead : List Event :=
  [.rpcService { input := true, reads := [.header 0,.rest true { gnutls := .again }] },
    .rpcService { input := true },.rpcQueuePdu { sent := 1 }]

theorem no_plaintext_before_tls_read :
    (∀ w ∈ (run step (connected 3 3 1 0 {}) firstRead).wire, w.kind = .app → w.secure = true) ∧
      ⟨0,.app,true⟩ ∈ (run step (connected 3 3 1 0 {}) firstRead).wire :=
  ⟨no_plaintext_before_tls 3 3 1 0 {} firstRead ⟨by decide,by decide⟩,by decide⟩

/-- A PDU queued before the reply to the AUTH_TLS call is written at once. -/
theorem plaintext_before_tls : ¬ ∀ (version nfsVersion chains queued : ℕ) (env : Env) (es : List Event),
    ∀ w ∈ (run step (connected version nfsVersion chains queued env) es).wire, w.kind = .app → w.secure = true := by
  intro h
  have hw := h 3 3 1 0 {} [.rpcQueuePdu { sent := 1 }] ⟨0,.app,false⟩ (by decide) rfl
  simp at hw

/-- A connection is lost after the handshake, and a new one gets as far as its handshake. -/
def reconnecting : List Event :=
  firstRead ++ [.rpcSetAutoreconnect (-1),.rpcService { error := true },.rpcService { out := true },
    .rpcService { input := true, reads := [.header 2,.rest true { gnutls := .again }] }]

theorem tls_assertions_hold_reconnecting :
    let c := run step (connected 3 3 1 0 {}) reconnecting
    c.session = some 1 ∧ c.aborted = false ∧ (∀ k, c.session = some k → c.state = .inProgress ∧ k = c.conn) ∧
      ∀ e : Env, (c.doTlsHandshake e).1 = .inProgress ∨ (c.doTlsHandshake e).1 = .completed ∨
        (c.doTlsHandshake e).1 = .failed :=
  ⟨by decide,tls_assertions_hold 3 3 1 0 {} reconnecting (.inl rfl) (.inl rfl) ⟨by decide,by decide⟩⟩

/-- The AUTH_TLS call of a reconnect is rejected: `reconnect_cb_tls` is called in the state
WAITING_FOR_STARTTLS. -/
theorem tls_assertions_fail : ¬ ∀ (version nfsVersion chains queued : ℕ) (env : Env) (es : List Event),
    version = 3 ∨ version = 4 → nfsVersion = 3 ∨ nfsVersion = 4 →
    (run step (connected version nfsVersion chains queued env) es).aborted = false := by
  intro h
  have ha := h 3 3 1 0 {} (firstRead ++ [.rpcSetAutoreconnect (-1),.rpcService { error := true },
    .rpcService { out := true },.rpcService { input := true, reads := [.header 2,.rest false {}] }]) (.inl rfl) (.inl rfl)
  exact absurd ha (by decide)

end Tls
end Libnfs
