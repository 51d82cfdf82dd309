import Libnfs.ZdrFormat

/-! The RPC message of `lib/libnfs-zdr.c`, built without krb5: `struct rpc_msg` with its nested
unions, `libnfs_zdr_callmsg` and `libnfs_zdr_replymsg`. -/
namespace Libnfs
namespace Zdrmem

open ByteWords Zdr

variable {α ρ : Type}

/-- `struct opaque_cred` and `struct opaque_verf`, with the `oa_length` bytes at `oa_base` -/
structure OpaqueAuth where
  oaFlavor : UInt32
  oaBase : List UInt8
  deriving DecidableEq, Repr

/-- `struct call_body` -/
structure CallBody where
  rpcvers : UInt32
  prog : UInt32
  vers : UInt32
  proc : UInt32
  cred : OpaqueAuth
  verf : OpaqueAuth
  deriving DecidableEq, Repr

/-- The `stat` of an accepted reply with the arm of `reply_data` that goes with it: SUCCESS,
PROG_MISMATCH or any other. -/
inductive ReplyData (ρ : Type)
  | results (r : ρ)
  | mismatchInfo (low high : UInt32)
  | none (stat : UInt32) (h : stat ≠ 0 ∧ stat ≠ 2)
  deriving DecidableEq, Repr

/-- `struct rejected_reply`: RPC_MISMATCH, AUTH_ERROR or any other `stat` -/
inductive RejectedReply
  | mismatchInfo (low high : UInt32)
  | authStat (stat : UInt32)
  | none (stat : UInt32) (h : stat ≠ 0 ∧ stat ≠ 1)
  deriving DecidableEq, Repr

/-- `struct reply_body`: MSG_ACCEPTED or MSG_DENIED -/
inductive ReplyBody (ρ : Type)
  | areply (verf : OpaqueAuth) (data : ReplyData ρ)
  | rreply (r : RejectedReply)
  deriving DecidableEq, Repr

/-- `struct rpc_msg`: CALL or REPLY -/
inductive RpcMsg (ρ : Type)
  | call (xid : UInt32) (cbody : CallBody)
  | reply (xid : UInt32) (rbody : ReplyBody ρ)
  deriving DecidableEq, Repr

/-- `libnfs_opaque_cred` -/
def libnfsOpaqueCred : Codec OpaqueAuth where
  enc a := do
    zdrUInt.enc a.oaFlavor
    zdrBytes.enc a.oaBase
  dec fuel := do
    let oaFlavor ← zdrUInt.dec fuel
    let oaBase ← zdrBytes.dec fuel
    return ⟨oaFlavor,oaBase⟩

/-- `libnfs_zdr_bytes` into an `oa_base` that is NULL, or that has a pointer -/
def authBody (pointer : Bool) (fuel : ℕ) : Zop (List UInt8) :=
  if pointer then zdrBytesInto else zdrBytes.dec fuel

/-- `libnfs_opaque_verf` -/
def libnfsOpaqueVerf (pointer : Bool) : Codec OpaqueAuth where
  enc a := do
    zdrUInt.enc a.oaFlavor
    zdrBytes.enc a.oaBase
  dec fuel := do
    let oaFlavor ← zdrUInt.dec fuel
    let oaBase ← authBody pointer fuel
    return ⟨oaFlavor,oaBase⟩

/-- `libnfs_rpc_call_body`. In a message that was prepared for a reply `cbody.verf.oa_base` lies on
`results.where`, which is set. -/
def libnfsRpcCallBody (prepared : Bool) : Codec CallBody where
  enc c := do
    zdrUInt.enc c.rpcvers
    zdrUInt.enc c.prog
    zdrUInt.enc c.vers
    zdrUInt.enc c.proc
    libnfsOpaqueCred.enc c.cred
    (libnfsOpaqueVerf prepared).enc c.verf
  dec fuel := do
    let rpcvers ← zdrUInt.dec fuel
    let prog ← zdrUInt.dec fuel
    let vers ← zdrUInt.dec fuel
    let proc ← zdrUInt.dec fuel
    let cred ← libnfsOpaqueCred.dec fuel
    let verf ← (libnfsOpaqueVerf prepared).dec fuel
    return ⟨rpcvers,prog,vers,proc,cred,verf⟩

/-- `libnfs_accepted_reply` from `stat` on; `proc` is `results.proc`. -/
def replyData (proc : Codec ρ) : Codec (ReplyData ρ) where
  enc
    | .results r => do
      zdrUInt.enc 0
      proc.enc r
    | .mismatchInfo low high => do
      zdrUInt.enc 2
      zdrUInt.enc low
      zdrUInt.enc high
    | .none stat _ => zdrUInt.enc stat
  dec fuel := do
    let stat ← zdrUInt.dec fuel
    if h0 : stat = 0 then return .results (← proc.dec fuel)
    else if h2 : stat = 2 then
      let low ← zdrUInt.dec fuel
      let high ← zdrUInt.dec fuel
      return .mismatchInfo low high
    else return .none stat ⟨h0,h2⟩

/-- `libnfs_rejected_reply` -/
def libnfsRejectedReply : Codec RejectedReply where
  enc
    | .mismatchInfo low high => do
      zdrUInt.enc 0
      zdrUInt.enc low
      zdrUInt.enc high
    | .authStat stat => do
      zdrUInt.enc 1
      zdrUInt.enc stat
    | .none stat _ => zdrUInt.enc stat
  dec fuel := do
    let stat ← zdrUInt.dec fuel
    if h0 : stat = 0 then
      let low ← zdrUInt.dec fuel
      let high ← zdrUInt.dec fuel
      return .mismatchInfo low high
    else if h1 : stat = 1 then return .authStat (← zdrUInt.dec fuel)
    else return .none stat ⟨h0,h1⟩

/-- `libnfs_rpc_reply_body`, with `libnfs_accepted_reply` -/
def libnfsRpcReplyBody (proc : Codec ρ) : Codec (ReplyBody ρ) where
  enc
    | .areply verf data => do
      zdrUInt.enc 0
      (libnfsOpaqueVerf false).enc verf
      (replyData proc).enc data
    | .rreply r => do
      zdrUInt.enc 1
      libnfsRejectedReply.enc r
  dec fuel := do
    let stat ← zdrUInt.dec fuel
    if stat = 0 then
      let verf ← (libnfsOpaqueVerf false).dec fuel
      let data ← (replyData proc).dec fuel
      return .areply verf data
    else if stat = 1 then return .rreply (← libnfsRejectedReply.dec fuel)
    else Zop.fail

/-- `libnfs_rpc_msg`, into a zeroed message or into one that was prepared for a reply -/
def libnfsRpcMsg (prepared : Bool) (proc : Codec ρ) : Codec (RpcMsg ρ) where
  enc
    | .call xid cbody => do
      zdrUInt.enc xid
      zdrUInt.enc 0
      (libnfsRpcCallBody prepared).enc cbody
    | .reply xid rbody => do
      zdrUInt.enc xid
      zdrUInt.enc 1
      (libnfsRpcReplyBody proc).enc rbody
  dec fuel := do
    let xid ← zdrUInt.dec fuel
    let direction ← zdrUInt.dec fuel
    if direction = 0 then return .call xid (← (libnfsRpcCallBody prepared).dec fuel)
    else if direction = 1 then return .reply xid (← (libnfsRpcReplyBody proc).dec fuel)
    else Zop.fail

/-- `libnfs_zdr_callmsg`, into a zeroed message -/
def zdrCallmsg (proc : Codec ρ) : Codec (RpcMsg ρ) := libnfsRpcMsg false proc

/-- `libnfs_zdr_replymsg`, into a message that was prepared with `results.where` and `proc` -/
def zdrReplymsg (proc : Codec ρ) : Codec (RpcMsg ρ) := libnfsRpcMsg true proc

namespace Format

def word (u : UInt32) : List UInt8 := beBytes u.toNat

def auth (a : OpaqueAuth) : List UInt8 := word a.oaFlavor ++ sized a.oaBase

def opaqueAuth : Format OpaqueAuth where
  Valid _ := True
  bytes := auth

def callBody : Format CallBody where
  Valid _ := True
  bytes c := word c.rpcvers ++ (word c.prog ++ (word c.vers ++ (word c.proc ++
    (auth c.cred ++ auth c.verf))))

def replyData (g : Format ρ) : Format (ReplyData ρ) where
  Valid d := ∀ r, d = .results r → g.Valid r
  bytes
    | .results r => word 0 ++ g.bytes r
    | .mismatchInfo low high => word 2 ++ (word low ++ word high)
    | .none stat _ => word stat
  blocks
    | .results r, next => g.blocks r next
    | _, _ => []
  depth
    | .results r => g.depth r
    | _ => 0

def rejectedReply : Format RejectedReply where
  Valid _ := True
  bytes
    | .mismatchInfo low high => word 0 ++ (word low ++ word high)
    | .authStat stat => word 1 ++ word stat
    | .none stat _ => word stat

def replyBody (g : Format ρ) : Format (ReplyBody ρ) where
  Valid b := ∀ verf d, b = .areply verf d → (replyData g).Valid d
  bytes
    | .areply verf d => word 0 ++ (auth verf ++ (replyData g).bytes d)
    | .rreply r => word 1 ++ rejectedReply.bytes r
  blocks
    | .areply _ d, next => (replyData g).blocks d next
    | .rreply _, _ => []
  depth
    | .areply _ d => (replyData g).depth d
    | .rreply _ => 0

/-- The messages that are decoded into a prepared message are replies. -/
def rpcMsg (prepared : Bool) (g : Format ρ) : Format (RpcMsg ρ) where
  Valid m := (∀ xid b, m = .reply xid b → (replyBody g).Valid b) ∧
    (prepared = true → ∃ xid b, m = .reply xid b)
  bytes
    | .call xid c => word xid ++ (word 0 ++ callBody.bytes c)
    | .reply xid b => word xid ++ (word 1 ++ (replyBody g).bytes b)
  blocks
    | .call _ _, _ => []
    | .reply _ b, next => (replyBody g).blocks b next
  depth
    | .call _ _ => 0
    | .reply _ b => (replyBody g).depth b

end Format

theorem word_aligned (u : UInt32) : 4 ∣ (Format.word u).length := ⟨1,rfl⟩

theorem Writes.uInt {n : Zop Unit} {b : List UInt8} (u : UInt32) (hn : Writes n b) :
    Writes (zdrUInt.enc u >>= fun _ => n) (Format.word u ++ b) :=
  Writes.bind (writes_word u.toNat) (word_aligned u) hn

theorem Reads.uInt {k : UInt32 → Zop α} {u : UInt32} {a : α} {bs : List UInt8}
    {p : Option UInt8 → List ℕ} {fuel : ℕ} (hk : Reads (k u) a bs p) :
    Reads (zdrUInt.dec fuel >>= k) a (Format.word u ++ bs) p :=
  Reads.bind (meets_uInt.reads u fuel trivial (Nat.zero_le _)) (word_aligned u) hk

/-- A word that nothing follows. -/
theorem Reads.lastUInt {k : UInt32 → Zop α} {u : UInt32} {a : α} {fuel : ℕ} (hk : k u = pure a) :
    Reads (zdrUInt.dec fuel >>= k) a (Format.word u) fun _ => [] := by
  have h : Reads (zdrUInt.dec fuel >>= k) a (Format.word u ++ []) fun _ => [] :=
    Reads.uInt (hk ▸ reads_pure a)
  rwa [List.append_nil] at h

theorem auth_aligned (a : OpaqueAuth) : 4 ∣ (Format.auth a).length := by
  have h1 := word_aligned a.oaFlavor
  have h2 := sized_aligned a.oaBase
  simp only [Format.auth,List.length_append]
  omega

theorem meets_cred : Meets libnfsOpaqueCred .opaqueAuth where
  aligned a _ := auth_aligned a
  writes a _ := Writes.uInt a.oaFlavor (writes_bytes a.oaBase)
  reads a fuel _ _ := Reads.uInt ((reads_bytes a.oaBase fuel).map (OpaqueAuth.mk a.oaFlavor))

theorem meets_verf : Meets (libnfsOpaqueVerf false) .opaqueAuth where
  aligned a _ := auth_aligned a
  writes a _ := Writes.uInt a.oaFlavor (writes_bytes a.oaBase)
  reads a fuel _ _ := Reads.uInt ((reads_bytes a.oaBase fuel).map (OpaqueAuth.mk a.oaFlavor))

theorem meets_callBody : Meets (libnfsRpcCallBody false) .callBody where
  aligned c _ := by
    have h1 := auth_aligned c.cred
    have h2 := auth_aligned c.verf
    have hw : ∀ u, (Format.word u).length = 4 := fun _ => rfl
    simp only [Format.callBody,List.length_append,hw]
    omega
  writes c _ := by
    refine Writes.uInt c.rpcvers (Writes.uInt c.prog (Writes.uInt c.vers (Writes.uInt c.proc ?_)))
    exact (meets_cred.writes c.cred trivial).bind (auth_aligned c.cred)
      (meets_verf.writes c.verf trivial)
  reads c fuel _ _ := by
    refine Reads.uInt (Reads.uInt (Reads.uInt (Reads.uInt ?_)))
    have hcred := meets_cred.reads c.cred fuel trivial (Nat.zero_le _)
    have hverf := meets_verf.reads c.verf fuel trivial (Nat.zero_le _)
    exact hcred.bind (auth_aligned c.cred)
      (hverf.map (CallBody.mk c.rpcvers c.prog c.vers c.proc c.cred))

variable {proc : Codec ρ} {g : Format ρ}

theorem meets_replyData (hp : Meets proc g) : Meets (replyData proc) (.replyData g) where
  aligned d hv := by
    cases d with
    | results r =>
      have h := hp.aligned r (hv r rfl)
      show 4 ∣ (Format.word 0 ++ g.bytes r).length
      rw [List.length_append]
      exact (word_aligned 0).add h
    | mismatchInfo low high => exact ⟨3,rfl⟩
    | none stat h => exact word_aligned stat
  writes d hv := by
    cases d with
    | results r => exact Writes.uInt 0 (hp.writes r (hv r rfl))
    | mismatchInfo low high => exact Writes.uInt 2 (Writes.uInt low (writes_word high.toNat))
    | none stat h => exact writes_word stat.toNat
  reads d fuel hv hf := by
    cases d with
    | results r =>
      refine Reads.uInt ?_
      rw [dif_pos rfl]
      exact (hp.reads r fuel (hv r rfl) hf).map ReplyData.results
    | mismatchInfo low high =>
      refine Reads.uInt ?_
      rw [dif_neg (by decide),dif_pos rfl]
      exact Reads.uInt (Reads.lastUInt rfl)
    | none stat h =>
      refine Reads.lastUInt ?_
      rw [dif_neg h.1,dif_neg h.2]

theorem meets_rejectedReply : Meets libnfsRejectedReply .rejectedReply where
  aligned r _ := by
    cases r with
    | mismatchInfo low high => exact ⟨3,rfl⟩
    | authStat stat => exact ⟨2,rfl⟩
    | none stat h => exact word_aligned stat
  writes r _ := by
    cases r with
    | mismatchInfo low high => exact Writes.uInt 0 (Writes.uInt low (writes_word high.toNat))
    | authStat stat => exact Writes.uInt 1 (writes_word stat.toNat)
    | none stat h => exact writes_word stat.toNat
  reads r fuel _ _ := by
    cases r with
    | mismatchInfo low high =>
      refine Reads.uInt ?_
      rw [dif_pos rfl]
      exact Reads.uInt (Reads.lastUInt rfl)
    | authStat stat =>
      refine Reads.uInt ?_
      rw [dif_neg (by decide),dif_pos rfl]
      exact Reads.lastUInt rfl
    | none stat h =>
      refine Reads.lastUInt ?_
      rw [dif_neg h.1,dif_neg h.2]

theorem meets_replyBody (hp : Meets proc g) : Meets (libnfsRpcReplyBody proc) (.replyBody g) where
  aligned b hv := by
    cases b with
    | areply verf d =>
      have h := (meets_replyData hp).aligned d (hv verf d rfl)
      show 4 ∣ (Format.word 0 ++ (Format.auth verf ++ (Format.replyData g).bytes d)).length
      rw [List.length_append,List.length_append]
      exact (word_aligned 0).add ((auth_aligned verf).add h)
    | rreply r =>
      show 4 ∣ (Format.word 1 ++ Format.rejectedReply.bytes r).length
      rw [List.length_append]
      exact (word_aligned 1).add (meets_rejectedReply.aligned r trivial)
  writes b hv := by
    cases b with
    | areply verf d =>
      refine Writes.uInt 0 ?_
      exact (meets_verf.writes verf trivial).bind (auth_aligned verf)
        ((meets_replyData hp).writes d (hv verf d rfl))
    | rreply r => exact Writes.uInt 1 (meets_rejectedReply.writes r trivial)
  reads b fuel hv hf := by
    cases b with
    | areply verf d =>
      refine Reads.uInt ?_
      rw [if_pos rfl]
      have hverf := meets_verf.reads verf fuel trivial (Nat.zero_le _)
      have hdata := (meets_replyData hp).reads d fuel (hv verf d rfl) hf
      exact hverf.bind (auth_aligned verf) (hdata.map (ReplyBody.areply verf))
    | rreply r =>
      refine Reads.uInt ?_
      rw [if_neg (by decide),if_pos rfl]
      exact (meets_rejectedReply.reads r fuel trivial (Nat.zero_le _)).map ReplyBody.rreply

/-- Every message, into a zeroed message, and every reply, into a prepared one. -/
theorem meets_rpcMsg (hp : Meets proc g) (prepared : Bool) :
    Meets (libnfsRpcMsg prepared proc) (.rpcMsg prepared g) where
  aligned m hv := by
    cases m with
    | call xid c =>
      show 4 ∣ (Format.word xid ++ (Format.word 0 ++ Format.callBody.bytes c)).length
      rw [List.length_append,List.length_append]
      exact (word_aligned xid).add ((word_aligned 0).add (meets_callBody.aligned c trivial))
    | reply xid b =>
      show 4 ∣ (Format.word xid ++ (Format.word 1 ++ (Format.replyBody g).bytes b)).length
      rw [List.length_append,List.length_append]
      exact (word_aligned xid).add
        ((word_aligned 1).add ((meets_replyBody hp).aligned b (hv.1 xid b rfl)))
  writes m hv := by
    cases m with
    | call xid c => exact Writes.uInt xid (Writes.uInt 0 (meets_callBody.writes c trivial))
    | reply xid b =>
      exact Writes.uInt xid (Writes.uInt 1 ((meets_replyBody hp).writes b (hv.1 xid b rfl)))
  reads m fuel hv hf := by
    cases m with
    | call xid c =>
      cases prepared with
      | true =>
        obtain ⟨y,b,h⟩ := hv.2 rfl
        simp at h
      | false =>
        refine Reads.uInt (Reads.uInt ?_)
        rw [if_pos rfl]
        exact (meets_callBody.reads c fuel trivial (Nat.zero_le _)).map (RpcMsg.call xid)
    | reply xid b =>
      refine Reads.uInt (Reads.uInt ?_)
      rw [if_neg (by decide),if_pos rfl]
      exact ((meets_replyBody hp).reads b fuel (hv.1 xid b rfl) hf).map (RpcMsg.reply xid)

/-- No memory is needed but for the results. -/
theorem rpcMsg_allocated (hround : ∀ r next, g.Valid r → Allocated (g.blocks r next)) {m : RpcMsg ρ}
    {prepared : Bool} (hv : (Format.rpcMsg prepared g).Valid m) (next : Option UInt8) :
    Allocated ((Format.rpcMsg prepared g).blocks m next) := by
  cases m with
  | call xid c => exact allocated_nil
  | reply xid b =>
    cases b with
    | rreply r => exact allocated_nil
    | areply verf d =>
      cases d with
      | results r => exact hround r next (hv.1 xid _ rfl verf _ rfl r rfl)
      | mismatchInfo low high => exact allocated_nil
      | none stat h => exact allocated_nil

/-- The round trip of every RPC message, over any codec of the results that makes the round trip
itself: a call through a zeroed message and a reply through a prepared one. Messages that are
encoded alike are equal. -/
theorem rpc_msg_round_trip (hp : Meets proc g)
    (hround : ∀ r next, g.Valid r → Allocated (g.blocks r next)) {m : RpcMsg ρ}
    (hm : (Format.rpcMsg false g).Valid m) {z : Zdrs} (ha : 4 ∣ z.pos)
    (hz : Fit z ((Format.rpcMsg false g).bytes m).length) {size : ℤ}
    (hroom : z.pos+((Format.rpcMsg false g).bytes m).length ≤ size) (halloc : size ≤ z.buf.length)
    (hint : size < 2^31) :
    (∀ xid c, m = .call xid c → RoundTrips (zdrCallmsg proc) m z size) ∧
    (∀ xid b, m = .reply xid b → RoundTrips (zdrReplymsg proc) m z size) ∧
    ∀ m' e e', (Format.rpcMsg false g).Valid m' → Fit z ((Format.rpcMsg false g).bytes m').length →
      (zdrCallmsg proc).enc m z = (.ok (),e) → (zdrCallmsg proc).enc m' z = (.ok (),e') →
      e.buf = e'.buf → e.pos = e'.pos → m = m' := by
  refine ⟨?_,?_,?_⟩
  · rintro xid c -
    exact ((meets_rpcMsg hp false).roundTrips_iff hm ha hz hroom halloc hint).mpr
      (rpcMsg_allocated hround hm _)
  · rintro xid b rfl
    have hv : (Format.rpcMsg true g).Valid (.reply xid b) := ⟨hm.1,fun _ => ⟨xid,b,rfl⟩⟩
    exact ((meets_rpcMsg hp true).roundTrips_iff hv ha hz hroom halloc hint).mpr
      (rpcMsg_allocated hround hv _)
  · intro m' e e' hm' hz' henc henc' hbuf _
    have hone := ((meets_rpcMsg hp false).roundTrips_iff hm ha hz hz.room hz.alloc hz.int).mpr
      (rpcMsg_allocated hround hm _)
    have htwo := ((meets_rpcMsg hp false).roundTrips_iff hm' ha hz' hz'.room hz'.alloc hz'.int).mpr
      (rpcMsg_allocated hround hm' _)
    obtain ⟨y,hy,-,-,n,hn⟩ := hone
    obtain ⟨y',hy',-,-,n',hn'⟩ := htwo
    obtain rfl : y = e := (Prod.mk.inj (hy.symm.trans henc)).2
    obtain rfl : y' = e' := (Prod.mk.inj (hy'.symm.trans henc')).2
    obtain ⟨d,hd,-⟩ := hn (max n n') (le_max_left _ _)
    obtain ⟨d',hd',-⟩ := hn' (max n n') (le_max_right _ _)
    have hsame : y.reopen z.pos z.size = y'.reopen z.pos z.size := by rw [Zdrs.reopen,Zdrs.reopen,hbuf]
    rw [hsame,hd'] at hd
    exact Res.ok.inj (Prod.mk.inj hd).1.symm

/-- A reply with a word as its result. -/
theorem rpc_msg_round_trip_word :
    RoundTrips (zdrReplymsg zdrUInt) (.reply 5 (.areply ⟨0,[1,2,3]⟩ (.results 7)))
      { buf := List.replicate 40 0, size := 40, pos := 0 } 36 := by
  have hvalid : (Format.rpcMsg false .uInt).Valid (.reply 5 (.areply ⟨0,[1,2,3]⟩ (.results 7))) :=
    ⟨fun _ _ _ _ _ _ _ _ => trivial,fun h => absurd h (by decide)⟩
  exact (rpc_msg_round_trip meets_uInt (fun _ _ _ => allocated_nil) hvalid (by decide)
    ⟨by decide,by decide,by decide,by decide⟩ (by decide) (by decide) (by decide)).2.1 _ _ rfl

end Zdrmem
end Libnfs
