import Libnfs.Classify
import Libnfs.Conversation

/-! Remote procedure calls from one end to the other: the arguments that a handler gets, the results that a callback gets, and the
errors in between. -/
namespace Libnfs

open ByteWords Zdrmem Dispatch RecordMark Transition
open Zdr (Dec wordAt opaqueEnd)

variable {α β : Type} {mem : Bool} {endpoints : List (Endpoint α)} {q : ServiceProc α} {c : CallBody} {xid : UInt32}
  {bytes body front rest rs : List UInt8} {x : α} {p : Pdu}

/-- The message of a call: the header that `rpc_allocate_pdu2` marshals with `zdr_callmsg`, and the arguments behind it -/
def callBytes (xid : UInt32) (c : CallBody) (args : List UInt8) : List UInt8 :=
  (Format.rpcMsg false noResults).bytes (.call xid c) ++ args

/-- The decoder of the arguments reads the bytes as `x`, in memory that it gets. -/
def Understands (q : ServiceProc α) (bytes : List UInt8) (x : α) : Prop :=
  ∃ blocks, Reads q.args x bytes blocks ∧ ∀ next, Allocated (blocks next)

/-- Why a call has no procedure -/
inductive Refusal (endpoints : List (Endpoint α)) (c : Cbody) : AcceptStat → Prop
  | progUnavail (h : versions endpoints c.prog = ∅) : Refusal endpoints c .progUnavail
  | progMismatch (h : (versions endpoints c.prog).Nonempty) (hs : serving endpoints c = none) : Refusal endpoints c .progMismatch
  | procUnavail {e : Endpoint α} (h : serving endpoints c = some e) (hp : procOf e c = none) : Refusal endpoints c .procUnavail

def Dispatch.AcceptStat.num : AcceptStat → ℕ
  | .progUnavail => 1
  | .progMismatch => 2
  | .procUnavail => 3
  | .garbageArgs => 4

section Calling

/-- The header of a call is decoded as it was marshalled, and the arguments are next. -/
theorem callBytes_decodes (hlt : (callBytes xid c bytes).length < 2^31) :
    ∃ z, (zdrCallmsg nullProc).dec 0 (zdrmemCreate (callBytes xid c bytes) (callBytes xid c bytes).length) = (.ok (.call xid c),z) ∧
      4 ∣ z.pos ∧ Fit z bytes.length ∧ Ahead z bytes := by
  have hvalid : (Format.rpcMsg false noResults).Valid (.call xid c) := ⟨fun _ _ h => by simp at h,fun h => by simp at h⟩
  have hmeets := meets_rpcMsg meets_nullProc false
  have hreads := hmeets.reads (.call xid c) 0 hvalid (Nat.zero_le _)
  have haligned := hmeets.aligned (.call xid c) hvalid
  unfold callBytes at hlt ⊢
  generalize (Format.rpcMsg false noResults).bytes (.call xid c) = hd at hlt hreads haligned ⊢
  have hsize : toInt (hd++bytes).length = (hd++bytes).length := Int.bmod_eq_of_le (by omega) (by omega)
  have hz : zdrmemCreate (hd++bytes) (hd++bytes).length = { buf := hd++bytes, size := (hd++bytes).length, pos := 0 } := by
    rw [zdrmemCreate,hsize]
  have hfit : Fit { buf := hd++bytes, size := (hd++bytes).length, pos := 0 } (hd.length+bytes.length) := by
    refine ⟨le_refl _,?_,le_refl _,?_⟩
    · simp
    · simp only
      omega
  have hahead : Ahead { buf := hd++bytes, size := (hd++bytes).length, pos := 0 } (hd++bytes) := List.prefix_rfl
  obtain ⟨z,hdec,hread⟩ := (hreads _ (dvd_zero 4) (hfit.le (Nat.le_add_right _ _)) hahead.left).ok allocated_nil
  refine ⟨z,?_,hread.aligned (dvd_zero 4) haligned,hread.fit hfit,hahead.right (le_refl _) hread⟩
  rw [hz]
  exact hdec

/-- A call of a procedure is handled with the arguments that were marshalled. -/
theorem process_target (hlt : (callBytes xid c bytes).length < 2^31) (ht : target endpoints (.call xid c) = some q)
    (hq : Understands q bytes x) :
    rpcProcessCall mem endpoints (zdrmemCreate (callBytes xid c bytes) (callBytes xid c bytes).length) = .handler q (.call xid c) x := by
  obtain ⟨z,hdec,ha,hfit,hahead⟩ := @callBytes_decodes c xid bytes hlt
  obtain ⟨blocks,hreads,halloc⟩ := hq
  obtain ⟨y,hy,-⟩ := (hreads z ha hfit hahead).ok (halloc _)
  rw [rpcProcessCall_ok hdec,dispatch_target ht,hy]

/-- Any other call is refused. -/
theorem process_refusal (hlt : (callBytes xid c bytes).length < 2^31) (ht : target endpoints (.call xid c) = none) :
    ∃ err low high, Refusal endpoints (cbody (.call xid c)) err ∧
      rpcProcessCall mem endpoints (zdrmemCreate (callBytes xid c bytes) (callBytes xid c bytes).length) =
        errorReply mem xid err low high := by
  obtain ⟨z,hdec,-⟩ := @callBytes_decodes c xid bytes hlt
  obtain ⟨href,hans⟩ := @dispatch_noTarget _ mem endpoints _ z ht
  rw [rpcProcessCall_ok hdec]
  generalize dispatch mem endpoints (.call xid c) z = out at href hans ⊢
  cases hans with
  | progUnavail h => exact ⟨_,_,_,.progUnavail h,rfl⟩
  | progMismatch hlow hhigh hs => exact ⟨_,_,_,.progMismatch ⟨_,hlow.1⟩ hs,rfl⟩
  | procUnavail hs hp => exact ⟨_,_,_,.procUnavail hs hp,rfl⟩
  | garbageArgs hs hp ha =>
    rw [target,hs] at ht
    rw [Option.bind_some,hp] at ht
    simp at ht
  | handler hs hp ha => exact href.elim

end Calling

section Answering

open Zdr (DecodeBuf State libnfsAcceptedReply)

variable {d : Dec Unit} {m : DecodeBuf} {z : State} {k n : ℕ} {stat : UInt32}

/-- An accepted reply with the null verifier -/
def acceptedBytes (xid stat : UInt32) (rest : List UInt8) : List UInt8 :=
  Format.word xid ++ (Format.word 1 ++ (Format.word 0 ++ (Format.auth ⟨0,[]⟩ ++ (Format.word stat ++ rest))))

theorem wordAt_word (u : UInt32) : wordAt (front ++ (Format.word u ++ rest)) front.length = some u.toNat := by
  have hlen : (Format.word u).length = 4 := rfl
  have hbe : be32 (Format.word u ++ rest) = u.toNat := be32_beBytes _ (UInt32.toNat_lt u) rest
  rw [wordAt,if_pos]
  · rw [Int.toNat_natCast,List.drop_left,hbe]
  · simp only [List.length_append,hlen]
    omega

/-- The words that the decoder of a reply looks at -/
theorem acceptedBytes_words (xid stat : UInt32) (rest : List UInt8) :
    wordAt (acceptedBytes xid stat rest) 4 = some 1 ∧ wordAt (acceptedBytes xid stat rest) 8 = some 0 ∧
      opaqueEnd (acceptedBytes xid stat rest) 16 = some 20 ∧ wordAt (acceptedBytes xid stat rest) 20 = some stat.toNat := by
  have h16 : wordAt (acceptedBytes xid stat rest) 16 = some 0 :=
    @wordAt_word (Format.word xid ++ (Format.word 1 ++ (Format.word 0 ++ Format.word 0))) _ 0
  refine ⟨@wordAt_word (Format.word xid) _ 1,@wordAt_word (Format.word xid ++ Format.word 1) _ 0,?_,
    @wordAt_word (Format.word xid ++ (Format.word 1 ++ (Format.word 0 ++ (Format.word 0 ++ Format.word 0)))) rest stat⟩
  rw [Zdr.opaqueEnd_some]
  refine ⟨0,h16,?_,by decide⟩
  obtain ⟨-,hle⟩ := Zdr.wordAt_inside h16
  simpa [Zdr.sint32] using hle

/-- An accepted reply is taken for one. -/
theorem replymsg_accepted (h : libnfsAcceptedReply d (acceptedBytes xid stat rest) ⟨12,m⟩ = (.ok k,z)) :
    Zdr.zdrReplymsg d n (acceptedBytes xid stat rest) ⟨0,m⟩ = (.ok ⟨Zdr.msgAccepted,k⟩,z) := by
  obtain ⟨h4,h8,-,-⟩ := acceptedBytes_words xid stat rest
  refine Zdr.zdrReplymsg_ok.mpr (.inr ⟨h4,?_⟩)
  rw [Zdr.libnfsRpcReplyBody,Dec.bind_ok]
  refine ⟨Zdr.msgAccepted,_,(Zdr.zdrUInt_eq_ok _).mpr ⟨h8,rfl⟩,?_⟩
  rw [if_pos rfl,Dec.bind_ok]
  exact ⟨k,z,h,(Dec.pure_ok _ _).mpr ⟨rfl,rfl⟩⟩

/-- The decoder behind the verifier and the status -/
theorem acceptedReply_behind {f : ℕ → Dec ℕ} (hf : libnfsAcceptedReply d = Zdr.libnfsOpaqueVerf >>= fun _ => Zdr.zdrUInt >>= f)
    (h : f stat.toNat (acceptedBytes xid stat rest) ⟨24,m⟩ = (.ok k,z)) :
    libnfsAcceptedReply d (acceptedBytes xid stat rest) ⟨12,m⟩ = (.ok k,z) := by
  obtain ⟨-,-,h16,h20⟩ := acceptedBytes_words xid stat rest
  rw [hf,Dec.bind_ok]
  refine ⟨(),_,(Zdr.libnfsOpaqueVerf_ok (by norm_num)).mpr ⟨20,h16,rfl⟩,?_⟩
  exact (Dec.bind_ok _).mpr ⟨stat.toNat,_,(Zdr.zdrUInt_eq_ok _).mpr ⟨h20,rfl⟩,h⟩

/-- Results that the decoder of the PDU takes are what the callback gets. -/
theorem answer_results (h : p.zdrDecodeFn (acceptedBytes xid 0 rs) ⟨24,p.decodeMem⟩ = (.ok (),z)) :
    Rpc.answer p (acceptedBytes xid 0 rs) = (.success,Rpc.decoded { p with
      zdrDecodeBuf := p.zdrDecodeBuf || decide (0 < p.zdrDecodeBufsize)
      decodeMem := z.store } (acceptedBytes xid 0 rs)) := by
  have hacc : libnfsAcceptedReply p.zdrDecodeFn (acceptedBytes xid 0 rs) ⟨12,p.decodeMem⟩ = (.ok 0,z) := by
    refine acceptedReply_behind rfl ?_
    rw [if_pos (show UInt32.toNat 0 = Zdr.acceptSuccess from rfl),Dec.bind_ok]
    exact ⟨(),z,h,(Dec.pure_ok _ _).mpr ⟨rfl,rfl⟩⟩
  rw [Rpc.answer,replymsg_accepted hacc]
  rfl

/-- The message of an error reply -/
theorem errorMsg_bytes (xid : UInt32) (err : AcceptStat) (low high : Int32) :
    ∃ rest, (Format.rpcMsg true noResults).bytes (errorMsg xid err low high) = acceptedBytes xid (UInt32.ofNat err.num) rest ∧
      (err = .progMismatch → rest.length = 8) := by
  cases err with
  | progUnavail => exact ⟨[],rfl,by simp⟩
  | progMismatch => exact ⟨_,rfl,fun _ => rfl⟩
  | procUnavail => exact ⟨[],rfl,by simp⟩
  | garbageArgs => exact ⟨[],rfl,by simp⟩

/-- The callback is told of an error. -/
theorem answer_refusal (p : Pdu) (xid : UInt32) (err : AcceptStat) (low high : Int32) :
    Rpc.answer p ((Format.rpcMsg true noResults).bytes (errorMsg xid err low high)) = (.error,.text (Rpc.acceptStatText err.num)) := by
  obtain ⟨rest,hb,hlen⟩ := errorMsg_bytes xid err low high
  have hacc : ∃ z, libnfsAcceptedReply p.zdrDecodeFn (acceptedBytes xid (UInt32.ofNat err.num) rest) ⟨12,p.decodeMem⟩ =
      (.ok err.num,z) := by
    cases err with
    | progMismatch =>
      have hwords : (acceptedBytes xid 2 rest).length = 32 := by
        have hr := hlen rfl
        simp [acceptedBytes,Format.word,Format.auth,Format.sized,padLen,hr]
      obtain ⟨a,ha⟩ := Zdr.wordAt_of_inside (acceptedBytes xid 2 rest) 24 (by norm_num) (by rw [hwords]; norm_num)
      obtain ⟨b,hb⟩ := Zdr.wordAt_of_inside (acceptedBytes xid 2 rest) 28 (by norm_num) (by rw [hwords]; norm_num)
      refine ⟨⟨32,p.decodeMem⟩,acceptedReply_behind rfl ?_⟩
      have h2 : (UInt32.ofNat AcceptStat.progMismatch.num).toNat = Zdr.acceptProgMismatch := rfl
      rw [h2,if_neg (by decide),if_pos rfl,Dec.bind_ok]
      refine ⟨a,_,(Zdr.zdrUInt_eq_ok a).mpr ⟨ha,rfl⟩,(Dec.bind_ok _).mpr ⟨b,_,(Zdr.zdrUInt_eq_ok b).mpr ⟨hb,rfl⟩,?_⟩⟩
      exact (Dec.pure_ok _ _).mpr ⟨rfl,rfl⟩
    | _ =>
      refine ⟨⟨24,p.decodeMem⟩,acceptedReply_behind rfl ?_⟩
      rw [if_neg (by decide +kernel),if_neg (by decide +kernel)]
      exact (Dec.pure_ok _ _).mpr ⟨rfl,rfl⟩
  obtain ⟨z,hz⟩ := hacc
  rw [hb,Rpc.answer,replymsg_accepted hz]
  cases err <;> rfl

end Answering

section Between

open Rpc (Numbered KeepsHalfSent Arrival Progress)

/-- What the log has of a record whose PDU is no zero-copy READ -/
theorem Rpc.Arrival.entries_plain {a : Arrival} (h : a.found = some p) (hc : p.cursor = none) :
    a.entries = [.record a.body,.callback p.id (Rpc.answer p a.body).1 (Rpc.answer p a.body).2] := by
  have hhead : Rpc.headOf p a.body = a.body := by
    rw [Rpc.headOf,hc]
    rfl
  rw [Rpc.Arrival.entries,h,Option.elim_some,hhead]
  rfl

variable {cfg : Rpc.Config} {handler : Handler α β} {Q : ServerContext.Spec α} {es0 es : List Event} {app : β}
  {as : List Arrival} {g : Progress} {v : ServerContext α β} {a : Arrival}

end Between

section Demo

open ServerContext (demoHandler demoEndpoint)

/-- The call of the NULL procedure that the client of the conversation makes -/
def demoNullCall : CallBody := ⟨2,1,1,0,⟨0,[]⟩,⟨0,[]⟩⟩

def demoAskPdu : Pdu := (demoBehind.lookup 1).1.getD (demoAsk.pdu 0 1)

def demoArrival : Rpc.Arrival := demoBehind.inTwo demoHd demoAnswer

theorem demo_found : demoArrival.found = some demoAskPdu := by
  have hsome : (demoBehind.lookup 1).1.isSome = true := by decide +kernel
  have hx : be32 demoAnswer = 1 := by decide
  show (demoBehind.lookup (be32 demoAnswer)).1 = some demoAskPdu
  rw [hx,demoAskPdu]
  obtain ⟨p,hp⟩ := Option.isSome_iff_exists.1 hsome
  rw [hp,Option.getD_some]

/-- The server, when it has replied -/
def demoListener : ServerContext Unit ℕ :=
  (((ServerContext.init 0).step demoHandler (.register demoEndpoint)).step demoHandler demoCalled).step demoHandler demoReplies

set_option maxRecDepth 20000 in
theorem demo_endpoints : demoListener.endpoints = [demoEndpoint] := rfl

theorem demo_understands {endpoints : List (Endpoint Unit)} {q : ServiceProc Unit} (h : endpoints <:+ demoListener.endpoints)
    (ht : target endpoints (.call 1 demoNullCall) = some q) : Understands q [] () := by
  have hq : q = ⟨0,pure (),0⟩ := by
    rw [demo_endpoints] at h
    rcases List.suffix_cons_iff.1 h with rfl | h
    · exact (Option.some.inj ht).symm
    · rw [List.suffix_nil.1 h] at ht
      simp [target,serving] at ht
  subst hq
  exact ⟨fun _ => [],reads_pure (),fun _ => allocated_nil⟩

end Demo

end Libnfs
