import Libnfs.ReaderSpec
import Libnfs.Service

/-! Which bytes `rpc_process_reply` takes for a call that succeeded, by the words of the record
alone. The message decoder fills a union by the direction word, and the result is read as a reply
whichever variant was decoded. -/
namespace Libnfs
namespace Zdr

open ByteWords

variable {α β : Type} {buf : List UInt8} {z z' : State}

namespace Dec

variable {m : Dec α} {f : α → Dec β}

/-- The decoder loads a word outside the buffer. -/
def Faults (m : Dec α) (buf : List UInt8) (z : State) : Prop := (m buf z).1 = .fault

theorem bind_ok (b : β) : (m >>= f) buf z = (.ok b,z') ↔
    ∃ a y, m buf z = (.ok a,y) ∧ f a buf y = (.ok b,z') := by
  change Dec.bind m f buf z = _ ↔ _
  unfold Dec.bind
  rcases m buf z with ⟨r,y⟩
  cases r <;> simp

theorem bind_faults : (m >>= f).Faults buf z ↔
    m.Faults buf z ∨ ∃ a y, m buf z = (.ok a,y) ∧ (f a).Faults buf y := by
  change (Dec.bind m f buf z).1 = _ ↔ (m buf z).1 = _ ∨ _
  unfold Dec.bind Faults
  rcases m buf z with ⟨r,y⟩
  cases r <;> simp

theorem pure_ok (a b : α) : (Pure.pure a : Dec α) buf z = (.ok b,z') ↔ a = b ∧ z = z' := by
  change ((Res.ok a,z) : Res α × State) = _ ↔ _
  simp

theorem pure_faults (a : α) : ¬ (Pure.pure a : Dec α).Faults buf z := by
  change ¬ Res.ok a = Res.fault
  simp

end Dec

open Dec hiding pure bind

/-- The word at `pos`, when all of it is in the buffer. -/
def wordAt (buf : List UInt8) (pos : ℤ) : Option ℕ :=
  if 0 ≤ pos ∧ pos+4 ≤ buf.length then some (be32 (buf.drop pos.toNat)) else none

/-- Where the bytes end whose length word is at `pos`. -/
def opaqueEnd (buf : List UInt8) (pos : ℤ) : Option ℤ :=
  (wordAt buf pos).bind fun n =>
    if pos+4+sint32 n ≤ buf.length then some ((pos+4+sint32 n+3)/4*4) else none

theorem wordAt_inside {pos : ℤ} {n : ℕ} (h : wordAt buf pos = some n) :
    0 ≤ pos ∧ pos+4 ≤ buf.length := by
  unfold wordAt at h
  split at h
  · assumption
  · simp at h

theorem wordAt_of_inside (buf : List UInt8) (pos : ℤ) (h0 : 0 ≤ pos) (h4 : pos+4 ≤ buf.length) :
    ∃ n, wordAt buf pos = some n := ⟨_,if_pos ⟨h0,h4⟩⟩

theorem opaqueEnd_some {pos e : ℤ} : opaqueEnd buf pos = some e ↔
    ∃ n, wordAt buf pos = some n ∧ pos+4+sint32 n ≤ buf.length ∧ (pos+4+sint32 n+3)/4*4 = e := by
  simp [opaqueEnd,Option.bind_eq_some_iff,Option.ite_none_right_eq_some]

theorem zdrUInt_eq_ok (n : ℕ) : zdrUInt buf z = (.ok n,z') ↔
    wordAt buf z.pos = some n ∧ z' = ⟨z.pos+4,z.store⟩ := by
  constructor
  · intro h
    obtain ⟨h0,h4,rfl,rfl⟩ := zdrUInt_ok h
    exact ⟨if_pos ⟨h0,h4⟩,rfl⟩
  · rintro ⟨h,rfl⟩
    obtain ⟨h0,h4⟩ := wordAt_inside h
    rw [wordAt,if_pos ⟨h0,h4⟩,Option.some.injEq] at h
    rw [zdrUInt,if_neg (by omega),if_neg (by omega),h]

theorem zdrUInt_faults : zdrUInt.Faults buf z ↔ z.pos < 0 ∧ z.pos+4 ≤ buf.length := by
  unfold Faults zdrUInt
  split
  · simp only [reduceCtorEq,false_iff]
    omega
  · split
    · simp only [true_iff]
      omega
    · simp only [reduceCtorEq,false_iff]
      omega

theorem zdrBytes_eq_ok (s : Slice) : zdrBytes buf z = (.ok s,z') ↔
    ∃ n e, wordAt buf z.pos = some n ∧ opaqueEnd buf z.pos = some e ∧ s = ⟨z.pos+4,n⟩ ∧
      z' = ⟨e,z.store⟩ := by
  refine (bind_ok s).trans ?_
  simp only [zdrUInt_eq_ok,opaqueEnd_some]
  constructor
  · rintro ⟨n,_,⟨hn,rfl⟩,h⟩
    dsimp only at h
    split at h
    · simp at h
    · rename_i hlen
      simp only [Prod.mk.injEq,Res.ok.injEq] at h
      exact ⟨n,_,hn,⟨n,hn,by omega,rfl⟩,h.1.symm,h.2.symm⟩
  · rintro ⟨n,_,hn,⟨k,hk,hlen,rfl⟩,rfl,rfl⟩
    obtain rfl : n = k := Option.some.inj (hn.symm.trans hk)
    exact ⟨n,_,⟨hn,rfl⟩,by rw [if_neg (by simpa using hlen)]⟩

theorem zdrBytes_faults (h : 0 ≤ z.pos) : ¬ zdrBytes.Faults buf z := by
  refine fun hf => (bind_faults.mp hf).elim ?_ ?_
  · rw [zdrUInt_faults]
    omega
  · simp only [zdrUInt_eq_ok]
    rintro ⟨n,_,⟨-,rfl⟩,hf⟩
    unfold Faults at hf
    dsimp only at hf
    split at hf <;> simp at hf

theorem libnfsOpaqueVerf_ok (h : 0 ≤ z.pos) : libnfsOpaqueVerf buf z = (.ok (),z') ↔
    ∃ e, opaqueEnd buf (z.pos+4) = some e ∧ z' = ⟨e,z.store⟩ := by
  simp only [libnfsOpaqueVerf,bind_ok,zdrUInt_eq_ok,zdrBytes_eq_ok,pure_ok]
  constructor
  · rintro ⟨_,_,⟨-,rfl⟩,_,_,⟨n,e,-,he,-,rfl⟩,-,rfl⟩
    exact ⟨e,he,rfl⟩
  · rintro ⟨e,he,rfl⟩
    obtain ⟨n,hn,-⟩ := opaqueEnd_some.mp he
    obtain ⟨-,h4⟩ := wordAt_inside hn
    obtain ⟨k,hk⟩ := wordAt_of_inside buf _ h (by omega)
    exact ⟨k,_,⟨hk,rfl⟩,_,_,⟨n,e,hn,he,rfl,rfl⟩,trivial,rfl⟩

theorem libnfsOpaqueVerf_faults (h : 0 ≤ z.pos) : ¬ libnfsOpaqueVerf.Faults buf z := by
  simp only [libnfsOpaqueVerf,bind_faults,zdrUInt_faults,zdrUInt_eq_ok,pure_faults,and_false,
    exists_false,or_false]
  rintro (⟨h0,-⟩ | ⟨n,_,⟨hn,rfl⟩,hf⟩)
  · omega
  · exact zdrBytes_faults (by dsimp only; omega) hf

/-- The accept status at `pos` is SUCCESS, and the results behind it decode. -/
def ResultsAt (proc : Dec Unit) (mem : DecodeBuf) (buf : List UInt8) (pos : ℤ) : Prop :=
  wordAt buf pos = some acceptSuccess ∧ ∃ z, proc buf ⟨pos+4,mem⟩ = (.ok (),z)

/-- The verifier of `n` bytes is in the record, and a successful result follows it. -/
def VerifierThenResults (proc : Dec Unit) (mem : DecodeBuf) (buf : List UInt8) (n : ℕ) : Prop :=
  20+n ≤ buf.length ∧ ResultsAt proc mem buf ((20+n+3)/4*4 : ℕ)

/-- The record is an accepted reply with status SUCCESS whose results decode. -/
def Succeeds (proc : Dec Unit) (mem : DecodeBuf) (buf : List UInt8) : Prop :=
  wordAt buf 4 = some msgReply ∧ wordAt buf 8 = some msgAccepted ∧
    ∃ n, wordAt buf 16 = some n ∧ VerifierThenResults proc mem buf n

/-- The record is a reply whose verifier claims 2^31 bytes or more, and the decoder finds SUCCESS
and a result further to the front. -/
def MisreadVerifier (proc : Dec Unit) (mem : DecodeBuf) (buf : List UInt8) : Prop :=
  wordAt buf 4 = some msgReply ∧ wordAt buf 8 = some msgAccepted ∧
    ∃ n pos, wordAt buf 16 = some n ∧ 2^31 ≤ n ∧ opaqueEnd buf 16 = some pos ∧
      ResultsAt proc mem buf pos ∧ ¬ VerifierThenResults proc mem buf n

/-- The record is a CALL whose RPC version word is that of an accepted reply and whose verifier
has the flavor word of SUCCESS; the verifier fits the storage for the results. -/
def MisreadCall (bufsize : ℕ) (buf : List UInt8) : Prop :=
  wordAt buf 4 = some msgCall ∧ wordAt buf 8 = some msgAccepted ∧
    ∃ pos, opaqueEnd buf 28 = some pos ∧ wordAt buf pos = some acceptSuccess ∧
      ∃ n, wordAt buf (pos+4) = some n ∧ (opaqueEnd buf (pos+4)).isSome ∧
        (bufsize = 0 ∨ n ≤ bufsize)

/-- A length word of 2^31 or more takes the decoder of a reply in front of the buffer, or the
decoder of the results faults. -/
def ReplyFaults (proc : Dec Unit) (mem : DecodeBuf) (buf : List UInt8) : Prop :=
  wordAt buf 4 = some msgReply ∧ wordAt buf 8 = some msgAccepted ∧
    ∃ pos, opaqueEnd buf 16 = some pos ∧
      (pos < 0 ∨ wordAt buf pos = some acceptSuccess ∧ proc.Faults buf ⟨pos+4,mem⟩)

/-- So does that of a CALL, or the verifier does not fit the storage for the results. -/
def CallFaults (bufsize : ℕ) (buf : List UInt8) : Prop :=
  wordAt buf 4 = some msgCall ∧ ∃ pos, opaqueEnd buf 28 = some pos ∧
    (pos < 0 ∨ ∃ n, wordAt buf (pos+4) = some n ∧ (opaqueEnd buf (pos+4)).isSome ∧
      0 < bufsize ∧ bufsize < n)

/-- What the decoder is asked: whether it faults, and whether it says that the call succeeded. -/
def SaysSuccess (m : Dec Reply) (buf : List UInt8) (z : State) : Prop :=
  ∃ msg z', m buf z = (.ok msg,z') ∧ msg.stat = msgAccepted ∧ msg.astat = acceptSuccess

theorem opaqueEnd_le {pos e : ℤ} (h : opaqueEnd buf pos = some e) :
    0 ≤ pos ∧ pos+4 ≤ buf.length ∧ e ≤ buf.length+3 := by
  obtain ⟨n,hn,hlen,rfl⟩ := opaqueEnd_some.mp h
  have hin := wordAt_inside hn
  omega

variable {proc : Dec Unit} {mem : DecodeBuf} {bufsize : ℕ}

theorem zdrUInt_safe (h : 0 ≤ z.pos) : ¬ zdrUInt.Faults buf z := by
  rw [zdrUInt_faults]
  omega

/-- Two words that are decoded at a position in the buffer do not fault. -/
theorem twoWords_safe (h : 0 ≤ z.pos) (a : α) :
    ¬ (do let _ ← zdrUInt; let _ ← zdrUInt; pure a : Dec α).Faults buf z := by
  simp only [bind_faults,zdrUInt_safe h,zdrUInt_eq_ok,pure_faults,and_false,exists_false,or_false,
    false_or]
  rintro ⟨_,_,⟨-,rfl⟩,hf⟩
  exact zdrUInt_safe (by dsimp only; omega) hf

theorem libnfsRejectedReply_safe (h : 0 ≤ z.pos) : ¬ libnfsRejectedReply.Faults buf z := by
  simp only [libnfsRejectedReply,bind_faults,zdrUInt_safe h,zdrUInt_eq_ok,false_or]
  rintro ⟨n,_,⟨-,rfl⟩,hf⟩
  split at hf
  · exact twoWords_safe (by dsimp only; omega) () hf
  · split at hf
    · simp only [bind_faults,pure_faults,and_false,exists_false,or_false] at hf
      exact zdrUInt_safe (by dsimp only; omega) hf
    · exact pure_faults () hf

theorem libnfsAcceptedReply_ok (h : 0 ≤ z.pos) :
    (∃ z', libnfsAcceptedReply proc buf z = (.ok acceptSuccess,z')) ↔
      ∃ pos, opaqueEnd buf (z.pos+4) = some pos ∧ wordAt buf pos = some acceptSuccess ∧
        ∃ z', proc buf ⟨pos+4,z.store⟩ = (.ok (),z') := by
  simp only [libnfsAcceptedReply,bind_ok,libnfsOpaqueVerf_ok h,zdrUInt_eq_ok]
  constructor
  · rintro ⟨z',_,_,⟨pos,he,rfl⟩,n,_,⟨hn,rfl⟩,hr⟩
    refine ⟨pos,he,?_⟩
    split at hr
    · rename_i hs
      simp only [bind_ok] at hr
      obtain ⟨_,y,hp,-⟩ := hr
      exact ⟨hs ▸ hn,y,hp⟩
    · rename_i hs
      exfalso
      split at hr
      · simp only [bind_ok,pure_ok] at hr
        obtain ⟨_,_,-,_,_,-,heq,-⟩ := hr
        exact hs heq
      · rw [pure_ok] at hr
        exact hs hr.1
  · rintro ⟨pos,he,hs,z',hp⟩
    refine ⟨z',(),_,⟨pos,he,rfl⟩,acceptSuccess,_,⟨hs,rfl⟩,?_⟩
    rw [if_pos rfl,bind_ok]
    exact ⟨(),z',hp,(pure_ok _ _).mpr ⟨rfl,rfl⟩⟩

theorem libnfsAcceptedReply_faults (h : 0 ≤ z.pos) : (libnfsAcceptedReply proc).Faults buf z ↔
    ∃ pos, opaqueEnd buf (z.pos+4) = some pos ∧
      (pos < 0 ∨ wordAt buf pos = some acceptSuccess ∧ proc.Faults buf ⟨pos+4,z.store⟩) := by
  simp only [libnfsAcceptedReply,bind_faults,libnfsOpaqueVerf_faults h,false_or,
    libnfsOpaqueVerf_ok h,zdrUInt_faults,zdrUInt_eq_ok]
  constructor
  · rintro ⟨_,_,⟨pos,he,rfl⟩,⟨hneg,-⟩ | ⟨n,_,⟨hn,rfl⟩,hf⟩⟩
    · exact ⟨pos,he,.inl hneg⟩
    · refine ⟨pos,he,.inr ?_⟩
      have hin := wordAt_inside hn
      split at hf
      · rename_i hs
        simp only [bind_faults,pure_faults,and_false,exists_false,or_false] at hf
        exact ⟨hs ▸ hn,hf⟩
      · exfalso
        split at hf
        · exact twoWords_safe (by dsimp only at hin ⊢; omega) n hf
        · exact pure_faults n hf
  · rintro ⟨pos,he,hpos⟩
    refine ⟨(),_,⟨pos,he,rfl⟩,?_⟩
    rcases hpos with hneg | ⟨hs,hf⟩
    · have hlen := opaqueEnd_le he
      exact .inl ⟨hneg,by dsimp only; omega⟩
    · refine .inr ⟨acceptSuccess,_,⟨hs,rfl⟩,?_⟩
      rw [if_pos rfl,bind_faults]
      exact .inl hf

theorem libnfsRpcReplyBody_success : SaysSuccess (libnfsRpcReplyBody proc) buf ⟨8,mem⟩ ↔
    wordAt buf 8 = some msgAccepted ∧ ∃ pos, opaqueEnd buf 16 = some pos ∧
      wordAt buf pos = some acceptSuccess ∧ ∃ z, proc buf ⟨pos+4,mem⟩ = (.ok (),z) := by
  have hacc := @libnfsAcceptedReply_ok buf ⟨12,mem⟩ proc (by norm_num)
  rw [show (16 : ℤ) = 12+4 by norm_num,← hacc]
  simp only [SaysSuccess,libnfsRpcReplyBody,bind_ok,zdrUInt_eq_ok]
  constructor
  · rintro ⟨msg,z',⟨n,_,⟨hn,rfl⟩,hr⟩,hstat,hastat⟩
    split at hr
    · rename_i hs
      simp only [bind_ok,pure_ok] at hr
      obtain ⟨a,y,ha,rfl,-⟩ := hr
      obtain rfl : a = acceptSuccess := hastat
      exact ⟨hs ▸ hn,y,ha⟩
    · rename_i hs
      exfalso
      split at hr
      · simp only [bind_ok,pure_ok] at hr
        obtain ⟨_,_,-,rfl,-⟩ := hr
        exact hs hstat
      · simp [Dec.fail] at hr
  · rintro ⟨hs,z',ha⟩
    refine ⟨⟨msgAccepted,acceptSuccess⟩,z',⟨msgAccepted,_,⟨hs,rfl⟩,?_⟩,rfl,rfl⟩
    rw [if_pos rfl,bind_ok]
    exact ⟨acceptSuccess,z',ha,(pure_ok _ _).mpr ⟨rfl,rfl⟩⟩

theorem libnfsRpcReplyBody_faults : (libnfsRpcReplyBody proc).Faults buf ⟨8,mem⟩ ↔
    wordAt buf 8 = some msgAccepted ∧ ∃ pos, opaqueEnd buf 16 = some pos ∧
      (pos < 0 ∨ wordAt buf pos = some acceptSuccess ∧ proc.Faults buf ⟨pos+4,mem⟩) := by
  have hacc := @libnfsAcceptedReply_faults buf ⟨12,mem⟩ proc (by norm_num)
  rw [show (16 : ℤ) = 12+4 by norm_num,← hacc]
  simp only [libnfsRpcReplyBody,bind_faults,zdrUInt_eq_ok]
  constructor
  · rintro (hf | ⟨n,_,⟨hn,rfl⟩,hf⟩)
    · exact absurd hf (zdrUInt_safe (by norm_num))
    · split at hf
      · rename_i hs
        simp only [bind_faults,pure_faults,and_false,exists_false,or_false] at hf
        exact ⟨hs ▸ hn,hf⟩
      · exfalso
        split at hf
        · simp only [bind_faults,pure_faults,and_false,exists_false,or_false] at hf
          exact libnfsRejectedReply_safe (by norm_num) hf
        · simp [Dec.fail,Faults] at hf
  · rintro ⟨hs,hf⟩
    refine .inr ⟨msgAccepted,_,⟨hs,rfl⟩,?_⟩
    rw [if_pos rfl,bind_faults]
    exact .inl hf

/-- The words in front of the credential are in the buffer when its length word is. -/
theorem callWords {pos : ℤ} (h : opaqueEnd buf 28 = some pos) :
    ∃ rpcvers prog vers proc flavor, wordAt buf 8 = some rpcvers ∧ wordAt buf 12 = some prog ∧
      wordAt buf 16 = some vers ∧ wordAt buf 20 = some proc ∧ wordAt buf 24 = some flavor := by
  have hin := opaqueEnd_le h
  obtain ⟨rpcvers,h8⟩ := wordAt_of_inside buf 8 (by norm_num) (by omega)
  obtain ⟨prog,h12⟩ := wordAt_of_inside buf 12 (by norm_num) (by omega)
  obtain ⟨vers,h16⟩ := wordAt_of_inside buf 16 (by norm_num) (by omega)
  obtain ⟨proc,h20⟩ := wordAt_of_inside buf 20 (by norm_num) (by omega)
  obtain ⟨flavor,h24⟩ := wordAt_of_inside buf 24 (by norm_num) (by omega)
  exact ⟨rpcvers,prog,vers,proc,flavor,h8,h12,h16,h20,h24⟩

/-- The call up to the end of its credential, and `m` behind it. -/
def callHead (m : ℕ → Dec β) : Dec β := do
  let rpcvers ← zdrUInt
  let _prog ← zdrUInt
  let _vers ← zdrUInt
  let _proc ← zdrUInt
  let _flavor ← zdrUInt
  let _cred ← zdrBytes
  m rpcvers

theorem callHead_ok {m : ℕ → Dec β} {b : β} : callHead m buf ⟨8,mem⟩ = (.ok b,z') ↔
    ∃ rpcvers pos, wordAt buf 8 = some rpcvers ∧ opaqueEnd buf 28 = some pos ∧
      m rpcvers buf ⟨pos,mem⟩ = (.ok b,z') := by
  simp only [callHead,bind_ok,zdrUInt_eq_ok,zdrBytes_eq_ok]
  constructor
  · rintro ⟨rpcvers,_,⟨h8,rfl⟩,_,_,⟨-,rfl⟩,_,_,⟨-,rfl⟩,_,_,⟨-,rfl⟩,_,_,⟨-,rfl⟩,_,_,
      ⟨n,pos,-,he,-,rfl⟩,hm⟩
    exact ⟨rpcvers,pos,h8,he,hm⟩
  · rintro ⟨rpcvers,pos,h8,he,hm⟩
    obtain ⟨n,hn,-⟩ := opaqueEnd_some.mp he
    obtain ⟨_,prog,vers,proc,flavor,-,h12,h16,h20,h24⟩ := callWords he
    exact ⟨rpcvers,_,⟨h8,rfl⟩,prog,_,⟨h12,rfl⟩,vers,_,⟨h16,rfl⟩,proc,_,⟨h20,rfl⟩,flavor,_,⟨h24,rfl⟩,
      _,_,⟨n,pos,hn,he,rfl,rfl⟩,hm⟩

theorem callHead_faults {m : ℕ → Dec β} : (callHead m).Faults buf ⟨8,mem⟩ ↔
    ∃ rpcvers pos, wordAt buf 8 = some rpcvers ∧ opaqueEnd buf 28 = some pos ∧
      (m rpcvers).Faults buf ⟨pos,mem⟩ := by
  simp only [callHead,bind_faults,zdrUInt_eq_ok,zdrBytes_eq_ok]
  constructor
  · rintro (hf | ⟨rpcvers,_,⟨h8,rfl⟩,hf | ⟨_,_,⟨-,rfl⟩,hf | ⟨_,_,⟨-,rfl⟩,hf | ⟨_,_,⟨-,rfl⟩,hf |
      ⟨_,_,⟨-,rfl⟩,hf | ⟨_,_,⟨n,pos,-,he,-,rfl⟩,hm⟩⟩⟩⟩⟩⟩)
    · exact absurd hf (zdrUInt_safe (by norm_num))
    · exact absurd hf (zdrUInt_safe (by norm_num))
    · exact absurd hf (zdrUInt_safe (by norm_num))
    · exact absurd hf (zdrUInt_safe (by norm_num))
    · exact absurd hf (zdrUInt_safe (by norm_num))
    · exact absurd hf (zdrBytes_faults (by norm_num))
    · exact ⟨rpcvers,pos,h8,he,hm⟩
  · rintro ⟨rpcvers,pos,h8,he,hm⟩
    obtain ⟨n,hn,-⟩ := opaqueEnd_some.mp he
    obtain ⟨_,prog,vers,proc,flavor,-,h12,h16,h20,h24⟩ := callWords he
    exact .inr ⟨rpcvers,_,⟨h8,rfl⟩,.inr ⟨prog,_,⟨h12,rfl⟩,.inr ⟨vers,_,⟨h16,rfl⟩,.inr ⟨proc,_,⟨h20,rfl⟩,
      .inr ⟨flavor,_,⟨h24,rfl⟩,.inr ⟨_,_,⟨n,pos,hn,he,rfl,rfl⟩,hm⟩⟩⟩⟩⟩⟩

/-- The verifier of a call, behind its flavor word. -/
def callVerf (bufsize : ℕ) (a : α) : Dec α :=
  if bufsize = 0 then do
    let _ ← zdrBytes
    pure a
  else do
    zdrBytesInto bufsize
    pure a

/-- The call behind its credential. -/
def callTail (bufsize rpcvers : ℕ) : Dec Reply := do
  let flavor ← zdrUInt
  callVerf bufsize ⟨rpcvers,flavor⟩

theorem libnfsRpcCallBody_eq : libnfsRpcCallBody bufsize = callHead (callTail bufsize) := rfl

theorem zdrBytesInto_ok : (∃ z', zdrBytesInto bufsize buf z = (.ok (),z')) ↔
    ∃ n, wordAt buf z.pos = some n ∧ (opaqueEnd buf z.pos).isSome ∧ n ≤ bufsize := by
  unfold zdrBytesInto
  simp only [Option.isSome_iff_exists,opaqueEnd_some]
  constructor
  · rintro ⟨z',h⟩
    obtain ⟨n,_,hu,hr⟩ := (bind_ok ()).mp h
    obtain ⟨hn,rfl⟩ := (zdrUInt_eq_ok n).mp hu
    dsimp only at hr
    split at hr
    · simp at hr
    · rename_i hlen
      split at hr
      · simp at hr
      · exact ⟨n,hn,⟨_,n,hn,by omega,rfl⟩,by omega⟩
  · rintro ⟨n,hn,⟨_,k,hk,hlen,-⟩,hle⟩
    obtain rfl : n = k := Option.some.inj (hn.symm.trans hk)
    refine ⟨⟨(z.pos+4+sint32 n+3)/4*4,z.store.copyOver ((buf.drop (z.pos+4).toNat).take n)⟩,
      (bind_ok ()).mpr ⟨n,_,(zdrUInt_eq_ok n).mpr ⟨hn,rfl⟩,?_⟩⟩
    dsimp only
    rw [if_neg (by omega),if_neg (by omega)]

theorem zdrBytesInto_faults (h : 0 ≤ z.pos) : (zdrBytesInto bufsize).Faults buf z ↔
    ∃ n, wordAt buf z.pos = some n ∧ (opaqueEnd buf z.pos).isSome ∧ bufsize < n := by
  unfold zdrBytesInto
  simp only [Option.isSome_iff_exists,opaqueEnd_some]
  constructor
  · intro hf
    rcases bind_faults.mp hf with hf | ⟨n,_,hu,hr⟩
    · exact absurd hf (zdrUInt_safe h)
    · obtain ⟨hn,rfl⟩ := (zdrUInt_eq_ok n).mp hu
      unfold Faults at hr
      dsimp only at hr
      split at hr
      · simp at hr
      · split at hr
        · exact ⟨n,hn,⟨_,n,hn,by omega,rfl⟩,by omega⟩
        · simp at hr
  · rintro ⟨n,hn,⟨_,k,hk,hlen,-⟩,hlt⟩
    obtain rfl : n = k := Option.some.inj (hn.symm.trans hk)
    refine bind_faults.mpr (.inr ⟨n,_,(zdrUInt_eq_ok n).mpr ⟨hn,rfl⟩,?_⟩)
    unfold Faults
    dsimp only
    rw [if_neg (by omega),if_pos hlt]

theorem callVerf_ok (a b : α) : (∃ z', callVerf bufsize a buf z = (.ok b,z')) ↔
    a = b ∧ ∃ n, wordAt buf z.pos = some n ∧ (opaqueEnd buf z.pos).isSome ∧
      (bufsize = 0 ∨ n ≤ bufsize) := by
  unfold callVerf
  by_cases h0 : bufsize = 0
  · simp only [h0,if_true,bind_ok,pure_ok,zdrBytes_eq_ok,true_or,and_true]
    constructor
    · rintro ⟨_,_,_,⟨n,pos,hn,he,-,-⟩,rfl,-⟩
      exact ⟨rfl,n,hn,by simp [he]⟩
    · rintro ⟨rfl,n,hn,he⟩
      obtain ⟨pos,he⟩ := Option.isSome_iff_exists.mp he
      exact ⟨_,_,_,⟨n,pos,hn,he,rfl,rfl⟩,rfl,rfl⟩
  · simp only [h0,if_false,bind_ok,pure_ok,false_or]
    rw [← zdrBytesInto_ok]
    constructor
    · rintro ⟨_,_,y,hy,rfl,-⟩
      exact ⟨rfl,y,hy⟩
    · rintro ⟨rfl,y,hy⟩
      exact ⟨y,(),y,hy,rfl,rfl⟩

theorem callVerf_faults (h : 0 ≤ z.pos) (a : α) : (callVerf bufsize a).Faults buf z ↔
    ∃ n, wordAt buf z.pos = some n ∧ (opaqueEnd buf z.pos).isSome ∧ 0 < bufsize ∧ bufsize < n := by
  unfold callVerf
  by_cases h0 : bufsize = 0
  · simp [h0,bind_faults,pure_faults,zdrBytes_faults h]
  · simp only [h0,if_false,bind_faults,pure_faults,and_false,exists_false,or_false,
      zdrBytesInto_faults h,Nat.pos_of_ne_zero h0,true_and]

theorem libnfsRpcCallBody_success : SaysSuccess (libnfsRpcCallBody bufsize) buf ⟨8,mem⟩ ↔
    wordAt buf 8 = some msgAccepted ∧ ∃ pos, opaqueEnd buf 28 = some pos ∧
      wordAt buf pos = some acceptSuccess ∧ ∃ n, wordAt buf (pos+4) = some n ∧
        (opaqueEnd buf (pos+4)).isSome ∧ (bufsize = 0 ∨ n ≤ bufsize) := by
  rw [libnfsRpcCallBody_eq]
  simp only [SaysSuccess,callHead_ok,callTail,bind_ok,zdrUInt_eq_ok]
  constructor
  · rintro ⟨msg,z',⟨rpcvers,pos,h8,he,flavor,_,⟨hf,rfl⟩,hv⟩,hstat,hastat⟩
    obtain ⟨rfl,hn⟩ := (callVerf_ok _ _).mp ⟨z',hv⟩
    obtain rfl : rpcvers = msgAccepted := hstat
    obtain rfl : flavor = acceptSuccess := hastat
    exact ⟨h8,pos,he,hf,hn⟩
  · rintro ⟨h8,pos,he,hf,hn⟩
    obtain ⟨z',hv⟩ := (@callVerf_ok _ buf ⟨pos+4,mem⟩ bufsize (⟨msgAccepted,acceptSuccess⟩ : Reply) _).mpr
      ⟨rfl,hn⟩
    exact ⟨_,z',⟨msgAccepted,pos,h8,he,acceptSuccess,_,⟨hf,rfl⟩,hv⟩,rfl,rfl⟩

theorem libnfsRpcCallBody_faults : (libnfsRpcCallBody bufsize).Faults buf ⟨8,mem⟩ ↔
    ∃ pos, opaqueEnd buf 28 = some pos ∧
      (pos < 0 ∨ ∃ n, wordAt buf (pos+4) = some n ∧ (opaqueEnd buf (pos+4)).isSome ∧
        0 < bufsize ∧ bufsize < n) := by
  rw [libnfsRpcCallBody_eq]
  simp only [callHead_faults,callTail,bind_faults,zdrUInt_faults,zdrUInt_eq_ok]
  constructor
  · rintro ⟨rpcvers,pos,h8,he,⟨hneg,-⟩ | ⟨flavor,_,⟨hf,rfl⟩,hv⟩⟩
    · exact ⟨pos,he,.inl hneg⟩
    · have hin := wordAt_inside hf
      exact ⟨pos,he,.inr ((callVerf_faults (by dsimp only at hin ⊢; omega) _).mp hv)⟩
  · rintro ⟨pos,he,hpos⟩
    obtain ⟨rpcvers,-,-,-,-,h8,-⟩ := callWords he
    refine ⟨rpcvers,pos,h8,he,?_⟩
    have hlen := opaqueEnd_le he
    by_cases hneg : pos < 0
    · exact .inl ⟨hneg,by omega⟩
    · rcases hpos with hpos | ⟨n,hn,hv⟩
      · exact absurd hpos hneg
      · have hin := wordAt_inside hn
        obtain ⟨flavor,hf⟩ := wordAt_of_inside buf pos (by omega) (by omega)
        exact .inr ⟨flavor,_,⟨hf,rfl⟩,(callVerf_faults (by dsimp only; omega) _).mpr ⟨n,hn,hv⟩⟩

/-- A message that decodes is the one of its direction word. -/
theorem zdrReplymsg_ok {msg : Reply} : zdrReplymsg proc bufsize buf ⟨0,mem⟩ = (.ok msg,z') ↔
    (wordAt buf 4 = some msgCall ∧ libnfsRpcCallBody bufsize buf ⟨8,mem⟩ = (.ok msg,z')) ∨
    (wordAt buf 4 = some msgReply ∧ libnfsRpcReplyBody proc buf ⟨8,mem⟩ = (.ok msg,z')) := by
  simp only [zdrReplymsg,bind_ok,zdrUInt_eq_ok]
  constructor
  · rintro ⟨_,_,⟨-,rfl⟩,d,_,⟨hd,rfl⟩,hr⟩
    split at hr
    · rename_i hcall
      exact .inl ⟨hcall ▸ hd,hr⟩
    · split at hr
      · rename_i hreply
        exact .inr ⟨hreply ▸ hd,hr⟩
      · simp [Dec.fail] at hr
  · intro h
    have hd : ∃ d, wordAt buf 4 = some d := by
      rcases h with h | h
      · exact ⟨_,h.1⟩
      · exact ⟨_,h.1⟩
    obtain ⟨d,hd⟩ := hd
    have hin := wordAt_inside hd
    obtain ⟨xid,h0⟩ := wordAt_of_inside buf 0 (by norm_num) (by omega)
    refine ⟨xid,_,⟨h0,rfl⟩,d,_,⟨hd,rfl⟩,?_⟩
    rcases h with ⟨hcall,h⟩ | ⟨hreply,h⟩
    · obtain rfl : d = msgCall := Option.some.inj (hd.symm.trans hcall)
      rw [if_pos rfl]
      exact h
    · obtain rfl : d = msgReply := Option.some.inj (hd.symm.trans hreply)
      rw [if_neg (by decide),if_pos rfl]
      exact h

theorem zdrReplymsg_faults : (zdrReplymsg proc bufsize).Faults buf ⟨0,mem⟩ ↔
    CallFaults bufsize buf ∨ ReplyFaults proc mem buf := by
  rw [CallFaults,← @libnfsRpcCallBody_faults buf mem bufsize,ReplyFaults,← libnfsRpcReplyBody_faults]
  simp only [zdrReplymsg,bind_faults,zdrUInt_eq_ok]
  constructor
  · rintro (hf | ⟨_,_,⟨-,rfl⟩,hf | ⟨d,_,⟨hd,rfl⟩,hr⟩⟩)
    · exact absurd hf (zdrUInt_safe (by norm_num))
    · exact absurd hf (zdrUInt_safe (by norm_num))
    · split at hr
      · rename_i hcall
        exact .inl ⟨hcall ▸ hd,hr⟩
      · split at hr
        · rename_i hreply
          exact .inr ⟨hreply ▸ hd,hr⟩
        · simp [Dec.fail,Faults] at hr
  · intro h
    have hd : ∃ d, wordAt buf 4 = some d := by
      rcases h with h | h
      · exact ⟨_,h.1⟩
      · exact ⟨_,h.1⟩
    obtain ⟨d,hd⟩ := hd
    have hin := wordAt_inside hd
    obtain ⟨xid,h0⟩ := wordAt_of_inside buf 0 (by norm_num) (by omega)
    refine .inr ⟨xid,_,⟨h0,rfl⟩,.inr ⟨d,_,⟨hd,rfl⟩,?_⟩⟩
    rcases h with ⟨hcall,h⟩ | ⟨hreply,h⟩
    · obtain rfl : d = msgCall := Option.some.inj (hd.symm.trans hcall)
      rw [if_pos rfl]
      exact h
    · obtain rfl : d = msgReply := Option.some.inj (hd.symm.trans hreply)
      rw [if_neg (by decide),if_pos rfl]
      exact h

/-- What the decoder takes for an accepted reply that succeeded, with the length word of the
verifier as an `int`. -/
def TakenForSuccess (proc : Dec Unit) (mem : DecodeBuf) (buf : List UInt8) : Prop :=
  wordAt buf 4 = some msgReply ∧ wordAt buf 8 = some msgAccepted ∧
    ∃ pos, opaqueEnd buf 16 = some pos ∧ ResultsAt proc mem buf pos

theorem zdrReplymsg_success : SaysSuccess (zdrReplymsg proc bufsize) buf ⟨0,mem⟩ ↔
    MisreadCall bufsize buf ∨ TakenForSuccess proc mem buf := by
  have hcall := @libnfsRpcCallBody_success buf mem bufsize
  have hreply := @libnfsRpcReplyBody_success buf proc mem
  rw [MisreadCall,← hcall,TakenForSuccess]
  simp only [ResultsAt]
  rw [← hreply]
  simp only [SaysSuccess,zdrReplymsg_ok]
  constructor
  · rintro ⟨msg,z',⟨h4,h⟩ | ⟨h4,h⟩,hmsg⟩
    · exact .inl ⟨h4,msg,z',h,hmsg⟩
    · exact .inr ⟨h4,msg,z',h,hmsg⟩
  · rintro (⟨h4,msg,z',h,hmsg⟩ | ⟨h4,msg,z',h,hmsg⟩)
    · exact ⟨msg,z',.inl ⟨h4,h⟩,hmsg⟩
    · exact ⟨msg,z',.inr ⟨h4,h⟩,hmsg⟩

/-- A length word below 2^31 is the length. -/
theorem opaqueEnd_verifier {n : ℕ} (hn : wordAt buf 16 = some n) (hlt : n < 2^31) :
    (∃ pos, opaqueEnd buf 16 = some pos ∧ ResultsAt proc mem buf pos) ↔
      VerifierThenResults proc mem buf n := by
  have hs : sint32 n = n := if_pos hlt
  have hcast : (((20+n+3)/4*4 : ℕ) : ℤ) = (16+4+(n : ℤ)+3)/4*4 := by push_cast; ring_nf
  unfold VerifierThenResults
  rw [hcast]
  simp only [opaqueEnd_some]
  constructor
  · rintro ⟨_,⟨k,hk,hlen,rfl⟩,hr⟩
    obtain rfl : n = k := Option.some.inj (hn.symm.trans hk)
    rw [hs] at hlen hr
    exact ⟨by omega,hr⟩
  · rintro ⟨hlen,hr⟩
    exact ⟨_,⟨n,hn,by rw [hs]; omega,by rw [hs]⟩,hr⟩

/-- What is taken for a reply that succeeded is one, but for the length of its verifier. -/
theorem takenForSuccess_iff : (TakenForSuccess proc mem buf → Succeeds proc mem buf) ↔
    ¬ MisreadVerifier proc mem buf := by
  constructor
  · rintro h ⟨h4,h8,n,pos,hn,hlt,he,hr,hnot⟩
    obtain ⟨-,-,k,hk,hv⟩ := h ⟨h4,h8,pos,he,hr⟩
    obtain rfl : n = k := Option.some.inj (hn.symm.trans hk)
    exact hnot hv
  · rintro h ⟨h4,h8,pos,he,hr⟩
    obtain ⟨n,hn,-⟩ := opaqueEnd_some.mp he
    refine ⟨h4,h8,n,hn,?_⟩
    by_cases hlt : n < 2^31
    · exact (opaqueEnd_verifier hn hlt).mp ⟨pos,he,hr⟩
    · by_contra hnot
      exact h ⟨h4,h8,n,pos,hn,by omega,he,hr,hnot⟩

end Zdr

open ByteWords Zdr

namespace Rpc

/-- The callback is given RPC_STATUS_SUCCESS, at once or, for a zero-copy READ, when its data
has arrived. -/
def RepliedSuccess (rpc : Rpc) (p : Pdu) (t : Rpc) (q : Pdu) : Prop :=
  (∃ data, t.log = rpc.log ++ [.callback p.id .success data]) ∨ (t.log = rpc.log ∧ q.freePdu = true)

/-- The callback is given another status. -/
def RepliedError (rpc : Rpc) (p : Pdu) (t : Rpc) (q : Pdu) : Prop :=
  (∃ status data, status ≠ .success ∧ t.log = rpc.log ++ [.callback p.id status data]) ∧
    q.freePdu = p.freePdu

/-- The bytes `buf` are classified: success is reported only for an accepted reply with status
SUCCESS whose results decode, and an error for everything else. -/
def Classified (rpc : Rpc) (p : Pdu) (buf : List UInt8) : Prop :=
  ∃ t q pos, rpc.rpcProcessReply p buf = some (t,q,pos) ∧
    (RepliedSuccess rpc p t q → Succeeds p.zdrDecodeFn p.decodeMem buf) ∧
    (¬ Succeeds p.zdrDecodeFn p.decodeMem buf → RepliedError rpc p t q)

/-- `rpc_process_reply` by what the decoder says. -/
theorem rpcProcessReply_cases (rpc : Rpc) (p : Pdu) (buf : List UInt8) :
    (rpc.rpcProcessReply p buf = none ∧
      (zdrReplymsg p.zdrDecodeFn p.zdrDecodeBufsize).Faults buf ⟨0,p.decodeMem⟩) ∨
    ∃ t q pos, rpc.rpcProcessReply p buf = some (t,q,pos) ∧
      ¬ (zdrReplymsg p.zdrDecodeFn p.zdrDecodeBufsize).Faults buf ⟨0,p.decodeMem⟩ ∧
      ((SaysSuccess (zdrReplymsg p.zdrDecodeFn p.zdrDecodeBufsize) buf ⟨0,p.decodeMem⟩ ∧
          RepliedSuccess rpc p t q) ∨
        (¬ SaysSuccess (zdrReplymsg p.zdrDecodeFn p.zdrDecodeBufsize) buf ⟨0,p.decodeMem⟩ ∧
          RepliedError rpc p t q)) := by
  unfold rpcProcessReply Dec.Faults SaysSuccess
  have hp : ∃ b, (if 0 < p.zdrDecodeBufsize then { p with zdrDecodeBuf := true } else p) =
      { p with zdrDecodeBuf := b } := by
    split
    · exact ⟨_,rfl⟩
    · exact ⟨p.zdrDecodeBuf,rfl⟩
  obtain ⟨b,hb⟩ := hp
  rw [hb]
  dsimp only
  rcases hz : zdrReplymsg p.zdrDecodeFn p.zdrDecodeBufsize buf ⟨0,p.decodeMem⟩ with ⟨r,z⟩
  cases r with
  | fault => exact .inl ⟨rfl,rfl⟩
  | fail =>
    refine .inr ⟨_,_,_,rfl,by simp,.inr ⟨by simp,?_⟩⟩
    exact ⟨⟨.error,_,by decide,rfl⟩,rfl⟩
  | ok msg =>
    refine .inr ?_
    by_cases hs : msg.stat = msgAccepted
    · by_cases ha : msg.astat = acceptSuccess
      · by_cases hc : p.cursor.isSome
        · simp only [hs,ha,hc,ne_eq,not_true_eq_false,if_false,if_true]
          exact ⟨_,_,_,rfl,by simp,.inl ⟨⟨msg,z,rfl,hs,ha⟩,.inr ⟨rfl,rfl⟩⟩⟩
        · simp only [hs,ha,hc,ne_eq,not_true_eq_false,if_false,if_true]
          exact ⟨_,_,_,rfl,by simp,.inl ⟨⟨msg,z,rfl,hs,ha⟩,.inl ⟨_,rfl⟩⟩⟩
      · simp only [hs,ha,ne_eq,not_true_eq_false,if_false]
        exact ⟨_,_,_,rfl,by simp,.inr ⟨by simp [ha],⟨.error,_,by decide,rfl⟩,rfl⟩⟩
    · simp only [hs,ne_eq,not_false_eq_true,if_true]
      exact ⟨_,_,_,rfl,by simp,.inr ⟨by simp [hs],⟨.error,_,by decide,rfl⟩,rfl⟩⟩

theorem repliedSuccess_not_error {rpc t : Rpc} {p q : Pdu} (h : RepliedSuccess rpc p t q) :
    ¬ RepliedError rpc p t q := by
  rintro ⟨⟨status,data,hne,hlog⟩,-⟩
  rcases h with ⟨data',h⟩ | ⟨h,-⟩
  · simp only [h,List.append_cancel_left_eq,List.cons.injEq,LogEntry.callback.injEq,true_and,
      and_true] at hlog
    exact hne hlog.1.symm
  · rw [h] at hlog
    simpa using congrArg List.length hlog

/-- A record is classified when the decoder stays in the buffer and does not say that another
message is a call that succeeded. -/
theorem classified_iff (rpc : Rpc) (p : Pdu) (buf : List UInt8) : Classified rpc p buf ↔
    ¬ (zdrReplymsg p.zdrDecodeFn p.zdrDecodeBufsize).Faults buf ⟨0,p.decodeMem⟩ ∧
      (SaysSuccess (zdrReplymsg p.zdrDecodeFn p.zdrDecodeBufsize) buf ⟨0,p.decodeMem⟩ →
        Succeeds p.zdrDecodeFn p.decodeMem buf) := by
  rcases rpcProcessReply_cases rpc p buf with ⟨hnone,hf⟩ | ⟨t,q,pos,hsome,hf,hcase⟩
  · constructor
    · rintro ⟨t,q,pos,h,-⟩
      rw [hnone] at h
      simp at h
    · rintro ⟨hn,-⟩
      exact absurd hf hn
  · have hcl : Classified rpc p buf ↔
        (RepliedSuccess rpc p t q → Succeeds p.zdrDecodeFn p.decodeMem buf) ∧
        (¬ Succeeds p.zdrDecodeFn p.decodeMem buf → RepliedError rpc p t q) := by
      constructor
      · rintro ⟨t',q',pos',h,hc⟩
        rw [hsome] at h
        simp only [Option.some.injEq,Prod.mk.injEq] at h
        obtain ⟨rfl,rfl,-⟩ := h
        exact hc
      · intro hc
        exact ⟨t,q,pos,hsome,hc⟩
    rw [hcl]
    rcases hcase with ⟨htold,hr⟩ | ⟨htold,hr⟩
    · constructor
      · rintro ⟨hc,-⟩
        exact ⟨hf,fun _ => hc hr⟩
      · rintro ⟨-,hs⟩
        exact ⟨fun _ => hs htold,fun hn => absurd (hs htold) hn⟩
    · exact ⟨fun _ => ⟨hf,fun h => absurd h htold⟩,
        fun _ => ⟨fun h => absurd hr (repliedSuccess_not_error h),fun _ => hr⟩⟩

theorem misread_not_succeeds {p : Pdu} {buf : List UInt8} (h : MisreadCall p.zdrDecodeBufsize buf) :
    ¬ Succeeds p.zdrDecodeFn p.decodeMem buf := by
  rintro ⟨h4,-⟩
  have heq := Option.some.inj (h.1.symm.trans h4)
  simp [msgCall,msgReply] at heq

/-- The record 1, CALL, RPC version 0, program, version and procedure 0, empty credential and
verifier, all of it zeroes but for the xid. -/
def demoCallRecord : List UInt8 := beBytes 1 ++ List.replicate 36 0

end Rpc
end Libnfs
