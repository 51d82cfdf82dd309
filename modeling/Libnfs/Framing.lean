import Libnfs.Chunking
import Libnfs.RecordMark
import Libnfs.Verdict

/-! Record framing: where the reader is in a record is where the stream is. -/
namespace Libnfs

open ByteWords Scatter Zdr Transition RecordMark

variable {P : Pdu → Prop}

namespace Rpc

/-- The record marker of RPC over TCP. -/
def marking : Format UInt8 where
  size := 4
  len h := if validMarker (be32 h) then some (be32 h-2^31) else none

/-- The reader waits for the first byte of a marker. -/
def AtMarker (s : Rpc) : Prop := s.state = .readRm ∧ s.inpos = 0

/-- The reader and the stream agree on how much of the record is left. In READ_IOVEC the count
that will be subtracted from `rm_xid[0]` is not larger than it. -/
def Tracks (s : Rpc) (pos : Pos UInt8) : Prop :=
  match s.state with
  | .readRm => pos = scan marking start (s.rmXid.take s.inpos)
  | .readPayload | .readUnknown => max 4 s.inpos < s.rm0 ∧ pos = .body (s.rm0-max 4 s.inpos)
  | .readIovec => s.inpos < s.rm0 ∧ pos = .body (s.rm0-s.inpos) ∧ ∀ p, s.pdu = some p →
      p.readCount ≤ s.rm0 ∧ ∀ c, p.cursor = some c → skip c.iov c.remaining = []
  | .readPadding => s.inpos < s.rm0 ∧ pos = .body (s.rm0-s.inpos)
  | .readFragment => False

theorem tracks_marker {s : Rpc} (h : s.AtMarker) : s.Tracks start := by
  simp [Tracks,h.1,h.2]

/-- The three states in which a body is read, with what the reader counts. -/
theorem tracks_body {s : Rpc} {k : ℕ} (hs : s.state = .readPayload ∨ s.state = .readUnknown)
    (h4 : 4 ≤ s.inpos) (hlt : s.inpos < s.rm0) (hk : k = s.rm0-s.inpos) : s.Tracks (.body k) := by
  have hmax : max 4 s.inpos = s.inpos := by omega
  rcases hs with hs | hs
  · simp [Tracks,hs,hmax,hlt,hk]
  · simp [Tracks,hs,hmax,hlt,hk]

theorem readPrep_inpos {s t : Rpc} (h : s.readPrep = some t) :
    t.state = s.state ∧ t.rmXid = s.rmXid ∧ (s.state = .readIovec → t.pdu = s.pdu) ∧
      (t.inpos = s.inpos ∨ s.inpos = 0 ∧ t.inpos = 4 ∧
        (s.state = .readPayload ∨ s.state = .readUnknown ∨ s.state = .readFragment)) := by
  obtain ⟨i,n,q,rfl,hq⟩ := readPrep_frame h
  refine ⟨rfl,rfl,?_,?_⟩
  · rintro hs
    rcases hq with rfl | ⟨hrm,-⟩
    · rfl
    · simp [hs] at hrm
  · unfold Rpc.readPrep at h
    split at h
    · rename_i h0
      cases hs : s.state with
      | readRm =>
        simp only [hs,Option.some.injEq] at h
        exact .inl (congrArg Rpc.inpos h).symm
      | readPayload =>
        simp only [hs,Option.some.injEq] at h
        exact .inr ⟨h0,(congrArg Rpc.inpos h).symm,by simp⟩
      | readIovec =>
        simp only [hs] at h
        split at h
        · exact .inl (congrArg Rpc.inpos (Option.some.inj h)).symm
        · simp at h
      | readPadding =>
        simp only [hs,Option.some.injEq] at h
        exact .inl (congrArg Rpc.inpos h).symm
      | _ =>
        simp only [hs] at h
        split at h
        · exact .inr ⟨h0,(congrArg Rpc.inpos (Option.some.inj h)).symm,by simp⟩
        · simp at h
    · exact .inl (congrArg Rpc.inpos (Option.some.inj h)).symm

theorem Tracks.prep {s t : Rpc} {pos : Pos UInt8} (h : s.Tracks pos) (ht : s.readPrep = some t) :
    t.Tracks pos := by
  obtain ⟨hst,hrm,hpdu,hi⟩ := readPrep_inpos ht
  have hrm0 : t.rm0 = s.rm0 := by rw [rm0,rm0,hrm]
  have hmax : max 4 t.inpos = max 4 s.inpos := by omega
  unfold Tracks at h ⊢
  rw [hst,hrm,hrm0,hmax]
  cases hs : s.state with
  | readPayload =>
    simp only [hs] at h ⊢
    exact h
  | readUnknown =>
    simp only [hs] at h ⊢
    exact h
  | readFragment => simp [hs] at h
  | readIovec =>
    have hin : t.inpos = s.inpos := by simpa [hs] using hi
    rw [hpdu hs,hin]
    simp only [hs] at h ⊢
    exact h
  | _ =>
    have hin : t.inpos = s.inpos := by simpa [hs] using hi
    rw [hin]
    simp only [hs] at h ⊢
    exact h

/-- A marker, and at most the xid. -/
theorem scan_marker {hd : List UInt8} (tl : List UInt8) (hh : hd.length = 4) (ht : tl.length ≤ 4) :
    scan marking start (hd++tl) =
      if validMarker (be32 hd) then .body (be32 hd-2^31-tl.length) else .broken := by
  rw [scan_append,scan_opened marking hh (by decide),opened,marking]
  dsimp only
  cases hv : validMarker (be32 hd) with
  | false => simp [scan_broken]
  | true =>
    simp only [validMarker,decide_eq_true_eq] at hv
    simp only [if_true,inBody]
    rw [if_neg (by omega),scan_body _ (by omega) (by omega),inBody,if_neg (by omega)]

/-- Between two records is where the stream is between two records. -/
theorem Tracks.marker_iff {s : Rpc} {pos : Pos UInt8} (h : s.Tracks pos) (hok : s.ReaderOk P) :
    s.AtMarker ↔ pos = start := by
  unfold Tracks at h
  cases hs : s.state with
  | readRm =>
    simp only [hs] at h
    obtain ⟨t,ht,hp⟩ := hok.prepared
    obtain ⟨hst,-,-,hi⟩ := readPrep_inpos ht
    have h8 : s.inpos < 8 := by
      have hin : t.inpos = s.inpos := by simpa [hs] using hi
      cases hp with
      | marker _ _ _ h => omega
      | stuck h => simp [hst,hs] at h
      | _ => simp_all
    have hlen : (s.rmXid.take s.inpos).length = s.inpos := by
      rw [List.length_take,hok.rmXid]
      omega
    refine ⟨fun hm => by rw [h,hm.2]; rfl,fun hpos => ⟨hs,?_⟩⟩
    by_contra h0
    rw [h,← List.take_append_drop 4 (s.rmXid.take s.inpos),scan_append] at hpos
    generalize s.rmXid.take s.inpos = got at hlen hpos
    rcases Nat.lt_or_ge got.length 4 with hlt | hge
    · have ht : got.take 4 = got := List.take_of_length_le (by omega)
      have hd : got.drop 4 = [] := List.drop_of_length_le (by omega)
      rw [ht,hd,start,scan_header marking (by simpa [marking] using hlt)] at hpos
      simp only [scan_nil,List.nil_append,Pos.header.injEq] at hpos
      rw [hpos] at hlen
      simp at hlen
      omega
    · have h4 : (got.take 4).length = 4 := by
        rw [List.length_take]
        omega
      rw [← scan_append,scan_marker _ h4 (by rw [List.length_drop]; omega)] at hpos
      split at hpos
      · simp [start] at hpos
      · simp [start] at hpos
  | readPayload =>
    simp only [hs] at h
    simp [AtMarker,hs,h.2,start]
  | readUnknown =>
    simp only [hs] at h
    simp [AtMarker,hs,h.2,start]
  | readIovec =>
    simp only [hs] at h
    simp [AtMarker,hs,h.2.1,start]
  | readPadding =>
    simp only [hs] at h
    simp [AtMarker,hs,h.2,start]
  | readFragment => simp [hs] at h

/-- The reply of `len` bytes that starts with `buf` is read to its end, or fails the connection:
no error reply and no READ that ends in `buf` is longer than `buf`, and the data of any other READ
ends with the record or before. -/
def Sound (len : ℕ) (p : Pdu) (buf : List UInt8) : Verdict → Prop
  | .crash => False
  | .lost => True
  | .done => len ≤ buf.length
  | .data count pos => ¬ Overrun (p.cursor.elim [] Cursor.ref) count ∧
      if count ≤ buf.length-pos then len ≤ buf.length else count-(buf.length-pos) ≤ len-buf.length

/-- If `r` completes the first bytes of a reply, it is one the reader gets to the end of. -/
def Clean (s : Rpc) : Recv → Prop
  | .data a => ∀ t ∈ s.readPrep, ∀ p ∈ t.pdu, t.state = .readPayload → t.inpos+a.length = t.pduSize →
      Sound t.rm0 p ((overwrite t.inbuf t.inpos a).take t.pduSize)
        (verdict t.nfsV3 p ((overwrite t.inbuf t.inpos a).take t.pduSize))
  | _ => True

instance (len : ℕ) (p : Pdu) (buf : List UInt8) (v : Verdict) : Decidable (Sound len p buf v) :=
  match v with
  | .crash => inferInstanceAs (Decidable False)
  | .lost => inferInstanceAs (Decidable True)
  | .done => inferInstanceAs (Decidable (len ≤ buf.length))
  | .data count pos => inferInstanceAs (Decidable (¬ Overrun (p.cursor.elim [] Cursor.ref) count ∧
      if count ≤ buf.length-pos then len ≤ buf.length else count-(buf.length-pos) ≤ len-buf.length))

end Rpc

/-- The turn does not fail the connection. -/
def Ctl.lasts : Ctl → Bool
  | .fail _ => false
  | _ => true

/-- The turn leaves a reader that tracks the stream, or fails the connection. -/
def Ctl.Tracks (pos : Pos UInt8) : Ctl → Prop
  | .more t => t.Tracks pos
  | .fail _ => True
  | .fault _ => False

namespace Rpc

theorem finished_tracks (s : Rpc) : s.rpcFinishedPdu.Tracks start :=
  tracks_marker ⟨rfl,rfl⟩

theorem readStore_rm0 {t u : Rpc} {a : List UInt8} (hs : t.state ≠ .readRm)
    (hu : t.readStore a = some u) : u.rm0 = t.rm0 := by
  have hrm : u.rmXid = t.rmXid := by
    unfold readStore at hu
    split at hu
    · contradiction
    · exact Option.some.inj hu ▸ rfl
    · exact Option.some.inj hu ▸ rfl
    · exact Option.some.inj hu ▸ rfl
    · exact Option.some.inj hu ▸ rfl
    · split at hu
      · simp at hu
      · split at hu
        · simp at hu
        · obtain ⟨d,-,rfl⟩ := Option.map_eq_some_iff.mp hu
          rfl
  rw [rm0,rm0,hrm]

/-- Bytes that do not complete what is asked for. -/
theorem readStore_tracks {t u : Rpc} {a : List UInt8} {pos : Pos UInt8} (h : t.Tracks pos)
    (hp : Prepared P t) (hrm : t.rmXid.length = 8) (hlt : t.inpos+a.length < t.pduSize)
    (hu : t.readStore a = some u) : u.Tracks (scan marking pos a) := by
  obtain ⟨hi,hsz⟩ := readStore_frame hu
  obtain ⟨-,hst⟩ := readStore_shared hu
  have hbody : ∀ {k m : ℕ}, 0 < k → a.length < k → m = k-a.length →
      scan marking (.body k) a = .body m := by
    intro k m hk hak hm
    rw [scan_body marking hk (by omega),inBody,if_neg (by omega),hm]
  unfold Tracks at h
  cases hp with
  | marker hs _ _ hi8 =>
    simp only [hs] at h
    obtain ⟨hx,-⟩ := readStore_marker hs hu
    unfold Tracks
    rw [hst,hs]
    dsimp only
    rw [hx,hi,take_overwrite _ _ _ (by omega),scan_append,← h]
  | payload p hs hpp ok hsize hsz' hi4 =>
    simp only [hs] at h
    have hrm0 := readStore_rm0 (by simp [hs]) hu
    have hle : t.pduSize ≤ t.rm0 := by
      rw [hsz']
      split
      · exact min_le_left _ _
      · exact le_refl _
    have hmax : max 4 t.inpos = t.inpos := by omega
    rw [hmax] at h
    rw [h.2,hbody (m := u.rm0-u.inpos) (by omega) (by omega) (by omega)]
    exact tracks_body (.inl (hst.trans hs)) (by omega) (by omega) rfl
  | unknown hs hpn hsz' hi4 =>
    simp only [hs] at h
    have hrm0 := readStore_rm0 (by simp [hs]) hu
    have hmax : max 4 t.inpos = t.inpos := by omega
    rw [hmax] at h
    rw [h.2,hbody (m := u.rm0-u.inpos) (by omega) (by omega) (by omega)]
    exact tracks_body (.inr (hst.trans hs)) (by omega) (by omega) rfl
  | iovec p c hs hpp ok hc hr hlt' hcount =>
    simp only [hs] at h
    have hrm0 := readStore_rm0 (by simp [hs]) hu
    obtain ⟨h1,h2,h3⟩ := h
    obtain ⟨hcnt,hskip⟩ := h3 p hpp
    rw [readStore_eq_iovec hs hpp hc,Cursor.rpcAdvanceCursor_of_lt c (ok.cursor c hc) _ (by omega),
      Option.map_some,Option.some.injEq] at hu
    unfold Tracks
    rw [hst,hs]
    dsimp only
    refine ⟨by omega,by rw [h2,hbody (m := u.rm0-u.inpos) (by omega) (by omega) (by omega)],?_⟩
    intro q hq
    rw [← hu,storedIovec,Option.some.injEq] at hq
    subst hq
    refine ⟨by rw [hrm0]; exact hcnt,fun d hd => ?_⟩
    rw [← Option.some.inj hd]
    have hsum : a.length+(c.remaining-a.length) = c.remaining := by omega
    simp only [Cursor.advanced,skip_skip,hsum]
    exact hskip c hc
  | padding p hs hpp ok hsz' =>
    simp only [hs] at h
    have hrm0 := readStore_rm0 (by simp [hs]) hu
    unfold Tracks
    rw [hst,hs]
    dsimp only
    exact ⟨by omega,by rw [h.2,hbody (m := u.rm0-u.inpos) (by omega) (by omega) (by omega)]⟩
  | stuck hs hpos hsz' => omega

theorem matchRecord_tracks {v : Rpc} {size x : ℕ} (hw : 0 < v.waitpdu.length)
    (hs : v.state = .readPayload) (hrm : v.rm0 = size) (h8 : 8 ≤ size) :
    (v.matchRecord size x).Tracks (.body (size-4)) := by
  unfold matchRecord
  split
  · rename_i p t hf
    obtain ⟨-,q,w,n,rfl,-⟩ := rpcFindPdu_some hw hf
    split
    · trivial
    · rename_i y hy
      obtain ⟨m,rfl,-⟩ := adjustInbuf_some hy
      show Tracks _ _
      unfold Tracks
      have hst : ((({ (v.withQueues q w n).holding p with inbufSize := m } : Rpc).startRecord x)).state =
          .readPayload := hs
      have hrm' : ((({ (v.withQueues q w n).holding p with inbufSize := m } : Rpc).startRecord x)).rm0 =
          size := hrm
      rw [hst]
      dsimp only
      rw [hrm']
      exact ⟨show max 4 0 < size by omega,rfl⟩
  · rename_i t hf
    obtain rfl := rpcFindPdu_none hf
    split
    · trivial
    · rename_i y hy
      obtain ⟨m,rfl,-⟩ := adjustInbuf_some hy
      show max 4 0 < t.rm0 ∧ Pos.body (size-4) = .body (t.rm0-max 4 0)
      rw [hrm]
      exact ⟨by omega,rfl⟩

/-- A complete marker. -/
theorem rmDone_tracks {v : Rpc} (hw : 0 < v.waitpdu.length) (hrm : v.rmXid.length = 8) :
    v.rmDone.Tracks (scan marking start v.rmXid) := by
  have h4 : (v.rmXid.take 4).length = 4 := by
    rw [List.length_take]
    omega
  have hbe : be32 v.rmXid = be32 (v.rmXid.take 4) := by
    rw [← be32_append (v.rmXid.take 4) (v.rmXid.drop 4) h4,List.take_append_drop]
  have hscan : scan marking start v.rmXid =
      if validMarker (be32 v.rmXid) then .body (be32 v.rmXid-2^31-4) else .broken := by
    have h := scan_marker (v.rmXid.drop 4) h4 (by rw [List.length_drop]; omega)
    rw [List.take_append_drop,List.length_drop,hrm,← hbe] at h
    exact h
  unfold rmDone
  dsimp only
  by_cases hm : be32 v.rmXid < 2^31
  · rw [if_pos hm]
    exact True.intro
  · rw [if_neg hm]
    generalize hsz : be32 v.rmXid-2^31 = size
    have hlt : size < 2^32 := hsz ▸ lt_of_le_of_lt (Nat.sub_le _ _) (be32_lt _)
    by_cases hsize : size < 8 ∨ maxFragmentSize < size
    · rw [if_pos hsize]
      exact True.intro
    · have hvalid : validMarker (be32 v.rmXid) = true := by
        simp only [validMarker,decide_eq_true_eq,hsz]
        omega
      rw [if_neg hsize,hscan,if_pos hvalid,hsz]
      have hrm8 := setRm0_rmXid_length v size hrm
      refine matchRecord_tracks hw rfl ?_ (by omega)
      exact (rm0_setRm1 _ _ hrm8).trans (rm0_setRm0 v size hlt)

/-- The rest of the data goes to the vectors. -/
theorem toIovec_tracks {s : Rpc} {p : Pdu} {ref : List Vec} {count pos : ℕ}
    (hpos : pos ≤ s.inpos) (hle : s.inpos ≤ s.rm0) (hlt : s.rm0 < 2^32)
    (hgt : s.inpos-pos < count) (hend : count-(s.inpos-pos) ≤ s.rm0-s.inpos)
    (hover : ¬ Overrun ref count) : (s.toIovec p ref count pos).Tracks (.body (s.rm0-s.inpos)) := by
  have hmod : (s.rm0+2^32-(pos+(s.inpos-pos))) % 2^32 = s.rm0-s.inpos := by
    have hsum : s.rm0+2^32-(pos+(s.inpos-pos)) = s.rm0-s.inpos+2^32 := by omega
    rw [hsum,Nat.add_mod_right,Nat.mod_eq_of_lt (by omega)]
  have hrm : (s.toIovec p ref count pos).rm0 = s.rm0-s.inpos := by
    rw [toIovec,hmod]
    exact rm0_setRm0 _ _ (by omega)
  show (s.toIovec p ref count pos).inpos < _ ∧ _
  rw [hrm]
  refine ⟨show 0 < s.rm0-s.inpos by omega,rfl,?_⟩
  intro q hq
  obtain rfl := Option.some.inj hq
  refine ⟨hend,fun c hc => ?_⟩
  obtain rfl := Option.some.inj hc
  have hsum : s.inpos-pos+(count-(s.inpos-pos)) = count := by omega
  simp only [skip_skip,hsum]
  exact not_not.mp hover

/-- The first bytes of a reply are complete. -/
theorem payloadDone_tracks {v : Rpc} {p : Pdu} (hp : v.pdu = some p) (ok : PduOk P p)
    (hi : v.inpos = v.pduSize) (hlen : v.inpos ≤ v.inbuf.length) (hle : v.inpos ≤ v.rm0)
    (hrm : v.rm0 ≤ maxFragmentSize) (hplain : p.cursor = none → v.inpos = v.rm0)
    (hsound : Sound v.rm0 p (v.inbuf.take v.pduSize) (verdict v.nfsV3 p (v.inbuf.take v.pduSize))) :
    v.payloadDone.Tracks (inBody (v.rm0-v.inpos)) := by
  have hbuf : (v.inbuf.take v.pduSize).length = v.inpos := by
    rw [List.length_take]
    omega
  have hend : v.rm0 ≤ v.inpos → (inBody (v.rm0-v.inpos) : Pos UInt8) = start :=
    fun h => if_pos (by omega)
  cases hc : p.cursor with
  | none =>
    rcases payloadDone_done hp hc with ⟨-,hv⟩ | ⟨t,q,hrep,he,-⟩
    · rw [hv] at hsound
      exact hsound.elim
    · rw [he,hend (hplain hc).ge]
      exact finished_tracks _
  | some c =>
    rcases payloadDone_follow hp ok hc hi hlen with ⟨-,hv⟩ | ⟨t,q,hrep,he⟩
    · rw [hv] at hsound
      exact hsound.elim
    · obtain ⟨last,rfl⟩ := hrep.context
      rw [he]
      cases hv : verdict v.nfsV3 p (v.inbuf.take v.pduSize) with
      | crash =>
        rw [hv] at hsound
        exact hsound.elim
      | lost => trivial
      | done =>
        rw [hv] at hsound
        rw [hend (by rw [← hbuf]; exact hsound)]
        exact finished_tracks _
      | data count pos =>
        obtain ⟨hpos,-⟩ := verdict_data hv
        rw [hv] at hsound
        simp only [Sound,hc,Option.elim_some,hbuf] at hsound hpos
        obtain ⟨hover,hfit⟩ := hsound
        simp only [follow]
        split
        · rename_i hcount
          rw [if_pos (show count ≤ v.inpos-pos from hcount)] at hfit
          rw [hend hfit]
          exact finished_tracks _
        · rename_i hcount
          have hcount' : v.inpos-pos < count := Nat.not_le.mp hcount
          rw [if_neg (show ¬ count ≤ v.inpos-pos from hcount)] at hfit
          rw [inBody,if_neg (by omega)]
          exact toIovec_tracks (s := Rpc.holding _ _) hpos hle
            (lt_of_le_of_lt hrm (by decide)) hcount' hfit hover

theorem iovecDone_tracks {v : Rpc} {p : Pdu} (hp : v.pdu = some p) (hle : v.pduSize ≤ v.rm0)
    (hlt : v.rm0 < 2^32) : v.iovecDone.Tracks (inBody (v.rm0-v.pduSize)) := by
  have hmod : (v.rm0+2^32-v.pduSize) % 2^32 = v.rm0-v.pduSize := by
    have hsum : v.rm0+2^32-v.pduSize = v.rm0-v.pduSize+2^32 := by omega
    rw [hsum,Nat.add_mod_right,Nat.mod_eq_of_lt (by omega)]
  unfold iovecDone
  rw [hp]
  dsimp only
  rw [hmod]
  split
  · rename_i h0
    rw [inBody,if_pos h0]
    exact finished_tracks _
  · rename_i h0
    rw [inBody,if_neg h0]
    have hrm := rm0_setRm0 { v with pdu := some { p with readCount := p.readCount-v.pduSize } }
      (v.rm0-v.pduSize) (by omega)
    refine ⟨?_,?_⟩
    · exact (Nat.pos_of_ne_zero h0).trans_eq hrm.symm
    · exact congrArg Pos.body hrm.symm

theorem readBytes_done {s u : Rpc} {a : List UInt8} (h : s.readStore a = some u)
    (heq : s.inpos+a.length = s.pduSize) : s.readBytes a = u.readDone := by
  obtain ⟨hi,hsz⟩ := readStore_frame h
  rw [readBytes_of_store h,if_pos (by omega)]

/-- Bytes that complete what is asked for. -/
theorem readDone_tracks {s t : Rpc} {a : List UInt8} {pos : Pos UInt8} (hw : 0 < t.waitpdu.length)
    (ht : s.readPrep = some t) (h : t.Tracks pos) (hp : Prepared P t) (hrm : t.rmXid.length = 8)
    (ha : 0 < a.length) (heq : t.inpos+a.length = t.pduSize) (hclean : s.Clean (.data a)) :
    (t.readBytes a).Tracks (scan marking pos a) := by
  unfold Tracks at h
  cases hp with
  | marker hs _ hsz hi8 =>
    simp only [hs] at h
    have hst : (t.storedMarker a).state = .readRm := hs
    have hx : (t.storedMarker a).rmXid = overwrite t.rmXid t.inpos a := rfl
    have hlen : (overwrite t.rmXid t.inpos a).length = 8 := by
      rw [length_overwrite _ _ _ (by omega)]
      omega
    rw [readBytes_done (readStore_eq_marker hs a) heq,
      readDone_marker hst]
    have hdone := rmDone_tracks (v := t.storedMarker a) hw hlen
    have htake : overwrite t.rmXid t.inpos a = t.rmXid.take t.inpos ++ a := by
      rw [← take_overwrite _ _ _ (by omega),List.take_of_length_le (by omega)]
    rw [hx,htake,scan_append,← h] at hdone
    exact hdone
  | payload p hs hpp ok hsize hsz hi4 hb =>
    simp only [hs] at h
    have hmax : max 4 t.inpos = t.inpos := by omega
    rw [hmax] at h
    have hle : t.pduSize ≤ t.rm0 := by
      rw [hsz]
      split
      · exact min_le_left _ _
      · exact le_refl _
    have hst : (t.storedPayload a).state = .readPayload := hs
    rw [readBytes_done (readStore_eq_payload (.inl hs) a) heq,readDone_payload hst,h.2,
      scan_body marking (by omega) (by omega)]
    have hdone := payloadDone_tracks (v := t.storedPayload a) hpp ok heq ?_ ?_ hsize.2 ?_ ?_
    · have hsub : t.rm0-t.inpos-a.length = t.rm0-(t.inpos+a.length) := by omega
      rw [hsub]
      exact hdone
    · show t.inpos+a.length ≤ (overwrite t.inbuf t.inpos a).length
      rw [length_overwrite _ _ _ hb]
      omega
    · show t.inpos+a.length ≤ t.rm0
      omega
    · intro hc
      show t.inpos+a.length = t.rm0
      rw [heq,hsz,hc]
      rfl
    · exact hclean t ht p hpp hs heq
  | unknown hs hpn hsz hi4 =>
    simp only [hs] at h
    have hmax : max 4 t.inpos = t.inpos := by omega
    rw [hmax] at h
    have hst : (t.storedPayload a).state = .readUnknown := hs
    rw [readBytes_done (readStore_eq_payload (.inr hs) a) heq,readDone_unknown hst,h.2,
      scan_body marking (by omega) (by omega),inBody,if_pos (by omega)]
    exact tracks_marker (s := { t.storedPayload a with state := .readRm, inpos := 0 }) ⟨rfl,rfl⟩
  | iovec p c hs hpp ok hc hr hi hcount =>
    simp only [hs] at h
    obtain ⟨h1,h2,h3⟩ := h
    obtain ⟨hcnt,hskip⟩ := h3 p hpp
    have hadv : c.rpcAdvanceCursor a.length = some (c.advanced a.length) := by
      have hrem : a.length = c.remaining := by omega
      obtain ⟨hsum,hl⟩ := ok.cursor c hc
      rw [Cursor.rpcAdvanceCursor,hsum,Cursor.advanceLoop_eq _ _ (by omega),Option.bind_some,
        Cursor.settle,hrem,hskip c hc]
      simp [Cursor.advanced,hskip c hc,← hsum]
    have hst : (t.storedIovec p c (c.advanced a.length) a).state = .readIovec := hs
    have hstore : t.readStore a = some (t.storedIovec p c (c.advanced a.length) a) := by
      rw [readStore_eq_iovec hs hpp hc,hadv]
      rfl
    rw [readBytes_done hstore heq,
      readDone_iovec hst,h2,scan_body marking (by omega) (by omega)]
    have hrm2 : t.rm0 < 2^32 := le32_lt _
    have hdone := iovecDone_tracks (v := t.storedIovec p c (c.advanced a.length) a) rfl
      (show t.pduSize ≤ t.rm0 by omega) hrm2
    have hsub : t.rm0-t.inpos-a.length = t.rm0-t.pduSize := by omega
    rw [hsub]
    exact hdone
  | padding p hs hpp ok hsz hi =>
    simp only [hs] at h
    have hst : (t.storedPadding a).state = .readPadding := hs
    rw [readBytes_done (readStore_eq_padding hs a) heq,readDone_padding hst,h.2,
      scan_body marking (by omega) (by omega),inBody,if_pos (by omega)]
    exact finished_tracks _
  | stuck hs hpos hsz => omega

/-- A turn of the read loop on bytes of the stream. -/
theorem recvStep_tracks {s : Rpc} {a : List UInt8} {pos : Pos UInt8} (hok : s.Ok P)
    (h : s.Tracks pos) (hacc : s.Accepts a.length) (hclean : s.Clean (.data a)) :
    (s.recvStep (.data a)).Tracks (scan marking pos a) := by
  obtain ⟨t,ht,hp⟩ := hok.prepared
  obtain ⟨i,n,rfl⟩ := hok.readPrep_eq ht
  have hle := hacc.le hp ht
  rcases Nat.lt_or_eq_of_le hle with hlt | heq
  · obtain ⟨u,hu,hstep,-⟩ := recvStep_part hok ht hp hacc hlt
    rw [hstep]
    exact readStore_tracks (h.prep ht) hp hok.rmXid hlt hu
  · rw [recvStep_data hacc ht]
    exact readDone_tracks hok.hashes ht (h.prep ht) hp hok.rmXid hacc.2.2.1 heq hclean

/-- An event of a connection that lasts: the application makes a call or `rpc_service` a turn,
and neither fails the connection. -/
def Lasts (s : Rpc) : Event → Prop
  | .recv (.data a) _ => s.Accepts a.length ∧ (s.recvStep (.data a)).lasts = true
  | .recv .again _ => (s.recvStep .again).lasts = true
  | .timeoutScan _ => s.rpcTimeoutScan.2 = true
  | .write ws _ => s.outqueue = [] ∨ (s.rpcWriteToSocket ws).2 = true
  | .tick _ | .memory _ | .setResiliency .. | .disableSocket _ | .setProgram _ | .queuePdu .. |
    .cancelPdu _ => True
  | _ => False

end Rpc

/-- The bytes of the stream that an event takes. -/
def Event.taken : Event → List UInt8
  | .recv (.data a) _ => a
  | _ => []

namespace Rpc

/-- If the event completes the first bytes of a reply, it is one the reader gets to the end of. -/
def CleanStep (s : Rpc) : Event → Prop
  | .recv r _ => s.Clean r
  | _ => True

theorem Tracks.congr {s t : Rpc} {pos : Pos UInt8} (h : s.Tracks pos)
    (he : t.readerPart = s.readerPart) : t.Tracks pos := by
  simp only [readerPart,Prod.mk.injEq] at he
  obtain ⟨hst,hi,-,hp,hrm,-⟩ := he
  have hrm0 : t.rm0 = s.rm0 := by rw [rm0,rm0,hrm]
  unfold Tracks at h ⊢
  rw [hst,hi,hp,hrm0,hrm]
  exact h

theorem rpcFindPdu_readerPart (s : Rpc) (x : ℕ) : (s.rpcFindPdu x).2.readerPart = s.readerPart ∧
    (s.rpcFindPdu x).2.destroyed = s.destroyed ∧ (s.rpcFindPdu x).2.crashed = s.crashed := by
  unfold rpcFindPdu
  split
  · exact ⟨rfl,rfl,rfl⟩
  · split
    · exact ⟨rfl,rfl,rfl⟩
    · exact ⟨rfl,rfl,rfl⟩

/-- What is not a turn of the read loop leaves the reader alone. -/
theorem lasts_quiet {s : Rpc} (hl : s.Live) {e : Event} (h : s.Lasts e) (hr : ∀ r c, e ≠ .recv r c) :
    (s.act e).readerPart = s.readerPart ∧ (s.act e).Live := by
  have hwrite : ∀ (u : Rpc) (ws : List Writev), u.readerPart = s.readerPart → u.Live →
      (u.rpcWriteToSocket ws).1.readerPart = s.readerPart ∧ (u.rpcWriteToSocket ws).1.Live := by
    intro u ws hu hul
    obtain ⟨q,w,n,b,he⟩ := rpcWriteToSocket_frame u ws
    rw [he]
    exact ⟨hu,hul⟩
  cases e with
  | tick n => exact ⟨rfl,hl⟩
  | memory ok => exact ⟨rfl,hl⟩
  | setResiliency n t r => exact ⟨rfl,hl⟩
  | disableSocket v => exact ⟨rfl,hl⟩
  | setProgram v => exact ⟨rfl,hl⟩
  | queuePdu c ws =>
    simp only [act,rpcQueuePdu]
    split
    · split
      · exact hwrite (s.enqueueCall c) ws rfl hl
      · exact ⟨rfl,hl⟩
    · exact ⟨rfl,hl⟩
  | cancelPdu x =>
    obtain ⟨h1,h2,h3⟩ := rpcFindPdu_readerPart s x
    simp only [act,rpcCancelPdu]
    generalize s.rpcFindPdu x = r at h1 h2 h3 ⊢
    rcases r with ⟨_ | p,u⟩
    · exact ⟨h1,h2.trans hl.1,h3.trans hl.2⟩
    · exact ⟨h1,h2.trans hl.1,h3.trans hl.2⟩
  | timeoutScan conn =>
    obtain ⟨h1,h2⟩ := rpcTimeoutScan_frame s
    have hs : s.rpcTimeoutScan.2 = true := h
    simp only [act,orRequeue,hs,if_true]
    exact ⟨h1,hl.booked h2⟩
  | write ws conn =>
    simp only [act,pollWrite]
    split
    · exact ⟨rfl,hl⟩
    · rename_i hne
      rcases h with h | h
      · simp [h] at hne
      · rw [orRequeue,if_pos h]
        exact hwrite s ws rfl hl
  | recv r c => exact absurd rfl (hr r c)
  | _ => exact h.elim

/-- One event of a connection that lasts. -/
theorem step_tracks {s : Rpc} {pos : Pos UInt8} {e : Event} (hok : s.Ok fun _ => True) (hl : s.Live)
    (h : s.Tracks pos) (hlast : s.Lasts e) (hclean : s.CleanStep e) :
    (s.step e).Ok (fun _ => True) ∧ (s.step e).Live ∧ (s.step e).Tracks (scan marking pos e.taken) := by
  have hq : Queues (fun _ => True) e := by cases e <;> simp [Queues]
  rw [step_live hl]
  by_cases hr : ∃ r c, e = .recv r c
  · obtain ⟨r,conn,rfl⟩ := hr
    have hb := recvStep_booked hok r
    have hall := recvStep_ok hok r
    cases r with
    | data a =>
      have ht := recvStep_tracks hok h hlast.1 hclean
      simp only [act,Event.taken]
      cases hs : s.recvStep (.data a) with
      | more t =>
        rw [hs] at ht hb hall
        exact ⟨hall,hl.booked hb,ht⟩
      | fail t => simp [Lasts,hs,Ctl.lasts] at hlast
      | fault t =>
        rw [hs] at ht
        exact ht.elim
    | again =>
      obtain ⟨t,ht,hp⟩ := hok.prepared
      simp only [act,Event.taken,scan_nil]
      have hturn := recvStep_turn hok .again
      generalize hs : s.recvStep .again = c at hturn hb hall ⊢
      cases hturn with
      | none => exact ⟨hok,hl,h⟩
      | idle u hu =>
        exact ⟨hall,hl.booked hb,h.prep hu⟩
      | lost u => simp [Lasts,hs,Ctl.lasts] at hlast
      | abort u bs hr => simp at hr
      | part u v bs hr => simp at hr
      | full u v bs hr => simp at hr
    | error => exact hlast.elim
    | closed => exact hlast.elim
  · have hne : ∀ r c, e ≠ .recv r c := fun r c he => hr ⟨r,c,he⟩
    obtain ⟨hpart,hlive⟩ := lasts_quiet hl hlast hne
    have htaken : e.taken = [] := by
      cases e with
      | recv r c => exact absurd rfl (hne r c)
      | _ => rfl
    rw [htaken,scan_nil]
    exact ⟨act_ok hok e hq hlive.2,hlive,h.congr hpart⟩

/-- What framing asks of a context that has got the bytes `bs` since it was at a marker: the
process is alive, the reader is at a marker exactly after whole records, and the count that
READ_IOVEC will subtract from `rm_xid[0]` is at most that. -/
structure Framed (s : Rpc) (bs : List UInt8) : Prop where
  alive : s.crashed = false
  marker : s.AtMarker ↔ Whole marking bs
  count : s.state = .readIovec → ∀ p, s.pdu = some p → p.readCount ≤ s.rm0

/-- The reply to `demoRead` with the four bytes that were asked for, behind its xid. -/
def demoReply : List UInt8 :=
  beBytes 1 ++ beBytes 0 ++ beBytes 0 ++ beBytes 0 ++ beBytes 0 ++ beBytes 0 ++ beBytes 0 ++
    beBytes 4 ++ beBytes 1 ++ beBytes 4 ++ [1,2,3,4]

def demoReading : List Event := demoConnect ++ [.queuePdu demoRead [.wrote 44]]

/-- The server sends 1000 bytes of data where four were asked for: the first 1024 bytes of its
record, behind the xid. -/
def demoLongReply : List UInt8 :=
  beBytes 1 ++ beBytes 0 ++ beBytes 0 ++ beBytes 0 ++ beBytes 0 ++ beBytes 0 ++ beBytes 0 ++
    beBytes 1000 ++ beBytes 1 ++ beBytes 1000 ++ List.replicate 980 0

def demoLong : List Event :=
  [.recv (.data (beBytes (2^31+1044) ++ beBytes 1)) .started,.recv (.data demoLongReply) .started]

end Rpc
end Libnfs
