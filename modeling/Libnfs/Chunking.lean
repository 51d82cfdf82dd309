import Libnfs.InbufSim

/-! How the stream is cut into chunks does not matter to the reader, up to one thing: padding is
read to the front of the receive buffer, over the result of the READ that is not called back yet.
Every run is compared with the one that gets the stream byte by byte. -/
namespace Libnfs

open ByteWords Scatter Zdr

variable {P : Pdu → Prop}

namespace Rpc

theorem Agree.trans {s : Rpc} {n : ℕ} {b c : List UInt8} (h : s.Agree n b)
    (k : (s.withInbuf b).Agree n c) : s.Agree n c := by
  have hst : (s.withInbuf b).state = s.state := rfl
  unfold Agree at h k ⊢
  rw [hst] at k
  cases hs : s.state with
  | readPayload =>
    simp only [hs] at h k ⊢
    exact h.trans k
  | readIovec =>
    simp only [hs] at h k ⊢
    exact fun i hi => (h i hi).trans (k i hi)
  | readPadding =>
    simp only [hs] at h k ⊢
    exact fun hn i h0 hi => (h hn i h0 hi).trans (k hn i h0 hi)
  | _ => trivial

theorem Agree.refl (s : Rpc) (n : ℕ) : s.Agree n s.inbuf := by
  unfold Agree
  cases hs : s.state with
  | readPayload => rfl
  | readIovec => exact fun i _ => rfl
  | readPadding => exact fun _ i _ _ => rfl
  | _ => trivial

end Rpc

theorem Ctl.Sim.refl (n : ℕ) (c : Ctl) : Ctl.Sim n c c := by
  cases c with
  | more u => exact .more u u.inbuf (.refl u n)
  | fail u => exact .fail u u.inbuf
  | fault u => exact .fault rfl

theorem Ctl.Sim.trans {n : ℕ} {c d e : Ctl} (h : Ctl.Sim n c d) (k : Ctl.Sim n d e) :
    Ctl.Sim n c e := by
  cases h with
  | more u b hu =>
    generalize hd : Ctl.more (u.withInbuf b) = d at k
    cases k with
    | more v b' hv =>
      obtain rfl := Ctl.more.inj hd
      exact .more u b' (hu.trans hv)
    | _ => simp at hd
  | fail u b =>
    generalize hd : Ctl.fail (u.withInbuf b) = d at k
    cases k with
    | fail v b' =>
      obtain rfl := Ctl.fail.inj hd
      exact .fail u b'
    | _ => simp at hd
  | fault hu =>
    generalize hd : Ctl.fault _ = d at k
    cases k with
    | fault hv =>
      obtain rfl := Ctl.fault.inj hd
      exact .fault (hv.trans hu)
    | _ => simp at hd

namespace Rpc

/-- Two stretches of what is asked for are stored as one, where it is not padding. -/
theorem readStore_append {s u : Rpc} (hp : Prepared P s) (hs : s.state ≠ .readPadding)
    {a b : List UInt8} (ha0 : 0 < a.length) (hle : s.inpos+(a.length+b.length) ≤ s.pduSize)
    (hrm : s.rmXid.length = 8) (ha : s.readStore a = some u) : u.readStore b = s.readStore (a++b) := by
  cases hp with
  | marker hst hpn hsz hi =>
    rw [readStore_eq_marker hst,Option.some.injEq] at ha
    subst ha
    rw [readStore_eq_marker hst,readStore_eq_marker (s := s.storedMarker a) hst]
    simp only [storedMarker,Option.some.injEq,List.length_append,← Nat.add_assoc]
    rw [overwrite_overwrite _ _ _ _ (by omega)]
  | payload p hst hpp ok hsize hsz hi hb =>
    rw [readStore_eq_payload (.inl hst),Option.some.injEq] at ha
    subst ha
    rw [readStore_eq_payload (.inl hst),readStore_eq_payload (s := s.storedPayload a) (.inl hst)]
    simp only [storedPayload,Option.some.injEq,List.length_append,← Nat.add_assoc]
    rw [overwrite_overwrite _ _ _ _ hb]
  | unknown hst hpn hsz hi hb =>
    rw [readStore_eq_payload (.inr hst),Option.some.injEq] at ha
    subst ha
    rw [readStore_eq_payload (.inr hst),readStore_eq_payload (s := s.storedPayload a) (.inr hst)]
    simp only [storedPayload,Option.some.injEq,List.length_append,← Nat.add_assoc]
    rw [overwrite_overwrite _ _ _ _ hb]
  | iovec p c hst hpp ok hc hr hi =>
    rw [readStore_eq_iovec hst hpp hc] at ha ⊢
    obtain ⟨d,hd,rfl⟩ := Option.map_eq_some_iff.mp ha
    have hsized := ok.cursor c hc
    obtain rfl := Cursor.rpcAdvanceCursor_some hsized (by omega) hd
    rw [readStore_eq_iovec (s := s.storedIovec p c _ a) hst rfl rfl,
      Cursor.rpcAdvanceCursor_add c hsized _ _ (by omega),List.length_append]
    congr 1
    funext e
    simp only [storedIovec,Cursor.advanced,List.length_append,← Nat.add_assoc]
    rw [scatter_append]
  | padding p hst => exact absurd hst hs
  | stuck hst hi hsz => omega

/-- How much is asked for. -/
def wants (s : Rpc) : ℕ :=
  if s.state = .readPadding then min (s.pduSize-s.inpos) s.inbufSize else s.pduSize-s.inpos

theorem readWant_eq {s : Rpc} (hp : Prepared P s) : s.readWant = some s.wants := by
  unfold readWant wants
  cases hp with
  | marker hs => simp [hs]
  | payload p hs => simp [hs]
  | unknown hs => simp [hs]
  | iovec p c hs hpp ok hc hr hi =>
    have hsz := (ok.cursor c hc).1
    have hne : c.iov ≠ [] := ne_nil_of_total_pos (by omega)
    have hle : s.pduSize-s.inpos ≤ c.remaining := by omega
    have htot : total c.iov = s.pduSize-s.inpos := by omega
    simp [hs,hpp,hc,hne,hle,htot]
  | padding p hs => simp [hs]
  | stuck hs => rcases hs with hs | hs <;> simp [hs]

theorem accepts_iff {s t : Rpc} (ht : s.readPrep = some t) (hp : Prepared P t) (n : ℕ) :
    s.Accepts n ↔ s.fd = true ∧ s.socketDisabled = false ∧ 0 < n ∧ n ≤ t.wants := by
  unfold Accepts
  constructor
  · rintro ⟨h1,h2,h3,t',want,ht',hwant,hle⟩
    obtain rfl := Option.some.inj (ht.symm.trans ht')
    rw [readWant_eq hp,Option.some.injEq] at hwant
    exact ⟨h1,h2,h3,hwant ▸ hle⟩
  · rintro ⟨h1,h2,h3,hle⟩
    exact ⟨h1,h2,h3,t,t.wants,ht,readWant_eq hp,hle⟩

theorem readStore_frame {s u : Rpc} {a : List UInt8} (h : s.readStore a = some u) :
    u.inpos = s.inpos+a.length ∧ u.pduSize = s.pduSize := by
  unfold readStore at h
  split at h
  · exact Option.some.inj h ▸ ⟨rfl,rfl⟩
  · exact Option.some.inj h ▸ ⟨rfl,rfl⟩
  · exact Option.some.inj h ▸ ⟨rfl,rfl⟩
  · exact Option.some.inj h ▸ ⟨rfl,rfl⟩
  · exact Option.some.inj h ▸ ⟨rfl,rfl⟩
  · split at h
    · simp at h
    · split at h
      · simp at h
      · obtain ⟨d,-,rfl⟩ := Option.map_eq_some_iff.mp h
        exact ⟨rfl,rfl⟩

/-- Less than what is asked for is stored without an assertion failing. -/
theorem readStore_some {s : Rpc} (hp : Prepared P s) {a : List UInt8}
    (hlt : s.inpos+a.length < s.pduSize) : ∃ u, s.readStore a = some u := by
  cases hp with
  | marker hs => exact ⟨_,readStore_eq_marker hs a⟩
  | payload p hs => exact ⟨_,readStore_eq_payload (.inl hs) a⟩
  | unknown hs => exact ⟨_,readStore_eq_payload (.inr hs) a⟩
  | iovec p c hs hpp ok hc hr hi =>
    rw [readStore_eq_iovec hs hpp hc,Cursor.rpcAdvanceCursor_of_lt c (ok.cursor c hc) _ (by omega)]
    exact ⟨_,rfl⟩
  | padding p hs => exact ⟨_,readStore_eq_padding hs a⟩
  | stuck hs hi hsz => omega

/-- Part of what is asked for arrives. -/
theorem recvStep_part {s t : Rpc} (h : s.Ok P) (ht : s.readPrep = some t) (hp : Prepared P t)
    {a : List UInt8} (hacc : s.Accepts a.length) (hlt : t.inpos+a.length < t.pduSize) :
    ∃ u, t.readStore a = some u ∧ s.recvStep (.data a) = .more u ∧ u.Ok P ∧ u.readPrep = some u ∧
      Prepared P u := by
  obtain ⟨u,hu⟩ := readStore_some hp hlt
  obtain ⟨hi,hsz⟩ := readStore_frame hu
  have hstep : s.recvStep (.data a) = .more u := by
    rw [recvStep_data hacc ht,readBytes_of_store hu,if_neg (by omega)]
  have hok : u.Ok P := by
    have hall := recvStep_ok h (.data a)
    rw [hstep] at hall
    exact hall
  obtain ⟨v,hv,hpv⟩ := hok.prepared
  have hpos := hacc.2.2.1
  have huu : u.readPrep = some u := by rw [readPrep,if_neg (by omega)]
  obtain rfl := Option.some.inj (huu.symm.trans hv)
  exact ⟨u,hu,hstep,hok,huu,hpv⟩

theorem booked_accepts {s t u : Rpc} {m n : ℕ} (hacc : s.Accepts m) (hb : u.booked = s.booked)
    (hu : u.readPrep = some t) (hp : Prepared P t) (hn : 0 < n) (hle : n ≤ t.wants) : u.Accepts n := by
  simp only [booked,Prod.mk.injEq] at hb
  exact (accepts_iff hu hp n).mpr ⟨hb.2.2.2.1.trans hacc.1,hb.2.2.2.2.1.trans hacc.2.1,hn,hle⟩

/-- A chunk that is not padding may as well arrive in two. -/
theorem recvStep_split {s t : Rpc} (h : s.Ok P) (hs : s.state ≠ .readPadding)
    (ht : s.readPrep = some t) (hp : Prepared P t) {a b : List UInt8} (hb0 : 0 < b.length)
    (hacc : s.Accepts (a++b).length) (ha0 : 0 < a.length) (n : ℕ) :
    ∃ u, s.recvStep (.data a) = .more u ∧ u.Ok P ∧ u.state = s.state ∧ u.Accepts b.length ∧
      Ctl.Sim n (s.recvStep (.data (a++b))) (u.recvStep (.data b)) := by
  have hle := hacc.le hp ht
  have hlen : (a++b).length = a.length+b.length := List.length_append
  obtain ⟨hts,htst⟩ := readPrep_shared ht
  have hta : s.Accepts a.length := by
    rw [accepts_iff ht hp] at hacc ⊢
    exact ⟨hacc.1,hacc.2.1,ha0,by omega⟩
  obtain ⟨u,hu,hstep,hok,huu,hpu⟩ := recvStep_part h ht hp hta (by omega)
  obtain ⟨hus,hust⟩ := readStore_shared hu
  obtain ⟨hui,husz⟩ := readStore_frame hu
  have hub : u.Accepts b.length := by
    refine booked_accepts hacc (booked_of_shared (hus.trans hts)) huu hpu hb0 ?_
    rw [wants,if_neg (by rw [hust,htst]; exact hs)]
    omega
  refine ⟨u,hstep,hok,hust.trans htst,hub,?_⟩
  have hstore := readStore_append (b := b) hp (by rw [htst]; exact hs) ha0 (by omega)
    (by rw [show t.rmXid = s.rmXid by obtain ⟨i,k,rfl⟩ := h.readPrep_eq ht; rfl]; exact h.rmXid) hu
  rw [recvStep_data hacc ht,recvStep_data hub huu,readBytes,readBytes,hstore]
  cases t.readStore (a++b) with
  | none =>
    refine .fault ?_
    rw [left,left,hus,readStore_log hu]
  | some v => exact .refl n _

/-- A stretch of the stream, byte by byte. -/
def feed (s : Rpc) : List UInt8 → Ctl
  | [] => .more s
  | x::xs =>
    match s.recvStep (.data [x]) with
    | .more t => t.feed xs
    | c => c

/-- A chunk that is not padding is as good as its bytes. -/
theorem feed_sim {s : Rpc} (h : s.Ok P) (hs : s.state ≠ .readPadding) {a : List UInt8}
    (hacc : s.Accepts a.length) (n : ℕ) : Ctl.Sim n (s.recvStep (.data a)) (s.feed a) := by
  induction a generalizing s with
  | nil => exact absurd hacc.2.2.1 (by simp)
  | cons x a ih =>
    simp only [feed]
    rcases Nat.eq_zero_or_pos a.length with h0 | hpos
    · obtain rfl := List.length_eq_zero_iff.mp h0
      cases s.recvStep (.data [x]) with
      | more t => exact .refl n _
      | fail t => exact .refl n _
      | fault t => exact .refl n _
    · obtain ⟨t,ht,hp⟩ := h.prepared
      obtain ⟨u,hstep,hok,hst,hub,hsim⟩ := recvStep_split (a := [x]) h hs ht hp hpos hacc
        (by simp) n
      rw [hstep]
      exact hsim.trans (ih hok (by rw [hst]; exact hs) hub)

theorem feed_append (s : Rpc) (a b : List UInt8) :
    s.feed (a++b) = match s.feed a with
      | .more t => t.feed b
      | c => c := by
  induction a generalizing s with
  | nil => rfl
  | cons x a ih =>
    simp only [List.cons_append,feed]
    cases s.recvStep (.data [x]) with
    | more t => exact ih t
    | fail t => rfl
    | fault t => rfl

/-- After `n` bytes of padding, of which `x` was the last, that arrived one by one. -/
def padded (s : Rpc) (x : UInt8) (n : ℕ) : Rpc :=
  { s with inbuf := overwrite s.inbuf 0 [x], inpos := s.inpos+n }

theorem padded_padded (s : Rpc) (x y : UInt8) (m n : ℕ) :
    (s.padded x m).padded y n = s.padded y (m+n) := by
  have hb : overwrite (overwrite s.inbuf 0 [x]) 0 [y] = overwrite s.inbuf 0 [y] := by
    simp [overwrite]
  simp only [padded,hb,Nat.add_assoc]

theorem recvStep_padding {s t : Rpc} (hs : s.state = .readPadding) (ht : s.readPrep = some t)
    {a : List UInt8} (hacc : s.Accepts a.length) :
    s.recvStep (.data a) = if t.inpos+a.length = t.pduSize then
      .more (t.storedPadding a).rpcFinishedPdu else .more (t.storedPadding a) := by
  have hst := (readPrep_shared ht).2.trans hs
  rw [recvStep_data hacc ht,readBytes_of_store (readStore_eq_padding hst a),
    readDone_padding (v := t.storedPadding a) hst]
  rfl

/-- A reader in padding asks for at least one byte. -/
theorem padding_wants {t : Rpc} (hp : Prepared P t) (hs : t.state = .readPadding) : 0 < t.wants := by
  cases hp with
  | padding p _ _ _ _ hi hroom =>
    rw [wants,if_pos hs]
    omega
  | stuck h => simp [hs] at h
  | _ => simp_all

theorem feed_padding_part {s t : Rpc} (h : s.Ok P) (hs : s.state = .readPadding)
    (ht : s.readPrep = some t) (hp : Prepared P t) (hacc : s.Accepts 1) (a : List UInt8) (x : UInt8)
    (hlt : t.inpos+(a++[x]).length < t.pduSize) :
    s.feed (a++[x]) = .more (t.padded x (a++[x]).length) ∧ (t.padded x (a++[x]).length).Ok P ∧
      (t.padded x (a++[x]).length).Accepts 1 ∧ Prepared P (t.padded x (a++[x]).length) := by
  have hbyte : ∀ {s t : Rpc} (y : UInt8), s.Ok P → s.state = .readPadding → s.readPrep = some t →
      Prepared P t → s.Accepts 1 → t.inpos+1 < t.pduSize → s.recvStep (.data [y]) =
        .more (t.padded y 1) ∧ (t.padded y 1).Ok P ∧ (t.padded y 1).Accepts 1 ∧
        (t.padded y 1).readPrep = some (t.padded y 1) ∧ Prepared P (t.padded y 1) := by
    intro s t y h hs ht hp hacc hlt
    obtain ⟨u,hu,hstep,hok,huu,hpu⟩ := recvStep_part (a := [y]) h ht hp hacc hlt
    obtain ⟨hts,htst⟩ := readPrep_shared ht
    rw [readStore_eq_padding (htst.trans hs),Option.some.injEq] at hu
    subst hu
    refine ⟨hstep,hok,?_,huu,hpu⟩
    exact booked_accepts hacc (booked_of_shared (t := t.storedPadding [y]) hts) huu hpu one_pos
      (padding_wants hpu (htst.trans hs))
  have hstate : ∀ (y : UInt8) (k : ℕ), (t.padded y k).state = .readPadding :=
    fun y k => (readPrep_shared ht).2.trans hs
  induction a using List.reverseRecOn generalizing x with
  | nil =>
    obtain ⟨h1,h2,h3,-,h5⟩ := hbyte x h hs ht hp hacc hlt
    refine ⟨?_,h2,h3,h5⟩
    simp only [List.nil_append,feed,h1]
    rfl
  | append_singleton a y ih =>
    simp only [List.length_append,List.length_singleton] at hlt
    obtain ⟨h1,h2,h3,h4⟩ := ih y (by simp only [List.length_append,List.length_singleton]; omega)
    obtain ⟨k1,k2,k3,-,k5⟩ := hbyte x h2 (hstate _ _) h4.readPrep h4 h3
      (show t.inpos+(a++[y]).length+1 < t.pduSize by
        simp only [List.length_append,List.length_singleton]; omega)
    rw [padded_padded] at k1 k2 k3 k5
    rw [show ((a++[y])++[x]).length = (a++[y]).length+1 by simp]
    refine ⟨?_,k2,k3,k5⟩
    rw [feed_append,h1]
    simp only [feed,k1]

theorem feed_padding_done {s t : Rpc} (h : s.Ok P) (hs : s.state = .readPadding)
    (ht : s.readPrep = some t) (hp : Prepared P t) (hacc : s.Accepts 1) (a : List UInt8) (x : UInt8)
    (heq : t.inpos+(a++[x]).length = t.pduSize) :
    s.feed (a++[x]) = .more (t.padded x (a++[x]).length).rpcFinishedPdu := by
  have hst := (readPrep_shared ht).2.trans hs
  rcases List.eq_nil_or_concat a with rfl | ⟨a,y,rfl⟩
  · simp only [List.nil_append,List.length_singleton] at heq ⊢
    simp only [feed,recvStep_padding (a := [x]) hs ht hacc,List.length_singleton,heq,if_true]
    rfl
  · rw [List.concat_eq_append] at heq ⊢
    have hlen : ((a++[y])++[x]).length = (a++[y]).length+1 := by simp
    rw [hlen] at heq
    obtain ⟨h1,-,h3,h4⟩ := feed_padding_part h hs ht hp hacc a y (by omega)
    have hstep := recvStep_padding (a := [x]) (show (t.padded y _).state = _ from hst) h4.readPrep h3
    rw [if_pos (show (t.padded y (a++[y]).length).inpos+[x].length =
      (t.padded y (a++[y]).length).pduSize from heq)] at hstep
    rw [feed_append,h1,hlen]
    simp only [feed,hstep]
    exact congrArg (fun u : Rpc => Ctl.more u.rpcFinishedPdu) (padded_padded t y x _ 1)

/-- What is left of the padding is followed by the end of the record, and if it is stored at
once it changes no byte that the callback is shown. -/
def PadInert (s : Rpc) (rest : List UInt8) : Prop :=
  s.state = .readPadding → s.rm0-s.inpos ≤ rest.length → ∀ i, s.Shown i → i < s.rm0-s.inpos →
    i < s.inbufSize → if i = 0 then s.rm0-s.inpos ≤ s.inbufSize → rest[0]? = rest[s.rm0-s.inpos-1]?
      else s.inbuf[i]? = rest[i]?

theorem padding_prep {s t : Rpc} (h : s.Ok P) (hs : s.state = .readPadding)
    (ht : s.readPrep = some t) (hp : Prepared P t) :
    t.rm0 = s.rm0 ∧ t.inpos = s.inpos ∧ t.inbuf = s.inbuf ∧ t.pduSize = t.rm0 ∧
      t.inbufSize = s.inbufSize ∧ t.pdu = s.pdu := by
  have hst := (readPrep_shared ht).2.trans hs
  have hsz : t.pduSize = t.rm0 := by
    cases hp with
    | padding p _ _ _ hsz => exact hsz
    | stuck hs' => simp [hst] at hs'
    | _ => simp_all
  have hpos : t.inpos = s.inpos := by
    unfold readPrep at ht
    split at ht
    · simp only [hs,Option.some.injEq] at ht
      subst ht
      rfl
    · rw [Option.some.inj ht]
  obtain ⟨i,n,rfl⟩ := h.readPrep_eq ht
  exact ⟨rfl,hpos,rfl,hsz,rfl,rfl⟩

/-- A chunk of padding that changes nothing is as good as its bytes. -/
theorem padding_sim {s : Rpc} (h : s.Ok P) (hs : s.state = .readPadding) {a rest : List UInt8}
    (hacc : s.Accepts a.length) (hin : s.PadInert (a++rest)) :
    Ctl.Sim rest.length (s.recvStep (.data a)) (s.feed a) := by
  obtain ⟨t,ht,hp⟩ := h.prepared
  obtain ⟨hts,htst⟩ := readPrep_shared ht
  have hst := htst.trans hs
  have hwants := ((accepts_iff ht hp _).mp hacc).2.2.2
  have hone : s.Accepts 1 := by
    rw [accepts_iff ht hp] at hacc ⊢
    exact ⟨hacc.1,hacc.2.1,one_pos,padding_wants hp hst⟩
  have hle := hacc.le hp ht
  rw [wants,if_pos hst] at hwants
  rcases List.eq_nil_or_concat a with rfl | ⟨a,x,rfl⟩
  · exact absurd hacc.2.2.1 (by simp)
  rw [List.concat_eq_append] at *
  have hfacts : t.rm0 = s.rm0 ∧ t.inpos = s.inpos ∧ t.inbuf = s.inbuf ∧ t.pduSize = t.rm0 ∧
      t.inbufSize = s.inbufSize ∧ t.pdu = s.pdu := padding_prep h hs ht hp
  obtain ⟨hrm,hpos,hbuf,hsz,hbsz,hpdu⟩ := hfacts
  have hlen : (a++[x]).length = a.length+1 := by simp
  have hinert : s.rm0-s.inpos ≤ (a++[x]++rest).length → ∀ i, s.Shown i → 0 < i →
      (overwrite t.inbuf 0 (a++[x]))[i]? = (overwrite t.inbuf 0 [x])[i]? := by
    intro hn i hi h0
    simp only [getElem?_overwrite_zero,List.length_singleton,if_neg (show ¬ i < 1 by omega)]
    split
    · rename_i hlt
      have hk := hin hs hn i hi (by omega) (by omega)
      rw [if_neg (by omega),List.getElem?_append_left hlt] at hk
      rw [hbuf]
      exact hk.symm
    · rfl
  have hshown : ∀ i, (t.storedPadding (a++[x])).Shown i → s.Shown i := by
    rintro i ⟨p,hpp,hi⟩
    exact ⟨p,hpdu ▸ hpp,hi⟩
  rw [recvStep_padding hs ht hacc]
  by_cases hdone : t.inpos+(a++[x]).length = t.pduSize
  · rw [if_pos hdone,feed_padding_done h hs ht hp hone a x hdone]
    refine finished_sim (s := t.storedPadding (a++[x])) (b := overwrite t.inbuf 0 [x]) _ ?_
    intro i hi
    have hn : s.rm0-s.inpos ≤ (a++[x]++rest).length := by
      rw [List.length_append]
      omega
    rcases Nat.eq_zero_or_pos i with rfl | h0
    · have hk := hin hs hn 0 (hshown 0 hi) (by omega) (by omega)
      rw [if_pos rfl] at hk
      have hlast := hk (by omega)
      rw [show s.rm0-s.inpos-1 = a.length by omega] at hlast
      simp only [List.append_assoc,List.getElem?_append_right (le_refl _),Nat.sub_self] at hlast
      change (overwrite t.inbuf 0 (a++[x]))[0]? = _
      rw [getElem?_overwrite_zero,getElem?_overwrite_zero,if_pos (by omega),if_pos (by simp)]
      cases a with
      | nil => rfl
      | cons y a => simpa using hlast
    · exact hinert hn i (hshown i hi) h0
  · rw [if_neg hdone]
    obtain ⟨h1,-⟩ := feed_padding_part h hs ht hp hone a x (by omega)
    rw [h1]
    refine .more (t.storedPadding (a++[x])) (overwrite t.inbuf 0 [x]) ?_
    have hst' : (t.storedPadding (a++[x])).state = .readPadding := hst
    simp only [Agree,hst']
    intro hn i h0 hi
    refine hinert ?_ i (hshown i hi) h0
    have hn' : t.rm0-(t.inpos+(a++[x]).length) ≤ rest.length := hn
    rw [List.length_append]
    omega

/-- A chunk is as good as its bytes. -/
theorem chunk_sim {s : Rpc} (h : s.Ok P) {a rest : List UInt8} (hacc : s.Accepts a.length)
    (hin : s.PadInert (a++rest)) : Ctl.Sim rest.length (s.recvStep (.data a)) (s.feed a) := by
  by_cases hs : s.state = .readPadding
  · exact padding_sim h hs hacc hin
  · exact feed_sim h hs hacc _

/-- The stream is such that padding never changes a result, wherever a chunk begins. -/
def Inert (s : Rpc) : List UInt8 → Prop
  | [] => True
  | x::xs =>
    (s.Accepts 1 → s.PadInert (x::xs)) ∧ ∀ t, s.recvStep (.data [x]) = .more t → t.Inert xs

/-- The calls of `rpc_read_from_socket` in which a stream is read: each ends with EAGAIN, the
last of them maybe with a failure. -/
def readAll (s : Rpc) : List (List (List UInt8)) → Ctl
  | [] => .more s
  | call::calls =>
    match s.rpcReadFromSocket .again call with
    | .more t => t.readAll calls
    | c => c

/-- The calls read the whole of the stream from `s`, up to a failure. -/
inductive Cuts : Rpc → List UInt8 → List (List (List UInt8)) → Prop
  | done {s t : Rpc} (h : s.recvStep .again = .more t) : Cuts s [] [[]]
  | lost {s : Rpc} {bs : List UInt8} (h : ∀ t, s.recvStep .again ≠ .more t) : Cuts s bs [[]]
  | eagain {s t : Rpc} {bs : List UInt8} {calls : List (List (List UInt8))}
      (h : s.recvStep .again = .more t) (hc : Cuts t bs calls) : Cuts s bs ([]::calls)
  | chunk {s t : Rpc} {a bs : List UInt8} {call : List (List UInt8)}
      {calls : List (List (List UInt8))} (ha : s.Accepts a.length)
      (h : s.recvStep (.data a) = .more t) (hc : Cuts t bs (call::calls)) :
      Cuts s (a++bs) ((a::call)::calls)
  | stop {s : Rpc} {a bs : List UInt8} (ha : s.Accepts a.length)
      (h : ∀ t, s.recvStep (.data a) ≠ .more t) : Cuts s (a++bs) [[a]]

end Rpc

/-- All there is to see after some calls: everything but the bytes in the receive buffer. -/
def Ctl.seen : Ctl → Ctl
  | .more t => .more (t.withInbuf [])
  | .fail t => .fail (t.withInbuf [])
  | .fault t => .fault t.left

theorem Ctl.Sim.seen {n : ℕ} {c d : Ctl} (h : Ctl.Sim n c d) : d.seen = c.seen := by
  cases h with
  | more u b hu => rfl
  | fail u b => rfl
  | fault hu => exact congrArg Ctl.fault hu

namespace Rpc

/-- The whole stream byte by byte, and then EAGAIN. -/
def drain (s : Rpc) (bs : List UInt8) : Ctl :=
  match s.feed bs with
  | .more t => t.recvStep .again
  | c => c

theorem drain_append (s : Rpc) (a b : List UInt8) :
    s.drain (a++b) = match s.feed a with
      | .more t => t.drain b
      | c => c := by
  simp only [drain,feed_append]
  cases s.feed a with
  | more t => rfl
  | fail t => rfl
  | fault t => rfl

theorem Inert.feed {s t : Rpc} {a b : List UInt8} (h : s.Inert (a++b)) (hf : s.feed a = .more t) :
    t.Inert b := by
  induction a generalizing s with
  | nil => exact Ctl.more.inj hf ▸ h
  | cons x a ih =>
    simp only [Rpc.feed] at hf
    cases hr : s.recvStep (.data [x]) with
    | more u =>
      rw [hr] at hf
      exact ih (h.2 u hr) hf
    | fail u => simp [hr] at hf
    | fault u => simp [hr] at hf

theorem feed_ok {s t : Rpc} (h : s.Ok P) {a : List UInt8} (hf : s.feed a = .more t) : t.Ok P := by
  induction a generalizing s with
  | nil => exact Ctl.more.inj hf ▸ h
  | cons x a ih =>
    simp only [feed] at hf
    have hok := recvStep_ok h (.data [x])
    cases hr : s.recvStep (.data [x]) with
    | more u =>
      rw [hr] at hf hok
      exact ih hok hf
    | fail u => simp [hr] at hf
    | fault u => simp [hr] at hf

/-- The switch at the top of the loop may be taken twice. -/
theorem readPrep_idem {s t : Rpc} (h : s.readPrep = some t) : t.readPrep = some t := by
  unfold readPrep at h
  split at h
  · rename_i h0
    cases hs : s.state with
    | readRm =>
      simp only [hs,Option.some.injEq] at h
      subst h
      simp [readPrep,h0]
    | readPayload =>
      simp only [hs,Option.some.injEq] at h
      subst h
      simp [readPrep]
    | readFragment =>
      simp only [hs] at h
      split at h
      · obtain rfl := Option.some.inj h
        simp [readPrep]
      · simp at h
    | readIovec =>
      simp only [hs] at h
      split at h
      · rename_i p hp
        obtain rfl := Option.some.inj h
        simp [readPrep,h0,hp]
      · simp at h
    | readPadding =>
      simp only [hs,Option.some.injEq] at h
      subst h
      simp only [readPrep,h0,if_true]
      rfl
    | readUnknown =>
      simp only [hs] at h
      split at h
      · obtain rfl := Option.some.inj h
        simp [readPrep]
      · simp at h
  · rename_i h0
    obtain rfl := Option.some.inj h
    rw [readPrep,if_neg h0]

/-- A call that gets EAGAIN at once only prepares the reader. -/
theorem again_eq {s t : Rpc} (h : s.recvStep .again = .more t) :
    t = s ∨ s.socketDisabled = false ∧ s.readPrep = some t := by
  unfold recvStep at h
  split at h
  · exact .inl (Ctl.more.inj h).symm
  · rename_i hdis
    right
    split at h
    · simp at h
    · rename_i u hu
      split at h
      · simp at h
      · split at h
        · simp at h
        · cases hfd : u.fd with
          | true =>
            simp only [hfd,if_true] at h
            exact ⟨by simpa using hdis,by rw [hu,Ctl.more.inj h]⟩
          | false => simp [hfd] at h

theorem recvStep_prep {s t : Rpc} (ht : s.readPrep = some t) (hdis : s.socketDisabled = false)
    (r : Recv) : t.recvStep r = s.recvStep r := by
  have hdis' : t.socketDisabled = false :=
    show t.shared.socketDisabled = false by rw [(readPrep_shared ht).1]; exact hdis
  simp only [recvStep,hdis,hdis',Bool.false_eq_true,if_false,ht,readPrep_idem ht]

theorem drain_prep {s t : Rpc} (ht : s.readPrep = some t) (hdis : s.socketDisabled = false)
    (bs : List UInt8) : t.drain bs = s.drain bs := by
  cases bs with
  | nil => exact recvStep_prep ht hdis .again
  | cons x xs => simp only [drain,feed,recvStep_prep ht hdis]

theorem Inert.prep {s t : Rpc} {bs : List UInt8} (h : s.Inert bs) (ht : s.readPrep = some t)
    (hdis : s.socketDisabled = false) : t.Inert bs := by
  cases bs with
  | nil => trivial
  | cons x xs =>
    refine ⟨fun hacc => ?_,fun u hu => h.2 u (by rw [← recvStep_prep ht hdis]; exact hu)⟩
    obtain ⟨hsh,hst⟩ := readPrep_shared ht
    have hacc' : s.Accepts 1 := by
      obtain ⟨hfd,-,hpos,u,want,hu,hw⟩ := hacc
      obtain rfl := Option.some.inj ((readPrep_idem ht).symm.trans hu)
      exact ⟨show s.shared.fd = true by rw [← hsh]; exact hfd,hdis,hpos,t,want,ht,hw⟩
    intro hs
    have he : t = { s with pduSize := t.pduSize } := by
      unfold readPrep at ht
      split at ht
      · simp only [← hst,hs,Option.some.injEq] at ht
        rw [← ht]
        simp only [hs,← hst]
      · rw [← Option.some.inj ht]
    have hin := h.1 hacc' (hst ▸ hs)
    rw [he]
    exact hin

/-- A reader that gets no further with EAGAIN gets no further with bytes. -/
theorem recvStep_lost {s : Rpc} (h : ∀ t, s.recvStep .again ≠ .more t) (bs : List UInt8) :
    s.recvStep (.data bs) = s.recvStep .again := by
  have hdis : s.socketDisabled = false := by
    by_contra hdis
    exact h s (by simp only [recvStep,Bool.not_eq_false] at hdis ⊢; rw [if_pos hdis])
  simp only [recvStep,hdis,Bool.false_eq_true,if_false] at h ⊢
  cases ht : s.readPrep with
  | none => rfl
  | some t =>
    simp only [ht] at h ⊢
    cases hw : t.readWant with
    | none => rfl
    | some want =>
      simp only [hw] at h ⊢
      by_cases h0 : want = 0
      · simp only [h0,if_true]
      · simp only [h0,if_false] at h ⊢
        cases hfd : t.fd with
        | true => simp [hfd] at h
        | false => rfl

theorem Ctl.Sim.more_left {n : ℕ} {t : Rpc} {d : Ctl} (h : Ctl.Sim n (.more t) d) :
    ∃ b, d = .more (t.withInbuf b) ∧ t.Agree n b := by
  cases h with
  | more _ b hu => exact ⟨b,rfl,hu⟩

theorem Ctl.Sim.not_more {n : ℕ} {c d : Ctl} (h : Ctl.Sim n c d) (hc : ∀ t, c ≠ .more t) (m : ℕ) :
    Ctl.Sim m c d ∧ ∀ t, d ≠ .more t := by
  cases h with
  | more u b hu => exact absurd rfl (hc u)
  | fail u b => exact ⟨.fail u b,by simp⟩
  | fault hu => exact ⟨.fault hu,by simp⟩

/-- Whatever the cut, the outcome is that of the stream byte by byte. -/
theorem cuts_sim {s : Rpc} {bs : List UInt8} {calls : List (List (List UInt8))}
    (hc : Cuts s bs calls) (h : s.Ok P) {b : List UInt8} (h' : (s.withInbuf b).Ok P)
    (ha : s.Agree bs.length b) (hin : (s.withInbuf b).Inert bs) :
    Ctl.Sim 0 (s.readAll calls) ((s.withInbuf b).drain bs) := by
  induction hc generalizing b with
  | done hstep =>
    have hsim := again_sim h ha
    simp only [readAll,rpcReadFromSocket,hstep] at hsim ⊢
    exact hsim
  | @lost s bs hstep =>
    have hsim := again_sim h ha
    obtain ⟨hsim0,hnot⟩ := Ctl.Sim.not_more hsim hstep 0
    have hd : (s.withInbuf b).drain bs = (s.withInbuf b).recvStep .again := by
      cases bs with
      | nil => rfl
      | cons x xs =>
        simp only [drain,feed,recvStep_lost hnot]
    rw [hd]
    simp only [readAll,rpcReadFromSocket]
    cases hr : s.recvStep .again with
    | more t => exact absurd hr (hstep t)
    | fail t => exact hr ▸ hsim0
    | fault t => exact hr ▸ hsim0
  | @eagain s t bs calls hstep hc ih =>
    have hsim := again_sim h ha
    rw [hstep] at hsim
    obtain ⟨b',hb',hag⟩ := Ctl.Sim.more_left hsim
    have hok := recvStep_ok h .again
    have hok' := recvStep_ok h' .again
    rw [hstep] at hok
    rw [hb'] at hok'
    simp only [readAll,rpcReadFromSocket,hstep]
    rcases again_eq hb' with he | ⟨hdis,hprep⟩
    · rw [← he]
      exact ih hok hok' hag (he ▸ hin)
    · rw [← drain_prep hprep hdis]
      exact ih hok hok' hag (hin.prep hprep hdis)
  | @chunk s t a bs call calls hacc hstep hc ih =>
    rw [List.length_append,Nat.add_comm] at ha
    have hin' : (s.withInbuf b).PadInert (a++bs) := by
      cases a with
      | nil => exact absurd hacc.2.2.1 (by simp)
      | cons x xs =>
        refine hin.1 ?_
        obtain ⟨hfd,hdis,hpos,u,want,hu,hw,hle⟩ := hacc.withInbuf b
        exact ⟨hfd,hdis,one_pos,u,want,hu,hw,by omega⟩
    have hsim := (recvStep_sim h ha hacc).trans (chunk_sim h' (hacc.withInbuf b) hin')
    rw [hstep] at hsim
    obtain ⟨b',hb',hag⟩ := Ctl.Sim.more_left hsim
    have hok := recvStep_ok h (.data a)
    rw [hstep] at hok
    have hread : s.readAll ((a::call)::calls) = t.readAll (call::calls) := by
      simp only [readAll,rpcReadFromSocket,hstep]
    rw [hread,drain_append,hb']
    exact ih hok (feed_ok h' hb') hag (hin.feed hb')
  | @stop s a bs hacc hstep =>
    rw [List.length_append,Nat.add_comm] at ha
    have hin' : (s.withInbuf b).PadInert (a++bs) := by
      cases a with
      | nil => exact absurd hacc.2.2.1 (by simp)
      | cons x xs =>
        refine hin.1 ?_
        obtain ⟨hfd,hdis,hpos,u,want,hu,hw,hle⟩ := hacc.withInbuf b
        exact ⟨hfd,hdis,one_pos,u,want,hu,hw,by omega⟩
    have hsim := (recvStep_sim h ha hacc).trans (chunk_sim h' (hacc.withInbuf b) hin')
    obtain ⟨hsim0,hnot⟩ := Ctl.Sim.not_more hsim hstep 0
    have hread : s.readAll [[a]] = s.recvStep (.data a) := by
      simp only [readAll,rpcReadFromSocket]
    have hd : (s.withInbuf b).drain (a++bs) = (s.withInbuf b).feed a := by
      rw [drain_append]
      cases hr : (s.withInbuf b).feed a with
      | more t => exact absurd hr (hnot t)
      | fail t => rfl
      | fault t => rfl
    rw [hread,hd]
    exact hsim0

theorem cuts_seen {s : Rpc} {bs : List UInt8} {calls : List (List (List UInt8))}
    (hc : Cuts s bs calls) (h : s.Ok P) (hin : s.Inert bs) :
    (s.readAll calls).seen = (s.drain bs).seen :=
  (cuts_sim hc h h (.refl s _) hin).seen.symm

/-- A reader that is not asked for a byte now fails. -/
theorem recvStep_not_accepts {s : Rpc} (h : s.Ok P) (hfd : s.fd = true)
    (hdis : s.socketDisabled = false) (hacc : ¬ s.Accepts 1) (r : Recv) :
    ∀ t, s.recvStep r ≠ .more t := by
  obtain ⟨t,ht,hp⟩ := h.prepared
  have h0 : t.wants = 0 := by
    by_contra hne
    exact hacc ((accepts_iff ht hp 1).mpr ⟨hfd,hdis,one_pos,Nat.one_le_iff_ne_zero.mpr hne⟩)
  simp [recvStep,hdis,ht,readWant_eq hp,h0]

/-- The stream can be read byte by byte. -/
theorem drain_cut {s : Rpc} (h : s.Ok P) (hfd : s.fd = true) (hdis : s.socketDisabled = false)
    (bs : List UInt8) :
    ∃ call calls, Cuts s bs (call::calls) ∧ s.readAll (call::calls) = s.drain bs := by
  induction bs generalizing s with
  | nil =>
    cases hr : s.recvStep .again with
    | more t => exact ⟨[],[],.done hr,by simp only [readAll,rpcReadFromSocket,drain,feed,hr]⟩
    | fail t =>
      exact ⟨[],[],.lost (by simp [hr]),by simp only [readAll,rpcReadFromSocket,drain,feed,hr]⟩
    | fault t =>
      exact ⟨[],[],.lost (by simp [hr]),by simp only [readAll,rpcReadFromSocket,drain,feed,hr]⟩
  | cons x xs ih =>
    by_cases hacc : s.Accepts 1
    · cases hr : s.recvStep (.data [x]) with
      | more t =>
        have hok := recvStep_ok h (.data [x])
        have hb := recvStep_booked h (.data [x])
        rw [hr] at hok hb
        simp only [Ctl.rpc,booked,Prod.mk.injEq] at hb
        obtain ⟨call,calls,hc,he⟩ := ih hok (hb.2.2.2.1.trans hfd) (hb.2.2.2.2.1.trans hdis)
        refine ⟨[x]::call,calls,.chunk (a := [x]) hacc hr hc,?_⟩
        simp only [readAll,rpcReadFromSocket,drain,feed,hr] at he ⊢
        exact he
      | fail t =>
        exact ⟨[[x]],[],.stop (a := [x]) hacc (by simp [hr]),
          by simp only [readAll,rpcReadFromSocket,drain,feed,hr]⟩
      | fault t =>
        exact ⟨[[x]],[],.stop (a := [x]) hacc (by simp [hr]),
          by simp only [readAll,rpcReadFromSocket,drain,feed,hr]⟩
    · have hnot := recvStep_not_accepts h hfd hdis hacc .again
      refine ⟨[],[],.lost hnot,?_⟩
      simp only [readAll,rpcReadFromSocket,drain,feed,recvStep_lost hnot]

theorem feed_log {s : Rpc} (h : s.Ok P) (bs : List UInt8) : s.log <+: (s.feed bs).rpc.log := by
  induction bs generalizing s with
  | nil => exact List.prefix_rfl
  | cons x xs ih =>
    have hlog := recvStep_log h (.data [x])
    have hok := recvStep_ok h (.data [x])
    simp only [feed]
    cases hr : s.recvStep (.data [x]) with
    | more t =>
      rw [hr] at hlog hok
      exact hlog.trans (ih hok)
    | fail t =>
      rw [hr] at hlog
      exact hlog
    | fault t =>
      rw [hr] at hlog
      exact hlog

theorem drain_log {s : Rpc} (h : s.Ok P) (bs : List UInt8) : s.log <+: (s.drain bs).rpc.log := by
  have hlog := feed_log h bs
  simp only [drain]
  cases hr : s.feed bs with
  | more t =>
    rw [hr] at hlog
    exact hlog.trans (recvStep_log (feed_ok h hr) .again)
  | fail t =>
    rw [hr] at hlog
    exact hlog
  | fault t =>
    rw [hr] at hlog
    exact hlog

theorem seen_log (c : Ctl) : c.seen.rpc.log = c.rpc.log := by
  cases c with
  | more t => rfl
  | fail t => rfl
  | fault t => rfl

/-- A chunk, and then the rest byte by byte. -/
theorem chunk_cut {s t : Rpc} (h : s.Ok P) {a : List UInt8} (hacc : s.Accepts a.length)
    (hstep : s.recvStep (.data a) = .more t) (bs : List UInt8) :
    ∃ calls, Cuts s (a++bs) calls ∧ s.readAll calls = t.drain bs := by
  have hok := recvStep_ok h (.data a)
  have hb := recvStep_booked h (.data a)
  rw [hstep] at hok hb
  simp only [Ctl.rpc,booked,Prod.mk.injEq] at hb
  obtain ⟨call,calls,hc,he⟩ := drain_cut hok (hb.2.2.2.1.trans hacc.1) (hb.2.2.2.2.1.trans hacc.2.1) bs
  refine ⟨(a::call)::calls,.chunk hacc hstep hc,?_⟩
  simp only [readAll,rpcReadFromSocket,hstep] at he ⊢
  exact he

/-- The receive buffer after `n` bytes of padding of which the first `k` arrive as one chunk
and the others one by one. -/
def padBuf (b bs : List UInt8) (k n : ℕ) : List UInt8 :=
  if k = n then overwrite b 0 (bs.take k)
  else overwrite (overwrite b 0 (bs.take k)) 0 ((bs.take n).drop (n-1))

theorem finished_called_log {s : Rpc} {p : Pdu} (hp : s.pdu = some p) (hf : p.freePdu = true) :
    s.rpcFinishedPdu.log =
      s.log ++ [.callback p.id .success (decoded p (s.inbuf.take p.zdrSize))] := by
  simp only [rpcFinishedPdu,hp,hf,if_true,callback]

/-- The first chunk of the padding is in the data of the callback. -/
theorem padding_cut {s : Rpc} (h : s.Ok P) (hs : s.state = .readPadding) (hone : s.Accepts 1)
    {p : Pdu} (hpp : s.pdu = some p) (hf : p.freePdu = true) {bs : List UInt8} {k : ℕ} (hk : 0 < k)
    (hkn : k ≤ s.rm0-s.inpos) (hkb : k ≤ s.inbufSize) (hn : s.rm0-s.inpos ≤ bs.length) :
    ∃ calls, Cuts s bs calls ∧ s.log ++ [.callback p.id .success
      (decoded p ((padBuf s.inbuf bs k (s.rm0-s.inpos)).take p.zdrSize))] <+:
        (s.readAll calls).seen.rpc.log := by
  obtain ⟨t,ht,hp⟩ := h.prepared
  obtain ⟨hts,htst⟩ := readPrep_shared ht
  have hst := htst.trans hs
  obtain ⟨hrm,hpos,hbuf,hsz,hbsz,hpdu⟩ := padding_prep h hs ht hp
  have hlt : t.inpos < t.pduSize := by
    have hw := padding_wants hp hst
    rw [wants,if_pos hst] at hw
    omega
  generalize hL : s.rm0-s.inpos = L at hkn hn ⊢
  have htake : (bs.take k).length = k := by
    rw [List.length_take]
    omega
  have hacc : s.Accepts (bs.take k).length := by
    rw [accepts_iff ht hp,htake,wants,if_pos hst]
    exact ⟨hone.1,hone.2.1,hk,by omega⟩
  have hstep := recvStep_padding hs ht hacc
  rw [htake] at hstep
  rcases Nat.eq_or_lt_of_le hkn with rfl | hklt
  · rw [if_pos (by omega)] at hstep
    obtain ⟨calls,hc,he⟩ := chunk_cut h hacc hstep (bs.drop k)
    rw [List.take_append_drop] at hc
    refine ⟨calls,hc,?_⟩
    have hok := recvStep_ok h (.data (bs.take k))
    rw [hstep] at hok
    have hlog := drain_log hok (bs.drop k)
    rw [finished_called_log (s := t.storedPadding (bs.take k)) (hpdu.trans hpp) hf] at hlog
    rw [seen_log,he,padBuf,if_pos rfl,← hbuf,← readPrep_log ht]
    exact hlog
  · rw [if_neg (by omega)] at hstep
    obtain ⟨calls,hc,he⟩ := chunk_cut h hacc hstep (bs.drop k)
    rw [List.take_append_drop] at hc
    refine ⟨calls,hc,?_⟩
    obtain ⟨u,hu,hstep',hok,huu,hpu⟩ := recvStep_part h ht hp hacc (by omega)
    obtain rfl := Ctl.more.inj (hstep.symm.trans hstep')
    have hust : (t.storedPadding (bs.take k)).state = .readPadding := hst
    have huone : (t.storedPadding (bs.take k)).Accepts 1 :=
      booked_accepts hone (booked_of_shared (t := t.storedPadding (bs.take k)) hts) huu hpu one_pos
        (padding_wants hpu hust)
    have hwlen : ((bs.take L).drop k).length = L-k := by
      rw [List.length_drop,List.length_take]
      omega
    have hrest : bs.drop k = (bs.take L).drop k ++ bs.drop L := by
      conv_lhs => rw [← List.take_append_drop L bs]
      rw [List.drop_append_of_le_length (by rw [List.length_take]; omega)]
    rcases List.eq_nil_or_concat ((bs.take L).drop k) with hnil | ⟨a,x,hax⟩
    · rw [hnil] at hwlen
      simp at hwlen
      omega
    · rw [List.concat_eq_append] at hax
      rw [hax] at hwlen hrest
      have hlast : (bs.take L).drop (L-1) = [x] := by
        have hd : (bs.take L).drop (L-1) = ((bs.take L).drop k).drop (L-1-k) := by
          rw [List.drop_drop]
          congr 1
          omega
        simp only [List.length_append,List.length_singleton] at hwlen
        rw [hd,hax,show L-1-k = a.length by omega,List.drop_left]
      have hfeed := feed_padding_done hok hust huu hpu huone a x (by
        rw [hwlen]
        show t.inpos+(bs.take k).length+(L-k) = t.pduSize
        omega)
      have hokf := feed_ok hok hfeed
      have hlog := drain_log hokf (bs.drop L)
      rw [finished_called_log (s := (t.storedPadding (bs.take k)).padded x _) (hpdu.trans hpp) hf] at hlog
      rw [seen_log,he,hrest,drain_append,hfeed,padBuf,if_neg (by omega),hlast,← hbuf,
        ← readPrep_log ht]
      exact hlog

/-- How the stream is cut cannot be seen afterwards. -/
def CutBlind (s : Rpc) (bs : List UInt8) : Prop :=
  ∀ calls calls', Cuts s bs calls → Cuts s bs calls' → (s.readAll calls).seen = (s.readAll calls').seen

theorem CutBlind.padInert {s : Rpc} {bs : List UInt8} (hq : s.CutBlind bs) (h : s.Ok P)
    (hone : s.Accepts 1) : s.PadInert bs := by
  rintro hs hn i ⟨p,hpp,hf,hi⟩ hlt hsz
  -- The same bytes of the callback, for a first chunk of `k` and of `k'` bytes.
  have hsame : ∀ k k', 0 < k → k ≤ s.rm0-s.inpos → k ≤ s.inbufSize → 0 < k' → k' ≤ s.rm0-s.inpos →
      k' ≤ s.inbufSize → (padBuf s.inbuf bs k (s.rm0-s.inpos))[i]? =
        (padBuf s.inbuf bs k' (s.rm0-s.inpos))[i]? := by
    intro k k' h1 h2 h3 h1' h2' h3'
    obtain ⟨calls,hc,hlog⟩ := padding_cut h hs hone hpp hf h1 h2 h3 hn
    obtain ⟨calls',hc',hlog'⟩ := padding_cut h hs hone hpp hf h1' h2' h3' hn
    rw [hq calls calls' hc hc'] at hlog
    have he := List.append_cancel_left
      ((List.prefix_of_prefix_length_le hlog hlog' (by simp)).eq_of_length (by simp))
    simp only [List.cons.injEq,LogEntry.callback.injEq,true_and,and_true] at he
    exact (decoded_eq_iff p _ _).mp he i hi
  generalize s.rm0-s.inpos = L at hn hlt hsame ⊢
  split
  · rename_i h0
    subst h0
    intro hL
    have he := hsame 1 L one_pos (by omega) (by omega) hlt (le_refl _) hL
    rw [padBuf,padBuf,if_pos rfl] at he
    split at he
    · rename_i h1
      rw [← h1]
    · simp only [getElem?_overwrite_zero,List.length_drop,List.length_take] at he
      rw [if_pos (by omega),if_pos (by omega),List.getElem?_drop,List.getElem?_take,
        List.getElem?_take,if_pos (by omega),if_pos (by omega)] at he
      exact he.symm
  · rename_i h0
    have he := hsame 1 (i+1) one_pos (by omega) (by omega) (by omega) (by omega) (by omega)
    have htail : ((bs.take L).drop (L-1)).length = 1 := by
      rw [List.length_drop,List.length_take]
      omega
    have hl : (padBuf s.inbuf bs 1 L)[i]? = s.inbuf[i]? := by
      rw [padBuf,if_neg (by omega)]
      simp only [getElem?_overwrite_zero,htail,List.length_take]
      rw [if_neg (by omega),if_neg (by omega)]
    have hr : (padBuf s.inbuf bs (i+1) L)[i]? = bs[i]? := by
      have hc : (overwrite s.inbuf 0 (bs.take (i+1)))[i]? = bs[i]? := by
        rw [getElem?_overwrite_zero,List.length_take,if_pos (by omega),List.getElem?_take,
          if_pos (by omega)]
      rw [padBuf]
      split
      · exact hc
      · rw [getElem?_overwrite_zero,htail,if_neg (by omega)]
        exact hc
    rw [← hl,he,hr]

theorem recvStep_disabled {s : Rpc} (h : s.socketDisabled = true) (r : Recv) :
    s.recvStep r = .more s := by
  rw [recvStep,if_pos h]

theorem cuts_disabled {s : Rpc} (h : s.socketDisabled = true) {bs : List UInt8}
    {calls : List (List (List UInt8))} (hc : Cuts s bs calls) : s.readAll calls = .more s := by
  induction hc with
  | done => simp only [readAll,rpcReadFromSocket,recvStep_disabled h]
  | lost hstep => exact absurd (recvStep_disabled h .again) (hstep _)
  | eagain hstep hc ih =>
    rw [recvStep_disabled h,Ctl.more.injEq] at hstep
    subst hstep
    simp only [readAll,rpcReadFromSocket,recvStep_disabled h]
    exact ih h
  | chunk ha => simp [ha.2.1] at h
  | stop ha => simp [ha.2.1] at h

/-- Where a byte makes no difference to the kernel, the reader is off or fails. -/
theorem disabled_of_more {s t : Rpc} (h : s.Ok P) (hacc : ¬ s.Accepts 1) {x : UInt8}
    (ht : s.recvStep (.data [x]) = .more t) : s.socketDisabled = true ∧ t = s := by
  cases hdis : s.socketDisabled with
  | true =>
    rw [recvStep_disabled hdis] at ht
    exact ⟨rfl,(Ctl.more.inj ht).symm⟩
  | false =>
    cases hfd : s.fd with
    | true => exact absurd ht (recvStep_not_accepts h hfd hdis hacc _ t)
    | false =>
      obtain ⟨u,hu,hp⟩ := h.prepared
      have hufd : u.fd = false := show u.shared.fd = false by
        rw [(readPrep_shared hu).1]
        exact hfd
      simp [recvStep,hdis,hu,readWant_eq hp,hufd] at ht

theorem Cuts.cons {s : Rpc} {bs : List UInt8} {calls : List (List (List UInt8))}
    (h : Cuts s bs calls) : ∃ call rest, calls = call::rest := by
  cases h <;> exact ⟨_,_,rfl⟩

theorem CutBlind.inert {s : Rpc} {bs : List UInt8} (hq : s.CutBlind bs) (h : s.Ok P) :
    s.Inert bs := by
  induction bs generalizing s with
  | nil => trivial
  | cons x xs ih =>
    refine ⟨hq.padInert h,fun t ht => ih ?_ ?_⟩
    · intro calls calls' hc hc'
      by_cases hacc : s.Accepts 1
      · obtain ⟨call,rest,rfl⟩ := hc.cons
        obtain ⟨call',rest',rfl⟩ := hc'.cons
        have he := hq _ _ (.chunk (a := [x]) hacc ht hc) (.chunk (a := [x]) hacc ht hc')
        simp only [readAll,rpcReadFromSocket,ht] at he ⊢
        exact he
      · obtain ⟨hdis,rfl⟩ := disabled_of_more h hacc ht
        rw [cuts_disabled hdis hc,cuts_disabled hdis hc']
    · have hok := recvStep_ok h (.data [x])
      rw [ht] at hok
      exact hok

/-- Chunking independence: every cut of the stream leads to the same log, memory and reader, if
and only if padding that is stored in one piece changes no result. -/
theorem chunking_iff (cfg : Config) (es : List Event) (hlive : (after cfg es).crashed = false)
    (bs : List UInt8) : (after cfg es).CutBlind bs ↔ (after cfg es).Inert bs := by
  have hok : (after cfg es).Ok fun _ => True :=
    after_ok cfg es (fun e _ => by cases e <;> simp [Queues]) hlive
  refine ⟨fun hq => hq.inert hok,fun hin calls calls' hc hc' => ?_⟩
  rw [cuts_seen hc hok hin,cuts_seen hc' hok hin]

theorem chunking_demo : (after demoConfig demoConnect).CutBlind [0x80,0] := by
  refine (chunking_iff demoConfig demoConnect rfl [0x80,0]).mpr ⟨fun _ hs => ?_,fun t ht => ?_⟩
  · exact absurd hs (by decide)
  · have hstep : recvStep (after demoConfig demoConnect) (.data [0x80]) =
        .more (recvStep (after demoConfig demoConnect) (.data [0x80])).rpc := rfl
    obtain rfl := Ctl.more.inj (hstep.symm.trans ht)
    exact ⟨fun _ hs => absurd hs (by decide),fun _ _ => trivial⟩

/-- A READ of 1000 bytes on NFSv4. -/
def demoRead4 : Call where
  markerBuf := 0
  payload := [⟨4,List.replicate 40 0⟩]
  iov := [⟨1000,1000⟩]
  zdrDecodeFn := zdrCOMPOUND4res 128 fun _ => Dec.fail
  zdrDecodeBufsize := 40

/-- The first 1024 bytes of its reply, without the xid: the tag is `abcd`, and the server has
sent 1040 bytes of data. -/
def demoReply4 : List UInt8 :=
  beBytes 1 ++ beBytes 0 ++ beBytes 0 ++ beBytes 0 ++ beBytes 0 ++ beBytes 0 ++ beBytes 4 ++
    [0x61,0x62,0x63,0x64] ++ beBytes 1 ++ beBytes 25 ++ beBytes 0 ++ beBytes 0 ++ beBytes 1040 ++
    List.replicate 968 0

/-- All is read but the 40 bytes that were not asked for. -/
def demoSurplus : List Event :=
  demoConnect ++ [.queuePdu demoRead4 [.wrote 44],
    .recv (.data (beBytes (2^31+1096) ++ beBytes 1)) .started,.recv (.data demoReply4) .started,
    .recv (.data (List.replicate 32 0)) .started]

theorem chunking_broken :
    ¬ (after { demoConfig with nfsV3 := false } demoSurplus).CutBlind (List.replicate 40 0) := by
  have hok : (after { demoConfig with nfsV3 := false } demoSurplus).Ok fun _ => True :=
    after_ok _ _ (fun e _ => by cases e <;> simp [Queues]) (by decide +kernel)
  have hfacts : (after { demoConfig with nfsV3 := false } demoSurplus).fd = true ∧
      (after { demoConfig with nfsV3 := false } demoSurplus).socketDisabled = false ∧
      (after { demoConfig with nfsV3 := false } demoSurplus).state = .readPadding ∧
      (after { demoConfig with nfsV3 := false } demoSurplus).rm0 = 40 ∧
      (after { demoConfig with nfsV3 := false } demoSurplus).inpos = 0 ∧
      (after { demoConfig with nfsV3 := false } demoSurplus).inbufSize = 1024 ∧
      (after { demoConfig with nfsV3 := false } demoSurplus).inbuf[32]? = some 0x61 ∧
      (after { demoConfig with nfsV3 := false } demoSurplus).pdu.any (fun p => p.freePdu &&
        (p.zdrDecodeBuf && (decide (32 < p.zdrSize) && p.decodeMem.refs.any fun r =>
          decide (r.off.toNat ≤ 32 ∧ 32 < r.off.toNat+r.len)))) = true := by decide +kernel
  generalize after { demoConfig with nfsV3 := false } demoSurplus = s at hok hfacts ⊢
  obtain ⟨hfd,hdis,hs,hrm,hi,hsz,hbuf,hpdu⟩ := hfacts
  intro hq
  obtain ⟨t,ht,hp⟩ := hok.prepared
  have hone : s.Accepts 1 := (accepts_iff ht hp 1).mpr
    ⟨hfd,hdis,one_pos,padding_wants hp ((readPrep_shared ht).2.trans hs)⟩
  have hshown : s.Shown 32 := by
    obtain ⟨p,hp,h⟩ := (Option.any_eq_true _ _).mp hpdu
    simp only [Bool.and_eq_true,decide_eq_true_eq,List.any_eq_true] at h
    exact ⟨p,hp,h.1,h.2.1,h.2.2.1,h.2.2.2⟩
  have hin := hq.padInert hok hone hs (by rw [hrm,hi]; decide) 32 hshown (by rw [hrm,hi]; decide)
    (by rw [hsz]; decide)
  rw [if_neg (by decide),hbuf] at hin
  exact absurd hin (by decide)

end Rpc
end Libnfs
