import Libnfs.CStrings
import Libnfs.ParseUrl

/-! The loop of `nfs_parse_url` that unescapes a URL in place, and that it decodes each escape of the URL once. -/
namespace Libnfs
namespace PercentDecoding

open CString

/-- `tohex` -/
def tohex (ch : UInt8) : Option UInt8 :=
  if 48 ≤ ch ∧ ch ≤ 57 then some (ch-48)
  else
    let ch := ch &&& 0xDF
    if 65 ≤ ch ∧ ch ≤ 70 then some (ch-65+10) else none

/-- A turn of the loop: the buffer, and the pointer if the loop goes on -/
def turn (buf : List UInt8) (strp : ℕ) : Option (List UInt8 × Option ℕ) := do
  if (← buf[strp]?) = 0 then return (buf,none)
  match ← strchr 37 (buf.drop strp) with
  | none => return (buf,none)
  | some n =>
    let strp := strp+n
    match tohex (← buf[strp+1]?) with
    | none => return (buf,some (strp+1))
    | some tmp =>
      let ch := (tmp &&& 0x0f) <<< 4
      match tohex (← buf[strp+2]?) with
      | none => return (buf,some (strp+1))
      | some tmp =>
        let ch := ch ||| (tmp &&& 0x0f)
        let buf ← memcpy buf strp [ch]
        let len ← strlen (buf.drop (strp+3))
        let buf ← memmove buf (strp+1) (strp+3) (len+1)
        return (buf,some (strp+1))

/-- At most `fuel` turns -/
def loop : ℕ → List UInt8 → ℕ → Option (List UInt8)
  | 0, _, _ => none
  | fuel+1, buf, strp => do
    match ← turn buf strp with
    | (buf,none) => return buf
    | (buf,some strp) => loop fuel buf strp

/-- The value of a hex digit -/
def hexDigit (b : UInt8) : Option ℕ :=
  if 48 ≤ b.toNat ∧ b.toNat ≤ 57 then some (b.toNat-48)
  else if 65 ≤ b.toNat ∧ b.toNat ≤ 70 then some (b.toNat-55)
  else if 97 ≤ b.toNat ∧ b.toNat ≤ 102 then some (b.toNat-87)
  else none

/-- The byte that two hex digits say -/
def hexPair (a b : UInt8) : Option UInt8 :=
  match hexDigit a,hexDigit b with
  | some h,some l => some (UInt8.ofNat (16*h+l))
  | _,_ => none

/-- What percent decoding is for: a `%` and the two hex digits behind it are the byte these say, and any other byte is itself. -/
def decode : List UInt8 → List UInt8
  | [] => []
  | [x] => [x]
  | [x,a] => [x,a]
  | x::a::b::s =>
    match if x = 37 then hexPair a b else none with
    | some c => c::decode s
    | none => x::decode (a::b::s)

variable {x a b c : UInt8} {s out rest junk : List UInt8}

theorem decode_cons (h : ∀ a b t, x = 37 → s = a::b::t → hexPair a b = none) : decode (x::s) = x::decode s := by
  rcases s with _ | ⟨a,_ | ⟨b,s⟩⟩
  · rfl
  · rfl
  · have hnone : (if x = 37 then hexPair a b else none) = none := by
      split
      · exact h a b s ‹_› rfl
      · rfl
    rw [decode,hnone]

theorem decode_pair (h : hexPair a b = some c) (s : List UInt8) : decode (37::a::b::s) = c::decode s := by
  rw [decode,if_pos rfl,h]

theorem decode_append (h : 37 ∉ out) (s : List UInt8) : decode (out ++ s) = out ++ decode s := by
  induction out with
  | nil => rfl
  | cons x out ih =>
    have hx : x ≠ 37 := fun hx => h (by simp [hx])
    rw [List.cons_append,decode_cons fun _ _ _ hx' => absurd hx' hx,ih fun ho => h (List.mem_cons_of_mem x ho)]
    rfl

theorem decode_plain (h : 37 ∉ s) : decode s = s := by
  have ha := decode_append h []
  rwa [List.append_nil,decode,List.append_nil] at ha

theorem hexDigit_lt {n : ℕ} (h : hexDigit b = some n) : n < 16 := by
  unfold hexDigit at h
  split at h
  · simp only [Option.some.injEq] at h
    omega
  · split at h
    · simp only [Option.some.injEq] at h
      omega
    · split at h
      · simp only [Option.some.injEq] at h
        omega
      · simp at h

theorem tohex_eq (b : UInt8) : tohex b = (hexDigit b).map UInt8.ofNat := by
  have h : ∀ n : Fin 256, tohex (UInt8.ofFin n) = (hexDigit (UInt8.ofFin n)).map UInt8.ofNat := by decide +kernel
  exact h b.toFin

theorem joined {h l : ℕ} (hh : h < 16) (hl : l < 16) :
    (UInt8.ofNat h &&& 0x0f) <<< 4 ||| UInt8.ofNat l &&& 0x0f = UInt8.ofNat (16*h+l) := by
  have hall : ∀ i j : Fin 16, (UInt8.ofNat i &&& 0x0f) <<< 4 ||| UInt8.ofNat j &&& 0x0f = UInt8.ofNat (16*i+j) := by
    decide +kernel
  exact hall ⟨h,hh⟩ ⟨l,hl⟩

/-- What the loop makes of the two bytes behind a `%` -/
theorem tohex_pair (a b : UInt8) :
    (tohex a = none ∧ hexPair a b = none) ∨ (∃ t, tohex a = some t ∧ tohex b = none ∧ hexPair a b = none) ∨
    ∃ t u, tohex a = some t ∧ tohex b = some u ∧ hexPair a b = some ((t &&& 0x0f) <<< 4 ||| u &&& 0x0f) := by
  rw [tohex_eq,tohex_eq,hexPair]
  cases ha : hexDigit a with
  | none => exact .inl ⟨rfl,rfl⟩
  | some h =>
    cases hb : hexDigit b with
    | none => exact .inr (.inl ⟨_,rfl,rfl,rfl⟩)
    | some l => exact .inr (.inr ⟨_,_,rfl,rfl,by rw [joined (hexDigit_lt ha) (hexDigit_lt hb)]⟩)

theorem tohex_zero : tohex 0 = none := by decide +kernel

theorem getElem?_behind (out s : List UInt8) (n : ℕ) : (out ++ s)[out.length+n]? = s[n]? := by
  rw [List.getElem?_append_right (Nat.le_add_right _ _),Nat.add_sub_cancel_left]

/-- The string in front of the first `%`, and what is behind that -/
theorem split_percent (s : List UInt8) : 37 ∉ s ∨ ∃ a r, s = a ++ 37::r ∧ 37 ∉ a := by
  by_cases h : 37 ∈ s
  · obtain ⟨a,r,hs,ha⟩ := List.eq_append_cons_of_mem h
    exact .inr ⟨a,r,hs,ha⟩
  · exact .inl h

/-- What a turn does where `rest` is still to be decoded and `out` is what was decoded -/
inductive Turned (out rest junk : List UInt8) : Option (List UInt8 × Option ℕ) → Prop
  | stop (h : decode rest = rest) : Turned out rest junk (some (out ++ rest ++ 0::junk,none))
  | go (out' rest' junk' : List UInt8) (h0 : 0 ∉ rest') (hlt : rest'.length < rest.length)
      (h : out' ++ decode rest' = out ++ decode rest) :
      Turned out rest junk (some (out' ++ rest' ++ 0::junk',some out'.length))

section Turns

variable {m buf : List UInt8} {y z t u : UInt8}

/-- The loop is at the `%` behind `a`. -/
structure At (buf out a m : List UInt8) : Prop where
  eq : buf = out ++ a ++ 37::m
  first : ∃ x, buf[out.length]? = some x ∧ x ≠ 0
  percent : strchr 37 (buf.drop out.length) = some (some a.length)

theorem At.intro (h0 : 0 ∉ s) (hp : 37 ∉ s) : At (out ++ s ++ 37::m) out s m := by
  have hdrop : (out ++ s ++ 37::m).drop out.length = s ++ 37::m := by rw [List.append_assoc,List.drop_left]
  refine ⟨rfl,?_,by rw [hdrop,strchr_found h0 hp]⟩
  rw [List.append_assoc]
  have hfirst := getElem?_behind out (s ++ 37::m) 0
  rw [Nat.add_zero] at hfirst
  cases s with
  | nil => exact ⟨37,hfirst,by decide⟩
  | cons x s => exact ⟨x,hfirst,fun hx => h0 (by simp [hx])⟩

theorem At.getElem? (h : At buf out s m) (n : ℕ) : buf[out.length+s.length+1+n]? = m[n]? := by
  have hb : buf = out ++ s ++ [37] ++ m := by rw [h.eq,List.append_assoc _ [37],List.singleton_append]
  rw [hb,← getElem?_behind (out ++ s ++ [37]) m n]
  simp [Nat.add_assoc]

/-- It is no escape. -/
theorem At.turn_keep (h : At buf out s m) (hy : m[0]? = some y)
    (hor : tohex y = none ∨ ∃ z, m[1]? = some z ∧ tohex z = none) :
    turn buf out.length = some (buf,some (out.length+s.length+1)) := by
  obtain ⟨x,hx,hx0⟩ := h.first
  have hy' : buf[out.length+s.length+1]? = some y := (h.getElem? 0).trans hy
  unfold turn
  cases ht : tohex y with
  | none => simp [hx,hx0,h.percent,hy',ht]
  | some t =>
    rcases hor with hnone | ⟨z,hz,hu⟩
    · simp [hnone] at ht
    · have hz' : buf[out.length+s.length+2]? = some z := (h.getElem? 1).trans hz
      simp [hx,hx0,h.percent,hy',ht,hz',hu]

/-- It is an escape: the byte goes over the `%`, and the string behind it moves up. -/
theorem At.turn_pair {r junk : List UInt8} (h : At buf out s (y::z::(r ++ 0::junk))) (h0 : 0 ∉ r) (hy : tohex y = some t)
    (hz : tohex z = some u) : ∃ junk', turn buf out.length =
      some (out ++ s ++ [(t &&& 0x0f) <<< 4 ||| u &&& 0x0f] ++ r ++ 0::junk',some (out.length+s.length+1)) := by
  obtain ⟨x,hx,hx0⟩ := h.first
  have hy' : buf[out.length+s.length+1]? = some y := (h.getElem? 0).trans rfl
  have hz' : buf[out.length+s.length+2]? = some z := (h.getElem? 1).trans rfl
  generalize hc : (t &&& 0x0f) <<< 4 ||| u &&& 0x0f = c
  have hset : memcpy buf (out.length+s.length) [c] = some (out ++ s ++ [c] ++ y::z::(r ++ 0::junk)) := by
    have hcpy := @memcpy_append (out ++ s) [37] (y::z::(r ++ 0::junk)) [c] rfl
    rw [List.length_append] at hcpy
    rw [h.eq,← hcpy]
    simp
  have hlen : strlen ((out ++ s ++ [c] ++ y::z::(r ++ 0::junk)).drop (out.length+s.length+3)) = some r.length := by
    have hsplit : out ++ s ++ [c] ++ y::z::(r ++ 0::junk) = (out ++ s ++ [c] ++ [y,z]) ++ (r ++ 0::junk) := by simp
    have hl : out.length+s.length+3 = (out ++ s ++ [c] ++ [y,z]).length := by simp [Nat.add_assoc]
    rw [hsplit,hl,List.drop_left,strlen_append h0]
  obtain ⟨moved,hmove,-⟩ := @memmove_up (out ++ s ++ [c]) (r ++ [0]) junk [y,z]
  have hmove' : memmove (out ++ s ++ [c] ++ y::z::(r ++ 0::junk)) (out.length+s.length+1) (out.length+s.length+3) (r.length+1) =
      some (out ++ s ++ [c] ++ r ++ 0::(moved ++ junk)) := by
    simpa [Nat.add_assoc] using hmove
  refine ⟨moved ++ junk,?_⟩
  generalize out ++ s ++ [c] ++ y::z::(r ++ 0::junk) = b at hset hlen hmove'
  generalize out ++ s ++ [c] ++ r ++ 0::(moved ++ junk) = b' at hmove' ⊢
  unfold turn
  simp [hx,hx0,h.percent,hy',hy,hz',hz,hc,hset,hlen,hmove']

end Turns

theorem turn_turned (h0 : 0 ∉ rest) : Turned out rest junk (turn (out ++ rest ++ 0::junk) out.length) := by
  rcases split_percent rest with hp | ⟨s,r,rfl,hp⟩
  · -- no `%` is left
    have hfirst : (out ++ rest ++ 0::junk)[out.length]? = (rest ++ 0::junk)[0]? := by
      rw [List.append_assoc]
      exact getElem?_behind out _ 0
    have hdrop : (out ++ rest ++ 0::junk).drop out.length = rest ++ 0::junk := by rw [List.append_assoc,List.drop_left]
    have hstop : turn (out ++ rest ++ 0::junk) out.length = some (out ++ rest ++ 0::junk,none) := by
      unfold turn
      rw [hfirst,hdrop,strchr_none (by decide) h0 hp]
      cases rest with
      | nil => rfl
      | cons x xs => simp
    rw [hstop]
    exact .stop (decode_plain hp)
  · have h0s : 0 ∉ s := fun h => h0 (List.mem_append_left _ h)
    have h0r : 0 ∉ r := fun h => h0 (List.mem_append_right _ (List.mem_cons_of_mem _ h))
    have hat : At (out ++ (s ++ 37::r) ++ 0::junk) out s (r ++ 0::junk) := by
      have hs : out ++ (s ++ 37::r) ++ 0::junk = out ++ s ++ 37::(r ++ 0::junk) := by simp
      rw [hs]
      exact .intro h0s hp
    -- the `%` is kept
    have hkeep : ∀ y, (r ++ 0::junk)[0]? = some y →
        (tohex y = none ∨ ∃ z, (r ++ 0::junk)[1]? = some z ∧ tohex z = none) →
        (∀ a b t, r = a::b::t → hexPair a b = none) →
        Turned out (s ++ 37::r) junk (turn (out ++ (s ++ 37::r) ++ 0::junk) out.length) := by
      intro y hy hor hnone
      rw [hat.turn_keep hy hor]
      have hbuf : out ++ (s ++ 37::r) ++ 0::junk = out ++ s ++ [37] ++ r ++ 0::junk := by simp
      have hlen : out.length+s.length+1 = (out ++ s ++ [37]).length := by simp [Nat.add_assoc]
      rw [hbuf,hlen]
      refine .go _ r junk h0r (by rw [List.length_append,List.length_cons]; omega) ?_
      rw [decode_append hp,decode_cons fun a b t _ => hnone a b t]
      simp
    rcases r with _ | ⟨a,_ | ⟨b,r⟩⟩
    · exact hkeep 0 rfl (.inl tohex_zero) (by simp)
    · exact hkeep a rfl (.inr ⟨0,rfl,tohex_zero⟩) (by simp)
    · rcases tohex_pair a b with ⟨ha,hnone⟩ | ⟨t,ha,hb,hnone⟩ | ⟨t,u,ha,hb,hpair⟩
      · exact hkeep a rfl (.inl ha) (by rintro _ _ _ ⟨⟩; exact hnone)
      · exact hkeep a rfl (.inr ⟨b,rfl,hb⟩) (by rintro _ _ _ ⟨⟩; exact hnone)
      · have h0r' : 0 ∉ r := fun h => h0r (List.mem_cons_of_mem _ (List.mem_cons_of_mem _ h))
        obtain ⟨junk',hturn⟩ := hat.turn_pair h0r' ha hb
        generalize (t &&& 0x0f) <<< 4 ||| u &&& 0x0f = c at hpair hturn
        have hlen : out.length+s.length+1 = (out ++ s ++ [c]).length := by simp [Nat.add_assoc]
        rw [hturn,hlen]
        refine .go _ r junk' h0r' (by rw [List.length_append]; simp only [List.length_cons]; omega) ?_
        rw [decode_append hp,decode_pair hpair]
        simp

/-- The turns up to the end of the string: each leaves less to decode. -/
theorem loop_decodes (h0 : 0 ∉ rest) : ∃ junk', ∀ fuel, rest.length < fuel →
    loop fuel (out ++ rest ++ 0::junk) out.length = some (out ++ decode rest ++ 0::junk') := by
  induction hn : rest.length using Nat.strongRecOn generalizing out rest junk with
  | ind n ih =>
    have hturned := @turn_turned out rest junk h0
    generalize hr : turn (out ++ rest ++ 0::junk) out.length = r at hturned
    cases hturned with
    | stop h =>
      refine ⟨junk,fun fuel hf => ?_⟩
      obtain ⟨f,rfl⟩ := Nat.exists_eq_add_of_lt hf
      rw [loop,hr,h]
      rfl
    | go out' rest' junk' h0' hlt h =>
      obtain ⟨junk'',hloop⟩ := @ih rest'.length (by omega) out' rest' junk' h0' rfl
      refine ⟨junk'',fun fuel hf => ?_⟩
      obtain ⟨f,rfl⟩ := Nat.exists_eq_add_of_lt hf
      rw [loop,hr,← h]
      exact hloop _ (by omega)

/-- For every string the loop ends, after at most as many turns as the string has bytes and one more, and without an access
outside of the string. It leaves the string with each of its escapes decoded once; where an escape says zero, the string ends. -/
theorem percent_decoded (s : CStr) : ∃ buf, (∀ fuel, s.1.length < fuel → loop fuel (s.1 ++ [0]) 0 = some buf) ∧
    text buf = text (decode s.1) := by
  obtain ⟨junk,hloop⟩ := @loop_decodes [] s.1 [] s.2
  refine ⟨_,hloop,?_⟩
  rw [List.nil_append,text_append]

/-- "%2541%%" -/
theorem percent_decoded_demo :
    ∃ buf, loop 8 ([37,50,53,52,49,37,37] ++ [0]) 0 = some buf ∧ text buf = [37,52,49,37,37] := by
  obtain ⟨buf,hloop,htext⟩ := percent_decoded ⟨[37,50,53,52,49,37,37],by decide⟩
  exact ⟨buf,hloop 8 (by decide),htext.trans (by decide)⟩

/-- The character of `nfsParseUrl` that stands for a byte -/
def chr (b : UInt8) : Char := Char.ofNat b.toNat

theorem tohex_chr (b : UInt8) : ParseUrl.tohex (chr b) = hexDigit b := by
  have h : ∀ n : Fin 256, ParseUrl.tohex (chr (UInt8.ofFin n)) = hexDigit (UInt8.ofFin n) := by decide +kernel
  exact h b.toFin

theorem chr_percent (b : UInt8) : chr b = '%' ↔ b = 37 := by
  have h : ∀ n : Fin 256, chr (UInt8.ofFin n) = '%' ↔ UInt8.ofFin n = 37 := by decide +kernel
  exact h b.toFin

theorem chr_zero (b : UInt8) : chr b = '\x00' ↔ b = 0 := by
  have h : ∀ n : Fin 256, chr (UInt8.ofFin n) = '\x00' ↔ UInt8.ofFin n = 0 := by decide +kernel
  exact h b.toFin

theorem hexPair_chr (h : hexPair a b = some c) :
    ∃ i j, ParseUrl.tohex (chr a) = some i ∧ ParseUrl.tohex (chr b) = some j ∧ Char.ofNat (i*16+j) = chr c := by
  rw [tohex_chr,tohex_chr]
  unfold hexPair at h
  split at h
  · rename_i i j hi hj
    have hi' := hexDigit_lt hi
    have hj' := hexDigit_lt hj
    refine ⟨i,j,hi,hj,?_⟩
    rw [← Option.some.inj h,chr,UInt8.toNat_ofNat',Nat.mod_eq_of_lt (by omega),Nat.mul_comm]
  · simp at h

theorem unescape_kept (hx : chr x = '%') (h : hexPair a b = none) (s : List UInt8) :
    ParseUrl.unescape (chr x::(a::b::s).map chr) = chr x::ParseUrl.unescape ((a::b::s).map chr) := by
  rw [hx,List.map_cons,List.map_cons,ParseUrl.unescape,tohex_chr,tohex_chr]
  unfold hexPair at h
  cases ha : hexDigit a with
  | none => rfl
  | some i =>
    cases hb : hexDigit b with
    | none => rfl
    | some j => simp [ha,hb] at h

/-- `unescape` of `nfsParseUrl` is the decoding. -/
theorem unescape_chr (s : List UInt8) : ParseUrl.unescape (s.map chr) = (decode s).map chr := by
  induction s using decode.induct with
  | case1 => rfl
  | case2 x => simp [ParseUrl.unescape,decode]
  | case3 x a => simp [ParseUrl.unescape,decode]
  | case4 x a b s c h ih =>
    have hx : x = 37 := by
      by_contra hx
      rw [if_neg hx] at h
      simp at h
    rw [if_pos hx] at h
    obtain ⟨i,j,hi,hj,hc⟩ := hexPair_chr h
    rw [hx,decode_pair h]
    show ParseUrl.unescape (chr 37::chr a::chr b::s.map chr) = chr c::(decode s).map chr
    rw [← hc,← ih]
    exact ParseUrl.unescape_hex hi hj _
  | case5 x a b s h ih =>
    have hnone : decode (x::a::b::s) = x::decode (a::b::s) := by rw [decode,h]
    rw [hnone]
    show ParseUrl.unescape (chr x::(a::b::s).map chr) = chr x::(decode (a::b::s)).map chr
    rw [← ih]
    by_cases hx : x = 37
    · rw [if_pos hx] at h
      exact unescape_kept ((chr_percent x).2 hx) h s
    · exact ParseUrl.unescape_cons (fun hc => hx ((chr_percent x).1 hc)) _

/-- What `nfsParseUrl` goes on with is what the loop leaves. -/
theorem unescape_loop {buf : List UInt8} (s : CStr) {fuel : ℕ} (hfuel : s.1.length < fuel)
    (h : loop fuel (s.1 ++ [0]) 0 = some buf) :
    (ParseUrl.unescape (s.1.map chr)).takeWhile (· ≠ '\x00') = (text buf).map chr := by
  obtain ⟨junk,hloop⟩ := @loop_decodes [] s.1 [] s.2
  have hbuf : decode s.1 ++ 0::junk = buf := Option.some.inj ((hloop fuel hfuel).symm.trans h)
  rw [← hbuf,text_append,unescape_chr,List.takeWhile_map,text]
  congr 2
  funext b
  simp [chr_zero]

end PercentDecoding
end Libnfs
