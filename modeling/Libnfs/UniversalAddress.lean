import Libnfs.RpcbindRefines

/-! Universal addresses, text with the two bytes of the port behind it: `pmap3_u2t_proc`, `pmap3_t2u_proc` and
`pmap3_getaddr_proc` of `servers/rpcbind/rpcbind.c`, and what `rpc_connect_program_3_cb` reads in one. -/
namespace Libnfs
namespace Rpcbind

/-- `rindex`: what is in front of the last `c` and what is behind it -/
def rindex (c : UInt8) : Str → Option (Str × Str)
  | [] => none
  | x::str =>
    match rindex c str with
    | some (pre,post) => some (x::pre,post)
    | none => if x = c then some ([],str) else none

def isSpace (c : UInt8) : Bool := c = 32 || (9 ≤ c && c ≤ 13)

def atoi (str : Str) : ℤ :=
  match str.dropWhile isSpace with
  | [] => 0
  | c::str =>
    if c = 45 then -decimalValue (str.takeWhile isDigit)
    else if c = 43 then decimalValue (str.takeWhile isDigit)
    else decimalValue ((c::str).takeWhile isDigit)

/-- The `rpc_port` that `rpc_connect_program_3_cb` takes from an address -/
def connectProgram3Port (addr : Str) : UInt32 :=
  match rindex dot addr with
  | none => 0
  | some (addr,low) =>
    match rindex dot addr with
    | none => UInt32.ofInt (atoi low)
    | some (_,high) => UInt32.ofInt (atoi low) + UInt32.ofInt (256*atoi high)

inductive Family
  | inet | inet6
  deriving DecidableEq

/-- `struct in_addr` and `struct in6_addr` -/
def InAddr : Family → Type
  | .inet => BitVec 32
  | .inet6 => BitVec 128

/-- After the `memset` -/
def InAddr.zero : (f : Family) → InAddr f
  | .inet => (0 : BitVec 32)
  | .inet6 => (0 : BitVec 128)

/-- `struct sockaddr_in` and `struct sockaddr_in6`; `port` is the number that the host finds in the two bytes of the port. -/
structure Sockaddr where
  family : Family
  port : UInt16
  addr : InAddr family

/-- `htons` -/
def htons (bigEndian : Bool) (port : UInt16) : UInt16 := if bigEndian then port else port <<< 8 ||| port >>> 8

abbrev InetPton := (f : Family) → Str → Option (InAddr f)
abbrev InetNtop := (f : Family) → InAddr f → Str

def colon : UInt8 := 58

/-- `pmap3_u2t_proc`. An address without two dots is not answered. -/
def pmap3U2tProc (bigEndian : Bool) (inetPton : InetPton) (addr : Str) : Option Sockaddr :=
  match rindex dot addr with
  | none => none
  | some (addr,low) =>
    match rindex dot addr with
    | none => none
    | some (addr,high) =>
      let port := BitVec.ofInt 32 (atoi low) ||| BitVec.ofInt 32 (atoi high) <<< 8
      let family := if colon ∈ addr then Family.inet6 else .inet
      some ⟨family,htons bigEndian (UInt16.ofNat port.toNat),(inetPton family addr).getD (InAddr.zero family)⟩

/-- `".%d.%d"` of `port >> 8` and `port & 0xff` -/
def portText (port : ℕ) : Str := dot :: (decimal (port/256) ++ dot :: decimal (port%256))

/-- `pmap3_t2u_proc` -/
def pmap3T2uProc (inetNtop : InetNtop) (sa : Sockaddr) : Str := inetNtop sa.family sa.addr ++ portText sa.port.toNat

/-- `socket_to_str` for the text of an address of the socket: tcp and udp go without the prefix of a mapped address. -/
def socketToStr (text netid : Str) : Str :=
  if netid = tcp ∨ netid = udp then
    match rindex colon text with
    | some (_,ptr) => ptr
    | none => text
  else text

/-- `pmap3_getaddr_proc`: the address that is sent -/
def pmap3GetaddrProc (text : Str) (s : State) (prog vers : UInt32) (netid : Str) : Option Str :=
  (mapLookup prog vers netid s.map).map fun map => socketToStr text netid ++ portText map.port.toNat

/-- The universal address of an address and a port -/
def uaddr (inetNtop : InetNtop) (f : Family) (a : InAddr f) (port : UInt16) : Str := inetNtop f a ++ portText port.toNat

/-- Server and client read `port` in an address. -/
def PortRead (addr : Str) (port : UInt32) : Prop := addrPort addr = some port ∧ connectProgram3Port addr = port

theorem rindex_append {c : UInt8} {pre post : Str} (h : c ∉ post) : rindex c (pre ++ c :: post) = some (pre,post) := by
  have hpost : rindex c post = none := by
    induction post with
    | nil => rfl
    | cons x post ih =>
      rw [List.mem_cons,not_or] at h
      rw [rindex,ih h.2,if_neg (Ne.symm h.1)]
  induction pre with
  | nil => rw [List.nil_append,rindex,hpost,if_pos rfl]
  | cons x pre ih => rw [List.cons_append,rindex,ih]

theorem dot_notMem_decimal (n : ℕ) : dot ∉ decimal n := fun h => absurd ((decimal_digits n).2 _ h) (by decide)

theorem digit_range {c : UInt8} (h : isDigit c) : 48 ≤ c.toNat ∧ c.toNat ≤ 57 := by
  unfold isDigit at h
  simp only [Bool.and_eq_true,decide_eq_true_eq,UInt8.le_iff_toNat_le] at h
  exact h

theorem atoi_decimal (n : ℕ) : atoi (decimal n) = n := by
  obtain ⟨hne,hd⟩ := decimal_digits n
  have hval := decimalValue_decimal n
  generalize decimal n = ds at hne hd hval
  cases ds with
  | nil => exact absurd rfl hne
  | cons c ds =>
    obtain ⟨h1,h2⟩ := digit_range (hd c (List.mem_cons_self ..))
    have htake : (c::ds).takeWhile isDigit = c::ds := List.takeWhile_eq_self_iff.2 hd
    have hne' : ∀ k : UInt8, k.toNat < 48 → c ≠ k := by
      rintro k hk rfl
      omega
    have hspace : ¬ isSpace c := by
      unfold isSpace
      simp only [Bool.or_eq_true,Bool.and_eq_true,decide_eq_true_eq,UInt8.le_iff_toNat_le,not_or,not_and]
      exact ⟨hne' 32 (by decide),fun _ h => by
        have h13 : (13 : UInt8).toNat = 13 := rfl
        omega⟩
    unfold atoi
    rw [List.dropWhile_cons_of_neg hspace]
    show (if c = 45 then _ else if c = 43 then _ else (decimalValue ((c::ds).takeWhile isDigit) : ℤ)) = _
    rw [if_neg (hne' 45 (by decide)),if_neg (hne' 43 (by decide)),htake,hval]

theorem rindex_portText (host : Str) (port : ℕ) :
    rindex dot (host ++ portText port) = some (host ++ dot :: decimal (port/256),decimal (port%256)) := by
  have happ : host ++ portText port = (host ++ dot :: decimal (port/256)) ++ dot :: decimal (port%256) := by
    simp [portText]
  rw [happ]
  exact rindex_append (dot_notMem_decimal _)

theorem rindex_high (host : Str) (n : ℕ) : rindex dot (host ++ dot :: decimal n) = some (host,decimal n) :=
  rindex_append (dot_notMem_decimal n)

theorem ofInt_natCast (n : ℕ) : UInt32.ofInt (n:ℤ) = UInt32.ofNat n := by
  apply UInt32.toNat_inj.mp
  unfold UInt32.ofInt
  simp only [UInt32.toNat_ofNat']
  omega

/-- The port behind whatever address is read as it was rendered. -/
theorem portRead (host : Str) (port : ℕ) : PortRead (host ++ portText port) (UInt32.ofNat port) := by
  constructor
  · rw [portText,addrPort_text (decimal_digits _) (decimal_digits _),decimalValue_decimal,decimalValue_decimal,fieldsPort,
      show port/256*256+port%256 = port by omega]
  · unfold connectProgram3Port
    rw [rindex_portText]
    simp only []
    rw [rindex_high]
    simp only [atoi_decimal]
    rw [← UInt32.ofInt_add,← ofInt_natCast]
    congr 1
    omega

/-- The port is found in the text, so no two ports have the same. -/
theorem portText_injective {host : Str} {p q : ℕ} (hp : p < 2^32) (hq : q < 2^32)
    (h : host ++ portText p = host ++ portText q) : p = q := by
  have h1 := (portRead host p).1
  rw [h,(portRead host q).1] at h1
  have h2 := congrArg UInt32.toNat (Option.some.inj h1)
  simp only [UInt32.toNat_ofNat'] at h2
  omega

theorem or_bytes {high low : ℕ} (h : low < 256) : low ||| high <<< 8 = high*256+low := by
  rw [Nat.or_comm,← Nat.shiftLeft_add_eq_or_of_lt (by simpa using h),Nat.shiftLeft_eq]

/-- The `port |= atoi(ptr) << 8` of `pmap3_u2t_proc` -/
theorem or_port {p : ℕ} (h : p < 65536) : (BitVec.ofNat 32 (p%256) ||| BitVec.ofNat 32 (p/256) <<< 8).toNat = p := by
  have hlow : p%256%2^32 = p%256 := by omega
  have hhigh : (p/256%2^32) <<< 8 % 2^32 = (p/256) <<< 8 := by
    rw [Nat.shiftLeft_eq,Nat.shiftLeft_eq]
    omega
  rw [BitVec.toNat_or,BitVec.toNat_shiftLeft,BitVec.toNat_ofNat,BitVec.toNat_ofNat,hlow,hhigh,or_bytes (by omega)]
  omega

theorem htons_swap (p : UInt16) : (htons false p).toNat = (p.toNat%256)*256+p.toNat/256 := by
  have hp := p.toNat_lt
  have h8 : (8 : UInt16).toNat % 16 = 8 := rfl
  have hleft : p.toNat <<< 8 % 2^16 = (p.toNat%256) <<< 8 := by
    rw [Nat.shiftLeft_eq,Nat.shiftLeft_eq]
    omega
  have hright : p.toNat >>> 8 = p.toNat/256 := Nat.shiftRight_eq_div_pow _ _
  rw [htons,if_neg (by simp),UInt16.toNat_or,UInt16.toNat_shiftLeft,UInt16.toNat_shiftRight,h8,hleft,hright,Nat.or_comm,
    or_bytes (by omega)]

/-- A port is the same in both byte orders, or the host has that of the network. -/
def Stays (bigEndian : Bool) (port : UInt16) : Prop := bigEndian = true ∨ port.toNat/256 = port.toNat%256

instance (bigEndian : Bool) (port : UInt16) : Decidable (Stays bigEndian port) := inferInstanceAs (Decidable (_ ∨ _))

theorem htons_eq_iff (bigEndian : Bool) (port : UInt16) : (htons bigEndian port).toNat = port.toNat ↔ Stays bigEndian port := by
  cases bigEndian with
  | true => simp [htons,Stays]
  | false =>
    have hp := port.toNat_lt
    rw [htons_swap]
    simp only [Stays,Bool.false_eq_true,false_or]
    omega

section Codecs

variable {inetPton : InetPton} {inetNtop : InetNtop} {f : Family} {a : InAddr f} (bigEndian : Bool) (port : UInt16)

/-- The socket address of a universal address -/
theorem pmap3U2tProc_uaddr (hinv : inetPton f (inetNtop f a) = some a) (hcolon : colon ∈ inetNtop f a ↔ f = .inet6) :
    pmap3U2tProc bigEndian inetPton (uaddr inetNtop f a port) = some ⟨f,htons bigEndian port,a⟩ := by
  have hp := port.toNat_lt
  have hfamily : (if colon ∈ inetNtop f a then Family.inet6 else .inet) = f := by
    by_cases h : colon ∈ inetNtop f a
    · rw [if_pos h,hcolon.1 h]
    · rw [if_neg h]
      cases f with
      | inet => rfl
      | inet6 => exact absurd (hcolon.2 rfl) h
  unfold pmap3U2tProc uaddr
  rw [rindex_portText]
  simp only []
  rw [rindex_high]
  simp only [atoi_decimal,BitVec.ofInt_natCast,or_port hp,UInt16.ofNat_toNat]
  generalize (if colon ∈ inetNtop f a then Family.inet6 else .inet) = family at hfamily ⊢
  subst hfamily
  rw [hinv]
  rfl

/-- The text of the socket address with a port -/
theorem pmap3T2uProc_eq (p : UInt16) : pmap3T2uProc inetNtop ⟨f,p,a⟩ = uaddr inetNtop f a p := rfl

/-- The address comes back only if its port stays what it is. -/
theorem t2u_u2t_iff (hinv : inetPton f (inetNtop f a) = some a) (hcolon : colon ∈ inetNtop f a ↔ f = .inet6) :
    (pmap3U2tProc bigEndian inetPton (uaddr inetNtop f a port)).map (pmap3T2uProc inetNtop) =
      some (uaddr inetNtop f a port) ↔ Stays bigEndian port := by
  have hp := port.toNat_lt
  have hq := (htons bigEndian port).toNat_lt
  rw [pmap3U2tProc_uaddr bigEndian port hinv hcolon,Option.map_some,pmap3T2uProc_eq,Option.some.injEq,
    ← htons_eq_iff bigEndian port]
  constructor
  · exact fun h => portText_injective (by omega) (by omega) h
  · intro h
    rw [uaddr,uaddr,h]

/-- The address of a socket address is read with the port of the socket address only if that stays what it is. -/
theorem t2u_read_iff : PortRead (pmap3T2uProc inetNtop ⟨f,htons bigEndian port,a⟩) (UInt32.ofNat port.toNat) ↔
    Stays bigEndian port := by
  have hp := port.toNat_lt
  have hq := (htons bigEndian port).toNat_lt
  have hread := portRead (inetNtop f a) (htons bigEndian port).toNat
  rw [pmap3T2uProc_eq,uaddr,← htons_eq_iff bigEndian port]
  constructor
  · intro h
    have heq := h.1.symm.trans hread.1
    have hnat := congrArg UInt32.toNat (Option.some.inj heq)
    simp only [UInt32.toNat_ofNat'] at hnat
    omega
  · intro h
    rw [h] at hread ⊢
    exact hread

end Codecs

/-- The address that SET of version 2 makes up -/
theorem anyAddr_read (port : UInt32) : PortRead (anyAddr port) port := by
  have h := portRead [48,46,48,46,48,46,48] port.toNat
  rw [UInt32.ofNat_toNat] at h
  have happ : [48,46,48,46,48,46,48] ++ portText port.toNat = anyAddr port := by simp [anyAddr,portText,dot]
  rwa [happ] at h

/-- A new registration of version 2: its port, and its address, in which the port is read -/
theorem set2_read (junk : List Mapping → UInt32) (s : State) (prog vers prot port : UInt32)
    (h : mapLookup prog vers (netidOf prot) s.map = none) :
    ∃ m, (serve junk s (.set2 prog vers prot port)).1.map = m :: s.map ∧ m.port = port ∧ PortRead m.addr port := by
  refine ⟨⟨port,prog,vers,netidOf prot,anyAddr port,unknown⟩,?_,rfl,anyAddr_read port⟩
  rw [serve,setProc,h]
  simp only [pmapRegister,addrPort_anyAddr,Option.getD_some]

/-- The address that GETADDR answers -/
theorem getaddr_read (text : Str) (s : State) (prog vers : UInt32) (netid : Str) (m : Mapping)
    (h : mapLookup prog vers netid s.map = some m) :
    ∃ addr, pmap3GetaddrProc text s prog vers netid = some addr ∧ PortRead addr m.port := by
  refine ⟨_,by rw [pmap3GetaddrProc,h,Option.map_some],?_⟩
  have hread := portRead (socketToStr text netid) m.port.toNat
  rwa [UInt32.ofNat_toNat] at hread

/-- Every piece of code reads the port that SET and GETADDR render; that of T2U only if it is the same in both byte orders. -/
theorem uaddr_codecs (bigEndian : Bool) (inetPton : InetPton) (inetNtop : InetNtop) (f : Family) (a : InAddr f) (port : UInt16)
    (hinv : inetPton f (inetNtop f a) = some a) (hcolon : colon ∈ inetNtop f a ↔ f = .inet6) :
    ((pmap3U2tProc bigEndian inetPton (uaddr inetNtop f a port)).map (pmap3T2uProc inetNtop) =
      some (uaddr inetNtop f a port) ↔ Stays bigEndian port) ∧
    (PortRead (pmap3T2uProc inetNtop ⟨f,htons bigEndian port,a⟩) (UInt32.ofNat port.toNat) ↔ Stays bigEndian port) ∧
    (∀ junk s prog vers prot, mapLookup prog vers (netidOf prot) s.map = none →
      ∃ m, (serve junk s (.set2 prog vers prot (UInt32.ofNat port.toNat))).1.map = m :: s.map ∧
        m.port = UInt32.ofNat port.toNat ∧ PortRead m.addr (UInt32.ofNat port.toNat)) ∧
    ∀ text s prog vers netid m, mapLookup prog vers netid s.map = some m → m.port = UInt32.ofNat port.toNat →
      ∃ addr, pmap3GetaddrProc text s prog vers netid = some addr ∧ PortRead addr (UInt32.ofNat port.toNat) :=
  ⟨t2u_u2t_iff bigEndian port hinv hcolon,t2u_read_iff bigEndian port,
    fun junk s prog vers prot => set2_read junk s prog vers prot _,
    fun text s prog vers netid m hm hport => hport ▸ getaddr_read text s prog vers netid m hm⟩

/-- 127.0.0.1 -/
def loopback : InAddr .inet := (0x7f000001 : BitVec 32)

def ntop4 (a : BitVec 32) : Str :=
  decimal (a.toNat/2^24) ++ dot :: (decimal (a.toNat/2^16%256) ++ dot :: (decimal (a.toNat/2^8%256) ++ dot :: decimal (a.toNat%256)))

def ntop6 (a : BitVec 128) : Str :=
  let group (i : ℕ) : Str := (Nat.toDigits 16 (a.toNat/2^(16*i)%2^16)).map fun c => UInt8.ofNat c.toNat
  (List.range 7).foldl (fun s i => s ++ colon :: group (6-i)) (group 7)

/-- `inet_ntop`; of the IPv6 addresses, those without a run of zeroes -/
def ntop : InetNtop
  | .inet => ntop4
  | .inet6 => ntop6

/-- `inet_pton` for 127.0.0.1 -/
def pton : InetPton
  | .inet,s => if s = ntop4 loopback then some loopback else none
  | .inet6,_ => none

theorem pton_loopback : pton .inet (ntop .inet loopback) = some loopback := by
  show (if ntop4 loopback = ntop4 loopback then some loopback else none) = some loopback
  rw [if_pos rfl]

theorem colon_loopback : colon ∈ ntop .inet loopback ↔ Family.inet = .inet6 := by
  have h : colon ∉ ntop .inet loopback := by decide +kernel
  exact iff_of_false h (by simp)

/-- 127.0.0.1.1.1 comes back. -/
theorem uaddr_codecs_palindrome : (pmap3U2tProc false pton (uaddr ntop .inet loopback 257)).map (pmap3T2uProc ntop) =
    some (uaddr ntop .inet loopback 257) :=
  (uaddr_codecs false pton ntop .inet loopback 257 pton_loopback colon_loopback).1.2 (by decide)

/-- 127.0.0.1.8.1 comes back as 127.0.0.1.1.8, the NFS port 2049 as 264. -/
theorem t2u_swapped : (pmap3U2tProc false pton (uaddr ntop .inet loopback 2049)).map (pmap3T2uProc ntop) =
      some (uaddr ntop .inet loopback 264) ∧
    (pmap3U2tProc false pton (uaddr ntop .inet loopback 2049)).map (pmap3T2uProc ntop) ≠
      some (uaddr ntop .inet loopback 2049) ∧
    ¬ PortRead (pmap3T2uProc ntop ⟨.inet,htons false 2049,loopback⟩) 2049 := by
  have hstays : ¬ Stays false 2049 := by decide
  refine ⟨?_,fun h => hstays ((t2u_u2t_iff false 2049 pton_loopback colon_loopback).1 h),
    fun h => hstays ((t2u_read_iff false 2049).1 h)⟩
  rw [pmap3U2tProc_uaddr false 2049 pton_loopback colon_loopback]
  rfl

end Rpcbind
end Libnfs
