import Libnfs.Registry
import Libnfs.ZdrCodec
import Mathlib.Data.Nat.Digits.Defs

/-! The registrations of `servers/rpcbind/rpcbind.c`: `pmap_register`, `map_lookup`, `map_remove`
and the SET, UNSET, GETPORT and DUMP procedures of versions 2 and 3 (version 4 has those of
version 3). A string is the list of its bytes up to the NUL. -/
namespace Libnfs
namespace Rpcbind

open ByteWords Registry Zdrmem

abbrev Str := List UInt8

/-- `struct mapping` without `next` -/
structure Mapping where
  port : UInt32
  prog : UInt32
  vers : UInt32
  netid : Str
  addr : Str
  owner : Str
  deriving DecidableEq

/-- `map`, and the `static uint32_t port` of `pmap2_getport_proc` -/
structure State where
  map : List Mapping
  port : UInt32

def isDigit (c : UInt8) : Bool := 48 ≤ c && c ≤ 57

def dot : UInt8 := 46

/-- The loop of `pmap_register` over the address from its end: `rev` is what is left, backwards,
and `str` what has been passed. At the second dot it stops there. -/
def scanBack : Str → Str → ℕ → Option Str
  | [], _, _ => none
  | c::rev, str, count =>
    if c ≠ dot then
      if isDigit c then scanBack rev (c::str) count else none
    else if count+1 = 2 then some (c::str)
    else scanBack rev (c::str) (count+1)

/-- The number that decimal digits spell -/
def decimalValue (ds : Str) : ℕ := ds.foldl (fun v c => v*10+(c.toNat-48)) 0

/-- `%d` on digits -/
def scanInt (str : Str) : Option (ℕ × Str) :=
  match str.takeWhile isDigit with
  | [] => none
  | ds => some (decimalValue ds,str.dropWhile isDigit)

/-- `sscanf(str, ".%d.%d", &high, &low)`, when both are assigned -/
def sscanfPort (str : Str) : Option (ℕ × ℕ) :=
  match str with
  | [] => none
  | c::str => if c ≠ dot then none else
    match scanInt str with
    | none => none
    | some (_,[]) => none
    | some (high,c::str) => if c ≠ dot then none else (scanInt str).map fun r => (high,r.1)

/-- `high * 256 + low`, kept in an `unsigned int` -/
def fieldsPort (high low : ℕ) : UInt32 := UInt32.ofNat (high*256+low)

/-- The port that `pmap_register` finds in an address -/
def addrPort (addr : Str) : Option UInt32 :=
  ((scanBack addr.reverse [] 0).bind sscanfPort).map fun r => fieldsPort r.1 r.2

/-- `pmap_register`; `junk` is what is in `item->port` when the address has no port. -/
def pmapRegister (junk : UInt32) (s : State) (prog vers : UInt32) (netid addr owner : Str) : State :=
  { s with map := ⟨(addrPort addr).getD junk,prog,vers,netid,addr,owner⟩ :: s.map }

/-- `map_lookup` -/
def mapLookup (prog vers : UInt32) (netid : Str) : List Mapping → Option Mapping
  | [] => none
  | tmp::map =>
    if tmp.prog ≠ prog then mapLookup prog vers netid map
    else if tmp.vers ≠ vers then mapLookup prog vers netid map
    else if tmp.netid ≠ netid then mapLookup prog vers netid map
    else some tmp

/-- The loop of `map_remove` -/
def removeLoop (prog vers : UInt32) (netid : Str) : List Mapping → List Mapping → List Mapping
  | [],newMap => newMap
  | tmp::map,newMap =>
    if tmp.prog ≠ prog ∨ tmp.vers ≠ vers ∨ (netid ≠ [] ∧ tmp.netid ≠ netid) then
      removeLoop prog vers netid map (tmp::newMap)
    else removeLoop prog vers netid map newMap

/-- `map_remove` -/
def mapRemove (s : State) (prog vers : UInt32) (netid : Str) : State :=
  { s with map := removeLoop prog vers netid s.map [] }

/-- `struct pmap2_mapping` -/
structure Pmap2Mapping where
  prog : UInt32
  vers : UInt32
  prot : UInt32
  port : UInt32
  deriving DecidableEq

/-- `struct pmap3_mapping` -/
structure Pmap3Mapping where
  prog : UInt32
  vers : UInt32
  netid : Str
  addr : Str
  owner : Str
  deriving DecidableEq

inductive Reply
  | word (n : UInt32)
  | dump2 (list : List Pmap2Mapping)
  | dump3 (list : List Pmap3Mapping)
  deriving DecidableEq

def zdrUInt (n : UInt32) : List UInt8 := beBytes n.toNat

/-- `zdr_string` -/
def zdrString (s : Str) : List UInt8 := beBytes s.length ++ (s ++ pad s.length)

def zdrPmap2Mapping (m : Pmap2Mapping) : List UInt8 :=
  zdrUInt m.prog ++ zdrUInt m.vers ++ zdrUInt m.prot ++ zdrUInt m.port

def zdrPmap3Mapping (m : Pmap3Mapping) : List UInt8 :=
  zdrUInt m.prog ++ zdrUInt m.vers ++ zdrString m.netid ++ zdrString m.addr ++ zdrString m.owner

/-- `zdr_pointer` along the `next` pointers of a list -/
def zdrList {α : Type} (proc : α → List UInt8) : List α → List UInt8
  | [] => zdrUInt 0
  | x::xs => zdrUInt 1 ++ (proc x ++ zdrList proc xs)

/-- The results as `zdr_uint32_t`, `zdr_PMAP2DUMPres` and `zdr_PMAP3DUMPres` encode them -/
def Reply.encode : Reply → List UInt8
  | .word n => zdrUInt n
  | .dump2 list => zdrList zdrPmap2Mapping list
  | .dump3 list => zdrList zdrPmap3Mapping list

/-- `ZDR_ENCODEBUF_MINSIZE` -/
def encodebufMinsize : ℕ := 4096

/-- xid, direction, reply status, an empty verifier and the accept status -/
def replyHeaderSize : ℕ := 24

/-- `rpc_send_reply`: a reply that does not fit its buffer is not sent. -/
def rpcSendReply (reply : Reply) (allocHint : ℕ) : Option Reply :=
  if replyHeaderSize+reply.encode.length ≤ encodebufMinsize+allocHint then some reply else none

def sizeofUint32 : ℕ := 4
/-- `sizeof(PMAP2DUMPres)` and `sizeof(PMAP3DUMPres)` -/
def sizeofDumpres : ℕ := 8

def ipprotoTcp : UInt32 := 6
def ipprotoUdp : UInt32 := 17
/-- `"tcp"` -/
def tcp : Str := [116,99,112]
/-- `"udp"` -/
def udp : Str := [117,100,112]
/-- `"<unknown>"` -/
def unknown : Str := [60,117,110,107,110,111,119,110,62]

def netidOf (prot : UInt32) : Str := if prot = ipprotoTcp then tcp else udp

/-- `%d` -/
def decimal (n : ℕ) : Str :=
  if n = 0 then [48] else (Nat.digits 10 n).reverse.map fun d => 48+UInt8.ofNat d

/-- `"0.0.0.0.%d.%d"` -/
def anyAddr (port : UInt32) : Str :=
  [48,46,48,46,48,46,48,46] ++ decimal (port.toNat/256) ++ dot :: decimal (port.toNat%256)

/-- A v3 address: anything, and two dotted decimal fields that `%d` can read. -/
structure Uaddr where
  host : Str
  high : Str
  low : Str
  high_digits : high ≠ [] ∧ ∀ c ∈ high, isDigit c
  low_digits : low ≠ [] ∧ ∀ c ∈ low, isDigit c
  high_int : decimalValue high < 2^31
  low_int : decimalValue low < 2^31

def Uaddr.text (a : Uaddr) : Str := a.host ++ dot :: (a.high ++ dot :: a.low)

def Uaddr.port (a : Uaddr) : UInt32 := fieldsPort (decimalValue a.high) (decimalValue a.low)

/-- A call; the fields of its argument that the procedure does not read are left out. -/
inductive Call
  | set2 (prog vers prot port : UInt32)
  | unset2 (prog vers prot : UInt32)
  | getport2 (prog vers prot : UInt32)
  | dump2
  | set3 (prog vers : UInt32) (netid : Str) (addr : Uaddr) (owner : Str)
  | unset3 (prog vers : UInt32) (netid : Str)
  | dump3

variable (junk : List Mapping → UInt32)

/-- `pmap3_set_proc`, and `pmap2_set_proc` with the strings it makes up -/
def setProc (s : State) (prog vers : UInt32) (netid addr owner : Str) : State × Option Reply :=
  match mapLookup prog vers netid s.map with
  | some _ => (s,rpcSendReply (.word 0) sizeofUint32)
  | none => (pmapRegister (junk s.map) s prog vers netid addr owner,
      rpcSendReply (.word 1) sizeofUint32)

/-- `pmap3_unset_proc`, and `pmap2_unset_proc` with the name of the protocol -/
def unsetProc (s : State) (prog vers : UInt32) (netid : Str) : State × Option Reply :=
  (mapRemove s prog vers netid,rpcSendReply (.word 1) sizeofUint32)

/-- `pmap2_getport_proc` -/
def pmap2GetportProc (s : State) (prog vers prot : UInt32) : State × Option Reply :=
  let port := match mapLookup prog vers (netidOf prot) s.map with
    | some tmp => tmp.port
    | none => s.port
  ({ s with port := port },rpcSendReply (.word port) sizeofUint32)

/-- The protocol that version 2 has for a netid -/
def protOf (netid : Str) : Option UInt32 :=
  if netid = tcp then some ipprotoTcp
  else if netid = udp then some ipprotoUdp
  else none

/-- `pmap2_dump_proc` -/
def pmap2DumpProc (s : State) : State × Option Reply :=
  let list := s.map.foldl (fun list tmp => match protOf tmp.netid with
    | some proto => ⟨tmp.prog,tmp.vers,proto,tmp.port⟩ :: list
    | none => list) []
  (s,rpcSendReply (.dump2 list) sizeofDumpres)

/-- `pmap3_dump_proc` -/
def pmap3DumpProc (s : State) : State × Option Reply :=
  let list := s.map.foldl (fun list tmp =>
    ⟨tmp.prog,tmp.vers,tmp.netid,tmp.addr,tmp.owner⟩ :: list) []
  (s,rpcSendReply (.dump3 list) sizeofDumpres)

/-- The procedure of a call: the state it leaves and the reply that is sent. -/
def serve (s : State) : Call → State × Option Reply
  | .set2 prog vers prot port => setProc junk s prog vers (netidOf prot) (anyAddr port) unknown
  | .unset2 prog vers prot => unsetProc s prog vers (netidOf prot)
  | .getport2 prog vers prot => pmap2GetportProc s prog vers prot
  | .dump2 => pmap2DumpProc s
  | .set3 prog vers netid addr owner => setProc junk s prog vers netid addr.text owner
  | .unset3 prog vers netid => unsetProc s prog vers netid
  | .dump3 => pmap3DumpProc s

/-- The server after some calls -/
def afterCalls (s : State) (cs : List Call) : State := cs.foldl (fun s c => (serve junk s c).1) s

end Rpcbind
end Libnfs
