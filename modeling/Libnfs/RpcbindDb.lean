import Libnfs.RpcbindRefines

/-! The database file of rpcbind: `write_db` and `read_db`. The routine that encodes and decodes the list is generated from
`rpcbind_data.x` and is a parameter here; the one that the description says is defined at the end. -/
namespace Libnfs
namespace Rpcbind

open ByteWords Zdrmem

/-- `DBFILE`, if it exists -/
abbrev File := Option (List UInt8)

/-- The buffer of `write_db` -/
def dbBufferSize : ℕ := 65536

/-- `write_db`: the file is opened without `O_TRUNC`, and nothing is written if the list does not fit the buffer. -/
def writeDb (encode : List Mapping → List UInt8) (map : List Mapping) (file : File) : File :=
  if dbBufferSize < (encode map).length then some (file.getD [])
  else some (overwrite (file.getD []) 0 (encode map))

/-- `read_db`; `junk` is what `pmap_register` leaves in the port of an address without one. -/
def readDb (decode : List UInt8 → Option (List Mapping)) (junk : List Mapping → UInt32) (s : State) : File → State
  | none => s
  | some bytes =>
    if bytes.length = 0 then s
    else match decode bytes with
      | none => s
      | some tmpmap => tmpmap.foldl (fun s m => pmapRegister (junk s.map) s m.prog m.vers m.netid m.addr m.owner) s

/-- rpcbind after its start -/
def State.fresh : State := ⟨[],0⟩

section Db

variable {encode : List Mapping → List UInt8} {decode : List UInt8 → Option (List Mapping)} {map : List Mapping}

/-- What is written and read in a new process are the same mappings with the same ports, whatever the file was before. -/
def Restored (encode : List Mapping → List UInt8) (decode : List UInt8 → Option (List Mapping)) (map : List Mapping) : Prop :=
  ∀ (file : File) (junk : List Mapping → UInt32) (m : Mapping),
    m ∈ (readDb decode junk State.fresh (writeDb encode map file)).map ↔ m ∈ map

/-- The port of every mapping is the one in its address. -/
def PortsInAddrs (map : List Mapping) : Prop := ∀ m ∈ map, addrPort m.addr = some m.port

/-- Registering the mappings again turns the list around and finds the ports anew. -/
theorem foldl_register {junk : List Mapping → UInt32} {port : Mapping → UInt32} {l : List Mapping}
    (h : ∀ m ∈ l, ∀ map, (addrPort m.addr).getD (junk map) = port m) (s : State) :
    (l.foldl (fun s m => pmapRegister (junk s.map) s m.prog m.vers m.netid m.addr m.owner) s).map =
      (l.map fun m => { m with port := port m }).reverse ++ s.map := by
  induction l generalizing s with
  | nil => rfl
  | cons m l ih =>
    rw [List.foldl_cons,ih fun m' hm' => h m' (List.mem_cons_of_mem _ hm')]
    simp only [pmapRegister,h m (List.mem_cons_self ..),List.map_cons,List.reverse_cons,List.append_assoc,List.cons_append,
      List.nil_append]

theorem readDb_some {junk : List Mapping → UInt32} {s : State} {bytes : List UInt8} (hne : bytes ≠ [])
    (hdec : decode bytes = some map) : readDb decode junk s (some bytes) =
      map.foldl (fun s m => pmapRegister (junk s.map) s m.prog m.vers m.netid m.addr m.owner) s := by
  unfold readDb
  simp only [hdec]
  rw [if_neg (by simpa using hne)]

/-- What is read of a file that was written: the tail that the old file has left is not read. -/
theorem readDb_writeDb (hfit : (encode map).length ≤ dbBufferSize) (hne : encode map ≠ [])
    (hround : ∀ tail, decode (encode map ++ tail) = some map) (junk : List Mapping → UInt32) (s : State) (file : File) :
    readDb decode junk s (writeDb encode map file) =
      map.foldl (fun s m => pmapRegister (junk s.map) s m.prog m.vers m.netid m.addr m.owner) s := by
  unfold writeDb
  rw [if_neg (by omega)]
  refine readDb_some ?_ (hround _)
  exact List.append_ne_nil_of_left_ne_nil (List.append_ne_nil_of_right_ne_nil _ hne) _

/-- A list that fits is restored whatever its mappings and the old file, if each address has the port of its mapping. -/
theorem restored_of_fits (hfit : (encode map).length ≤ dbBufferSize) (hne : encode map ≠ [])
    (hround : ∀ tail, decode (encode map ++ tail) = some map) (hports : PortsInAddrs map) : Restored encode decode map := by
  intro file junk m
  have hport : ∀ m ∈ map, ∀ map', (addrPort m.addr).getD (junk map') = m.port := fun m hm _ => by
    rw [hports m hm,Option.getD_some]
  rw [readDb_writeDb hfit hne hround,foldl_register hport]
  simp [State.fresh]

/-- A list that does not fit leaves an empty file empty. -/
theorem Restored.fits (h : Restored encode decode map) (hnil : (encode []).length ≤ dbBufferSize) :
    (encode map).length ≤ dbBufferSize := by
  by_contra hlong
  have hwrite : writeDb encode map none = some [] := by
    unfold writeDb
    rw [if_pos (by omega)]
    rfl
  have hnone : ∀ m, m ∉ map := by
    intro m hm
    have hm' := (h none (fun _ => 0) m).2 hm
    rw [hwrite] at hm'
    simp [readDb,State.fresh] at hm'
  rw [List.eq_nil_iff_forall_not_mem.2 hnone] at hlong
  exact hlong hnil

/-- The junk may be anything, and so it is not the port. -/
theorem Restored.ports (h : Restored encode decode map) (hfit : (encode map).length ≤ dbBufferSize) (hne : encode map ≠ [])
    (hround : ∀ tail, decode (encode map ++ tail) = some map) : PortsInAddrs map := by
  intro m hm
  have hm' := (h none (fun _ => m.port+1) m).2 hm
  have hjunk : ∀ m' ∈ map, ∀ _ : List Mapping, (addrPort m'.addr).getD (m.port+1) = (addrPort m'.addr).getD (m.port+1) :=
    fun _ _ _ => rfl
  rw [readDb_writeDb hfit hne hround,foldl_register hjunk] at hm'
  simp only [State.fresh,List.append_nil,List.mem_reverse,List.mem_map] at hm'
  obtain ⟨m',-,he⟩ := hm'
  have haddr : m'.addr = m.addr := by rw [← he]
  have hp := congrArg Mapping.port he
  dsimp only at hp
  rw [haddr] at hp
  cases ha : addrPort m.addr with
  | none =>
    rw [ha] at hp
    simp at hp
  | some p =>
    rw [ha] at hp
    exact congrArg some hp

end Db

/-! The encoding that `rpcbind_data.x` describes. -/

abbrev Reader := StateT (List UInt8) Option

def readWord : Reader ℕ := fun bs => if bs.length < 4 then none else some (be32 bs,bs.drop 4)

/-- So many bytes, and what they are padded with -/
def readBytes (n : ℕ) : Reader Str := fun bs =>
  if bs.length < n+padLen n then none else some (bs.take n,bs.drop (n+padLen n))

def readString : Reader Str := do
  let n ← readWord
  readBytes n

/-- `struct mapping` behind `next` -/
def zdrMapping (m : Mapping) : List UInt8 :=
  zdrUInt m.port ++ (zdrUInt m.prog ++ (zdrUInt m.vers ++ (zdrString m.netid ++ (zdrString m.addr ++ zdrString m.owner))))

def readMapping : Reader Mapping := do
  let port ← readWord
  let prog ← readWord
  let vers ← readWord
  let netid ← readString
  let addr ← readString
  let owner ← readString
  return ⟨UInt32.ofNat port,UInt32.ofNat prog,UInt32.ofNat vers,netid,addr,owner⟩

/-- `mapping_ptr`: `next` is in front of the other members. -/
def zdrMappingPtr : List Mapping → List UInt8
  | [] => zdrUInt 0
  | m::map => zdrUInt 1 ++ (zdrMappingPtr map ++ zdrMapping m)

def readMappingPtr : ℕ → Reader (List Mapping)
  | 0 => fun _ => none
  | fuel+1 => do
    let more ← readWord
    if more = 0 then return []
    else do
      let map ← readMappingPtr fuel
      let m ← readMapping
      return m::map

def readMap (bs : List UInt8) : Option (List Mapping) := (readMappingPtr bs.length bs).map Prod.fst

section Takes

variable {α β : Type}

/-- `r` reads `bs` as `a`, whatever is behind it. -/
def Takes (r : Reader α) (a : α) (bs : List UInt8) : Prop := ∀ tail, r (bs ++ tail) = some (a,tail)

theorem Takes.pure (a : α) : Takes (Pure.pure a) a [] := fun _ => rfl

theorem Takes.bind {r : Reader α} {next : α → Reader β} {a : α} {b : β} {bs cs : List UInt8} (h : Takes r a bs)
    (h' : Takes (next a) b cs) : Takes (r >>= next) b (bs ++ cs) := by
  intro tail
  show (r (bs ++ cs ++ tail) >>= fun p => next p.1 p.2) = _
  rw [List.append_assoc,h (cs ++ tail)]
  exact h' tail

theorem Takes.map {r : Reader α} {a : α} {bs : List UInt8} (h : Takes r a bs) (f : α → β) :
    Takes (r >>= fun a => Pure.pure (f a)) (f a) bs := by
  have hb := @Takes.bind α β r (fun a => Pure.pure (f a)) a (f a) bs [] h (Takes.pure (f a))
  rwa [List.append_nil] at hb

theorem takes_word {n : ℕ} (h : n < 2^32) : Takes readWord n (beBytes n) := by
  intro tail
  unfold readWord
  rw [if_neg (by simp),be32_beBytes n h,List.drop_left' (beBytes_length n)]

theorem takes_bytes (s : Str) : Takes (readBytes s.length) s (s ++ pad s.length) := by
  intro tail
  have hpad : (s ++ pad s.length).length = s.length+padLen s.length := by simp [pad]
  unfold readBytes
  rw [if_neg (by rw [List.length_append]; omega),List.drop_left' hpad,List.append_assoc,List.take_left]

theorem takes_string {s : Str} (h : s.length < 2^32) : Takes readString s (zdrString s) :=
  (takes_word h).bind (takes_bytes s)

end Takes

/-- The lengths of the strings fit their words. -/
def Mapping.Small (m : Mapping) : Prop := m.netid.length < 2^32 ∧ m.addr.length < 2^32 ∧ m.owner.length < 2^32

instance (m : Mapping) : Decidable m.Small := inferInstanceAs (Decidable (_ ∧ _ ∧ _))

theorem takes_mapping {m : Mapping} (h : m.Small) : Takes readMapping m (zdrMapping m) := by
  obtain ⟨hnetid,haddr,howner⟩ := h
  refine (takes_word m.port.toNat_lt).bind <| (takes_word m.prog.toNat_lt).bind <| (takes_word m.vers.toNat_lt).bind <|
    (takes_string hnetid).bind <| (takes_string haddr).bind ?_
  have hlast := (takes_string howner).map (Mapping.mk m.port m.prog m.vers m.netid m.addr)
  simp only [UInt32.ofNat_toNat]
  exact hlast

theorem takes_mappingPtr {map : List Mapping} (h : ∀ m ∈ map, m.Small) {fuel : ℕ} (hfuel : map.length < fuel) :
    Takes (readMappingPtr fuel) map (zdrMappingPtr map) := by
  induction map generalizing fuel with
  | nil =>
    obtain ⟨fuel,rfl⟩ := Nat.exists_eq_succ_of_ne_zero (by omega : fuel ≠ 0)
    have hbytes : zdrMappingPtr [] = beBytes 0 ++ [] := by
      rw [List.append_nil,zdrMappingPtr,zdrUInt]
      rfl
    rw [readMappingPtr,hbytes]
    refine (takes_word (by norm_num)).bind ?_
    rw [if_pos rfl]
    exact Takes.pure []
  | cons m map ih =>
    rw [List.length_cons] at hfuel
    obtain ⟨fuel,rfl⟩ := Nat.exists_eq_succ_of_ne_zero (by omega : fuel ≠ 0)
    have hrest := ih (fun m' hm' => h m' (List.mem_cons_of_mem _ hm')) (by omega : map.length < fuel)
    have hm := (takes_mapping (h m (List.mem_cons_self ..))).map fun m => m::map
    exact (takes_word (by norm_num : 1 < 2^32)).bind (hrest.bind hm)

theorem length_zdrMappingPtr (map : List Mapping) : 4*(map.length+1) ≤ (zdrMappingPtr map).length := by
  induction map with
  | nil => simp [zdrMappingPtr,zdrUInt]
  | cons m map ih =>
    simp only [zdrMappingPtr,zdrUInt,List.length_append,beBytes_length,List.length_cons]
    omega

/-- Every list is read back, whatever tail the file has. -/
theorem readMap_zdrMappingPtr {map : List Mapping} (h : ∀ m ∈ map, m.Small) (tail : List UInt8) :
    readMap (zdrMappingPtr map ++ tail) = some map := by
  have hlen := length_zdrMappingPtr map
  have hfuel : map.length < (zdrMappingPtr map ++ tail).length := by
    rw [List.length_append]
    omega
  rw [readMap,takes_mappingPtr h hfuel tail,Option.map_some]

/-- "127.0.0.1.0.111" -/
def portmapperAddr : Str := [49,50,55,46,48,46,48,46,49,46,48,46,49,49,49]

def portmapper : Mapping := ⟨111,100000,3,tcp,portmapperAddr,unknown⟩

/-- A registration for a socket in the file system, "/run/rpcbind" -/
def localMapping : Mapping := ⟨0,100000,3,[108,111,99,97,108],[47,114,117,110,47,114,112,99,98,105,110,100],unknown⟩

theorem small_portmapper : portmapper.Small := by decide

theorem small_localMapping : localMapping.Small := by decide

end Rpcbind
end Libnfs
