import Libnfs.Rpcbind

/-! rpcbind as a finite map from (program, version, netid): what the calls do to such a map and what
they answer, and that the list of the server does the same. -/
namespace Libnfs
namespace Rpcbind

open ByteWords Registry Zdrmem

structure Key where
  prog : UInt32
  vers : UInt32
  netid : Str
  deriving DecidableEq

/-- What is registered under a key -/
structure Entry where
  addr : Str
  owner : Str
  port : UInt32

def Mapping.key (m : Mapping) : Key := ⟨m.prog,m.vers,m.netid⟩
def Mapping.entry (m : Mapping) : Entry := ⟨m.addr,m.owner,m.port⟩

/-- The registrations; that there are finitely many follows from what stands for them. -/
abbrev Table := Key → Option Entry

namespace Table

def set (t : Table) (k : Key) (e : Entry) : Table := if (t k).isNone then Function.update t k (some e) else t

def unset (t : Table) (prog vers : UInt32) (netid : Str) : Table := fun k =>
  if k.prog = prog ∧ k.vers = vers ∧ (netid = [] ∨ k.netid = netid) then none else t k

/-- The table after a call -/
def step (t : Table) : Call → Table
  | .set2 prog vers prot port => t.set ⟨prog,vers,netidOf prot⟩ ⟨anyAddr port,unknown,port⟩
  | .unset2 prog vers prot => t.unset prog vers (netidOf prot)
  | .getport2 _ _ _ => t
  | .dump2 => t
  | .set3 prog vers netid addr owner => t.set ⟨prog,vers,netid⟩ ⟨addr.text,owner,addr.port⟩
  | .unset3 prog vers netid => t.unset prog vers netid
  | .dump3 => t

/-- The table after some calls -/
def afterCalls (t : Table) (cs : List Call) : Table := cs.foldl step t

/-- The tcp and udp registrations of a table -/
def Lists2 (t : Table) (m : Pmap2Mapping) : Prop :=
  ∃ netid e, protOf netid = some m.prot ∧ t ⟨m.prog,m.vers,netid⟩ = some e ∧ e.port = m.port

/-- All registrations of a table -/
def Lists3 (t : Table) (m : Pmap3Mapping) : Prop :=
  ∃ e, t ⟨m.prog,m.vers,m.netid⟩ = some e ∧ e.addr = m.addr ∧ e.owner = m.owner

/-- The replies that a call may get. -/
def Answers (t : Table) : Call → Option Reply → Prop
  | .set2 prog vers prot _, r =>
    r = some (.word (if (t ⟨prog,vers,netidOf prot⟩).isNone then 1 else 0))
  | .unset2 _ _ _, r => r = some (.word 1)
  | .getport2 prog vers prot, r =>
    r = some (.word ((t ⟨prog,vers,netidOf prot⟩).elim 0 Entry.port))
  | .dump2, r => ∃ list, r = some (.dump2 list) ∧ list.Nodup ∧ ∀ m, m ∈ list ↔ t.Lists2 m
  | .set3 prog vers netid _ _, r => r = some (.word (if (t ⟨prog,vers,netid⟩).isNone then 1 else 0))
  | .unset3 _ _ _, r => r = some (.word 1)
  | .dump3, r => ∃ list, r = some (.dump3 list) ∧ list.Nodup ∧ ∀ m, m ∈ list ↔ t.Lists3 m

end Table

/-- The registrations a server starts with: those of its database file, one for each key. -/
structure Database where
  map : List Mapping
  distinct : Distinct Mapping.key map

/-- The state at the start -/
def Database.init (db : Database) : State := ⟨db.map,0⟩

/-- A list as a table -/
def table (map : List Mapping) : Table := fun k => (lookup Mapping.key map k).map Mapping.entry

/-- The list has one mapping for each key of the table and no other. -/
structure Refines (s : State) (t : Table) : Prop where
  distinct : Distinct Mapping.key s.map
  table_eq : table s.map = t

/-- The bytes of a string in a reply -/
def stringSize (s : Str) : ℕ := 4+(s.length+padLen s.length)

/-- The bytes of a mapping in a reply of version 3 -/
def mappingSize (m : Mapping) : ℕ :=
  12+stringSize m.netid+stringSize m.addr+stringSize m.owner

/-- What keeps a call from being answered as the table says. A GETPORT whose key is absent gets
the port that was found last; a DUMP whose reply is longer than 4104 bytes gets no reply. -/
def Meets (s : State) : Call → Prop
  | .getport2 prog vers prot =>
    s.port = 0 ∨ ∃ m ∈ s.map, m.prog = prog ∧ m.vers = vers ∧ m.netid = netidOf prot
  | .dump2 => s.map.countP (fun m => m.netid = tcp ∨ m.netid = udp) ≤ 203
  | .dump3 => 28+(s.map.map mappingSize).sum ≤ 4104
  | _ => True

/-! The port of an address. -/

theorem scanBack_digits {ds rev str : Str} {count : ℕ} (h : ∀ c ∈ ds, isDigit c) :
    scanBack (ds ++ rev) str count = scanBack rev (ds.reverse ++ str) count := by
  induction ds generalizing str with
  | nil => rfl
  | cons c ds ih =>
    have hc : c ≠ dot := by
      rintro rfl
      exact absurd (h dot (by simp)) (by decide)
    rw [List.cons_append,scanBack,if_pos hc,if_pos (h c (by simp)),
      ih fun d hd => h d (by simp [hd])]
    simp

theorem scanBack_text {host high low : Str} (hh : ∀ c ∈ high, isDigit c) (hl : ∀ c ∈ low, isDigit c) :
    scanBack (host ++ dot :: (high ++ dot :: low)).reverse [] 0 =
      some (dot :: (high ++ dot :: low)) := by
  have hrev : (host ++ dot :: (high ++ dot :: low)).reverse =
      low.reverse ++ dot :: (high.reverse ++ dot :: host.reverse) := by simp
  rw [hrev,scanBack_digits (by simpa using hl),scanBack,if_neg (by simp),if_neg (by decide),
    scanBack_digits (by simpa using hh),scanBack,if_neg (by simp),if_pos rfl]
  simp

theorem scanInt_digits {ds rest : Str} (hne : ds ≠ []) (h : ∀ c ∈ ds, isDigit c)
    (hr : ∀ c ∈ rest.head?, ¬ isDigit c) : scanInt (ds ++ rest) = some (decimalValue ds,rest) := by
  have htake : (ds ++ rest).takeWhile isDigit = ds := by
    rw [List.takeWhile_append_of_pos h]
    cases rest with
    | nil => simp
    | cons c rest => simp [hr c (by simp)]
  have hdrop : (ds ++ rest).dropWhile isDigit = rest := by
    rw [List.dropWhile_append_of_pos h]
    cases rest with
    | nil => rfl
    | cons c rest => simp [hr c (by simp)]
  unfold scanInt
  rw [htake,hdrop]
  cases ds with
  | nil => exact absurd rfl hne
  | cons c ds => rfl

/-- The two fields at the end of an address are found. -/
theorem addrPort_text {host high low : Str} (hh : high ≠ [] ∧ ∀ c ∈ high, isDigit c)
    (hl : low ≠ [] ∧ ∀ c ∈ low, isDigit c) :
    addrPort (host ++ dot :: (high ++ dot :: low)) =
      some (fieldsPort (decimalValue high) (decimalValue low)) := by
  have hhigh : scanInt (high ++ dot :: low) = some (decimalValue high,dot :: low) :=
    scanInt_digits hh.1 hh.2 (by simp [isDigit,dot])
  have hlow : scanInt low = some (decimalValue low,[]) := by
    simpa using @scanInt_digits low [] hl.1 hl.2 (by simp)
  rw [addrPort,scanBack_text hh.2 hl.2]
  simp [sscanfPort,hhigh,hlow]

theorem Uaddr.addrPort (a : Uaddr) : addrPort a.text = some a.port :=
  addrPort_text a.high_digits a.low_digits

/-- The character of a digit -/
theorem digit_char {d : ℕ} (h : d < 10) :
    isDigit (48+UInt8.ofNat d) ∧ (48+UInt8.ofNat d).toNat-48 = d := by
  interval_cases d <;> decide

theorem decimal_digits (n : ℕ) : decimal n ≠ [] ∧ ∀ c ∈ decimal n, isDigit c := by
  unfold decimal
  split
  · exact ⟨by simp,by simp [isDigit]⟩
  · rename_i hn
    refine ⟨by simpa using Nat.digits_ne_nil_iff_ne_zero.mpr hn,?_⟩
    intro c hc
    obtain ⟨d,hd,rfl⟩ := List.mem_map.mp hc
    exact (digit_char (Nat.digits_lt_base (by norm_num) (List.mem_reverse.mp hd))).1

theorem decimalValue_concat (ds : Str) (c : UInt8) :
    decimalValue (ds ++ [c]) = decimalValue ds*10+(c.toNat-48) := by simp [decimalValue]

theorem decimalValue_ofDigits {ds : List ℕ} (h : ∀ d ∈ ds, d < 10) :
    decimalValue (ds.reverse.map fun d => 48+UInt8.ofNat d) = Nat.ofDigits 10 ds := by
  induction ds with
  | nil => rfl
  | cons d ds ih =>
    rw [List.reverse_cons,List.map_append,List.map_cons,List.map_nil,decimalValue_concat,
      ih fun e he => h e (by simp [he]),(digit_char (h d (by simp))).2,Nat.ofDigits_cons]
    ring

theorem decimalValue_decimal (n : ℕ) : decimalValue (decimal n) = n := by
  unfold decimal
  split
  · rename_i hn
    exact hn.symm
  · rw [decimalValue_ofDigits fun d hd => Nat.digits_lt_base (by norm_num) hd,Nat.ofDigits_digits]

/-- The address that SET of version 2 makes up has the port it was made from. -/
theorem addrPort_anyAddr (port : UInt32) : addrPort (anyAddr port) = some port := by
  have happ : anyAddr port = [48,46,48,46,48,46,48] ++
      dot :: (decimal (port.toNat/256) ++ dot :: decimal (port.toNat%256)) := by
    simp [anyAddr,dot]
  rw [happ,addrPort_text (decimal_digits _) (decimal_digits _),decimalValue_decimal,
    decimalValue_decimal,fieldsPort,show port.toNat/256*256+port.toNat%256 = port.toNat by omega,
    UInt32.ofNat_toNat]

/-! The list. -/

theorem mapLookup_eq (prog vers : UInt32) (netid : Str) (map : List Mapping) :
    mapLookup prog vers netid map = lookup Mapping.key map ⟨prog,vers,netid⟩ := by
  induction map with
  | nil => rfl
  | cons m map ih =>
    rw [mapLookup,lookup_cons,ih]
    simp only [Mapping.key,Key.mk.injEq,ne_eq,ite_not]
    by_cases h1 : m.prog = prog <;> by_cases h2 : m.vers = vers <;> by_cases h3 : m.netid = netid <;>
      simp [h1,h2,h3]

/-- The mappings that `map_remove` keeps -/
def kept (prog vers : UInt32) (netid : Str) (m : Mapping) : Bool :=
  m.prog ≠ prog ∨ m.vers ≠ vers ∨ (netid ≠ [] ∧ m.netid ≠ netid)

theorem removeLoop_eq (prog vers : UInt32) (netid : Str) (map newMap : List Mapping) :
    removeLoop prog vers netid map newMap = (map.filter (kept prog vers netid)).reverse ++ newMap := by
  induction map generalizing newMap with
  | nil => rfl
  | cons m map ih =>
    rw [removeLoop,List.filter_cons]
    by_cases h : kept prog vers netid m = true
    · rw [if_pos (by simpa [kept] using h),if_pos h,ih]
      simp
    · rw [if_neg (by simpa [kept] using h),if_neg h,ih]

theorem Refines.lookup_none {s : State} {t : Table} (h : Refines s t) {k : Key} :
    lookup Mapping.key s.map k = none ↔ t k = none := by
  rw [← h.table_eq,table]
  simp

theorem Refines.mem {s : State} {t : Table} (h : Refines s t) {k : Key} {e : Entry} :
    t k = some e ↔ ∃ m ∈ s.map, m.key = k ∧ m.entry = e := by
  rw [← h.table_eq,table,Option.map_eq_some_iff]
  simp only [lookup_eq_some h.distinct,and_assoc]

theorem Refines.set {s : State} {t : Table} (h : Refines s t) (junk port : UInt32) (prog vers : UInt32)
    (netid addr owner : Str) (hnone : t ⟨prog,vers,netid⟩ = none) (hport : addrPort addr = some port) :
    Refines (pmapRegister junk s prog vers netid addr owner)
      (t.set ⟨prog,vers,netid⟩ ⟨addr,owner,port⟩) := by
  have hfree := h.lookup_none.mpr hnone
  refine ⟨h.distinct.cons hfree,?_⟩
  funext k
  simp only [table,pmapRegister,lookup_cons,Table.set,hnone,Option.isNone_none,if_true,hport,
    Option.getD_some]
  by_cases hk : k = ⟨prog,vers,netid⟩
  · subst hk
    simp [Mapping.key,Mapping.entry]
  · rw [if_neg (fun h => hk h.symm),Function.update_of_ne hk,← h.table_eq,table]

theorem Refines.unset {s : State} {t : Table} (h : Refines s t) (prog vers : UInt32) (netid : Str) :
    Refines (mapRemove s prog vers netid) (t.unset prog vers netid) := by
  have hmap : (mapRemove s prog vers netid).map =
      (s.map.filter (kept prog vers netid)).reverse := by
    rw [mapRemove,removeLoop_eq,List.append_nil]
  have hd := h.distinct.filter (kept prog vers netid)
  refine ⟨by rw [hmap]; exact hd.reverse,?_⟩
  funext k
  rw [hmap,table,lookup_reverse hd,lookup_filter h.distinct,Table.unset,← h.table_eq,table]
  rcases hm : lookup Mapping.key s.map k with _ | m
  · simp
  · obtain ⟨-,rfl⟩ := lookup_mem hm
    by_cases hk : kept prog vers netid m = true
    · rw [Option.filter_some,if_pos hk,if_neg]
      simp only [kept,decide_eq_true_eq] at hk
      simp only [Mapping.key]
      tauto
    · rw [Option.filter_some,if_neg hk,if_pos]
      · rfl
      · simp only [kept,decide_eq_true_eq] at hk
        simp only [Mapping.key]
        tauto

variable {junk : List Mapping → UInt32} {s : State} {t : Table}

theorem Refines.setProc (h : Refines s t) {prog vers port : UInt32} {netid addr owner : Str}
    (hport : addrPort addr = some port) :
    Refines (setProc junk s prog vers netid addr owner).1
        (t.set ⟨prog,vers,netid⟩ ⟨addr,owner,port⟩) ∧
      (setProc junk s prog vers netid addr owner).2 =
        some (.word (if (t ⟨prog,vers,netid⟩).isNone then 1 else 0)) := by
  unfold Rpcbind.setProc
  rw [mapLookup_eq]
  rcases hl : lookup Mapping.key s.map ⟨prog,vers,netid⟩ with _ | m
  · have hnone := h.lookup_none.mp hl
    refine ⟨h.set _ port prog vers netid addr owner hnone hport,?_⟩
    rw [hnone]
    rfl
  · have hsome : t ⟨prog,vers,netid⟩ = some m.entry := by
      rw [← h.table_eq,table,hl]
      rfl
    rw [Table.set,hsome]
    exact ⟨h,rfl⟩

/-- What one call does to the list it does to the table. -/
theorem Refines.step (h : Refines s t) (c : Call) : Refines (serve junk s c).1 (t.step c) := by
  cases c with
  | set2 prog vers prot port => exact (h.setProc (addrPort_anyAddr port)).1
  | unset2 prog vers prot => exact h.unset prog vers (netidOf prot)
  | getport2 prog vers prot => exact ⟨h.distinct,h.table_eq⟩
  | dump2 => exact h
  | set3 prog vers netid addr owner => exact (h.setProc addr.addrPort).1
  | unset3 prog vers netid => exact h.unset prog vers netid
  | dump3 => exact h

theorem Database.refines (db : Database) : Refines db.init (table db.map) := ⟨db.distinct,rfl⟩

/-- What a sequence of calls does to the list it does to the table. -/
theorem Refines.afterCalls (h : Refines s t) (cs : List Call) :
    Refines (Rpcbind.afterCalls junk s cs) (t.afterCalls cs) := by
  induction cs generalizing s t with
  | nil => exact h
  | cons c cs ih => exact ih (h.step c)

/-! The replies. -/

theorem zdrUInt_length (n : UInt32) : (zdrUInt n).length = 4 := rfl

theorem rpcSendReply_word (n : UInt32) : rpcSendReply (.word n) sizeofUint32 = some (.word n) := by
  rw [rpcSendReply,if_pos]
  rw [Reply.encode,zdrUInt_length]
  decide

theorem zdrString_length (s : Str) : (zdrString s).length = stringSize s := by
  simp [zdrString,stringSize]

/-- Each element of an encoded list has a word in front of it, and there is one at the end. -/
theorem zdrList_length {α : Type} (proc : α → List UInt8) (l : List α) :
    (zdrList proc l).length = 4+(l.map fun x => 4+(proc x).length).sum := by
  induction l with
  | nil => rfl
  | cons x l ih =>
    rw [zdrList,List.length_append,List.length_append,zdrUInt_length,ih,List.map_cons,List.sum_cons]
    omega

/-- A loop that prepends what it keeps leaves it backwards. -/
theorem foldl_filterMap {α β : Type} (f : α → Option β) (l : List α) (acc : List β) :
    l.foldl (fun acc x => match f x with
      | some y => y :: acc
      | none => acc) acc = (l.filterMap f).reverse ++ acc := by
  induction l generalizing acc with
  | nil => rfl
  | cons x l ih =>
    rw [List.foldl_cons,ih,List.filterMap_cons]
    cases f x <;> simp

/-- The element of a DUMP of version 2 -/
def dump2Item (m : Mapping) : Option Pmap2Mapping :=
  (protOf m.netid).map fun prot => ⟨m.prog,m.vers,prot,m.port⟩

/-- The element of a DUMP of version 3 -/
def dump3Item (m : Mapping) : Pmap3Mapping := ⟨m.prog,m.vers,m.netid,m.addr,m.owner⟩

theorem pmap2DumpProc_eq (s : State) : pmap2DumpProc s =
    (s,rpcSendReply (.dump2 (s.map.filterMap dump2Item).reverse) sizeofDumpres) := by
  have hloop := foldl_filterMap dump2Item s.map []
  rw [List.append_nil] at hloop
  rw [← hloop,pmap2DumpProc]
  congr 4
  funext list m
  simp only [dump2Item]
  cases protOf m.netid <;> rfl

theorem pmap3DumpProc_eq (s : State) : pmap3DumpProc s =
    (s,rpcSendReply (.dump3 (s.map.map dump3Item).reverse) sizeofDumpres) := by
  have hloop := foldl_filterMap (fun m => some (dump3Item m)) s.map []
  rw [List.append_nil,List.filterMap_eq_map'] at hloop
  rw [← hloop]
  rfl

theorem protOf_eq_some {netid : Str} {prot : UInt32} : protOf netid = some prot ↔
    (netid = tcp ∧ prot = ipprotoTcp) ∨ (netid = udp ∧ prot = ipprotoUdp) := by
  unfold protOf
  split
  · rename_i h
    subst h
    simp [tcp,udp,eq_comm]
  · split
    · rename_i h
      subst h
      simp [tcp,udp,eq_comm]
    · simp [*]

theorem protOf_inj {a b : Str} {prot : UInt32} (ha : protOf a = some prot) (hb : protOf b = some prot) :
    a = b := by
  rcases protOf_eq_some.mp ha with ⟨rfl,rfl⟩ | ⟨rfl,rfl⟩ <;>
    rcases protOf_eq_some.mp hb with ⟨rfl,h⟩ | ⟨rfl,h⟩ <;> first | rfl | exact absurd h (by decide)

theorem dump2Item_eq_some {m : Mapping} {p : Pmap2Mapping} : dump2Item m = some p ↔
    ∃ netid, protOf netid = some p.prot ∧ m.key = ⟨p.prog,p.vers,netid⟩ ∧ m.port = p.port := by
  cases p
  simp only [dump2Item,Option.map_eq_some_iff,Pmap2Mapping.mk.injEq,Mapping.key,Key.mk.injEq]
  constructor
  · rintro ⟨prot,hp,rfl,rfl,rfl,rfl⟩
    exact ⟨_,hp,⟨rfl,rfl,rfl⟩,rfl⟩
  · rintro ⟨_,hp,⟨rfl,rfl,rfl⟩,rfl⟩
    exact ⟨_,hp,rfl,rfl,rfl,rfl⟩

theorem dump2_nodup (h : Distinct Mapping.key s.map) : (s.map.filterMap dump2Item).reverse.Nodup := by
  rw [List.nodup_reverse,List.Nodup,List.pairwise_filterMap]
  refine (List.pairwise_map.mp h).imp ?_
  rintro m n hne p hp q hq rfl
  obtain ⟨a,ha,hkey,-⟩ := dump2Item_eq_some.mp hp
  obtain ⟨b,hb,hkey',-⟩ := dump2Item_eq_some.mp hq
  exact hne (by rw [hkey,hkey',protOf_inj ha hb])

theorem dump3_nodup (h : Distinct Mapping.key s.map) : (s.map.map dump3Item).reverse.Nodup := by
  rw [List.nodup_reverse,List.Nodup,List.pairwise_map]
  refine (List.pairwise_map.mp h).imp ?_
  intro m n hne he
  simp only [dump3Item,Pmap3Mapping.mk.injEq] at he
  exact hne (by simp [Mapping.key,he])

theorem Refines.lists2 (h : Refines s t) (p : Pmap2Mapping) :
    p ∈ (s.map.filterMap dump2Item).reverse ↔ t.Lists2 p := by
  simp only [List.mem_reverse,List.mem_filterMap,dump2Item_eq_some,Table.Lists2,h.mem]
  constructor
  · rintro ⟨m,hm,netid,hp,hkey,hport⟩
    exact ⟨netid,m.entry,hp,⟨m,hm,hkey,rfl⟩,hport⟩
  · rintro ⟨netid,_,hp,⟨m,hm,hkey,rfl⟩,hport⟩
    exact ⟨m,hm,netid,hp,hkey,hport⟩

theorem Refines.lists3 (h : Refines s t) (p : Pmap3Mapping) :
    p ∈ (s.map.map dump3Item).reverse ↔ t.Lists3 p := by
  simp only [List.mem_reverse,List.mem_map,Table.Lists3,h.mem]
  constructor
  · rintro ⟨m,hm,rfl⟩
    exact ⟨m.entry,⟨m,hm,rfl,rfl⟩,rfl,rfl⟩
  · rintro ⟨_,⟨m,hm,hkey,rfl⟩,haddr,howner⟩
    simp only [Mapping.key,Key.mk.injEq] at hkey
    refine ⟨m,hm,?_⟩
    cases p
    simp only [dump3Item,Pmap3Mapping.mk.injEq]
    exact ⟨hkey.1,hkey.2.1,hkey.2.2,haddr,howner⟩

theorem length_filterMap_dump2 (map : List Mapping) :
    (map.filterMap dump2Item).length = map.countP fun m => m.netid = tcp ∨ m.netid = udp := by
  induction map with
  | nil => rfl
  | cons m map ih =>
    rw [List.filterMap_cons,List.countP_cons]
    by_cases ht : m.netid = tcp
    · simp [dump2Item,protOf,ht,ih]
    · by_cases hu : m.netid = udp
      · simp [dump2Item,protOf,hu,ih,show udp ≠ tcp by decide]
      · simp [dump2Item,protOf,ht,hu,ih]

theorem dump2_fits (map : List Mapping) :
    replyHeaderSize+(Reply.dump2 (map.filterMap dump2Item).reverse).encode.length ≤
        encodebufMinsize+sizeofDumpres ↔
      map.countP (fun m => m.netid = tcp ∨ m.netid = udp) ≤ 203 := by
  have hsize : ∀ m, (zdrPmap2Mapping m).length = 16 := fun m => rfl
  rw [Reply.encode,zdrList_length,← length_filterMap_dump2]
  simp only [hsize,List.map_reverse,List.map_const',List.sum_reverse,List.sum_replicate,smul_eq_mul,
    replyHeaderSize,encodebufMinsize,sizeofDumpres]
  omega

theorem dump3_fits (map : List Mapping) :
    replyHeaderSize+(Reply.dump3 (map.map dump3Item).reverse).encode.length ≤
        encodebufMinsize+sizeofDumpres ↔ 28+(map.map mappingSize).sum ≤ 4104 := by
  have hsize : ((map.map dump3Item).map fun x => 4+(zdrPmap3Mapping x).length) = map.map mappingSize := by
    rw [List.map_map]
    refine List.map_congr_left fun m _ => ?_
    simp only [Function.comp_apply,dump3Item,zdrPmap3Mapping,List.length_append,zdrUInt_length,
      zdrString_length,mappingSize]
    omega
  rw [Reply.encode,zdrList_length,List.map_reverse,List.sum_reverse,hsize]
  simp only [replyHeaderSize,encodebufMinsize,sizeofDumpres]
  omega

/-- A list that is only sent when it fits. -/
theorem sent_iff {reply : Reply} {hint : ℕ} {P : Reply → Prop} (h : P reply) :
    (∃ r, rpcSendReply reply hint = some r ∧ P r) ↔
      replyHeaderSize+reply.encode.length ≤ encodebufMinsize+hint := by
  unfold rpcSendReply
  split
  · rename_i hfit
    exact ⟨fun _ => hfit,fun _ => ⟨reply,rfl,h⟩⟩
  · rename_i hfit
    simp [hfit]

/-- A call is answered as the table says if and only if nothing keeps it from that. -/
theorem Refines.answers (h : Refines s t) (c : Call) :
    t.Answers c (serve junk s c).2 ↔ Meets s c := by
  cases c with
  | set2 prog vers prot port =>
    simp only [Meets,iff_true]
    exact (h.setProc (addrPort_anyAddr port)).2
  | unset2 prog vers prot =>
    simp only [Meets,iff_true]
    exact rpcSendReply_word 1
  | getport2 prog vers prot =>
    simp only [Meets,Table.Answers,serve,pmap2GetportProc,rpcSendReply_word,Option.some.injEq,
      Reply.word.injEq,mapLookup_eq]
    rcases hl : lookup Mapping.key s.map ⟨prog,vers,netidOf prot⟩ with _ | m
    · rw [h.lookup_none.mp hl]
      have hno : ¬ ∃ m ∈ s.map, m.prog = prog ∧ m.vers = vers ∧ m.netid = netidOf prot := by
        rintro ⟨m,hm,h1,h2,h3⟩
        have hs := (lookup_eq_some h.distinct).mpr ⟨hm,show m.key = ⟨prog,vers,netidOf prot⟩ by
            simp [Mapping.key,h1,h2,h3]⟩
        rw [hl] at hs
        simp at hs
      simp [hno]
    · obtain ⟨hm,hkey⟩ := lookup_mem hl
      have ht : t ⟨prog,vers,netidOf prot⟩ = some m.entry := h.mem.mpr ⟨m,hm,hkey,rfl⟩
      simp only [Mapping.key,Key.mk.injEq] at hkey
      rw [ht]
      exact ⟨fun _ => .inr ⟨m,hm,hkey⟩,fun _ => rfl⟩
  | dump2 =>
    rw [Meets,← dump2_fits]
    have hs := @sent_iff _ sizeofDumpres (fun r => ∃ list, r = .dump2 list ∧ list.Nodup ∧
      ∀ m, m ∈ list ↔ t.Lists2 m) ⟨_,rfl,dump2_nodup h.distinct,h.lists2⟩
    rw [← hs]
    simp only [Table.Answers,serve,pmap2DumpProc_eq]
    constructor
    · rintro ⟨list,hr,hp⟩
      exact ⟨_,hr,list,rfl,hp⟩
    · rintro ⟨_,hr,list,rfl,hp⟩
      exact ⟨list,hr,hp⟩
  | set3 prog vers netid addr owner =>
    simp only [Meets,iff_true]
    exact (h.setProc addr.addrPort).2
  | unset3 prog vers netid =>
    simp only [Meets,iff_true]
    exact rpcSendReply_word 1
  | dump3 =>
    rw [Meets,← dump3_fits]
    have hs := @sent_iff _ sizeofDumpres (fun r => ∃ list, r = .dump3 list ∧ list.Nodup ∧
      ∀ m, m ∈ list ↔ t.Lists3 m) ⟨_,rfl,dump3_nodup h.distinct,h.lists3⟩
    rw [← hs]
    simp only [Table.Answers,serve,pmap3DumpProc_eq]
    constructor
    · rintro ⟨list,hr,hp⟩
      exact ⟨_,hr,list,rfl,hp⟩
    · rintro ⟨_,hr,list,rfl,hp⟩
      exact ⟨list,hr,hp⟩

/-- A server without registrations -/
def demoDatabase : Database := ⟨[],.nil⟩

/-- Port 8*256+1 -/
def demoAddr : Uaddr where
  host := [49]
  high := [56]
  low := [49]
  high_digits := by simp [isDigit]
  low_digits := by simp [isDigit]
  high_int := by decide
  low_int := by decide

/-- A service is registered and looked up. -/
def demoCalls : List Call := [.set3 100003 3 tcp demoAddr unknown,.getport2 100003 3 6]

end Rpcbind
end Libnfs
