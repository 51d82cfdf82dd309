import Libnfs.SList

/-! The list of clients of `servers/nfsd/mountd.c`. `talloc` does not fail. -/
namespace Libnfs
namespace Mountd

open Function SList

/-- `struct mountd_export` but for its link -/
structure Export where
  path : String
  fh : List UInt8
  deriving DecidableEq

/-- `struct mountd_client` but for its link -/
structure Client where
  client : String
  path : String
  deriving DecidableEq

/-- `struct mountd_state` -/
structure State where
  exports : List Export
  mem : Mem Client
  clients : Option ℕ

/-- `mountd_init`, and the exports that are added -/
def State.init (exports : List Export) : State := ⟨exports,.empty _,none⟩

/-- `MNT3ERR_NOENT` and `MNT3ERR_SERVERFAULT` -/
inductive MountStat
  | noent
  | serverfault
  deriving DecidableEq

inductive Proc
  | mnt (path : String)
  | umnt (path : String)
  | umntall
  | dump

/-- A call, with what `client_address` returns -/
structure Call where
  addr : Option String
  proc : Proc

inductive Reply
  | mntOk (fh : List UInt8) (authFlavors : List ℕ)
  | mntErr (status : MountStat)
  | void
  | dump (res : List Client)
  deriving DecidableEq

/-- `mount3_mnt_proc` -/
def mount3MntProc (s : State) (addr : Option String) (args : String) : Except Fault (State × Reply) := do
  let (client,m) := s.mem.alloc ⟨"",""⟩
  match s.exports.find? fun e => e.path = args with
  | none =>
    let m ← m.free client
    pure ({ s with mem := m },.mntErr .noent)
  | some e =>
    match addr with
    | none =>
      let m ← m.free client
      pure ({ s with mem := m },.mntErr .serverfault)
    | some addr =>
      let m ← m.set client ⟨addr,e.path⟩
      let (clients,m) ← add m s.clients client
      pure ({ s with mem := m, clients := clients },.mntOk e.fh [1])

/-- `mount3_umnt_proc` -/
def mount3UmntProc (fuel : ℕ) (s : State) (addr : Option String) (args : String) : Except Fault (State × Reply) :=
  match addr with
  | none => pure (s,.void)
  | some addr => do
    match ← find s.mem (fun c => c.client = addr && c.path = args) fuel s.clients with
    | none => pure (s,.void)
    | some c =>
      let (clients,m) ← remove fuel s.mem s.clients c
      let m ← m.free c
      pure ({ s with mem := m, clients := clients },.void)

/-- The loop of `mount3_umntall_proc`, and `nl` behind it -/
def umntallLoop (fuel : ℕ) (addr : String) : ℕ → Mem Client → Option ℕ → Option ℕ → Option ℕ →
    Except Fault (Option ℕ × Mem Client)
  | _, m, _, nl, none => pure (nl,m)
  | 0, _, _, _, some _ => .error .fuel
  | n+1, m, clients, nl, some c => do
    let (clients,m) ← remove fuel m clients c
    let client ← m.get c
    if client.client = addr then
      let m ← m.free c
      umntallLoop fuel addr n m clients nl (← m.link c)
    else
      let (nl,m) ← add m nl c
      umntallLoop fuel addr n m clients nl (← m.link c)

/-- `mount3_umntall_proc` -/
def mount3UmntallProc (fuel : ℕ) (s : State) (addr : Option String) : Except Fault (State × Reply) :=
  match addr with
  | none => pure (s,.void)
  | some addr => do
    let (nl,m) ← umntallLoop fuel addr fuel s.mem s.clients none s.clients
    pure ({ s with mem := m, clients := nl },.void)

/-- `mount3_dump_proc` -/
def mount3DumpProc (fuel : ℕ) (s : State) : Except Fault (State × Reply) := do
  let res ← fold s.mem (fun res c => c::res) fuel [] s.clients
  pure (s,.dump res)

def step (fuel : ℕ) (s : State) (call : Call) : Except Fault (State × Reply) :=
  match call.proc with
  | .mnt path => mount3MntProc s call.addr path
  | .umnt path => mount3UmntProc fuel s call.addr path
  | .umntall => mount3UmntallProc fuel s call.addr
  | .dump => mount3DumpProc fuel s

/-- The calls one after the other -/
def run (fuel : ℕ) (s : State) : List Call → Except Fault (State × List Reply)
  | [] => pure (s,[])
  | call::calls => do
    let (s,reply) ← step fuel s call
    let (s,replies) ← run fuel s calls
    pure (s,reply::replies)

/-- What is mounted after a call: a successful MNT adds a pair, UMNT takes one away, and UMNTALL those of the caller. -/
def mounted (pairs : Multiset Client) : Call × Reply → Multiset Client
  | (⟨some addr,.mnt path⟩,.mntOk _ _) => ⟨addr,path⟩ ::ₘ pairs
  | (⟨some addr,.umnt path⟩,_) => pairs.erase ⟨addr,path⟩
  | (⟨some addr,.umntall⟩,_) => pairs.filter fun c => c.client ≠ addr
  | _ => pairs

/-- What is mounted after the calls, with their replies -/
def history (calls : List (Call × Reply)) : Multiset Client := calls.foldl mounted 0

/-- After the calls the list is what is mounted, without a fault, and DUMP lists it. -/
def Right (fuel : ℕ) (exports : List Export) (calls : List Call) : Prop :=
  ∃ s replies l, run fuel (.init exports) calls = .ok (s,replies) ∧ Holds s.mem s.clients l ∧
    (l.map Prod.snd : Multiset Client) = history (calls.zip replies) ∧
    ∀ addr, ∃ res, step fuel s ⟨addr,.dump⟩ = .ok (s,.dump res) ∧ (res : Multiset Client) = history (calls.zip replies)

/-- Where UMNTALL does what it should: nothing is mounted, or the last MNT was another client's and all the others the caller's. -/
def UmntallFine (addr : String) : List Client → Prop
  | [] => True
  | c::l => c.client ≠ addr ∧ ∀ d ∈ l, d.client = addr

section Steps

variable {s : State} {l : List (ℕ × Client)} {fuel : ℕ}

/-- A step leads without a fault to a list of what is mounted then. -/
def Leads (l : List (ℕ × Client)) (call : Call) (res : Except Fault (State × Reply)) : Prop :=
  ∃ s' reply l', res = .ok (s',reply) ∧ Holds s'.mem s'.clients l' ∧
    (l'.map Prod.snd : Multiset Client) = mounted (l.map Prod.snd : Multiset Client) (call,reply)

theorem mnt_leads (hs : Holds s.mem s.clients l) (addr : Option String) (path : String) :
    Leads l ⟨addr,.mnt path⟩ (mount3MntProc s addr path) := by
  have hp : s.mem.top ∉ l.map Prod.fst := fun hm => by
    obtain ⟨c,hc,he⟩ := List.mem_map.mp hm
    exact (hs.lt hc).ne he
  have hs₁ := hs.alloc ⟨"",""⟩
  have hval : (s.mem.alloc ⟨"",""⟩).2.val s.mem.top = some ⟨"",""⟩ := update_self ..
  have hfst : (s.mem.alloc ⟨"",""⟩).1 = s.mem.top := rfl
  unfold mount3MntProc
  generalize s.mem.alloc ⟨"",""⟩ = new at hs₁ hval hfst ⊢
  obtain ⟨client,m⟩ := new
  obtain rfl : client = s.mem.top := hfst
  dsimp only at hs₁ hval ⊢
  obtain ⟨m₁,hfree,hn₁,hval₁,-⟩ := Mem.free_of_val hval
  cases he : s.exports.find? fun e => e.path = path with
  | none =>
    refine ⟨{ s with mem := m₁ },.mntErr .noent,l,?_,hs₁.write hp hn₁ hval₁,by cases addr <;> rfl⟩
    simp [hfree,bind,Except.bind,pure,Except.pure]
  | some e =>
    cases addr with
    | none =>
      refine ⟨{ s with mem := m₁ },.mntErr .serverfault,l,?_,hs₁.write hp hn₁ hval₁,rfl⟩
      simp [hfree,bind,Except.bind,pure,Except.pure]
    | some addr =>
      have hpath : e.path = path := by simpa using List.find?_some he
      obtain ⟨m₂,hset,hn₂,hval₂,-⟩ := Mem.set_of_val hval ⟨addr,e.path⟩
      have hv : m₂.val s.mem.top = some ⟨addr,e.path⟩ := by rw [hval₂,update_self]
      obtain ⟨m₃,hadd,hs₃,-,-⟩ := add_holds (hs₁.write hp hn₂ hval₂) hv hp
      refine ⟨{ s with mem := m₃, clients := some s.mem.top },.mntOk e.fh [1],_,?_,hs₃,?_⟩
      · simp [hset,hadd,bind,Except.bind,pure,Except.pure]
      · simp [mounted,hpath]

theorem umnt_leads (hs : Holds s.mem s.clients l) (hf : l.length ≤ fuel) (addr : Option String) (path : String) :
    Leads l ⟨addr,.umnt path⟩ (mount3UmntProc fuel s addr path) := by
  cases addr with
  | none => exact ⟨s,.void,l,rfl,hs,rfl⟩
  | some addr =>
    have hfind := find_holds hs (fun c => c.client = addr && c.path = path) hf
    cases hc : l.find? fun c => c.2.client = addr && c.2.path = path with
    | none =>
      rw [hc] at hfind
      refine ⟨s,.void,l,?_,hs,?_⟩
      · simp [mount3UmntProc,hfind,bind,Except.bind,pure,Except.pure]
      · have hno : (⟨addr,path⟩ : Client) ∉ (l.map Prod.snd : Multiset Client) := by
          rw [Multiset.mem_coe]
          intro hm
          obtain ⟨c,hc',he⟩ := List.mem_map.mp hm
          have hne := List.find?_eq_none.mp hc c hc'
          simp [he] at hne
        exact (Multiset.erase_of_notMem hno).symm
    | some c =>
      obtain ⟨p,v⟩ := c
      obtain ⟨hv,pre,post,rfl,-⟩ := List.find?_eq_some_iff_append.mp hc
      have hv : v = ⟨addr,path⟩ := by
        cases v
        simpa using hv
      obtain ⟨h',m₁,hrem,hs₁,hval,-,-⟩ := remove_holds hs (show pre.length ≤ fuel by simp at hf; omega)
      have hv₁ : m₁.val p = some v := by
        rw [hval]
        exact hs.val (p,v) (by simp)
      obtain ⟨m₂,hfree,hn₂,hval₂,-⟩ := Mem.free_of_val hv₁
      have hp : p ∉ (pre++post).map Prod.fst := by
        have hnd := hs.nodup
        simp only [List.map_append,List.map_cons] at hnd ⊢
        exact (List.nodup_cons.mp (List.nodup_middle.mp hnd)).1
      rw [hc] at hfind
      refine ⟨{ s with mem := m₂, clients := h' },.void,pre++post,?_,hs₁.write hp hn₂ hval₂,?_⟩
      · simp [mount3UmntProc,hfind,hrem,hfree,bind,Except.bind,pure,Except.pure]
      · have hperm : ((pre++(p,v)::post).map Prod.snd).Perm (⟨addr,path⟩::(pre++post).map Prod.snd) := by
          rw [← hv,List.map_append,List.map_append]
          exact List.perm_middle
        simp only [mounted]
        rw [Multiset.coe_eq_coe.mpr hperm,← Multiset.cons_coe,Multiset.erase_cons_head]

theorem dump_holds (hs : Holds s.mem s.clients l) (hf : l.length ≤ fuel) (addr : Option String) :
    step fuel s ⟨addr,.dump⟩ = .ok (s,.dump (l.map Prod.snd).reverse) := by
  have hfold := fold_holds hs (fun res c => c::res) [] hf
  rw [List.foldl_flip_cons_eq_append' ] at hfold
  simp [step,mount3DumpProc,hfold,bind,Except.bind,pure,Except.pure]

/-- UMNTALL keeps the first client of the list if it is not the caller, and only that one. -/
theorem umntall_other {p : ℕ} {v : Client} {addr : String} (hs : Holds s.mem s.clients ((p,v)::l)) (hf : 0 < fuel)
    (hv : v.client ≠ addr) :
    ∃ s', mount3UmntallProc fuel s (some addr) = .ok (s',.void) ∧ Holds s'.mem s'.clients [(p,v)] := by
  obtain ⟨n,rfl⟩ : ∃ n, fuel = n+1 := ⟨fuel-1,by omega⟩
  obtain ⟨h',m₁,hrem,-,hval,-,-⟩ := remove_holds (l := []) hs (show 0 ≤ n+1 by omega)
  have hv₁ : m₁.val p = some v := by
    rw [hval]
    exact hs.val (p,v) (by simp)
  obtain ⟨m₂,hadd,hs₂,hval₂,-⟩ := add_holds (Holds.nil m₁) hv₁ (by simp)
  have hlink : m₂.link p = .ok none := by
    obtain ⟨-,hv₂,hr⟩ := Holds.cons_iff.mp hs₂
    rw [Mem.link_of_val hv₂,hr.head]
    rfl
  refine ⟨{ s with mem := m₂, clients := some p },?_,hs₂⟩
  rw [(Holds.cons_iff.mp hs).1] at hrem
  have hloop : umntallLoop (n+1) addr (n+1) s.mem (some p) none (some p) = .ok (some p,m₂) := by
    rw [umntallLoop]
    simp only [hrem,bind,Except.bind,Mem.get_of_val hv₁,if_neg hv,hadd,hlink]
    cases n <;> rfl
  simp [mount3UmntallProc,(Holds.cons_iff.mp hs).1,hloop,bind,Except.bind,pure,Except.pure]

/-- The link of a client that was freed is read. -/
theorem umntall_own {p : ℕ} {v : Client} {addr : String} (hs : Holds s.mem s.clients ((p,v)::l)) (hf : 0 < fuel)
    (hv : v.client = addr) : mount3UmntallProc fuel s (some addr) = .error .freed := by
  obtain ⟨n,rfl⟩ : ∃ n, fuel = n+1 := ⟨fuel-1,by omega⟩
  obtain ⟨h',m₁,hrem,-,hval,-,-⟩ := remove_holds (l := []) hs (show 0 ≤ n+1 by omega)
  have hv₁ : m₁.val p = some v := by
    rw [hval]
    exact hs.val (p,v) (by simp)
  obtain ⟨m₂,hfree,-,hval₂,-⟩ := Mem.free_of_val hv₁
  have hlink : m₂.link p = .error .freed := by simp [Mem.link,hval₂]
  rw [(Holds.cons_iff.mp hs).1] at hrem
  have hloop : umntallLoop (n+1) addr (n+1) s.mem (some p) none (some p) = .error .freed := by
    rw [umntallLoop]
    simp only [hrem,bind,Except.bind,Mem.get_of_val hv₁,if_pos hv,hfree,hlink]
  simp [mount3UmntallProc,(Holds.cons_iff.mp hs).1,hloop,bind,Except.bind]

/-- UMNTALL does what it should exactly where that is so. -/
theorem umntall_leads (hs : Holds s.mem s.clients l) (hf : l.length ≤ fuel) (addr : String) :
    Leads l ⟨some addr,.umntall⟩ (mount3UmntallProc fuel s (some addr)) ↔ UmntallFine addr (l.map Prod.snd) := by
  cases l with
  | nil =>
    have hnone : s.clients = none := hs.seg
    refine iff_of_true ⟨{ s with clients := none },.void,[],?_,Holds.nil _,by simp [mounted]⟩ trivial
    cases fuel <;> simp [mount3UmntallProc,hnone,umntallLoop,bind,Except.bind,pure,Except.pure]
  | cons c l =>
    obtain ⟨p,v⟩ := c
    have hf : 0 < fuel := by
      simp only [List.length_cons] at hf
      omega
    by_cases hv : v.client = addr
    · refine iff_of_false ?_ fun h => h.1 hv
      rintro ⟨s',reply,l',h,-⟩
      rw [umntall_own hs hf hv] at h
      cases h
    · obtain ⟨s',h,hs'⟩ := umntall_other hs hf hv
      have hkept : mounted (((p,v)::l).map Prod.snd : Multiset Client) (⟨some addr,.umntall⟩,.void) =
          v ::ₘ ((l.map Prod.snd).filter fun c => c.client ≠ addr : List Client) := by
        simp [mounted,hv]
      have hrest : UmntallFine addr (((p,v)::l).map Prod.snd) ↔
          (l.map Prod.snd).filter (fun c => c.client ≠ addr) = [] := by
        rw [List.filter_eq_nil_iff]
        simp [UmntallFine,hv]
      rw [hrest]
      constructor
      · rintro ⟨s₁,reply,l₁,h₁,hs₁,hmounted⟩
        rw [h] at h₁
        obtain ⟨rfl,rfl⟩ := Prod.mk.inj (Except.ok.inj h₁)
        have hcard := congrArg Multiset.card hmounted
        rw [hs₁.unique hs',hkept,Multiset.card_cons,Multiset.coe_card,Multiset.coe_card] at hcard
        simp only [List.map_cons,List.map_nil,List.length_singleton] at hcard
        exact List.eq_nil_of_length_eq_zero (by omega)
      · intro hnil
        refine ⟨s',.void,[(p,v)],h,hs',?_⟩
        rw [hkept,hnil]
        rfl

/-- A call of UMNTALL that is not fine -/
def Call.Fine (call : Call) (pairs : List Client) : Prop :=
  ∀ addr, call = ⟨some addr,.umntall⟩ → UmntallFine addr pairs

theorem step_leads (hs : Holds s.mem s.clients l) (hf : l.length ≤ fuel) (call : Call) :
    Leads l call (step fuel s call) ↔ call.Fine (l.map Prod.snd) := by
  obtain ⟨addr,proc⟩ := call
  cases proc with
  | mnt path => exact iff_of_true (mnt_leads hs addr path) (by rintro a ⟨⟩)
  | umnt path => exact iff_of_true (umnt_leads hs hf addr path) (by rintro a ⟨⟩)
  | dump =>
    refine iff_of_true ⟨s,_,l,dump_holds hs hf addr,hs,?_⟩ (by rintro a ⟨⟩)
    cases addr <;> rfl
  | umntall =>
    cases addr with
    | none => exact iff_of_true ⟨s,.void,l,rfl,hs,rfl⟩ (by rintro a ⟨⟩)
    | some addr =>
      refine (umntall_leads hs hf addr).trans ⟨?_,fun h => h addr rfl⟩
      rintro h a ⟨⟩
      exact h

end Steps

theorem run_cons {fuel : ℕ} {s s' : State} {call : Call} {calls : List Call} {replies : List Reply}
    (h : run fuel s (call::calls) = .ok (s',replies)) :
    ∃ s₁ reply rest, step fuel s call = .ok (s₁,reply) ∧ run fuel s₁ calls = .ok (s',rest) ∧ replies = reply::rest := by
  cases hf : step fuel s call with
  | error e => simp [run,hf,bind,Except.bind] at h
  | ok res =>
    cases hr : run fuel res.1 calls with
    | error e => simp [run,hf,hr,bind,Except.bind] at h
    | ok res' =>
      obtain ⟨rfl,rfl⟩ : res'.1 = s' ∧ res.2::res'.2 = replies := by
        simpa [run,hf,hr,bind,Except.bind,pure,Except.pure] using h
      exact ⟨res.1,res.2,res'.2,rfl,hr,rfl⟩

theorem run_snoc {fuel : ℕ} {s s' : State} {calls : List Call} {replies : List Reply}
    (h : run fuel s calls = .ok (s',replies)) (call : Call) :
    run fuel s (calls++[call]) = (step fuel s' call).map fun res => (res.1,replies++[res.2]) := by
  induction calls generalizing s replies with
  | nil =>
    obtain ⟨rfl,rfl⟩ := Prod.mk.inj (Except.ok.inj h)
    cases hc : step fuel s call <;> simp [run,hc,bind,Except.bind,pure,Except.pure,Except.map]
  | cons first calls ih =>
    obtain ⟨s₁,reply,rest,hf,hr,rfl⟩ := run_cons h
    have hrec := ih hr
    cases hc : step fuel s' call <;> simp [run,hf,hrec,hc,bind,Except.bind,pure,Except.pure,Except.map]

theorem run_length {fuel : ℕ} {s s' : State} {calls : List Call} {replies : List Reply}
    (h : run fuel s calls = .ok (s',replies)) : replies.length = calls.length := by
  induction calls generalizing s replies with
  | nil =>
    obtain ⟨-,rfl⟩ := Prod.mk.inj (Except.ok.inj h)
    rfl
  | cons first calls ih =>
    obtain ⟨s₁,reply,rest,-,hr,rfl⟩ := run_cons h
    simp [ih hr]

theorem history_snoc {calls : List Call} {replies : List Reply} (h : replies.length = calls.length) (call : Call)
    (reply : Reply) :
    history ((calls++[call]).zip (replies++[reply])) = mounted (history (calls.zip replies)) (call,reply) := by
  rw [List.zip_append h.symm]
  simp [history]

theorem card_mounted_le (pairs : Multiset Client) (call : Call × Reply) :
    (mounted pairs call).card ≤ pairs.card + 1 := by
  unfold mounted
  split
  · simp
  · exact (Multiset.card_le_card (Multiset.erase_le ..)).trans (Nat.le_succ _)
  · exact (Multiset.card_le_card (Multiset.filter_le ..)).trans (Nat.le_succ _)
  · exact Nat.le_succ _

theorem card_history_le (calls : List (Call × Reply)) : (history calls).card ≤ calls.length := by
  induction calls using List.reverseRecOn with
  | nil => simp [history]
  | append_singleton calls call ih =>
    have hm := card_mounted_le (history calls) call
    have hsnoc : history (calls++[call]) = mounted (history calls) call := by simp [history]
    rw [hsnoc,List.length_append,List.length_singleton]
    omega

/-- The list of a run is no longer than the run. -/
theorem length_le {l : List (ℕ × Client)} {calls : List Call} {replies : List Reply}
    (h : (l.map Prod.snd : Multiset Client) = history (calls.zip replies)) : l.length ≤ calls.length := by
  have hcard := card_history_le (calls.zip replies)
  rw [← h,Multiset.coe_card,List.length_map,List.length_zip] at hcard
  omega

/-- One client unmounts all it has; a client that has nothing unmounts all. -/
def ownUmntall : List Call := [⟨some "a",.mnt "/e"⟩,⟨some "a",.umntall⟩]

def foreignUmntall : List Call := [⟨some "a",.mnt "/e"⟩,⟨some "b",.mnt "/e"⟩,⟨some "c",.umntall⟩]

/-- The caller's mount is behind the one of another client. -/
def fineUmntall : List Call := [⟨some "a",.mnt "/e"⟩,⟨some "b",.mnt "/e"⟩,⟨some "a",.umntall⟩]

end Mountd
end Libnfs
