import Libnfs.SList

/-! The directory cache: `nfs_dircache_add`, `nfs_dircache_find` and `nfs_dircache_drop` of `lib/libnfs.c`, `nfs_closedir`, and
`nfs3_opendir_continue_internal` of `lib/nfs_v3.c`. -/
namespace Libnfs
namespace DirCache

open Function SList

variable {ε : Type}

/-- `MAX_DIR_CACHE` -/
def maxDirCache : ℕ := 128

/-- `struct nfsdir` but for its link, with the seconds and nanoseconds of `attr.mtime` -/
structure Nfsdir (ε : Type) where
  fh : List UInt8
  mtime : ℕ × ℕ
  entries : Option ε
  current : Option ε

/-- The loop of `nfs_dircache_add` from the index `i` on -/
def addLoop (fuel : ℕ) (head : Option ℕ) : ℕ → Mem (Nfsdir ε) → ℕ → Option ℕ → Except Fault (Option ℕ × Mem (Nfsdir ε))
  | _, m, _, none => pure (head,m)
  | 0, _, _, some _ => .error .fuel
  | n+1, m, i, some nfsdir =>
    if i > maxDirCache then do
      let (head,m) ← remove fuel m head nfsdir
      let m ← m.free nfsdir
      pure (head,m)
    else do addLoop fuel head n m (i+1) (← m.link nfsdir)

/-- `nfs_dircache_add` -/
def nfsDircacheAdd (fuel : ℕ) (m : Mem (Nfsdir ε)) (head : Option ℕ) (nfsdir : ℕ) :
    Except Fault (Option ℕ × Mem (Nfsdir ε)) := do
  let (head,m) ← add m head nfsdir
  addLoop fuel head fuel m 0 head

/-- `nfs_dircache_find` -/
def nfsDircacheFind (fuel : ℕ) (m : Mem (Nfsdir ε)) (head : Option ℕ) (fh : List UInt8) :
    Except Fault (Option ℕ × Option ℕ × Mem (Nfsdir ε)) := do
  match ← find m (fun nfsdir => nfsdir.fh = fh) fuel head with
  | none => pure (none,head,m)
  | some nfsdir =>
    let (head,m) ← remove fuel m head nfsdir
    pure (some nfsdir,head,m)

/-- `nfs_dircache_drop` -/
def nfsDircacheDrop (fuel : ℕ) (m : Mem (Nfsdir ε)) (head : Option ℕ) (fh : List UInt8) :
    Except Fault (Option ℕ × Mem (Nfsdir ε)) := do
  let (cached,head,m) ← nfsDircacheFind fuel m head fh
  match cached with
  | none => pure (head,m)
  | some nfsdir =>
    let m ← m.free nfsdir
    pure (head,m)

/-- A context, with the directories whose listing is read and the ones that the application was given and did not close -/
structure Context (ε : Type) where
  mem : Mem (Nfsdir ε)
  dircache : Option ℕ
  dircacheEnabled : Bool
  reading : List ℕ
  app : List ℕ

/-- `nfs_init_context` -/
def Context.init (ε : Type) : Context ε := ⟨Mem.empty _,none,true,[],[]⟩

/-- The end of `nfs3_opendir_continue_internal`: memory for the file handle and a READDIRPLUS, or `-ENOMEM` -/
def readdirplus (s : Context ε) (nfsdir : ℕ) (fh : List UInt8) (sent : Bool) : Except Fault (Context ε) :=
  if sent then do
    let m ← s.mem.set nfsdir ⟨fh,(0,0),none,none⟩
    pure { s with mem := m, reading := nfsdir::s.reading }
  else do
    let m ← s.mem.free nfsdir
    pure { s with mem := m }

/-- `nfs3_opendir_continue_internal` for the `nfsdir` that `nfs3_opendir_async` has allocated, and the directory that the
callback is given -/
def nfs3OpendirContinueInternal (fuel : ℕ) (s : Context ε) (fh : List UInt8) (attr : Option (ℕ × ℕ)) (sent : Bool) :
    Except Fault (Context ε × Option ℕ) := do
  let (nfsdir,m) := s.mem.alloc ⟨[],(0,0),none,none⟩
  let (cached,head,m) ← nfsDircacheFind fuel m s.dircache fh
  match cached with
  | some cached =>
    let dir ← m.get cached
    if attr = some dir.mtime then
      let m ← m.set cached { dir with current := dir.entries }
      let m ← m.free nfsdir
      pure ({ s with mem := m, dircache := head, app := cached::s.app },some cached)
    else
      let m ← m.free cached
      let s ← readdirplus { s with mem := m, dircache := head } nfsdir fh sent
      pure (s,none)
  | none =>
    let s ← readdirplus { s with mem := m, dircache := head } nfsdir fh sent
    pure (s,none)

/-- `nfs_closedir`; `nfs` is whether there is a context. -/
def nfsClosedir (fuel : ℕ) (s : Context ε) (nfs : Bool) (nfsdir : ℕ) : Except Fault (Context ε) := do
  let s := { s with app := s.app.erase nfsdir }
  if nfs && s.dircacheEnabled then
    let (head,m) ← nfsDircacheAdd fuel s.mem s.dircache nfsdir
    pure { s with mem := m, dircache := head }
  else
    let m ← s.mem.free nfsdir
    pure { s with mem := m }

/-- The end of a listing: the attributes of the directory and its entries, or an error -/
def listed (s : Context ε) (nfsdir : ℕ) (res : Option (Option (ℕ × ℕ) × Option ε)) : Except Fault (Context ε × Option ℕ) := do
  let s := { s with reading := s.reading.erase nfsdir }
  match res with
  | some (attr,entries) =>
    let dir ← s.mem.get nfsdir
    let m ← s.mem.set nfsdir { dir with mtime := attr.getD dir.mtime, entries := entries, current := entries }
    pure ({ s with mem := m, app := nfsdir::s.app },some nfsdir)
  | none =>
    let m ← s.mem.free nfsdir
    pure ({ s with mem := m },none)

/-- A lookup has found the file handle of a directory to open; a listing is complete; the application closes a directory;
a directory was modified; `nfs_set_dircache`. -/
inductive Event (ε : Type)
  | opendir (fh : List UInt8) (attr : Option (ℕ × ℕ)) (sent : Bool)
  | listed (nfsdir : ℕ) (res : Option (Option (ℕ × ℕ) × Option ε))
  | closedir (nfs : Bool) (nfsdir : ℕ)
  | drop (fh : List UInt8)
  | setDircache (enabled : Bool)

/-- An event, and the directory that the application is given. Only a directory that is read is listed, and the application
closes only what it was given. -/
def step (fuel : ℕ) (s : Context ε) : Event ε → Except Fault (Context ε × Option ℕ)
  | .opendir fh attr sent => nfs3OpendirContinueInternal fuel s fh attr sent
  | .listed nfsdir res => if nfsdir ∈ s.reading then listed s nfsdir res else pure (s,none)
  | .closedir nfs nfsdir =>
    if nfsdir ∈ s.app then do
      let s ← nfsClosedir fuel s nfs nfsdir
      pure (s,none)
    else pure (s,none)
  | .drop fh => do
    let (head,m) ← nfsDircacheDrop fuel s.mem s.dircache fh
    pure ({ s with mem := m, dircache := head },none)
  | .setDircache enabled => pure ({ s with dircacheEnabled := enabled },none)

/-- The events one after the other, and what the application is given -/
def run (fuel : ℕ) (s : Context ε) : List (Event ε) → Except Fault (Context ε × List ℕ)
  | [] => pure (s,[])
  | e::es => do
    let (s,dir) ← step fuel s e
    let (s,dirs) ← run fuel s es
    pure (s,dir.toList ++ dirs)

section Cache

variable {m : Mem (Nfsdir ε)} {h : Option ℕ} {l : List (ℕ × Nfsdir ε)} {fuel : ℕ}

/-- The loop frees the last one of a list that is too long. -/
theorem addLoop_holds (pre r : List (ℕ × Nfsdir ε)) {n : ℕ} (hs : Holds m h (pre++r)) (hpre : pre.length ≤ maxDirCache + 1)
    (hlen : (pre++r).length ≤ maxDirCache + 2) (hn : r.length ≤ n) (hf : (pre++r).length ≤ fuel) :
    ∃ h' m', addLoop fuel h n m pre.length (r.map Prod.fst).head? = .ok (h',m') ∧
      Holds m' h' ((pre++r).take (maxDirCache + 1)) ∧ m.Le m' ∧ ∀ q, q ∉ (pre++r).map Prod.fst → m'.val q = m.val q := by
  induction r generalizing pre n with
  | nil =>
    refine ⟨h,m,?_,?_,.refl m,fun _ _ => rfl⟩
    · cases n <;> rfl
    · rw [List.take_of_length_le (by simpa using hpre)]
      exact hs
  | cons c r ih =>
    obtain ⟨p,v⟩ := c
    obtain ⟨n,rfl⟩ : ∃ k, n = k+1 := ⟨n-1,by simp at hn; omega⟩
    have hlen' : pre.length + (r.length + 1) ≤ maxDirCache + 2 := by simpa using hlen
    by_cases hi : pre.length > maxDirCache
    · have hr : r = [] := List.eq_nil_of_length_eq_zero (by omega)
      subst hr
      obtain ⟨h',m₁,hrem,hs₁,hval,htop,-⟩ := remove_holds hs (show pre.length ≤ fuel by simp at hf; omega)
      have hv₁ : m₁.val p = some v := by
        rw [hval]
        exact hs.val (p,v) (by simp)
      obtain ⟨m₂,hfree,hnext₂,hval₂,htop₂⟩ := Mem.free_of_val hv₁
      have hnd := hs.nodup
      simp only [List.map_append,List.map_cons,List.map_nil,List.nodup_append,List.mem_singleton] at hnd
      have hp : p ∉ (pre++[]).map Prod.fst := fun hm => hnd.2.2 p (by simpa using hm) p rfl rfl
      refine ⟨h',m₂,?_,?_,(Mem.Le.of_eq hval htop).trans (.write hv₁ hval₂ htop₂),fun q hq => ?_⟩
      · simp [addLoop,hi,hrem,hfree,bind,Except.bind,pure,Except.pure]
      · rw [show (pre++[(p,v)]).take (maxDirCache + 1) = pre++[] from by
          rw [List.append_nil]
          exact List.take_left' (by omega)]
        exact hs₁.write hp hnext₂ hval₂
      · have hqp : q ≠ p := fun he => hq (by simp [he])
        rw [hval₂,update_of_ne hqp,hval]
    · have hlink : m.link p = .ok (r.map Prod.fst).head? := by
        obtain ⟨-,hv,hr⟩ := Holds.cons_iff.mp hs.drop
        rw [Mem.link_of_val hv,hr.head]
      have hrec := ih (pre++[(p,v)]) (n := n) (by simpa using hs) (by simp; omega) (by simpa using hlen)
        (by simpa using hn) (by simpa using hf)
      simp only [List.append_assoc,List.singleton_append,List.length_append,List.length_singleton] at hrec
      obtain ⟨h',m',hloop,hrest⟩ := hrec
      refine ⟨h',m',?_,hrest⟩
      show addLoop fuel h (n+1) m pre.length (some p) = _
      rw [addLoop,if_neg hi,hlink]
      exact hloop

/-- `nfs_dircache_add` -/
theorem nfsDircacheAdd_holds (hs : Holds m h l) (hlen : l.length ≤ maxDirCache + 1) (hf : maxDirCache + 2 ≤ fuel) {p : ℕ}
    {v : Nfsdir ε} (hv : m.val p = some v) (hp : p ∉ l.map Prod.fst) :
    ∃ h' m', nfsDircacheAdd fuel m h p = .ok (h',m') ∧ Holds m' h' (((p,v)::l).take (maxDirCache + 1)) ∧ m.Le m' ∧
      ∀ q, q ∉ ((p,v)::l).map Prod.fst → m'.val q = m.val q := by
  obtain ⟨m₁,hadd,hs₁,hval,htop⟩ := add_holds hs hv hp
  obtain ⟨h',m',hloop,hs',hle,hframe⟩ := addLoop_holds [] ((p,v)::l) (n := fuel) hs₁ (by simp) (by simp; omega) (by simp; omega)
    (show ([]++(p,v)::l).length ≤ fuel by simp; omega)
  refine ⟨h',m',?_,hs',(Mem.Le.of_eq hval htop).trans hle,fun q hq => ?_⟩
  · simp only [nfsDircacheAdd,hadd,bind,Except.bind]
    exact hloop
  · rw [hframe q hq,hval]

/-- `nfs_dircache_find` finds none, or unlinks the first one. -/
theorem nfsDircacheFind_cases (hs : Holds m h l) (hf : l.length ≤ fuel) (fh : List UInt8) :
    (nfsDircacheFind fuel m h fh = .ok (none,h,m) ∧ ∀ c ∈ l, c.2.fh ≠ fh) ∨
    ∃ pre p v post h' m', l = pre++(p,v)::post ∧ (∀ c ∈ pre, c.2.fh ≠ fh) ∧ v.fh = fh ∧
      (l.find? fun c => c.2.fh = fh) = some (p,v) ∧ nfsDircacheFind fuel m h fh = .ok (some p,h',m') ∧ Holds m' h' (pre++post) ∧ m'.val = m.val ∧ m'.top = m.top := by
  have hfind := find_holds hs (fun nfsdir => decide (nfsdir.fh = fh)) hf
  cases hc : l.find? fun c => decide (c.2.fh = fh) with
  | none =>
    rw [hc] at hfind
    refine .inl ⟨?_,fun c hm => ?_⟩
    · simp [nfsDircacheFind,hfind,bind,Except.bind,pure,Except.pure]
    · simpa using List.find?_eq_none.mp hc c hm
  | some c =>
    obtain ⟨p,v⟩ := c
    obtain ⟨hv,pre,post,rfl,hpre⟩ := List.find?_eq_some_iff_append.mp hc
    obtain ⟨h',m',hrem,hs',hval,htop,-⟩ := remove_holds hs (show pre.length ≤ fuel by simp at hf; omega)
    rw [hc] at hfind
    refine .inr ⟨pre,p,v,post,h',m',rfl,fun c hm => by simpa using hpre c hm,by simpa using hv,rfl,?_,hs',hval,htop⟩
    simp [nfsDircacheFind,hfind,hrem,bind,Except.bind,pure,Except.pure]

/-- `nfs_dircache_drop` frees the first one. -/
theorem nfsDircacheDrop_holds (hs : Holds m h l) (hf : l.length ≤ fuel) (fh : List UInt8) :
    ∃ h' m', nfsDircacheDrop fuel m h fh = .ok (h',m') ∧ Holds m' h' (l.eraseP fun c => c.2.fh = fh) ∧ m.Le m' ∧
      (∀ q, q ∉ l.map Prod.fst → m'.val q = m.val q) ∧ ∀ c ∈ l.find? fun c => c.2.fh = fh, m'.val c.1 = none := by
  obtain ⟨hfind,hl⟩ | ⟨pre,p,v,post,h',m₁,rfl,hpre,hv,hc,hfind,hs₁,hval,htop⟩ := nfsDircacheFind_cases hs hf fh
  · refine ⟨h,m,?_,?_,.refl m,fun _ _ => rfl,fun c hc => ?_⟩
    · simp [nfsDircacheDrop,hfind,bind,Except.bind,pure,Except.pure]
    · rw [List.eraseP_of_forall_not (by simpa using hl)]
      exact hs
    · rw [List.find?_eq_none.mpr (by simpa using hl)] at hc
      cases hc
  · have hv₁ : m₁.val p = some v := by
      rw [hval]
      exact hs.val (p,v) (by simp)
    obtain ⟨m₂,hfree,hnext₂,hval₂,htop₂⟩ := Mem.free_of_val hv₁
    have hp : p ∉ (pre++post).map Prod.fst := by
      have hnd := hs.nodup
      simp only [List.map_append,List.map_cons] at hnd ⊢
      exact (List.nodup_cons.mp (List.nodup_middle.mp hnd)).1
    refine ⟨h',m₂,?_,?_,(Mem.Le.of_eq hval htop).trans (.write hv₁ hval₂ htop₂),fun q hq => ?_,fun c hm => ?_⟩
    · simp [nfsDircacheDrop,hfind,hfree,bind,Except.bind,pure,Except.pure]
    · rw [List.eraseP_append_right _ (by simpa using hpre),List.eraseP_cons_of_pos (by simpa using hv)]
      exact hs₁.write hp hnext₂ hval₂
    · have hqp : q ≠ p := fun he => hq (by simp [he])
      rw [hval₂,update_of_ne hqp,hval]
    · rw [hc] at hm
      have hcp : c = (p,v) := (Option.some.inj hm).symm
      rw [hcp,hval₂]
      exact update_self ..

end Cache

/-- The cells of the cache, of the application and of the listings that are read are allocated and differ from one another. -/
structure Owns (m : Mem (Nfsdir ε)) (h : Option ℕ) (l : List (ℕ × Nfsdir ε)) (app reading : List ℕ) : Prop where
  holds : Holds m h l
  nodup : (l.map Prod.fst ++ (app ++ reading)).Nodup
  live : ∀ p ∈ app ++ reading, m.val p ≠ none

namespace Owns

variable {m m' : Mem (Nfsdir ε)} {h h' : Option ℕ} {l l' pre post : List (ℕ × Nfsdir ε)} {a a' r r' : List ℕ} {p : ℕ}
  {v : Nfsdir ε}

theorem lt (o : Owns m h l a r) {q : ℕ} (hq : q ∈ l.map Prod.fst ++ (a++r)) : q < m.top := by
  rcases List.mem_append.mp hq with hq | hq
  · obtain ⟨c,hc,rfl⟩ := List.mem_map.mp hq
    exact o.holds.lt hc
  · obtain ⟨v,hv⟩ := Option.ne_none_iff_exists'.mp (o.live q hq)
    exact Mem.val_lt hv

theorem perm (o : Owns m h l a r) (hp : (a'++r').Perm (a++r)) : Owns m h l a' r' :=
  ⟨o.holds,(hp.append_left _).nodup_iff.mpr o.nodup,fun q hq => o.live q (hp.mem_iff.mp hq)⟩

theorem not_mem (o : Owns m h l (p::a) r) : p ∉ l.map Prod.fst ++ (a++r) :=
  (List.nodup_cons.mp (List.nodup_middle.mp o.nodup)).1

theorem alloc (o : Owns m h l a r) (v : Nfsdir ε) : Owns (m.alloc v).2 h l a r := by
  refine ⟨o.holds.alloc v,o.nodup,fun q hq => ?_⟩
  show update m.val m.top (some v) q ≠ none
  rw [update_of_ne (o.lt (List.mem_append_right _ hq)).ne]
  exact o.live q hq

/-- Another cell is written or freed. -/
theorem write (o : Owns m h l a r) (hp : p ∉ l.map Prod.fst ++ (a++r)) {w : Option (Nfsdir ε)} (hn : m'.next = m.next)
    (hv : m'.val = update m.val p w) : Owns m' h l a r := by
  rw [List.mem_append,not_or] at hp
  refine ⟨o.holds.write hp.1 hn hv,o.nodup,fun q hq => ?_⟩
  have hqp : q ≠ p := fun he => hp.2 (he ▸ hq)
  rw [hv,update_of_ne hqp]
  exact o.live q hq

/-- A cell that is not of the cache is given back. -/
theorem release (o : Owns m h l (p::a) r) (hn : m'.next = m.next) (hv : m'.val = update m.val p none) :
    Owns m' h l a r := by
  have hnd := (List.nodup_cons.mp (List.nodup_middle.mp o.nodup)).2
  have o' : Owns m h l a r := ⟨o.holds,hnd,fun q hq => o.live q (List.mem_cons_of_mem p hq)⟩
  exact o'.write o.not_mem hn hv

/-- A cell that is not of the cache is written. -/
theorem set (o : Owns m h l (p::a) r) (hn : m'.next = m.next) (hv : m'.val = update m.val p (some v)) :
    Owns m' h l (p::a) r := by
  have hp := o.not_mem
  rw [List.mem_append,not_or] at hp
  refine ⟨o.holds.write hp.1 hn hv,o.nodup,fun q hq => ?_⟩
  by_cases hqp : q = p
  · simp [hv,hqp]
  · rw [hv,update_of_ne hqp]
    exact o.live q hq

/-- A new cell -/
theorem adopt (o : Owns m h l a r) (hp : p ∉ l.map Prod.fst ++ (a++r)) (hv : m.val p = some v) : Owns m h l (p::a) r := by
  refine ⟨o.holds,List.nodup_middle.mpr (List.nodup_cons.mpr ⟨hp,o.nodup⟩),fun q hq => ?_⟩
  rcases List.mem_cons.mp hq with rfl | hq
  · simp [hv]
  · exact o.live q hq

/-- A cell is unlinked from the cache. -/
theorem unlink (o : Owns m h (pre++(p,v)::post) a r) (hs : Holds m' h' (pre++post)) (hv : m'.val = m.val) :
    Owns m' h' (pre++post) (p::a) r := by
  refine ⟨hs,?_,fun q hq => ?_⟩
  · refine (List.Perm.nodup_iff ?_).mpr o.nodup
    simp only [List.map_append,List.map_cons,List.append_assoc,List.cons_append]
    exact ((List.perm_middle).append_left _)
  · rw [hv]
    rcases List.mem_cons.mp hq with rfl | hq
    · rw [o.holds.val (q,v) (by simp)]
      simp
    · exact o.live q hq

/-- The cache gets shorter. -/
theorem shrink (o : Owns m h l a r) (hs : Holds m' h' l') (hl : l'.Sublist l) (hv : ∀ q ∈ a++r, m'.val q = m.val q) :
    Owns m' h' l' a r := by
  refine ⟨hs,((hl.map Prod.fst).append_right _).nodup o.nodup,fun q hq => ?_⟩
  rw [hv q hq]
  exact o.live q hq

/-- A cell goes into the cache. -/
theorem cache (o : Owns m h l (p::a) r) (hs : Holds m' h' l') (hl : l'.Sublist ((p,v)::l))
    (hv : ∀ q ∈ a++r, m'.val q = m.val q) : Owns m' h' l' a r := by
  refine ⟨hs,((hl.map Prod.fst).append_right _).nodup ?_,fun q hq => ?_⟩
  · exact (List.perm_middle.nodup_iff.mp o.nodup)
  · rw [hv q hq]
    exact o.live q (List.mem_cons_of_mem p hq)

end Owns

section Runs

variable {s : Context ε} {l : List (ℕ × Nfsdir ε)} {fuel : ℕ}

/-- What holds of a context in every run -/
structure Inv (s : Context ε) (l : List (ℕ × Nfsdir ε)) : Prop where
  owns : Owns s.mem s.dircache l s.app s.reading
  short : l.length ≤ maxDirCache + 1

theorem inv_init : Inv (Context.init ε) [] :=
  ⟨⟨Holds.nil _,by simp [Context.init],by simp [Context.init]⟩,by simp⟩

/-- After an event the context is one of those, nothing that was freed is back, and what the application is given is its own. -/
def Stays (s : Context ε) (res : Except Fault (Context ε × Option ℕ)) : Prop :=
  ∃ s' l' dir, res = .ok (s',dir) ∧ Inv s' l' ∧ s.mem.Le s'.mem ∧ ∀ p ∈ dir, p ∈ s'.app

theorem readdirplus_inv {m : Mem (Nfsdir ε)} {h : Option ℕ} {p : ℕ} {v : Nfsdir ε} (o : Owns m h l s.app s.reading)
    (hl : l.length ≤ maxDirCache + 1) (hp : p ∉ l.map Prod.fst ++ (s.app ++ s.reading)) (hv : m.val p = some v)
    (fh : List UInt8) (sent : Bool) :
    ∃ s' l', readdirplus { s with mem := m, dircache := h } p fh sent = .ok s' ∧ Inv s' l' ∧ m.Le s'.mem := by
  cases sent with
  | true =>
    obtain ⟨m',hset,hn,hv',ht⟩ := Mem.set_of_val hv ⟨fh,(0,0),none,none⟩
    refine ⟨{ s with mem := m', dircache := h, reading := p::s.reading },l,?_,⟨?_,hl⟩,.write hv hv' ht⟩
    · simp [readdirplus,hset,bind,Except.bind,pure,Except.pure]
    · exact ((o.adopt hp hv).set hn hv').perm List.perm_middle
  | false =>
    obtain ⟨m',hfree,hn,hv',ht⟩ := Mem.free_of_val hv
    refine ⟨{ s with mem := m', dircache := h },l,?_,⟨o.write hp hn hv',hl⟩,.write hv hv' ht⟩
    simp [readdirplus,hfree,bind,Except.bind,pure,Except.pure]

/-- The first directory of the cache is given to the application if it was not modified. -/
theorem opendir_inv (hi : Inv s l) (hf : maxDirCache + 2 ≤ fuel) (fh : List UInt8) (attr : Option (ℕ × ℕ)) (sent : Bool) :
    ∃ s' l' dir, nfs3OpendirContinueInternal fuel s fh attr sent = .ok (s',dir) ∧ Inv s' l' ∧ s.mem.Le s'.mem ∧
      (∀ p ∈ dir, p ∈ s'.app) ∧ ∀ c ∈ l.find? fun c => c.2.fh = fh, attr = some c.2.mtime → dir = some c.1 := by
  have hshort := hi.short
  have hnew : s.mem.top ∉ l.map Prod.fst ++ (s.app ++ s.reading) := fun hq => (hi.owns.lt hq).ne rfl
  have hval : (s.mem.alloc ⟨[],(0,0),none,none⟩).2.val s.mem.top = some (⟨[],(0,0),none,none⟩ : Nfsdir ε) := update_self ..
  have o := hi.owns.alloc ⟨[],(0,0),none,none⟩
  have hle := Mem.Le.alloc s.mem (⟨[],(0,0),none,none⟩ : Nfsdir ε)
  have hfst : (s.mem.alloc (⟨[],(0,0),none,none⟩ : Nfsdir ε)).1 = s.mem.top := rfl
  unfold nfs3OpendirContinueInternal
  generalize s.mem.alloc (⟨[],(0,0),none,none⟩ : Nfsdir ε) = new at o hle hval hfst ⊢
  obtain ⟨n,m⟩ := new
  obtain rfl : n = s.mem.top := hfst
  dsimp only at o hle hval ⊢
  obtain ⟨hfind,hl⟩ | ⟨pre,p,v,post,h',m₁,rfl,-,-,hc,hfind,hs₁,hval₁,htop₁⟩ :=
      nfsDircacheFind_cases o.holds (show l.length ≤ fuel by omega) fh
  · obtain ⟨s',l',hr,hi',hle'⟩ := readdirplus_inv o hi.short hnew hval fh sent
    refine ⟨s',l',none,?_,hi',hle.trans hle',by simp,fun c hc _ => ?_⟩
    · simp [hfind,bind,Except.bind,pure,Except.pure,hr]
    · rw [List.find?_eq_none.mpr (by simpa using hl)] at hc
      cases hc
  · have hv₁ : m₁.val p = some v := by
      rw [hval₁]
      exact o.holds.val (p,v) (by simp)
    have hlive : m₁.val s.mem.top = some ⟨[],(0,0),none,none⟩ := by rw [hval₁,hval]
    have hpn : s.mem.top ≠ p := fun he => hnew (by simp [he])
    have hle₁ := hle.trans (.of_eq hval₁ htop₁)
    have o₁ := o.unlink hs₁ hval₁
    have hnew₁ : s.mem.top ∉ (pre++post).map Prod.fst ++ (p::s.app ++ s.reading) := by
      simp only [List.map_append,List.map_cons,List.mem_append,List.mem_cons] at hnew ⊢
      tauto
    by_cases hattr : attr = some v.mtime
    · obtain ⟨m₂,hset,hn₂,hval₂,htop₂⟩ := Mem.set_of_val hv₁ { v with current := v.entries }
      have hlive₂ : m₂.val s.mem.top = some ⟨[],(0,0),none,none⟩ := by rw [hval₂,update_of_ne hpn,hlive]
      obtain ⟨m₃,hfree,hn₃,hval₃,htop₃⟩ := Mem.free_of_val hlive₂
      refine ⟨{ s with mem := m₃, dircache := h', app := p::s.app },pre++post,some p,?_,
        ⟨(o₁.set hn₂ hval₂).write hnew₁ hn₃ hval₃,?_⟩,
        (hle₁.trans (.write hv₁ hval₂ htop₂)).trans (.write hlive₂ hval₃ htop₃),by simp,fun c hm _ => ?_⟩
      · simp [hfind,hv₁,hattr,hset,hfree,bind,Except.bind,pure,Except.pure]
      · simp only [List.length_append,List.length_cons] at hshort ⊢
        omega
      · rw [hc] at hm
        rw [← Option.some.inj hm]
    · obtain ⟨m₂,hfree,hn₂,hval₂,htop₂⟩ := Mem.free_of_val hv₁
      have hlive₂ : m₂.val s.mem.top = some ⟨[],(0,0),none,none⟩ := by rw [hval₂,update_of_ne hpn,hlive]
      have hnew₂ : s.mem.top ∉ (pre++post).map Prod.fst ++ (s.app ++ s.reading) := by
        simp only [List.cons_append,List.mem_append,List.mem_cons] at hnew₁ ⊢
        tauto
      obtain ⟨s',l',hr,hi',hle'⟩ := readdirplus_inv (o₁.release hn₂ hval₂)
        (by simp only [List.length_append,List.length_cons] at hshort ⊢; omega) hnew₂ hlive₂ fh sent
      refine ⟨s',l',none,?_,hi',(hle₁.trans (.write hv₁ hval₂ htop₂)).trans hle',by simp,fun c hm he => ?_⟩
      · simp [hfind,hv₁,hattr,hfree,bind,Except.bind,pure,Except.pure,hr]
      · rw [hc] at hm
        rw [← Option.some.inj hm] at he
        exact absurd he hattr

theorem listed_inv (hi : Inv s l) {p : ℕ} (hp : p ∈ s.reading) (res : Option (Option (ℕ × ℕ) × Option ε)) :
    Stays s (listed s p res) := by
  have hperm : (p::s.app ++ s.reading.erase p).Perm (s.app ++ s.reading) :=
    List.perm_middle.symm.trans ((List.perm_cons_erase hp).symm.append_left _)
  have o := hi.owns.perm hperm
  obtain ⟨v,hv⟩ := Option.ne_none_iff_exists'.mp (o.live p (by simp))
  cases res with
  | some res =>
    obtain ⟨attr,entries⟩ := res
    obtain ⟨m',hset,hn,hval,htop⟩ := Mem.set_of_val hv
      { v with mtime := attr.getD v.mtime, entries := entries, current := entries }
    refine ⟨{ s with mem := m', reading := s.reading.erase p, app := p::s.app },l,some p,?_,⟨o.set hn hval,hi.short⟩,
      .write hv hval htop,by simp⟩
    simp [listed,hv,hset,bind,Except.bind,pure,Except.pure]
  | none =>
    obtain ⟨m',hfree,hn,hval,htop⟩ := Mem.free_of_val hv
    refine ⟨{ s with mem := m', reading := s.reading.erase p },l,none,?_,⟨o.release hn hval,hi.short⟩,.write hv hval htop,
      by simp⟩
    simp [listed,hfree,bind,Except.bind,pure,Except.pure]

theorem closedir_inv (hi : Inv s l) (hf : maxDirCache + 2 ≤ fuel) (nfs : Bool) {p : ℕ} (hp : p ∈ s.app) :
    ∃ s' l', nfsClosedir fuel s nfs p = .ok s' ∧ Inv s' l' ∧ s.mem.Le s'.mem := by
  have o := hi.owns.perm ((List.perm_cons_erase hp).symm.append_right s.reading)
  obtain ⟨v,hv⟩ := Option.ne_none_iff_exists'.mp (o.live p (by simp))
  by_cases hc : (nfs && s.dircacheEnabled) = true
  · have hpl : p ∉ l.map Prod.fst := fun hm => o.not_mem (List.mem_append_left _ hm)
    obtain ⟨h',m',hadd,hs',hle,hframe⟩ := nfsDircacheAdd_holds o.holds hi.short hf hv hpl
    refine ⟨{ s with mem := m', dircache := h', app := s.app.erase p },_,?_,⟨o.cache hs' (List.take_sublist ..) ?_,?_⟩,hle⟩
    · simp [nfsClosedir,hc,hadd,bind,Except.bind,pure,Except.pure]
    · intro q hq
      refine hframe q fun hm => ?_
      have hnd : (((p,v)::l).map Prod.fst ++ (s.app.erase p ++ s.reading)).Nodup :=
        List.perm_middle.nodup_iff.mp o.nodup
      exact (List.nodup_append.mp hnd).2.2 q hm q hq rfl
    · simp
  · obtain ⟨m',hfree,hn,hval,htop⟩ := Mem.free_of_val hv
    refine ⟨{ s with mem := m', app := s.app.erase p },l,?_,⟨o.release hn hval,hi.short⟩,.write hv hval htop⟩
    simp [nfsClosedir,hc,hfree,bind,Except.bind,pure,Except.pure]

/-- `nfs_dircache_drop` in a context: the first one is gone from the cache. -/
theorem drop_inv (hi : Inv s l) (hf : maxDirCache + 2 ≤ fuel) (fh : List UInt8) :
    ∃ s', step fuel s (.drop fh) = .ok (s',none) ∧ Inv s' (l.eraseP fun c => c.2.fh = fh) ∧ s.mem.Le s'.mem ∧
      ∀ c ∈ l.find? fun c => c.2.fh = fh, s'.mem.val c.1 = none := by
  have hshort := hi.short
  obtain ⟨h',m',hdrop,hs',hle,hframe,hgone⟩ := nfsDircacheDrop_holds hi.owns.holds (show l.length ≤ fuel by omega) fh
  refine ⟨{ s with mem := m', dircache := h' },?_,⟨hi.owns.shrink hs' List.eraseP_sublist fun q hq => hframe q ?_,?_⟩,hle,
    hgone⟩
  · simp [step,hdrop,bind,Except.bind,pure,Except.pure]
  · intro hm
    exact (List.nodup_append.mp hi.owns.nodup).2.2 q hm q hq rfl
  · exact List.length_eraseP_le.trans hshort

theorem step_inv (hi : Inv s l) (hf : maxDirCache + 2 ≤ fuel) (e : Event ε) : Stays s (step fuel s e) := by
  cases e with
  | opendir fh attr sent =>
    obtain ⟨s',l',dir,hs,hi',hle,hdir,-⟩ := opendir_inv hi hf fh attr sent
    exact ⟨s',l',dir,hs,hi',hle,hdir⟩
  | listed p res =>
    by_cases hp : p ∈ s.reading
    · rw [step,if_pos hp]
      exact listed_inv hi hp res
    · rw [step,if_neg hp]
      exact ⟨s,l,none,rfl,hi,.refl _,by simp⟩
  | closedir nfs p =>
    by_cases hp : p ∈ s.app
    · obtain ⟨s',l',hc,hi',hle⟩ := closedir_inv hi hf nfs hp
      refine ⟨s',l',none,?_,hi',hle,by simp⟩
      simp [step,hp,hc,bind,Except.bind,pure,Except.pure]
    · rw [step,if_neg hp]
      exact ⟨s,l,none,rfl,hi,.refl _,by simp⟩
  | drop fh =>
    obtain ⟨s',hs,hi',hle,-⟩ := drop_inv hi hf fh
    exact ⟨s',_,none,hs,hi',hle,by simp⟩
  | setDircache enabled => exact ⟨_,l,none,rfl,⟨hi.owns,hi.short⟩,.refl _,by simp⟩

/-- In a run nothing that was freed comes back, and none of it is given to the application. -/
theorem run_inv (hi : Inv s l) (hf : maxDirCache + 2 ≤ fuel) (es : List (Event ε)) :
    ∃ s' l' dirs, run fuel s es = .ok (s',dirs) ∧ Inv s' l' ∧ s.mem.Le s'.mem ∧
      ∀ p < s.mem.top, s.mem.val p = none → p ∉ dirs := by
  induction es generalizing s l with
  | nil => exact ⟨s,l,[],rfl,hi,.refl _,by simp⟩
  | cons e es ih =>
    obtain ⟨s₁,l₁,dir,hs₁,hi₁,hle₁,hdir⟩ := step_inv hi hf e
    obtain ⟨s₂,l₂,dirs,hr,hi₂,hle₂,hdead⟩ := ih hi₁
    refine ⟨s₂,l₂,dir.toList ++ dirs,?_,hi₂,hle₁.trans hle₂,fun p hp hv hm => ?_⟩
    · simp [run,hs₁,hr,bind,Except.bind,pure,Except.pure]
    · have hv₁ := hle₁.dead p hp hv
      rcases List.mem_append.mp hm with hm | hm
      · exact hi₁.owns.live p (List.mem_append_left _ (hdir p (by simpa using hm))) hv₁
      · exact hdead p (hp.trans_le hle₁.top) hv₁ hm

theorem filter_eraseP {α : Type} (P : α → Bool) (l : List α) : (l.eraseP P).filter P = (l.filter P).tail := by
  induction l with
  | nil => rfl
  | cons a l ih =>
    cases ha : P a with
    | true => simp [ha]
    | false => simp [ha,ih]

/-- In every run the cache is short and the application owns nothing of it. A drop leaves no entry for the file handle, and
nothing that was cached for it is given to the application later on, exactly if there was at most one. -/
theorem dircache_run (fuel : ℕ) (hf : maxDirCache + 2 ≤ fuel) (es : List (Event ε)) :
    ∃ s dirs l, run fuel (Context.init ε) es = .ok (s,dirs) ∧ Holds s.mem s.dircache l ∧ l.length ≤ maxDirCache + 1 ∧
      (∀ c ∈ l, c.1 ∉ s.app) ∧
      ∀ fh, ∃ s' l', step fuel s (.drop fh) = .ok (s',none) ∧ Holds s'.mem s'.dircache l' ∧
        ((∀ c ∈ l', c.2.fh ≠ fh) ↔ (l.filter fun c => c.2.fh = fh).length ≤ 1) ∧
        ((∀ es' s'' dirs', run fuel s' es' = .ok (s'',dirs') → ∀ c ∈ l, c.2.fh = fh → c.1 ∉ dirs') ↔
          (l.filter fun c => c.2.fh = fh).length ≤ 1) := by
  obtain ⟨s,l,dirs,hr,hi,-,-⟩ := run_inv inv_init hf es
  refine ⟨s,dirs,l,hr,hi.owns.holds,hi.short,fun c hc hm => ?_,fun fh => ?_⟩
  · exact (List.nodup_append.mp hi.owns.nodup).2.2 c.1 (List.mem_map_of_mem hc) c.1 (List.mem_append_left _ hm) rfl
  obtain ⟨s',hs,hi',hle,hgone⟩ := drop_inv hi hf fh
  have hleft : (∀ c ∈ l.eraseP fun c => c.2.fh = fh, c.2.fh ≠ fh) ↔ (l.filter fun c => c.2.fh = fh).length ≤ 1 := by
    have hfilter := filter_eraseP (fun c : ℕ × Nfsdir ε => decide (c.2.fh = fh)) l
    have hnil : (∀ c ∈ l.eraseP fun c => c.2.fh = fh, c.2.fh ≠ fh) ↔
        (l.eraseP fun c => c.2.fh = fh).filter (fun c => decide (c.2.fh = fh)) = [] := by simp
    rw [hnil,hfilter,← List.length_eq_zero_iff,List.length_tail]
    omega
  refine ⟨s',_,hs,hi'.owns.holds,hleft,fun h => ?_,fun hone es' s'' dirs' hr' c hc hcfh => ?_⟩
  · by_contra hmany
    -- the next one is still there, and an `opendir` gives it to the application
    have hex := mt hleft.mp hmany
    push Not at hex
    obtain ⟨c,hc,hcfh⟩ := hex
    obtain ⟨d,hd⟩ := Option.isSome_iff_exists.mp
      (List.find?_isSome.mpr ⟨c,hc,by simpa using hcfh⟩ : ((l.eraseP _).find? fun c => decide (c.2.fh = fh)).isSome)
    obtain ⟨s'',l'',dir,hopen,-,-,-,hhit⟩ := opendir_inv hi' hf fh (some d.2.mtime) true
    have hdir := hhit d hd rfl
    have hrun : run fuel s' [.opendir fh (some d.2.mtime) true] = .ok (s'',[d.1]) := by
      simp [run,step,hopen,hdir,bind,Except.bind,pure,Except.pure]
    exact h _ s'' _ hrun d (List.eraseP_subset (List.mem_of_find?_eq_some hd)) (by simpa using List.find?_some hd) (by simp)
  · have hfirst : (l.find? fun c => decide (c.2.fh = fh)) = some c := by
      have hm : c ∈ l.filter fun c => decide (c.2.fh = fh) := List.mem_filter.mpr ⟨hc,by simpa using hcfh⟩
      rw [← List.head?_filter]
      cases hd : l.filter fun c => decide (c.2.fh = fh) with
      | nil => simp [hd] at hm
      | cons d rest =>
        have hrest : rest = [] := by
          rw [hd] at hone
          simpa using hone
        rw [hd,hrest] at hm
        rw [List.mem_singleton.mp hm]
        rfl
    obtain ⟨s₃,l₃,dirs₃,hr₃,-,-,hdead⟩ := run_inv hi' hf es'
    rw [hr'] at hr₃
    obtain ⟨-,rfl⟩ := Prod.mk.inj (Except.ok.inj hr₃)
    exact hdead c.1 ((hi.owns.holds.lt hc).trans_le hle.top) (hgone c hfirst)

end Runs

/-- A directory is opened twice before it is closed twice. -/
def openedTwice : List (Event Unit) :=
  [.opendir [1] (some (5,0)) true,.opendir [1] (some (5,0)) true,.listed 0 (some (some (5,0),none)),
    .listed 1 (some (some (5,0),none)),.closedir true 0,.closedir true 1]

/-- The drop leaves the listing that was closed first, and the next `opendir` returns it. -/
theorem drop_leaves :
    ∃ s s' s'' dirs, run 130 (Context.init Unit) openedTwice = .ok (s,dirs) ∧ step 130 s (.drop [1]) = .ok (s',none) ∧
      Holds s'.mem s'.dircache [(0,⟨[1],(5,0),none,none⟩)] ∧
      run 130 s' [.opendir [1] (some (5,0)) true] = .ok (s'',[0]) :=
  ⟨_,_,_,_,rfl,rfl,Holds.cons_iff.mpr ⟨rfl,rfl,Holds.nil _⟩,rfl⟩

theorem dircache_run_openedTwice :
    ∃ s dirs l, run 130 (Context.init Unit) openedTwice = .ok (s,dirs) ∧ Holds s.mem s.dircache l ∧
      l.length ≤ maxDirCache + 1 ∧ (∀ c ∈ l, c.1 ∉ s.app) ∧
      ∀ fh, ∃ s' l', step 130 s (.drop fh) = .ok (s',none) ∧ Holds s'.mem s'.dircache l' ∧
        ((∀ c ∈ l', c.2.fh ≠ fh) ↔ (l.filter fun c => c.2.fh = fh).length ≤ 1) ∧
        ((∀ es' s'' dirs', run 130 s' es' = .ok (s'',dirs') → ∀ c ∈ l, c.2.fh = fh → c.1 ∉ dirs') ↔
          (l.filter fun c => c.2.fh = fh).length ≤ 1) :=
  dircache_run 130 le_rfl openedTwice

end DirCache
end Libnfs
