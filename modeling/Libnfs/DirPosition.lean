import Libnfs.SList

/-! The position in a directory listing: `nfs_readdir`, `nfs_telldir`, `nfs_seekdir` and `nfs_rewinddir` of `lib/libnfs.c`. The
position is a pointer into the entries; `nfs_telldir` tells its index. -/
namespace Libnfs
namespace DirPosition

open SList

variable {ε : Type}

/-- `struct nfsdir`: the first entry and the one that is read next -/
structure Nfsdir where
  entries : Option ℕ
  current : Option ℕ
  deriving DecidableEq, Repr

/-- `nfs_readdir` -/
def nfsReaddir (m : Mem ε) (dir : Nfsdir) : Except Fault (Option ℕ × Nfsdir) :=
  match dir.current with
  | none => pure (none,dir)
  | some p => do
    let next ← m.link p
    pure (some p,{ dir with current := next })

/-- The loop of `nfs_telldir` -/
def telldirFrom (m : Mem ε) (current : Option ℕ) : ℕ → ℤ → Option ℕ → Except Fault ℤ
  | _, _, none => pure (-1)
  | 0, _, some _ => .error .fuel
  | fuel+1, i, some tmp => if some tmp = current then pure i else do telldirFrom m current fuel (i+1) (← m.link tmp)

/-- `nfs_telldir` -/
def nfsTelldir (fuel : ℕ) (m : Mem ε) (dir : Nfsdir) : Except Fault ℤ := telldirFrom m dir.current fuel 0 dir.entries

/-- The loop of `nfs_seekdir` -/
def seekdirFrom (m : Mem ε) : ℕ → ℤ → Option ℕ → Except Fault (Option ℕ)
  | _, _, none => pure none
  | 0, _, some _ => .error .fuel
  | fuel+1, loc, some p => if loc = 0 then pure (some p) else do seekdirFrom m fuel (loc-1) (← m.link p)

/-- `nfs_seekdir` -/
def nfsSeekdir (fuel : ℕ) (m : Mem ε) (dir : Nfsdir) (loc : ℤ) : Except Fault Nfsdir :=
  if loc < 0 then pure dir
  else do
    let current ← seekdirFrom m fuel loc dir.entries
    pure { dir with current := current }

/-- `nfs_rewinddir` -/
def nfsRewinddir (dir : Nfsdir) : Nfsdir := { dir with current := dir.entries }

inductive Op
  | readdir
  | seekdir (loc : ℤ)
  | rewinddir

def step (fuel : ℕ) (m : Mem ε) (dir : Nfsdir) : Op → Except Fault Nfsdir
  | .readdir => do
    let res ← nfsReaddir m dir
    pure res.2
  | .seekdir loc => nfsSeekdir fuel m dir loc
  | .rewinddir => pure (nfsRewinddir dir)

def run (fuel : ℕ) (m : Mem ε) (dir : Nfsdir) : List Op → Except Fault Nfsdir
  | [] => pure dir
  | op::ops => do run fuel m (← step fuel m dir op) ops

/-- What that many calls of `nfs_readdir` return -/
def reads (m : Mem ε) : ℕ → Nfsdir → Except Fault (List (Option ℕ))
  | 0, _ => pure []
  | n+1, dir => do
    let res ← nfsReaddir m dir
    let rest ← reads m n res.2
    pure (res.1::rest)

/-- The pointer to the entry with that index, `NULL` behind the last one -/
def place (l : List (ℕ × ε)) (k : ℕ) : Option ℕ := ((l.drop k).map Prod.fst).head?

section Listing

variable {m : Mem ε} {entries : Option ℕ} {l : List (ℕ × ε)} {fuel : ℕ} {dir : Nfsdir}

@[simp] theorem place_zero (hl : Holds m entries l) : place l 0 = entries := by
  rw [hl.head]
  rfl

theorem place_of_le {k : ℕ} (hk : l.length ≤ k) : place l k = none := by simp [place,hk]

theorem holds_place (hl : Holds m entries l) (k : ℕ) : Holds m (place l k) (l.drop k) := by
  rw [← List.take_append_drop k l] at hl
  exact hl.drop

/-- From an entry the link leads to the next one. -/
theorem link_place (hl : Holds m entries l) {k p : ℕ} (hk : place l k = some p) : m.link p = .ok (place l (k+1)) := by
  have hp := holds_place hl k
  have hn := holds_place hl (k+1)
  rw [← List.drop_drop] at hn
  cases hd : l.drop k with
  | nil => simp [place,hd] at hk
  | cons c r =>
    obtain ⟨q,v⟩ := c
    rw [hd,hk] at hp
    obtain ⟨hq,hv,hr⟩ := Holds.cons_iff.mp hp
    obtain rfl := Option.some.inj hq
    rw [Mem.link_of_val hv]
    rw [hd] at hn
    rw [hr.head,hn.head]
    rfl

/-- The listing is at one of its positions. -/
def At (entries : Option ℕ) (l : List (ℕ × ε)) (dir : Nfsdir) : Prop :=
  dir.entries = entries ∧ ∃ k, dir.current = place l k

theorem seekdirFrom_holds (hl : Holds m entries l) (loc : ℕ) (hf : l.length ≤ fuel) :
    seekdirFrom m fuel loc entries = .ok (place l loc) := by
  induction l generalizing entries fuel loc with
  | nil =>
    rw [show entries = none from hl.seg]
    cases fuel <;> simp [seekdirFrom,place,pure,Except.pure]
  | cons c l ih =>
    obtain ⟨p,v⟩ := c
    obtain ⟨rfl,hv,hr⟩ := Holds.cons_iff.mp hl
    obtain ⟨fuel,rfl⟩ : ∃ n, fuel = n+1 := ⟨fuel-1,by simp at hf; omega⟩
    cases loc with
    | zero => simp [seekdirFrom,place,pure,Except.pure]
    | succ loc =>
      have hrec := ih hr loc (show l.length ≤ fuel by simpa using hf)
      have hloc : ((loc+1 : ℕ) : ℤ) ≠ 0 := by omega
      have hpred : ((loc+1 : ℕ) : ℤ) - 1 = loc := by omega
      rw [seekdirFrom,if_neg hloc,Mem.link_of_val hv]
      simp only [bind,Except.bind,hpred,hrec]
      rfl

/-- `nfs_seekdir` goes to the entry with the index, if that is not negative. -/
theorem nfsSeekdir_holds (hl : Holds m entries l) (hf : l.length ≤ fuel) (hd : dir.entries = entries) (loc : ℕ) :
    nfsSeekdir fuel m dir loc = .ok ⟨entries,place l loc⟩ := by
  have hloc : ¬ (loc : ℤ) < 0 := by omega
  simp [nfsSeekdir,hloc,hd,seekdirFrom_holds hl loc hf,bind,Except.bind,pure,Except.pure]

theorem nfsSeekdir_neg {loc : ℤ} (hloc : loc < 0) : nfsSeekdir fuel m dir loc = .ok dir := by
  simp [nfsSeekdir,hloc,pure,Except.pure]

/-- The search for `NULL` finds nothing. -/
theorem telldirFrom_none (hl : Holds m entries l) (hf : l.length ≤ fuel) (i : ℤ) :
    telldirFrom m none fuel i entries = .ok (-1) := by
  induction l generalizing entries fuel i with
  | nil =>
    rw [show entries = none from hl.seg]
    cases fuel <;> rfl
  | cons c l ih =>
    obtain ⟨p,v⟩ := c
    obtain ⟨rfl,hv,hr⟩ := Holds.cons_iff.mp hl
    obtain ⟨fuel,rfl⟩ : ∃ n, fuel = n+1 := ⟨fuel-1,by simp at hf; omega⟩
    have hrec := ih hr (show l.length ≤ fuel by simpa using hf) (i+1)
    simp [telldirFrom,hv,bind,Except.bind,hrec]

/-- The search for an entry finds its index. -/
theorem telldirFrom_place (hl : Holds m entries l) (hf : l.length ≤ fuel) {k : ℕ} (hk : k < l.length) (i : ℤ) :
    telldirFrom m (place l k) fuel i entries = .ok (i+k) := by
  induction l generalizing entries fuel i k with
  | nil => simp at hk
  | cons c l ih =>
    obtain ⟨p,v⟩ := c
    have hnd := hl.nodup
    obtain ⟨rfl,hv,hr⟩ := Holds.cons_iff.mp hl
    obtain ⟨fuel,rfl⟩ : ∃ n, fuel = n+1 := ⟨fuel-1,by simp at hf; omega⟩
    cases k with
    | zero => simp [telldirFrom,place,pure,Except.pure]
    | succ k =>
      have hk : k < l.length := by simpa using hk
      have hrec := ih hr (show l.length ≤ fuel by simpa using hf) hk (i+1)
      have hplace : place ((p,v)::l) (k+1) = place l k := rfl
      have hne : some p ≠ place l k := by
        intro he
        have hmem : p ∈ (l.drop k).map Prod.fst := List.mem_of_mem_head? (by rw [Option.mem_def]; exact he.symm)
        simp only [List.map_cons,List.nodup_cons] at hnd
        exact hnd.1 (List.map_subset _ (List.drop_subset k l) hmem)
      rw [hplace,telldirFrom,if_neg hne,Mem.link_of_val hv]
      simp only [bind,Except.bind,hrec]
      push_cast
      rw [add_assoc,add_comm 1]

/-- Each call leads from a position of the listing to one. -/
theorem step_at (hl : Holds m entries l) (hf : l.length ≤ fuel) (hd : At entries l dir) (op : Op) :
    ∃ dir', step fuel m dir op = .ok dir' ∧ At entries l dir' := by
  obtain ⟨he,k,hk⟩ := hd
  cases op with
  | readdir =>
    cases hc : dir.current with
    | none => exact ⟨dir,by simp [step,nfsReaddir,hc,bind,Except.bind,pure,Except.pure],he,k,hk⟩
    | some p =>
      rw [hc] at hk
      refine ⟨{ dir with current := place l (k+1) },?_,he,k+1,rfl⟩
      simp [step,nfsReaddir,hc,link_place hl hk.symm,bind,Except.bind,pure,Except.pure]
  | seekdir loc =>
    by_cases hloc : loc < 0
    · exact ⟨dir,nfsSeekdir_neg hloc,he,k,hk⟩
    · obtain ⟨n,rfl⟩ : ∃ n : ℕ, loc = n := ⟨loc.toNat,by omega⟩
      exact ⟨⟨entries,place l n⟩,nfsSeekdir_holds hl hf he n,rfl,n,rfl⟩
  | rewinddir => exact ⟨nfsRewinddir dir,rfl,he,0,he.trans (place_zero hl).symm⟩

theorem run_at (hl : Holds m entries l) (hf : l.length ≤ fuel) (hd : At entries l dir) (ops : List Op) :
    ∃ dir', run fuel m dir ops = .ok dir' ∧ At entries l dir' := by
  induction ops generalizing dir with
  | nil => exact ⟨dir,rfl,hd⟩
  | cons op ops ih =>
    obtain ⟨dir',hs,hd'⟩ := step_at hl hf hd op
    obtain ⟨dir'',hr,hd''⟩ := ih hd'
    exact ⟨dir'',by simp [run,hs,bind,Except.bind,hr],hd''⟩

/-- The entries that are read from a position on are there to read. -/
theorem reads_at (hl : Holds m entries l) (hf : l.length ≤ fuel) (hd : At entries l dir) (n : ℕ) :
    ∃ es, reads m n dir = .ok es := by
  induction n generalizing dir with
  | zero => exact ⟨[],rfl⟩
  | succ n ih =>
    obtain ⟨dir',hs,hd'⟩ := step_at hl hf hd .readdir
    obtain ⟨es,hes⟩ := ih hd'
    cases hr : nfsReaddir m dir with
    | error e => simp [step,hr,bind,Except.bind] at hs
    | ok res =>
      have hres : res.2 = dir' := by simpa [step,hr,bind,Except.bind,pure,Except.pure] using hs
      exact ⟨res.1::es,by simp [reads,hr,bind,Except.bind,hres,hes,pure,Except.pure]⟩

end Listing

/-- After whatever calls, to seek to what `nfs_telldir` told restores the position exactly if this was not the end of a listing
with entries. -/
theorem seekdir_restores (m : Mem ε) (entries : Option ℕ) (l : List (ℕ × ε)) (hl : Holds m entries l) (fuel : ℕ)
    (hf : l.length ≤ fuel) (before : List Op) :
    ∃ dir loc, run fuel m ⟨entries,entries⟩ before = .ok dir ∧ nfsTelldir fuel m dir = .ok loc ∧
      ((∀ after, ∃ dir' dir'', run fuel m dir after = .ok dir' ∧ nfsSeekdir fuel m dir' loc = .ok dir'' ∧
          dir''.current = dir.current ∧ ∀ n, ∃ es, reads m n dir'' = .ok es ∧ reads m n dir = .ok es) ↔
        dir.current ≠ none ∨ entries = none) := by
  obtain ⟨dir,hrun,hd⟩ := run_at hl hf (show At entries l ⟨entries,entries⟩ from ⟨rfl,0,(place_zero hl).symm⟩) before
  obtain ⟨he,k,hk⟩ := hd
  by_cases hlt : k < l.length
  · have htell := telldirFrom_place hl hf hlt 0
    rw [zero_add,← hk,← he] at htell
    have hne : dir.current ≠ none := by
      rw [hk]
      simp [place,hlt]
    refine ⟨dir,k,hrun,htell,fun _ => .inl hne,fun _ after => ?_⟩
    obtain ⟨dir',hrun',hd'⟩ := run_at hl hf ⟨he,k,hk⟩ after
    refine ⟨dir',_,hrun',nfsSeekdir_holds hl hf hd'.1 k,hk.symm,fun n => ?_⟩
    obtain ⟨es,hes⟩ := reads_at hl hf (show At entries l dir from ⟨he,k,hk⟩) n
    have hdir : (⟨entries,place l k⟩ : Nfsdir) = dir := by rw [← he,← hk]
    exact ⟨es,hdir ▸ hes,hes⟩
  · have hcur : dir.current = none := by rw [hk,place_of_le (by omega)]
    have htell := telldirFrom_none hl hf 0
    rw [← hcur,← he] at htell
    refine ⟨dir,-1,hrun,htell,fun h => .inr ?_,fun h after => ?_⟩
    · -- the position is not restored behind `nfs_rewinddir`
      obtain ⟨dir',dir'',hrun',hseek,hback,-⟩ := h [.rewinddir]
      have hdir' : dir' = nfsRewinddir dir := (Except.ok.inj hrun').symm
      rw [nfsSeekdir_neg (by omega)] at hseek
      have hdir'' : dir'' = dir' := (Except.ok.inj hseek).symm
      rw [hdir'',hdir',hcur] at hback
      exact he.symm.trans hback
    · have hent : entries = none := h.resolve_left (by simp [hcur])
      obtain ⟨dir',hrun',he',k',hk'⟩ := run_at hl hf ⟨he,k,hk⟩ after
      have hnil : l = [] := by
        have hh := hl.head
        rw [hent] at hh
        simpa using hh.symm
      have hcur' : dir'.current = none := by
        rw [hk',hnil]
        simp [place]
      have hsame : dir' = dir := by
        cases dir
        cases dir'
        simp_all
      obtain rfl := hsame
      exact ⟨dir',dir',hrun',nfsSeekdir_neg (by omega),rfl,fun n =>
        (reads_at hl hf ⟨he,k,hk⟩ n).imp fun es hes => ⟨hes,hes⟩⟩

/-- A listing of two entries -/
def twoEntries : Mem String where
  next p := if p = 0 then some 1 else none
  val p := if p = 0 then some "a" else if p = 1 then some "b" else none
  top := 2
  fresh p hp := by
    rw [if_neg (by omega),if_neg (by omega)]

theorem twoEntries_holds : Holds twoEntries (some 0) [(0,"a"),(1,"b")] :=
  Holds.cons_iff.mpr ⟨rfl,rfl,Holds.cons_iff.mpr ⟨rfl,rfl,Holds.nil _⟩⟩

/-- Behind the second entry nothing is left to read. The place that `nfs_telldir` tells there does not lead back to it. -/
theorem seekdir_end :
    run 2 twoEntries ⟨some 0,some 0⟩ [.readdir,.readdir] = .ok ⟨some 0,none⟩ ∧
      nfsTelldir 2 twoEntries ⟨some 0,none⟩ = .ok (-1) ∧
      run 2 twoEntries ⟨some 0,none⟩ [.rewinddir,.seekdir (-1)] = .ok ⟨some 0,some 0⟩ ∧
      reads twoEntries 1 ⟨some 0,none⟩ = .ok [none] ∧ reads twoEntries 1 ⟨some 0,some 0⟩ = .ok [some 0] :=
  ⟨rfl,rfl,rfl,rfl,rfl⟩

theorem seekdir_restores_twoEntries :
    ∃ dir loc, run 2 twoEntries ⟨some 0,some 0⟩ [.readdir] = .ok dir ∧ nfsTelldir 2 twoEntries dir = .ok loc ∧
      ((∀ after, ∃ dir' dir'', run 2 twoEntries dir after = .ok dir' ∧ nfsSeekdir 2 twoEntries dir' loc = .ok dir'' ∧
          dir''.current = dir.current ∧ ∀ n, ∃ es, reads twoEntries n dir'' = .ok es ∧ reads twoEntries n dir = .ok es) ↔
        dir.current ≠ none ∨ some 0 = none) :=
  seekdir_restores twoEntries (some 0) [(0,"a"),(1,"b")] twoEntries_holds 2 (by simp) [.readdir]

end DirPosition
end Libnfs
