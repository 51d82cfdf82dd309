import Libnfs.Intrusive

/-! Singly linked lists in a memory of cells, each with a link and a value. To read a cell that was freed, or the one behind
`NULL`, is a fault. -/
namespace SList

open Function Intrusive

variable {α β : Type}

/-- What a program must not do; `fuel` is a loop that is longer than it may be. -/
inductive Fault
  | null
  | freed
  | fuel
  deriving DecidableEq, Repr

/-- The links and the values of the cells. A cell without a value is not allocated, and none from `top` on was ever. -/
structure Mem (α : Type) where
  next : ℕ → Option ℕ
  val : ℕ → Option α
  top : ℕ
  fresh : ∀ p, top ≤ p → val p = none

namespace Mem

def empty (α : Type) : Mem α := ⟨fun _ => none,fun _ => none,0,fun _ _ => rfl⟩

def get (m : Mem α) (p : ℕ) : Except Fault α :=
  match m.val p with
  | some v => .ok v
  | none => .error .freed

def link (m : Mem α) (p : ℕ) : Except Fault (Option ℕ) :=
  match m.val p with
  | some _ => .ok (m.next p)
  | none => .error .freed

/-- The link of an allocated cell is written. -/
def setNext (m : Mem α) (p : ℕ) (q : Option ℕ) : Except Fault (Mem α) :=
  match m.val p with
  | some _ => .ok { m with next := update m.next p q }
  | none => .error .freed

theorem val_lt {m : Mem α} {p : ℕ} {v : α} (h : m.val p = some v) : p < m.top := by
  by_contra hp
  simp [m.fresh p (by omega)] at h

/-- The value of a cell, or `none` to free it -/
def write (m : Mem α) (p : ℕ) (v : Option α) : Except Fault (Mem α) :=
  match h : m.val p with
  | some _ => .ok { m with
      val := update m.val p v
      fresh := fun q hq => by
        have hqp : q ≠ p := fun he => by simp [← he,m.fresh q hq] at h
        rw [update_of_ne hqp]
        exact m.fresh q hq }
  | none => .error .freed

def set (m : Mem α) (p : ℕ) (v : α) : Except Fault (Mem α) := m.write p (some v)

def free (m : Mem α) (p : ℕ) : Except Fault (Mem α) := m.write p none

/-- A new cell, which has no link yet -/
def alloc (m : Mem α) (v : α) : ℕ × Mem α :=
  (m.top,⟨update m.next m.top none,update m.val m.top (some v),m.top + 1,fun p hp => by
    rw [update_of_ne (by omega : p ≠ m.top)]
    exact m.fresh p (by omega)⟩)

variable {m : Mem α} {p : ℕ} {v : α}

@[simp] theorem get_of_val (h : m.val p = some v) : m.get p = .ok v := by simp [get,h]

@[simp] theorem link_of_val (h : m.val p = some v) : m.link p = .ok (m.next p) := by simp [link,h]

theorem setNext_of_val (h : m.val p = some v) (q : Option ℕ) :
    m.setNext p q = .ok { m with next := update m.next p q } := by
  simp [setNext,h]

theorem write_of_val (h : m.val p = some v) (w : Option α) :
    ∃ m', m.write p w = .ok m' ∧ m'.next = m.next ∧ m'.val = update m.val p w ∧ m'.top = m.top := by
  unfold write
  split
  · exact ⟨_,rfl,rfl,rfl,rfl⟩
  · next hn => rw [h] at hn; cases hn

theorem set_of_val (h : m.val p = some v) (w : α) :
    ∃ m', m.set p w = .ok m' ∧ m'.next = m.next ∧ m'.val = update m.val p (some w) ∧ m'.top = m.top :=
  write_of_val h (some w)

theorem free_of_val (h : m.val p = some v) :
    ∃ m', m.free p = .ok m' ∧ m'.next = m.next ∧ m'.val = update m.val p none ∧ m'.top = m.top :=
  write_of_val h none

/-- Nothing that was freed comes back. -/
structure Le (m m' : Mem α) : Prop where
  top : m.top ≤ m'.top
  dead : ∀ p < m.top, m.val p = none → m'.val p = none

theorem Le.refl (m : Mem α) : Le m m := ⟨le_rfl,fun _ _ h => h⟩

theorem Le.trans {m m' m'' : Mem α} (h : Le m m') (h' : Le m' m'') : Le m m'' :=
  ⟨h.top.trans h'.top,fun p hp hv => h'.dead p (hp.trans_le h.top) (h.dead p hp hv)⟩

theorem Le.of_eq {m m' : Mem α} (hv : m'.val = m.val) (ht : m'.top = m.top) : Le m m' :=
  ⟨ht.ge,fun p _ hp => by rw [hv]; exact hp⟩

theorem Le.write {m m' : Mem α} {p : ℕ} {v : α} {w : Option α} (h : m.val p = some v) (hv : m'.val = update m.val p w)
    (ht : m'.top = m.top) : Le m m' := by
  refine ⟨ht.ge,fun q _ hq => ?_⟩
  have hqp : q ≠ p := fun he => by simp [← he,hq] at h
  rw [hv,update_of_ne hqp]
  exact hq

theorem Le.alloc (m : Mem α) (v : α) : Le m (m.alloc v).2 := by
  refine ⟨Nat.le_succ _,fun p hp hv => ?_⟩
  show update m.val m.top (some v) p = none
  rw [update_of_ne hp.ne]
  exact hv

end Mem

/-- `LIST_ADD` -/
def add (m : Mem α) (head : Option ℕ) (item : ℕ) : Except Fault (Option ℕ × Mem α) := do
  let m ← m.setNext item head
  pure (some item,m)

/-- The loop of `LIST_REMOVE`, from the cell `cur` on -/
def removeFrom (item : ℕ) : ℕ → Mem α → ℕ → Except Fault (Mem α)
  | 0, _, _ => .error .fuel
  | fuel+1, m, cur => do
    match ← m.link cur with
    | none => pure m
    | some q => if q = item then m.setNext cur (← m.link q) else removeFrom item fuel m q

/-- `LIST_REMOVE` -/
def remove (fuel : ℕ) (m : Mem α) (head : Option ℕ) (item : ℕ) : Except Fault (Option ℕ × Mem α) :=
  if head = some item then do
    let h ← m.link item
    pure (h,m)
  else
    match head with
    | none => .error .null
    | some h => do
      let m ← removeFrom item fuel m h
      pure (some h,m)

/-- The first cell whose value is `P` -/
def find (m : Mem α) (P : α → Bool) : ℕ → Option ℕ → Except Fault (Option ℕ)
  | _, none => .ok none
  | 0, some _ => .error .fuel
  | fuel+1, some p => do
    if P (← m.get p) then pure (some p) else find m P fuel (← m.link p)

/-- The cells one after the other -/
def fold (m : Mem α) (f : β → α → β) : ℕ → β → Option ℕ → Except Fault β
  | _, b, none => .ok b
  | 0, _, some _ => .error .fuel
  | fuel+1, b, some p => do
    let v ← m.get p
    fold m f fuel (f b v) (← m.link p)

/-- The cells from `h` on are the ones of `l`, with their values. -/
structure Holds (m : Mem α) (h : Option ℕ) (l : List (ℕ × α)) : Prop where
  seg : Seg m.next h (l.map Prod.fst) none
  val : ∀ c ∈ l, m.val c.1 = some c.2

namespace Holds

variable {m m' : Mem α} {h : Option ℕ} {l r : List (ℕ × α)} {p : ℕ} {v : α}

theorem nil (m : Mem α) : Holds m none [] := ⟨rfl,by simp⟩

theorem head (hs : Holds m h l) : h = (l.map Prod.fst).head? := hs.seg.head

theorem cons_iff : Holds m h ((p,v)::l) ↔ h = some p ∧ m.val p = some v ∧ Holds m (m.next p) l := by
  constructor
  · rintro ⟨⟨hp,hl⟩,hv⟩
    exact ⟨hp,hv (p,v) (by simp),hl,fun c hc => hv c (by simp [hc])⟩
  · rintro ⟨hp,hv,hl,hvs⟩
    exact ⟨⟨hp,hl⟩,List.forall_mem_cons.mpr ⟨hv,hvs⟩⟩

theorem congr (hs : Holds m h l) (hn : ∀ c ∈ l, m'.next c.1 = m.next c.1) (hv : ∀ c ∈ l, m'.val c.1 = m.val c.1) :
    Holds m' h l := by
  refine ⟨hs.seg.congr fun p hp => ?_,fun c hc => ?_⟩
  · obtain ⟨c,hc,rfl⟩ := List.mem_map.mp hp
    exact hn c hc
  · rw [hv c hc]
    exact hs.val c hc

theorem nodup (hs : Holds m h l) : (l.map Prod.fst).Nodup := hs.seg.nodup

theorem lt (hs : Holds m h l) {c : ℕ × α} (hc : c ∈ l) : c.1 < m.top := Mem.val_lt (hs.val c hc)

theorem unique (hs : Holds m h l) (hs' : Holds m h r) : l = r := by
  induction l generalizing h r with
  | nil =>
    have hr := hs'.head
    rw [show h = none from hs.seg] at hr
    simpa using hr
  | cons c l ih =>
    obtain ⟨p,v⟩ := c
    obtain ⟨rfl,hv,hl⟩ := cons_iff.mp hs
    cases r with
    | nil => exact absurd hs'.head (by simp)
    | cons d r =>
      obtain ⟨q,w⟩ := d
      obtain ⟨hq,hw,hr⟩ := cons_iff.mp hs'
      obtain rfl := Option.some.inj hq
      obtain rfl := Option.some.inj (hv.symm.trans hw)
      rw [ih hl hr]

/-- The cells from `p` on -/
theorem drop (hs : Holds m h (l++r)) : Holds m ((r.map Prod.fst).head?) r := by
  induction l generalizing h with
  | nil =>
    have hh : h = (r.map Prod.fst).head? := hs.head
    rw [← hh]
    exact hs
  | cons c l ih => exact ih (cons_iff.mp hs).2.2

/-- Another cell gets a link. -/
theorem relink (hs : Holds m h l) (hp : p ∉ l.map Prod.fst) (q : Option ℕ) :
    Holds { m with next := update m.next p q } h l := by
  refine hs.congr (fun c hc => ?_) fun _ _ => rfl
  have hcp : c.1 ≠ p := fun he => hp (he ▸ List.mem_map_of_mem hc)
  exact update_of_ne hcp ..

/-- A cell outside of the list becomes its first one. -/
theorem link (hs : Holds m h l) (hv : m.val p = some v) (hp : p ∉ l.map Prod.fst) :
    Holds { m with next := update m.next p h } (some p) ((p,v)::l) := by
  refine cons_iff.mpr ⟨rfl,hv,?_⟩
  show Holds _ (update m.next p h p) l
  rw [update_self]
  exact hs.relink hp h

theorem write (hs : Holds m h l) (hp : p ∉ l.map Prod.fst) {w : Option α} (hn : m'.next = m.next)
    (hv : m'.val = update m.val p w) : Holds m' h l := by
  refine hs.congr (fun _ _ => by rw [hn]) fun c hc => ?_
  have hcp : c.1 ≠ p := fun he => hp (he ▸ List.mem_map_of_mem hc)
  rw [hv,update_of_ne hcp]

theorem alloc (hs : Holds m h l) (v : α) : Holds (m.alloc v).2 h l :=
  hs.congr (fun _ hc => update_of_ne (hs.lt hc).ne ..) fun _ hc => update_of_ne (hs.lt hc).ne ..

end Holds

@[simp] theorem find_none (m : Mem α) (P : α → Bool) (fuel : ℕ) : find m P fuel none = .ok none := by cases fuel <;> rfl

@[simp] theorem fold_none (m : Mem α) (f : β → α → β) (fuel : ℕ) (b : β) : fold m f fuel b none = .ok b := by
  cases fuel <;> rfl

theorem find_holds {m : Mem α} {h : Option ℕ} {l : List (ℕ × α)} (hs : Holds m h l) (P : α → Bool) {fuel : ℕ}
    (hf : l.length ≤ fuel) : find m P fuel h = .ok ((l.find? fun c => P c.2).map Prod.fst) := by
  induction l generalizing h fuel with
  | nil =>
    rw [show h = none from hs.seg]
    simp
  | cons c l ih =>
    obtain ⟨p,v⟩ := c
    obtain ⟨rfl,hv,hl⟩ := Holds.cons_iff.mp hs
    obtain ⟨fuel,rfl⟩ : ∃ n, fuel = n+1 := ⟨fuel-1,by simp at hf; omega⟩
    have hrec := ih hl (show l.length ≤ fuel by simpa using hf)
    by_cases hp : P v
    · simp [find,hv,hp,bind,Except.bind,pure,Except.pure]
    · simp [find,hv,hp,bind,Except.bind,hrec]

theorem fold_holds {m : Mem α} {h : Option ℕ} {l : List (ℕ × α)} (hs : Holds m h l) (f : β → α → β) (b : β) {fuel : ℕ}
    (hf : l.length ≤ fuel) : fold m f fuel b h = .ok ((l.map Prod.snd).foldl f b) := by
  induction l generalizing h fuel b with
  | nil =>
    rw [show h = none from hs.seg]
    simp
  | cons c l ih =>
    obtain ⟨p,v⟩ := c
    obtain ⟨rfl,hv,hl⟩ := Holds.cons_iff.mp hs
    obtain ⟨fuel,rfl⟩ : ∃ n, fuel = n+1 := ⟨fuel-1,by simp at hf; omega⟩
    have hrec := ih hl (f b v) (show l.length ≤ fuel by simpa using hf)
    simp [fold,hv,bind,Except.bind,hrec]

theorem add_holds {m : Mem α} {h : Option ℕ} {l : List (ℕ × α)} (hs : Holds m h l) {p : ℕ} {v : α} (hv : m.val p = some v)
    (hp : p ∉ l.map Prod.fst) :
    ∃ m', add m h p = .ok (some p,m') ∧ Holds m' (some p) ((p,v)::l) ∧ m'.val = m.val ∧ m'.top = m.top := by
  refine ⟨{ m with next := update m.next p h },?_,?_,rfl,rfl⟩
  · simp [add,Mem.setNext_of_val hv,bind,Except.bind,pure,Except.pure]
  · exact hs.link hv hp

/-- From a cell before it on, the cell `p` is unlinked; what is written lies between them. -/
theorem removeFrom_holds {m : Mem α} {a p : ℕ} {w v : α} {l r : List (ℕ × α)}
    (hs : Holds m (some a) ((a,w)::l++(p,v)::r)) {fuel : ℕ} (hf : l.length < fuel) :
    ∃ m', removeFrom p fuel m a = .ok m' ∧ Holds m' (some a) ((a,w)::l++r) ∧ m'.val = m.val ∧ m'.top = m.top ∧
      ∀ q, q ∉ ((a,w)::l).map Prod.fst → m'.next q = m.next q := by
  induction l generalizing a w fuel with
  | nil =>
    obtain ⟨fuel,rfl⟩ : ∃ n, fuel = n+1 := ⟨fuel-1,by simp at hf; omega⟩
    obtain ⟨-,ha,hp⟩ := Holds.cons_iff.mp hs
    obtain ⟨hap,hv,hr⟩ := Holds.cons_iff.mp hp
    have hnd := hs.nodup
    simp only [List.map_cons,List.nodup_cons,List.nil_append,List.cons_append,List.mem_cons,not_or] at hnd
    refine ⟨{ m with next := update m.next a (m.next p) },?_,hr.link ha hnd.1.2,rfl,rfl,fun q hq => ?_⟩
    · simp [removeFrom,ha,hap,hv,bind,Except.bind,Mem.setNext_of_val ha]
    · have hqa : q ≠ a := fun he => hq (by simp [he])
      exact update_of_ne hqa ..
  | cons b l ih =>
    obtain ⟨b,x⟩ := b
    obtain ⟨fuel,rfl⟩ : ∃ n, fuel = n+1 := ⟨fuel-1,by omega⟩
    obtain ⟨-,ha,hb⟩ := Holds.cons_iff.mp hs
    have hab := hb.head
    simp only [List.map_append,List.map_cons,List.cons_append,List.append_eq,List.head?_cons] at hab
    have hbp : b ≠ p := fun he => by
      have hnd := hb.nodup
      simp [he] at hnd
    have hal : a ∉ ((b,x)::l).map Prod.fst := fun hm => by
      have hnd := hs.nodup
      simp only [List.cons_append,List.map_cons,List.nodup_cons,List.map_append,List.mem_cons,List.mem_append] at hnd hm
      tauto
    rw [hab] at hb
    obtain ⟨m',hm',hs',hval,htop,hnext⟩ := ih hb (show l.length < fuel by simpa using hf)
    refine ⟨m',?_,Holds.cons_iff.mpr ⟨rfl,by rw [hval]; exact ha,?_⟩,hval,htop,fun q hq => hnext q fun hm => hq ?_⟩
    · simp [removeFrom,ha,hab,hbp,bind,Except.bind,hm']
    · rw [hnext a hal,hab]
      exact hs'
    · simp only [List.map_cons,List.mem_cons] at hm ⊢
      exact .inr hm

/-- A cell of the list is unlinked. -/
theorem remove_holds {m : Mem α} {h : Option ℕ} {p : ℕ} {v : α} {l r : List (ℕ × α)} (hs : Holds m h (l++(p,v)::r))
    {fuel : ℕ} (hf : l.length ≤ fuel) :
    ∃ h' m', remove fuel m h p = .ok (h',m') ∧ Holds m' h' (l++r) ∧ m'.val = m.val ∧ m'.top = m.top ∧
      ∀ q, q ∉ l.map Prod.fst → m'.next q = m.next q := by
  cases l with
  | nil =>
    obtain ⟨rfl,hv,hr⟩ := Holds.cons_iff.mp hs
    refine ⟨m.next p,m,?_,hr,rfl,rfl,fun _ _ => rfl⟩
    simp [remove,hv,bind,Except.bind,pure,Except.pure]
  | cons a l =>
    obtain ⟨a,w⟩ := a
    obtain ⟨rfl,-,-⟩ := Holds.cons_iff.mp hs
    have hap : a ≠ p := fun he => by
      have hnd := hs.nodup
      simp [he] at hnd
    obtain ⟨m',hm',hs',hval,htop,hnext⟩ := removeFrom_holds hs (show l.length < fuel by simpa using hf)
    refine ⟨some a,m',?_,hs',hval,htop,hnext⟩
    simp [remove,hap,bind,Except.bind,pure,Except.pure,hm']

end SList
