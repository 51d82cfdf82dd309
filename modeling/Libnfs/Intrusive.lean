import Mathlib.Tactic

/-! Singly linked queues threaded through their elements, with a head and a tail pointer. `next` is the
memory of the links; an edit of it changes the queue it is made for, and none that has no element in
common with the edit. -/
namespace Intrusive

open Function

variable {π : Type*}

/-- Following the links from `h` gives the elements of the list, and then `e`. -/
def Seg (next : π → Option π) : Option π → List π → Option π → Prop
  | h, [], e => h = e
  | h, a::l, e => h = some a ∧ Seg next (next a) l e

theorem seg_append {next : π → Option π} {h e : Option π} {l m : List π} :
    Seg next h (l++m) e ↔ ∃ x, Seg next h l x ∧ Seg next x m e := by
  induction l generalizing h with
  | nil => simp [Seg]
  | cons a l ih =>
    simp only [List.cons_append,Seg,ih]
    constructor
    · rintro ⟨ha,x,hl,hm⟩
      exact ⟨x,⟨ha,hl⟩,hm⟩
    · rintro ⟨x,⟨ha,hl⟩,hm⟩
      exact ⟨ha,x,hl,hm⟩

theorem Seg.congr {next next' : π → Option π} {h e : Option π} {l : List π} (hs : Seg next h l e)
    (hn : ∀ p ∈ l, next' p = next p) : Seg next' h l e := by
  induction l generalizing h with
  | nil => exact hs
  | cons a l ih =>
    refine ⟨hs.1,?_⟩
    rw [hn a List.mem_cons_self]
    exact ih hs.2 fun p hp => hn p (List.mem_cons_of_mem a hp)

theorem Seg.unique {next : π → Option π} {h e e' : Option π} {l : List π} (hs : Seg next h l e) (hs' : Seg next h l e') :
    e = e' := by
  induction l generalizing h with
  | nil => exact hs.symm.trans hs'
  | cons a l ih => exact ih hs.2 hs'.2

theorem Seg.list_unique {next : π → Option π} {h : Option π} {l l' : List π} (hs : Seg next h l none)
    (hs' : Seg next h l' none) : l = l' := by
  induction l generalizing h l' with
  | nil =>
    cases l' with
    | nil => rfl
    | cons a l' => exact absurd ((show h = none from hs).symm.trans hs'.1) (by simp)
  | cons a l ih =>
    obtain ⟨rfl,hs⟩ := hs
    cases l' with
    | nil => exact absurd hs' (by simp [Seg])
    | cons b l' =>
      obtain ⟨hb,hs'⟩ := hs'
      obtain rfl := Option.some.inj hb
      rw [ih hs hs']

/-- Links that come to an end do not run in a circle. -/
theorem Seg.nodup {next : π → Option π} {h : Option π} {l : List π} (hs : Seg next h l none) : l.Nodup := by
  induction l generalizing h with
  | nil => exact List.nodup_nil
  | cons a l ih =>
    refine List.nodup_cons.mpr ⟨fun ha => ?_,ih hs.2⟩
    obtain ⟨pre,post,rfl⟩ := List.append_of_mem ha
    obtain ⟨x,-,hx⟩ := seg_append.mp hs.2
    obtain ⟨rfl,hpost⟩ := hx
    have hl := hs.2.list_unique hpost
    have hlen := congrArg List.length hl
    simp at hlen
    omega

theorem Seg.head {next : π → Option π} {h : Option π} {l : List π} (hs : Seg next h l none) : h = l.head? := by
  cases l with
  | nil => exact hs
  | cons a l => exact hs.1

/-- Following the links from `h`, the first element with `P` is `q`. -/
inductive First (next : π → Option π) (P : π → Prop) : Option π → π → Prop
  | here {q : π} : P q → First next P (some q) q
  | there {p q : π} : ¬ P p → First next P (next p) q → First next P (some p) q

theorem first_iff {next : π → Option π} {P : π → Prop} {h : Option π} {l : List π} (hs : Seg next h l none)
    {q : π} : First next P h q ↔ ∃ pre post, l = pre++q::post ∧ (∀ x ∈ pre, ¬ P x) ∧ P q := by
  induction l generalizing h with
  | nil =>
    have hh : h = none := hs
    subst hh
    constructor
    · intro hf
      cases hf
    · rintro ⟨pre,post,hl,-⟩
      simp at hl
  | cons a l ih =>
    obtain ⟨rfl,hs⟩ := hs
    constructor
    · intro hf
      cases hf with
      | here hq => exact ⟨[],l,rfl,by simp,hq⟩
      | there ha hf =>
        obtain ⟨pre,post,rfl,hpre,hq⟩ := (ih hs).mp hf
        exact ⟨a::pre,post,rfl,by simpa [ha] using hpre,hq⟩
    · rintro ⟨pre,post,hl,hpre,hq⟩
      cases pre with
      | nil =>
        obtain ⟨rfl,rfl⟩ := List.cons.inj hl
        exact .here hq
      | cons b pre =>
        obtain ⟨rfl,rfl⟩ := List.cons.inj hl
        exact .there (hpre a List.mem_cons_self)
          ((ih hs).mpr ⟨pre,post,rfl,fun x hx => hpre x (List.mem_cons_of_mem a hx),hq⟩)

theorem first_eq_iff {next : π → Option π} {h : Option π} {l : List π} (hs : Seg next h l none) {p : π} :
    First next (· = p) h p ↔ p ∈ l := by
  rw [first_iff hs]
  constructor
  · rintro ⟨pre,post,rfl,-⟩
    simp
  · intro hp
    obtain ⟨pre,post,hl,hpre⟩ := List.eq_append_cons_of_mem hp
    exact ⟨pre,post,hl,fun x hx he => hpre (he ▸ hx),rfl⟩

/-- The element `p` behind the first one -/
def insertSecond (p : π) : List π → List π
  | [] => [p]
  | a::l => a::p::l

theorem mem_insertSecond {p x : π} {l : List π} : x ∈ insertSecond p l ↔ x = p ∨ x ∈ l := by
  cases l with
  | nil => simp [insertSecond]
  | cons a l =>
    simp only [insertSecond,List.mem_cons]
    tauto

/-- A queue: its first and its last element -/
structure Queue (π : Type*) where
  head : Option π
  tail : Option π
  deriving DecidableEq, Repr

/-- `q` is the queue of the elements `l`. -/
structure Queue.Holds (next : π → Option π) (q : Queue π) (l : List π) : Prop where
  seg : Seg next q.head l none
  tail : q.tail = l.getLast?
  nodup : l.Nodup

namespace Queue.Holds

variable {next next' : π → Option π} {q : Queue π} {l m : List π} {p a : π}

theorem empty : (⟨none,none⟩ : Queue π).Holds next [] := ⟨rfl,rfl,List.nodup_nil⟩

theorem congr (h : q.Holds next l) (hn : ∀ p ∈ l, next' p = next p) : q.Holds next' l :=
  ⟨h.seg.congr hn,h.tail,h.nodup⟩

theorem head (h : q.Holds next l) : q.head = l.head? := h.seg.head

/-- The first element is taken away. -/
theorem pop (h : q.Holds next (p::l)) :
    (⟨next p,if next p = none then none else q.tail⟩ : Queue π).Holds next l := by
  refine ⟨h.seg.2,?_,h.nodup.of_cons⟩
  have hn := h.seg.2.head
  cases l with
  | nil => simp [hn]
  | cons b l =>
    rw [hn,h.tail]
    simp

variable [DecidableEq π]

theorem single (next : π → Option π) (p : π) : (⟨some p,some p⟩ : Queue π).Holds (update next p none) [p] :=
  ⟨⟨rfl,by simp [Seg]⟩,rfl,List.nodup_singleton p⟩

/-- An element behind the last one -/
theorem push (h : q.Holds next (l++[a])) (hp : p ∉ l++[a]) :
    (⟨q.head,some p⟩ : Queue π).Holds (update (update next a (some p)) p none) (l++[a]++[p]) := by
  have hpa : a ≠ p := fun he => hp (by simp [he])
  have hnd := List.nodup_append.mp h.nodup
  refine ⟨?_,by simp,?_⟩
  · rw [seg_append]
    refine ⟨some p,?_,rfl,by simp [Seg]⟩
    obtain ⟨x,hl,ha⟩ := seg_append.mp h.seg
    refine seg_append.mpr ⟨x,hl.congr fun b hb => ?_,ha.1,?_⟩
    · have hba : b ≠ a := hnd.2.2 b hb a (by simp)
      have hbp : b ≠ p := fun he => hp (by simp [← he,hb])
      rw [update_of_ne hbp,update_of_ne hba]
    · show update (update next a (some p)) p none a = some p
      rw [update_of_ne hpa,update_self]
  · rw [List.nodup_append]
    refine ⟨h.nodup,List.nodup_singleton p,fun b hb c hc he => ?_⟩
    rw [List.mem_singleton.mp hc] at he
    exact hp (he ▸ hb)

/-- An element behind the first of several -/
theorem insert (h : q.Holds next (a::m)) (hm : m ≠ []) (hp : p ∉ a::m) :
    q.Holds (update (update next p (next a)) a (some p)) (a::p::m) := by
  have hpa : p ≠ a := fun he => hp (by simp [he])
  refine ⟨⟨h.seg.1,?_,?_⟩,?_,?_⟩
  · rw [update_self]
  · rw [update_of_ne hpa,update_self]
    apply h.seg.2.congr
    intro b hb
    have hba : b ≠ a := fun he => (List.nodup_cons.mp h.nodup).1 (he ▸ hb)
    have hbp : b ≠ p := fun he => hp (by simp [← he,hb])
    rw [update_of_ne hba,update_of_ne hbp]
  · rw [h.tail]
    obtain ⟨b,m,rfl⟩ := List.exists_cons_of_ne_nil hm
    simp
  · have hnd := List.nodup_cons.mp h.nodup
    simp only [List.mem_cons,not_or] at hp
    simp [hnd.1,hnd.2,hp.2,Ne.symm hpa]

/-- The first element, as one that is unlinked -/
theorem unlink_head (h : q.Holds next (p::m)) :
    (⟨next p,if q.tail = some p then none else q.tail⟩ : Queue π).Holds (update next p none) m := by
  have hnd := List.nodup_cons.mp h.nodup
  refine ⟨?_,?_,hnd.2⟩
  · apply h.seg.2.congr
    intro b hb
    have hbp : b ≠ p := fun he => hnd.1 (he ▸ hb)
    rw [update_of_ne hbp]
  · rw [h.tail]
    cases m with
    | nil => simp
    | cons b m =>
      rw [List.getLast?_cons_cons,if_neg]
      intro he
      exact hnd.1 (List.mem_of_getLast? he)

/-- Another element is unlinked: `a` is the one before it. -/
theorem unlink (h : q.Holds next (l++a::p::m)) :
    (⟨q.head,if q.tail = some p then some a else q.tail⟩ : Queue π).Holds
      (update (update next a (next p)) p none) (l++a::m) := by
  have hnd := h.nodup
  rw [List.nodup_append] at hnd
  obtain ⟨hl,hapm,hdis⟩ := hnd
  have hap := List.nodup_cons.mp hapm
  have hpm := List.nodup_cons.mp hap.2
  have hne : a ≠ p := fun he => hap.1 (by simp [he])
  refine ⟨?_,?_,?_⟩
  · obtain ⟨x,hx,hrest⟩ := seg_append.mp h.seg
    refine seg_append.mpr ⟨x,hx.congr fun b hb => ?_,hrest.1,?_⟩
    · rw [update_of_ne (hdis b hb p (by simp)),update_of_ne (hdis b hb a (by simp))]
    · rw [update_of_ne hne,update_self]
      apply hrest.2.2.congr
      intro b hb
      have hbp : b ≠ p := fun he => hpm.1 (he ▸ hb)
      have hba : b ≠ a := fun he => hap.1 (by simp [← he,hb])
      rw [update_of_ne hbp,update_of_ne hba]
  · rw [h.tail]
    cases m with
    | nil => simp
    | cons b m =>
      simp only [List.getLast?_append_cons,List.getLast?_cons_cons]
      rw [if_neg]
      intro he
      exact hpm.1 (List.mem_of_getLast? he)
  · exact List.Nodup.sublist ((List.sublist_cons_self p m).cons_cons a |>.append_left l) h.nodup

end Queue.Holds

end Intrusive
