import Libnfs.Links

/-! What the queue functions do to the lists that the links spell. -/
namespace Libnfs
namespace Links

open Intrusive Transition Function

namespace Ctx

/-- The queues spell the lists `l`: chains without a PDU in common or one that is freed, each PDU of a
wait chain in the chain of its xid. -/
structure Shape (c : Ctx) (l : Loc → List ℕ) : Prop where
  holds : ∀ a, (c.queue a).Holds c.next (l a)
  apart : ∀ a b, a ≠ b → ∀ p ∈ l a, p ∉ l b
  hashed : ∀ h, ∀ p ∈ l (.wait h), c.rpcHashXid (c.xids p) = h
  known : ∀ a, ∀ p ∈ l a, p < c.fresh
  live : ∀ a, ∀ p ∈ l a, p ∉ c.freed
  spent : ∀ p ∈ c.freed, p < c.fresh

/-- A PDU that is in no queue, and alive -/
structure Loose (c : Ctx) (l : Loc → List ℕ) (p : ℕ) : Prop where
  unlinked : ∀ b, p ∉ l b
  known : p < c.fresh
  live : p ∉ c.freed

/-- The context with another queue `a`, and other links -/
def edited (c : Ctx) (a : Loc) (q : Queue ℕ) (next : ℕ → Option ℕ) : Ctx :=
  { c with queue := update c.queue a q, next := next }

variable {c : Ctx} {l : Loc → List ℕ} {a : Loc} {p : ℕ}

/-- The queue `a` holds `m` now, the PDUs of which were in it before or in none, and the links of the
other queues are as they were. -/
theorem Shape.edit (h : c.Shape l) {q : Queue ℕ} {next : ℕ → Option ℕ} {m : List ℕ}
    (hn : ∀ b, b ≠ a → ∀ x ∈ l b, next x = c.next x) (hq : q.Holds next m)
    (hm : ∀ x ∈ m, x ∈ l a ∨ (c.Loose l x ∧ ∀ k, a = .wait k → c.rpcHashXid (c.xids x) = k)) :
    (c.edited a q next).Shape (update l a m) := by
  have hsplit : ∀ b, ∀ x ∈ update l a m b, x ∈ l b ∨ (b = a ∧ c.Loose l x ∧
      ∀ k, a = .wait k → c.rpcHashXid (c.xids x) = k) := by
    intro b x hx
    by_cases hb : b = a
    · rw [hb,update_self] at hx
      rw [hb]
      exact (hm x hx).imp id fun h => ⟨rfl,h⟩
    · rw [update_of_ne hb] at hx
      exact .inl hx
  refine ⟨fun b => ?_,fun b b' hb x hx hx' => ?_,fun k x hx => ?_,fun b x hx => ?_,fun b x hx => ?_,h.spent⟩
  · by_cases hb : b = a
    · subst hb
      show (update c.queue b q b).Holds next _
      rw [update_self,update_self]
      exact hq
    · show (update c.queue a q b).Holds next _
      rw [update_of_ne hb,update_of_ne hb]
      exact (h.holds b).congr (hn b hb)
  · rcases hsplit b x hx with hx | ⟨hba,hl,-⟩
    · rcases hsplit b' x hx' with hx' | ⟨-,hl,-⟩
      · exact h.apart b b' hb x hx hx'
      · exact hl.unlinked b hx
    · rcases hsplit b' x hx' with hx' | ⟨hba',-⟩
      · exact hl.unlinked b' hx'
      · exact hb (hba.trans hba'.symm)
  · rcases hsplit _ x hx with hx | ⟨hk,-,hh⟩
    · exact h.hashed k x hx
    · exact hh k hk.symm
  · rcases hsplit b x hx with hx | ⟨-,hl,-⟩
    · exact h.known b x hx
    · exact hl.known
  · rcases hsplit b x hx with hx | ⟨-,hl,-⟩
    · exact h.live b x hx
    · exact hl.live

/-- Links that differ only in `x`, `y` and `p`, where `x` and `y` are of the queue `a` -/
theorem Shape.update_next (h : c.Shape l) (hp : ∀ b, b ≠ a → p ∉ l b) {x : ℕ} (hx : x ∈ l a) (n n' : Option ℕ) :
    ∀ b, b ≠ a → ∀ y ∈ l b, update (update c.next x n) p n' y = c.next y := by
  intro b hb y hy
  have hyp : y ≠ p := fun he => hp b hb (he ▸ hy)
  have hyx : y ≠ x := fun he => h.apart b a hb y hy (he ▸ hx)
  rw [update_of_ne hyp,update_of_ne hyx]

theorem rpcEnqueue_spec (h : c.Shape l) (hp : c.Loose l p) (ha : ∀ k, a = .wait k → c.rpcHashXid (c.xids p) = k) :
    ∃ q next, c.rpcEnqueue a p = some (c.edited a q next) ∧
      (c.edited a q next).Shape (update l a (l a ++ [p])) := by
  have hq := h.holds a
  have hhead := hq.head
  have htail := hq.tail
  have hmem : ∀ x ∈ l a ++ [p], x ∈ l a ∨ (c.Loose l x ∧ ∀ k, a = .wait k → c.rpcHashXid (c.xids x) = k) := by
    intro x hx
    rcases List.mem_append.mp hx with hx | hx
    · exact .inl hx
    · rw [List.mem_singleton.mp hx]
      exact .inr ⟨hp,ha⟩
  unfold rpcEnqueue
  rcases List.eq_nil_or_concat (l a) with hnil | ⟨m,t,hl⟩
  · have hs := Queue.Holds.single c.next p
    rw [hnil] at hhead htail
    simp only [List.head?_nil,List.getLast?_nil] at hhead htail
    rw [hhead,htail]
    refine ⟨_,_,rfl,h.edit (fun b _ x hx => ?_) (by rw [hnil]; exact hs) hmem⟩
    exact update_of_ne (fun he => hp.unlinked b (by rw [← he]; exact hx)) _ _
  · rw [List.concat_eq_append] at hl
    have hpush : (⟨(c.queue a).head,some p⟩ : Queue ℕ).Holds (update (update c.next t (some p)) p none)
        (l a ++ [p]) := by
      rw [hl] at hq ⊢
      exact hq.push (fun hx => hp.unlinked a (by rw [hl]; exact hx))
    have ht : t ∈ l a := by
      rw [hl]
      simp
    obtain ⟨x,hx⟩ : ∃ x, (l a).head? = some x := by
      rw [hl]
      exact ⟨_,List.head?_eq_some_head (by simp)⟩
    rw [hx] at hhead
    have htt : (c.queue a).tail = some t := by
      rw [htail,hl]
      simp
    rw [hhead] at hpush
    rw [hhead,htt]
    have hne : ¬ (p = x ∨ p = t) := by
      rintro (he | he)
      · exact hp.unlinked a (by rw [he]; exact List.mem_of_head? hx)
      · exact hp.unlinked a (by rw [he]; exact ht)
    refine ⟨⟨some x,some p⟩,update (update c.next t (some p)) p none,?_,
      h.edit (h.update_next (fun b _ => hp.unlinked b) ht _ _) hpush hmem⟩
    simp only [if_neg hne]
    rfl

theorem rpcReturnToOutqueue_spec (h : c.Shape l) (hp : c.Loose l p) :
    ∃ q next, c.rpcReturnToOutqueue p = c.edited .out q next ∧
      (c.edited .out q next).Shape (update l .out (insertSecond p (l .out))) ∧
      ∀ x, x ∉ l .out → x ≠ p → next x = c.next x := by
  have hq := h.holds .out
  have hhead := hq.head
  have htail := hq.tail
  have hmem : ∀ x ∈ insertSecond p (l .out), x ∈ l .out ∨
      (c.Loose l x ∧ ∀ k, Loc.out = .wait k → c.rpcHashXid (c.xids x) = k) := by
    intro x hx
    rcases mem_insertSecond.mp hx with rfl | hx
    · exact .inr ⟨hp,fun k hk => by simp at hk⟩
    · exact .inl hx
  have hpo : ∀ b, b ≠ .out → p ∉ l b := fun b _ => hp.unlinked b
  unfold rpcReturnToOutqueue
  cases hl : l .out with
  | nil =>
    rw [hl,List.head?_nil] at hhead
    rw [hhead]
    refine ⟨⟨some p,some p⟩,update c.next p none,rfl,h.edit (fun b _ x hx => ?_) (.single c.next p) ?_,
      fun x _ hx => update_of_ne hx _ _⟩
    · exact update_of_ne (fun he => hp.unlinked b (by rw [← he]; exact hx)) _ _
    · exact fun x hx => hmem x (by rw [hl]; exact hx)
  | cons a m =>
    have ha : a ∈ l .out := by
      rw [hl]
      exact List.mem_cons_self
    have hpa : p ∉ a::m := by
      rw [← hl]
      exact hp.unlinked .out
    have hmem : ∀ x ∈ insertSecond p (a::m), x ∈ l .out ∨
        (c.Loose l x ∧ ∀ k, Loc.out = .wait k → c.rpcHashXid (c.xids x) = k) :=
      fun x hx => hmem x (by rw [hl]; exact hx)
    rw [hl] at hq hhead htail
    rw [List.head?_cons] at hhead
    rw [hhead]
    cases m with
    | nil =>
      have hpush := Queue.Holds.push (l := []) hq hpa
      rw [hhead] at hpush
      simp only [htail,List.getLast?_singleton,if_pos]
      refine ⟨⟨some a,some p⟩,update (update c.next a (some p)) p none,rfl,
        h.edit (h.update_next hpo ha _ _) hpush hmem,fun x hx hxp => ?_⟩
      have hxa : x ≠ a := fun he => hx (by simp [he])
      rw [update_of_ne hxp,update_of_ne hxa]
    | cons b m =>
      have hins := hq.insert (by simp) hpa
      have hne : (c.queue .out).tail ≠ some a := by
        rw [htail,List.getLast?_cons_cons]
        intro he
        exact (List.nodup_cons.mp hq.nodup).1 (List.mem_of_getLast? he)
      simp only [if_neg hne]
      refine ⟨c.queue .out,update (update c.next p (c.next a)) a (some p),?_,
        h.edit (fun b hb y hy => ?_) hins hmem,fun x hx hxp => ?_⟩
      · rw [edited,update_eq_self]
        rfl
      · have hyp : y ≠ p := fun he => hp.unlinked b (he ▸ hy)
        have hya : y ≠ a := fun he => h.apart b .out hb y hy (he ▸ ha)
        rw [update_of_ne hya,update_of_ne hyp]
      · have hxa : x ≠ a := fun he => hx (by simp [he])
        rw [update_of_ne hxa,update_of_ne hxp]

/-- The walk to the element before `p` -/
theorem before_spec {next : ℕ → Option ℕ} {pre post : List ℕ} {x : ℕ} (hpre : p ∉ pre++[x]) {h : ℕ}
    (hs : Seg next (some h) (pre++x::p::post) none) (fuel : ℕ) (hf : pre.length < fuel) :
    before next p fuel h = some (some x) := by
  induction pre generalizing h fuel with
  | nil =>
    obtain ⟨k,rfl⟩ := Nat.exists_eq_add_one_of_ne_zero (by omega : fuel ≠ 0)
    have hh := hs.1
    simp only [Option.some.injEq] at hh
    subst hh
    rw [before,hs.2.1]
    simp
  | cons b pre ih =>
    simp only [List.length_cons] at hf
    obtain ⟨k,rfl⟩ := Nat.exists_eq_add_one_of_ne_zero (by omega : fuel ≠ 0)
    have hh := hs.1
    simp only [Option.some.injEq] at hh
    subst hh
    have hrest : Seg next (next h) (pre++x::p::post) none := hs.2
    have hpre' : p ∉ pre++[x] := fun hp => hpre (List.mem_cons_of_mem h hp)
    obtain ⟨y,hy,hmem⟩ : ∃ y, next h = some y ∧ y ∈ pre++[x] := by
      have hhead := hrest.head
      cases pre with
      | nil => exact ⟨x,hhead,by simp⟩
      | cons d pre => exact ⟨d,hhead,by simp⟩
    have hyp : y ≠ p := fun he => hpre' (he ▸ hmem)
    rw [hy] at hrest
    rw [before,hy]
    simp only [if_neg hyp]
    exact ih hpre' hrest k (by omega)

theorem Shape.length_le (h : c.Shape l) (a : Loc) : (l a).length ≤ c.fresh := by
  have hsub : (l a) ⊆ List.range c.fresh := fun x hx => List.mem_range.mpr (h.known a x hx)
  have hle := (List.subperm_of_subset (h.holds a).nodup hsub).length_le
  rwa [List.length_range] at hle

/-- A PDU of the queue is taken out of it. -/
theorem rpcRemovePduFromQueue_spec (h : c.Shape l) (hp : p ∈ l a) :
    ∃ q next, c.rpcRemovePduFromQueue a p = some (c.edited a q next) ∧
      (c.edited a q next).Shape (update l a ((l a).erase p)) := by
  have hq := h.holds a
  have hhead := hq.head
  have htail := hq.tail
  have hle := h.length_le a
  have hmem : ∀ x ∈ (l a).erase p, x ∈ l a ∨ (c.Loose l x ∧ ∀ k, a = .wait k → c.rpcHashXid (c.xids x) = k) :=
    fun x hx => .inl (List.mem_of_mem_erase hx)
  have hpo : ∀ b, b ≠ a → p ∉ l b := fun b hb => h.apart a b (Ne.symm hb) p hp
  obtain ⟨pre,post,hl,hpre⟩ := List.eq_append_cons_of_mem hp
  have herase : (l a).erase p = pre++post := by
    rw [hl,List.erase_append_right _ hpre,List.erase_cons_head]
  obtain ⟨t,ht⟩ : ∃ t, (c.queue a).tail = some t := by
    rw [htail,hl]
    exact ⟨_,List.getLast?_eq_some_getLast (by simp)⟩
  rw [herase] at hmem ⊢
  unfold rpcRemovePduFromQueue
  rcases List.eq_nil_or_concat pre with hnil | ⟨m,x,hm⟩
  · subst hnil
    rw [List.nil_append] at hl hmem ⊢
    rw [hl,List.head?_cons] at hhead
    rw [hl] at hq
    have hun := hq.unlink_head
    have hnext : c.next p = post.head? := hq.seg.2.head
    rw [hhead,ht]
    simp only [if_true]
    by_cases htp : t = p
    · have hpost : post = [] := by
        cases post with
        | nil => rfl
        | cons b post =>
          rw [hl,ht,htp,List.getLast?_cons_cons] at htail
          exact absurd (List.mem_of_getLast? htail.symm) (List.nodup_cons.mp hq.nodup).1
      subst hpost
      rw [List.head?_nil] at hnext
      rw [if_pos htp,if_pos hnext]
      rw [hnext,ht,htp,if_pos rfl] at hun
      exact ⟨_,_,rfl,h.edit (fun b hb x hx => update_of_ne (fun he => hpo b hb (by rw [← he]; exact hx)) _ _) hun hmem⟩
    · have hnn : c.next p ≠ none := by
        rw [hnext]
        cases post with
        | nil =>
          rw [hl,ht] at htail
          simp only [List.getLast?_singleton,Option.some.injEq] at htail
          exact absurd htail htp
        | cons b post => simp
      rw [if_neg htp,if_neg hnn]
      have hne : (c.queue a).tail ≠ some p := by
        rw [ht]
        simpa using htp
      rw [if_neg hne,ht] at hun
      exact ⟨_,_,rfl,h.edit (fun b hb x hx => update_of_ne (fun he => hpo b hb (by rw [← he]; exact hx)) _ _) hun hmem⟩
  · rw [List.concat_eq_append] at hm
    subst hm
    rw [List.append_assoc,List.cons_append,List.nil_append] at hl hmem ⊢
    obtain ⟨y,hy,hmy⟩ : ∃ y, (l a).head? = some y ∧ y ∈ m++[x] := by
      rw [hl]
      cases m with
      | nil => exact ⟨x,rfl,by simp⟩
      | cons d m => exact ⟨d,rfl,by simp⟩
    have hyp : y ≠ p := fun he => hpre (he ▸ hmy)
    have hx : x ∈ l a := by
      rw [hl]
      simp
    have hseg := hq.seg
    rw [hhead,hy,hl] at hseg
    rw [hl] at hq hle
    have hb := before_spec hpre hseg (c.fresh+1) (by simp at hle; omega)
    have hun := hq.unlink
    rw [hhead,hy,ht] at hun
    simp only [Option.some.injEq] at hun
    rw [hhead,hy,ht]
    simp only [if_neg hyp,hb]
    exact ⟨_,_,rfl,h.edit (h.update_next hpo hx _ _) hun hmem⟩

/-- The search along a chain -/
theorem search_spec (c : Ctx) (xid : ℕ) (prev : Option ℕ) {m : List ℕ} {cur : Option ℕ} (hs : Seg c.next cur m none) (fuel : ℕ)
    (hf : m.length < fuel) :
    (c.search xid fuel prev cur = some none ∧ ∀ x ∈ m, c.xids x ≠ xid) ∨
    ∃ pre p post, m = pre++p::post ∧ (∀ x ∈ pre, c.xids x ≠ xid) ∧ c.xids p = xid ∧
      c.search xid fuel prev cur = some (some (p,if pre = [] then prev else pre.getLast?)) := by
  induction m generalizing cur prev fuel with
  | nil =>
    obtain ⟨k,rfl⟩ := Nat.exists_eq_add_one_of_ne_zero (by omega : fuel ≠ 0)
    have hc : cur = none := hs
    subst hc
    exact .inl ⟨rfl,by simp⟩
  | cons x m ih =>
    simp only [List.length_cons] at hf
    obtain ⟨k,rfl⟩ := Nat.exists_eq_add_one_of_ne_zero (by omega : fuel ≠ 0)
    obtain ⟨rfl,hs⟩ := hs
    by_cases hx : c.xids x = xid
    · exact .inr ⟨[],x,m,rfl,by simp,hx,by rw [search,if_pos hx]; rfl⟩
    · rw [search,if_neg hx]
      rcases @ih (some x) (c.next x) hs k (by omega) with ⟨hn,hall⟩ | ⟨pre,p,post,rfl,hpre,hp,hfound⟩
      · exact .inl ⟨hn,by simpa [hx] using hall⟩
      · refine .inr ⟨x::pre,p,post,rfl,by simpa [hx] using hpre,hp,?_⟩
        rw [hfound]
        cases pre with
        | nil => rfl
        | cons d pre => simp

/-- A found PDU that is taken out of its queue -/
theorem take_spec (h : c.Shape l) {pre post : List ℕ} (hl : l a = pre++p::post)
    (hu : (c.isUdp && c.isBroadcast) = false) :
    ∃ q next, c.take a p (if pre = [] then none else pre.getLast?) = c.edited a q next ∧
      (c.edited a q next).Shape (update l a ((l a).erase p)) := by
  have hq := h.holds a
  have hp : p ∈ l a := by
    rw [hl]
    simp
  have hpo : ∀ b, b ≠ a → p ∉ l b := fun b hb => h.apart a b (Ne.symm hb) p hp
  have hpre : p ∉ pre := by
    have hnd := hq.nodup
    rw [hl,List.nodup_append] at hnd
    exact fun hx => hnd.2.2 p hx p (by simp) rfl
  have herase : (l a).erase p = pre++post := by
    rw [hl,List.erase_append_right _ hpre,List.erase_cons_head]
  have hmem : ∀ x ∈ pre++post, x ∈ l a ∨ (c.Loose l x ∧ ∀ k, a = .wait k → c.rpcHashXid (c.xids x) = k) := by
    rw [← herase]
    exact fun x hx => .inl (List.mem_of_mem_erase hx)
  rw [herase]
  unfold take
  rw [hu]
  simp only [Bool.false_eq_true,if_false]
  rcases List.eq_nil_or_concat pre with hnil | ⟨m,x,hm⟩
  · subst hnil
    rw [hl] at hq
    have hun := hq.unlink_head
    have hhead : (c.queue a).head = some p := hq.head
    simp only [if_true,hhead]
    exact ⟨_,_,rfl,h.edit (fun b hb x hx => update_of_ne (fun he => hpo b hb (by rw [← he]; exact hx)) _ _) hun hmem⟩
  · rw [List.concat_eq_append] at hm
    subst hm
    rw [List.append_assoc,List.cons_append,List.nil_append] at hl hmem ⊢
    have hx : x ∈ l a := by
      rw [hl]
      simp
    have hhead : (c.queue a).head ≠ some p := by
      rw [hq.head,hl]
      cases m with
      | nil =>
        intro he
        exact hpre (by simp [Option.some.inj he])
      | cons d m =>
        intro he
        exact hpre (by simp [← Option.some.inj he])
    rw [hl] at hq
    have hun := hq.unlink
    have hlast : (if m++[x] = [] then none else (m++[x]).getLast?) = some x := by simp
    rw [hlast]
    simp only [if_neg hhead]
    exact ⟨_,_,rfl,h.edit (h.update_next hpo hx _ _) hun hmem⟩

end Ctx
end Links
end Libnfs
