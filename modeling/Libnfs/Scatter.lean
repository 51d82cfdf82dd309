import Mathlib.Tactic

/-! Scattering a byte string over a list of memory vectors. `skip` is what is left of
the vectors after some bytes, `trim` the vectors cut down to a total length. -/
namespace Scatter

variable {α : Type*}

structure Vec where
  base : ℕ
  len : ℕ
  deriving DecidableEq, Repr

def total (vs : List Vec) : ℕ := (vs.map Vec.len).sum

@[simp] theorem total_nil : total [] = 0 := rfl
@[simp] theorem total_cons (v : Vec) (vs : List Vec) : total (v::vs) = v.len + total vs := by
  simp [total]

/-- Store `bs` from address `base` on. -/
def poke (mem : ℕ → α) (base : ℕ) (bs : List α) : ℕ → α :=
  fun a => if base ≤ a then (bs[a-base]?).getD (mem a) else mem a

def scatter (mem : ℕ → α) : List Vec → List α → (ℕ → α)
  | [], _ => mem
  | v::vs, bs => scatter (poke mem v.base (bs.take v.len)) vs (bs.drop v.len)

def skip : List Vec → ℕ → List Vec
  | vs, 0 => vs
  | [], _+1 => []
  | v::vs, n+1 => if n+1 < v.len then ⟨v.base+(n+1),v.len-(n+1)⟩::vs else skip vs (n+1-v.len)

def trim : List Vec → ℕ → List Vec
  | _, 0 => []
  | [], _+1 => []
  | v::vs, n+1 => if v.len ≤ n+1 then v::trim vs (n+1-v.len) else [⟨v.base,n+1⟩]

@[simp] theorem skip_zero (vs : List Vec) : skip vs 0 = vs := by cases vs <;> rfl
@[simp] theorem trim_zero (vs : List Vec) : trim vs 0 = [] := by cases vs <;> rfl
@[simp] theorem skip_nil (n : ℕ) : skip [] n = [] := by cases n <;> rfl
@[simp] theorem trim_nil (n : ℕ) : trim [] n = [] := by cases n <;> rfl

theorem skip_cons (v : Vec) (vs : List Vec) (n : ℕ) (hn : 0 < n) :
    skip (v::vs) n = if n < v.len then ⟨v.base+n,v.len-n⟩::vs else skip vs (n-v.len) := by
  cases n with
  | zero => omega
  | succ n => rfl

theorem trim_cons (v : Vec) (vs : List Vec) (n : ℕ) (hn : 0 < n) :
    trim (v::vs) n = if v.len ≤ n then v::trim vs (n-v.len) else [⟨v.base,n⟩] := by
  cases n with
  | zero => omega
  | succ n => rfl

theorem poke_nil (mem : ℕ → α) (base : ℕ) : poke mem base [] = mem := by
  funext a
  simp [poke]

theorem poke_append (mem : ℕ → α) (base : ℕ) (a b : List α) :
    poke (poke mem base a) (base+a.length) b = poke mem base (a++b) := by
  funext x
  simp only [poke]
  by_cases hx : base ≤ x
  · by_cases hy : base+a.length ≤ x
    · have hax : a[x-base]? = none := List.getElem?_eq_none (by omega)
      have hab : (a++b)[x-base]? = b[x-(base+a.length)]? := by
        rw [List.getElem?_append_right (by omega)]
        congr 1
        omega
      simp only [hx,hy,if_true,hax,hab,Option.getD_none]
    · have hab : (a++b)[x-base]? = a[x-base]? := List.getElem?_append_left (by omega)
      simp only [hx,hy,if_true,if_false,hab]
  · have hy : ¬ base+a.length ≤ x := by omega
    simp [hx,hy]

theorem scatter_nil_bytes (mem : ℕ → α) (vs : List Vec) : scatter mem vs [] = mem := by
  induction vs generalizing mem with
  | nil => rfl
  | cons v vs ih => simp [scatter,poke_nil,ih]

theorem total_skip (vs : List Vec) (n : ℕ) : total (skip vs n) = total vs - n := by
  induction vs generalizing n with
  | nil => simp
  | cons v vs ih =>
    rcases Nat.eq_zero_or_pos n with rfl | hn
    · simp
    · rw [skip_cons v vs n hn]
      split <;> simp only [total_cons,ih] <;> omega

theorem skip_skip (vs : List Vec) (m n : ℕ) : skip (skip vs m) n = skip vs (m+n) := by
  induction vs generalizing m n with
  | nil => simp
  | cons v vs ih =>
    rcases Nat.eq_zero_or_pos m with rfl | hm
    · simp
    rcases Nat.eq_zero_or_pos n with rfl | hn
    · simp
    rw [skip_cons v vs m hm,skip_cons v vs (m+n) (by omega)]
    by_cases hlt : m < v.len
    · rw [if_pos hlt,skip_cons _ _ n hn]
      dsimp only
      by_cases hlt' : m+n < v.len
      · rw [if_pos hlt',if_pos (show n < v.len-m by omega)]
        congr 2 <;> omega
      · rw [if_neg hlt',if_neg (show ¬ n < v.len-m by omega)]
        congr 1
        omega
    · rw [if_neg hlt,if_neg (show ¬ m+n < v.len by omega),ih]
      congr 1
      omega

/-- Two stores one after the other are one store of the joined bytes. -/
theorem scatter_append (mem : ℕ → α) (vs : List Vec) (a b : List α) :
    scatter (scatter mem vs a) (skip vs a.length) b = scatter mem vs (a++b) := by
  induction vs generalizing mem a with
  | nil => simp [scatter]
  | cons v vs ih =>
    rcases Nat.eq_zero_or_pos a.length with ha | ha
    · have : a = [] := List.length_eq_zero_iff.mp ha
      subst this
      simp [scatter_nil_bytes]
    rw [skip_cons v vs a.length ha]
    by_cases hlt : a.length < v.len
    · have htake : a.take v.len = a := List.take_of_length_le (by omega)
      have hdrop : a.drop v.len = [] := List.drop_of_length_le (by omega)
      have htake' : (a++b).take v.len = a ++ b.take (v.len-a.length) := by
        rw [List.take_append,htake]
      have hdrop' : (a++b).drop v.len = b.drop (v.len-a.length) := by
        rw [List.drop_append,hdrop,List.nil_append]
      rw [if_pos hlt]
      simp only [scatter,htake,hdrop,htake',hdrop',scatter_nil_bytes,poke_append]
    · have htake : (a++b).take v.len = a.take v.len :=
        List.take_append_of_le_length (by omega)
      have hdrop : (a++b).drop v.len = a.drop v.len ++ b :=
        List.drop_append_of_le_length (by omega)
      rw [if_neg hlt]
      simp only [scatter,htake,hdrop]
      have h := ih (poke mem v.base (a.take v.len)) (a.drop v.len)
      rwa [List.length_drop] at h

theorem total_trim (vs : List Vec) (n : ℕ) (h : n ≤ total vs) : total (trim vs n) = n := by
  induction vs generalizing n with
  | nil =>
    have hn : n = 0 := by simpa using h
    simp [hn]
  | cons v vs ih =>
    rcases Nat.eq_zero_or_pos n with rfl | hn
    · simp
    · rw [trim_cons v vs n hn]
      simp only [total_cons] at h
      split
      · rw [total_cons,ih (n-v.len) (by omega)]
        omega
      · simp

/-- Bytes that fit in the trimmed vectors land where the untrimmed ones put them. -/
theorem scatter_trim (mem : ℕ → α) (vs : List Vec) (n : ℕ) (bs : List α) (h : bs.length ≤ n) :
    scatter mem (trim vs n) bs = scatter mem vs bs := by
  induction vs generalizing mem n bs with
  | nil => simp
  | cons v vs ih =>
    rcases Nat.eq_zero_or_pos n with rfl | hn
    · have : bs = [] := List.length_eq_zero_iff.mp (by omega)
      subst this
      simp [scatter_nil_bytes]
    · rw [trim_cons v vs n hn]
      split
      · simp only [scatter]
        exact ih _ _ _ (by simp only [List.length_drop]; omega)
      · have hb : bs.take n = bs.take v.len := by
          rw [List.take_of_length_le (by omega),List.take_of_length_le (by omega)]
        have hd : bs.drop v.len = [] := List.drop_of_length_le (by omega)
        simp only [scatter,hb,hd,scatter_nil_bytes]

/-- The last vector, if there is one, is not empty. -/
def Tight (vs : List Vec) : Prop := ∀ v, vs.getLast? = some v → 0 < v.len

theorem Tight.of_cons {v : Vec} {vs : List Vec} (h : Tight (v::vs)) : Tight vs := by
  intro w hw
  cases vs with
  | nil => simp at hw
  | cons x vs => exact h w (by rw [List.getLast?_cons_cons]; exact hw)

theorem trim_total {vs : List Vec} (h : Tight vs) : trim vs (total vs) = vs := by
  induction vs with
  | nil => rfl
  | cons v vs ih =>
    have hpos : 0 < total (v::vs) := by
      cases vs with
      | nil => simpa using h v rfl
      | cons w vs =>
        have hw := ih h.of_cons
        by_contra hz
        have hz' : total (w::vs) = 0 := by
          simp only [total_cons] at hz ⊢
          omega
        rw [hz',trim_zero] at hw
        cases hw
    rw [trim_cons v vs _ hpos,total_cons,if_pos (by omega),Nat.add_sub_cancel_left,ih h.of_cons]

/-- Vectors that end in an empty one are not used up by as many bytes as they hold. -/
theorem skip_total_ne_nil {vs : List Vec} {v : Vec} (hv : vs.getLast? = some v) (hlen : v.len = 0) :
    skip vs (total vs) ≠ [] := by
  induction vs with
  | nil => simp at hv
  | cons w vs ih =>
    rcases Nat.eq_zero_or_pos (total (w::vs)) with hz | hpos
    · rw [hz,skip_zero]
      simp
    · rw [skip_cons w vs _ hpos,total_cons,if_neg (by omega),Nat.add_sub_cancel_left]
      cases vs with
      | nil =>
        obtain rfl : w = v := by simpa using hv
        simp [hlen] at hpos
      | cons x vs =>
        rw [List.getLast?_cons_cons] at hv
        exact ih hv

theorem trim_trim (vs : List Vec) {k n : ℕ} (h : n ≤ k) : trim (trim vs k) n = trim vs n := by
  induction vs generalizing k n with
  | nil => simp
  | cons v vs ih =>
    rcases Nat.eq_zero_or_pos n with rfl | hn
    · simp
    rw [trim_cons v vs k (by omega),trim_cons v vs n hn]
    by_cases hk : v.len ≤ k
    · rw [if_pos hk,trim_cons _ _ n hn,ih (by omega)]
    · rw [if_neg hk,trim_cons _ _ n hn,if_neg (by omega : ¬ v.len ≤ n)]
      dsimp only
      by_cases hnk : k ≤ n
      · obtain rfl : n = k := by omega
        simp
      · rw [if_neg hnk]

theorem skip_trim (vs : List Vec) {k m : ℕ} (h : m ≤ k) : skip (trim vs k) m = trim (skip vs m) (k-m) := by
  induction vs generalizing k m with
  | nil => simp
  | cons v vs ih =>
    rcases Nat.eq_zero_or_pos m with rfl | hm
    · simp
    rw [trim_cons v vs k (by omega),skip_cons v vs m hm]
    by_cases hk : v.len ≤ k
    · rw [if_pos hk,skip_cons _ _ m hm]
      by_cases hlt : m < v.len
      · rw [if_pos hlt,if_pos hlt,trim_cons _ _ (k-m) (by omega),if_pos (by dsimp only; omega)]
        congr 2
        dsimp only
        omega
      · rw [if_neg hlt,if_neg hlt,ih (by omega)]
        congr 1
        omega
    · rw [if_neg hk,skip_cons _ _ m hm,if_pos (by omega : m < v.len)]
      dsimp only
      by_cases hmk : m < k
      · rw [if_pos hmk,trim_cons _ _ (k-m) (by omega),if_neg (by dsimp only; omega)]
      · obtain rfl : m = k := by omega
        simp

/-- The addresses of the vectors, one after the other -/
def addrs (vs : List Vec) : List ℕ := vs.flatMap fun v => (List.range v.len).map (v.base + ·)

@[simp] theorem length_addrs (vs : List Vec) : (addrs vs).length = total vs := by
  induction vs with
  | nil => rfl
  | cons v vs ih => simpa [addrs] using ih

/-- Nothing is stored but at the first addresses. -/
theorem scatter_of_notMem (mem : ℕ → α) (vs : List Vec) (bs : List α) {a : ℕ} (ha : a ∉ (addrs vs).take bs.length) :
    scatter mem vs bs a = mem a := by
  induction vs generalizing mem bs with
  | nil => rfl
  | cons v vs ih =>
    have hsplit : (addrs (v::vs)).take bs.length =
        ((List.range v.len).map (v.base + ·)).take bs.length ++ (addrs vs).take (bs.length - v.len) := by
      simp [addrs,List.take_append]
    rw [hsplit,List.mem_append,not_or] at ha
    rw [scatter,ih _ _ (by rw [List.length_drop]; exact ha.2),poke]
    by_cases hb : v.base ≤ a
    · rw [if_pos hb]
      have hnone : (bs.take v.len)[a-v.base]? = none := by
        rw [List.getElem?_eq_none_iff,List.length_take]
        by_contra hlt
        apply ha.1
        rw [← List.map_take,List.take_range]
        exact List.mem_map.mpr ⟨a-v.base,List.mem_range.mpr (by omega),by omega⟩
      rw [hnone]
      rfl
    · rw [if_neg hb]

/-- What is at an address afterwards depends on the memory before at that address only. -/
theorem scatter_congr {mem mem' : ℕ → α} (vs : List Vec) (bs : List α) {a : ℕ} (h : mem a = mem' a) :
    scatter mem vs bs a = scatter mem' vs bs a := by
  induction vs generalizing mem mem' bs with
  | nil => exact h
  | cons v vs ih =>
    refine ih _ ?_
    unfold poke
    rw [h]

/-- Stores to vectors that have no address in common can be exchanged. -/
theorem scatter_comm (mem : ℕ → α) {vs ws : List Vec} (as bs : List α) (h : ∀ a ∈ addrs vs, a ∉ addrs ws) :
    scatter (scatter mem vs as) ws bs = scatter (scatter mem ws bs) vs as := by
  funext a
  by_cases ha : a ∈ addrs vs
  · rw [scatter_of_notMem _ ws bs fun hm => h a ha (List.mem_of_mem_take hm)]
    exact scatter_congr vs as (scatter_of_notMem mem ws bs fun hm => h a ha (List.mem_of_mem_take hm)).symm
  · rw [scatter_of_notMem (scatter mem ws bs) vs as fun hm => ha (List.mem_of_mem_take hm)]
    exact scatter_congr ws bs (scatter_of_notMem mem vs as fun hm => ha (List.mem_of_mem_take hm))

theorem map_poke (mem : ℕ → α) (base len : ℕ) (bs : List α) (h : bs.length ≤ len) :
    ((List.range len).map (base + ·)).map (poke mem base bs) =
      bs ++ (((List.range len).map (base + ·)).drop bs.length).map mem := by
  apply List.ext_getElem
  · simp only [List.length_map,List.length_range,List.length_append,List.length_drop]
    omega
  · intro i hi hi'
    simp only [List.getElem_map,List.getElem_range,poke,Nat.le_add_right,if_true,Nat.add_sub_cancel_left]
    by_cases hb : i < bs.length
    · rw [List.getElem_append_left hb,List.getElem?_eq_getElem hb,Option.getD_some]
    · rw [List.getElem_append_right (by omega),List.getElem?_eq_none (by omega),Option.getD_none]
      simp only [List.getElem_map,List.getElem_drop,List.getElem_range]
      congr 1
      omega

/-- Where no address is there twice the bytes lie one after the other, and what was there before lies behind them. -/
theorem gather_scatter (mem : ℕ → α) (vs : List Vec) (bs : List α) (hnd : (addrs vs).Nodup) (h : bs.length ≤ total vs) :
    (addrs vs).map (scatter mem vs bs) = bs ++ ((addrs vs).drop bs.length).map mem := by
  induction vs generalizing mem bs with
  | nil =>
    have hb : bs = [] := List.length_eq_zero_iff.mp (by simpa using h)
    simp [hb,addrs]
  | cons v vs ih =>
    have hsplit : addrs (v::vs) = (List.range v.len).map (v.base + ·) ++ addrs vs := by simp [addrs]
    rw [hsplit,List.nodup_append] at hnd
    obtain ⟨-,hvs,hdis⟩ := hnd
    rw [total_cons] at h
    rw [hsplit,List.map_append,scatter,ih _ _ hvs (by rw [List.length_drop]; omega),List.length_drop]
    have hfirst : ((List.range v.len).map (v.base + ·)).map (scatter (poke mem v.base (bs.take v.len)) vs (bs.drop v.len)) =
        ((List.range v.len).map (v.base + ·)).map (poke mem v.base (bs.take v.len)) := by
      apply List.map_congr_left
      intro a ha
      exact scatter_of_notMem _ _ _ fun hm => hdis a ha a (List.mem_of_mem_take hm) rfl
    have hrest : ((addrs vs).drop (bs.length - v.len)).map (poke mem v.base (bs.take v.len)) =
        ((addrs vs).drop (bs.length - v.len)).map mem := by
      apply List.map_congr_left
      intro a ha
      rw [poke]
      by_cases hb : v.base ≤ a
      · rw [if_pos hb,List.getElem?_eq_none]
        · rfl
        · rw [List.length_take]
          by_contra hlt
          refine hdis a (List.mem_map.mpr ⟨a-v.base,List.mem_range.mpr (by omega),by omega⟩) a (List.mem_of_mem_drop ha) rfl
      · rw [if_neg hb]
    rw [hfirst,hrest,map_poke mem v.base v.len _ (by rw [List.length_take]; omega),List.length_take]
    rw [List.drop_append,List.map_append,List.length_map,List.length_range]
    by_cases hlt : bs.length ≤ v.len
    · rw [List.take_of_length_le hlt,List.drop_of_length_le hlt,Nat.min_eq_right hlt]
      simp
    · rw [Nat.min_eq_left (by omega),List.drop_of_length_le (by simp),
        List.drop_of_length_le (show ((List.range v.len).map (v.base + ·)).length ≤ bs.length by simp; omega)]
      simp only [List.map_nil,List.append_nil,List.nil_append,← List.append_assoc,List.take_append_drop]

end Scatter
