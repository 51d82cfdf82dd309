import Libnfs.RecordMark

/-! Cutting a stream into its records. What has been cut so far depends on the bytes alone, not on the chunks they come in. -/
namespace RecordMark

variable {α : Type*} (f : Format α) {a b r bs : List α} {rs : List (List α)}

theorem isRecord_iff : IsRecord f r ↔ f.size ≤ r.length ∧ f.len (r.take f.size) = some (r.length-f.size) := by
  constructor
  · rintro ⟨h,b,rfl,hs,hl⟩
    rw [← hs,List.take_left,hl,List.length_append]
    exact ⟨Nat.le_add_right _ _,by rw [Nat.add_sub_cancel_left]⟩
  · rintro ⟨hle,hl⟩
    exact ⟨r.take f.size,r.drop f.size,(List.take_append_drop _ _).symm,List.length_take_of_le hle,by rw [hl,List.length_drop]⟩

instance : DecidablePred (IsRecord f) := fun _ => decidable_of_iff _ (isRecord_iff f).symm

/-- No record is the beginning of another. -/
theorem IsRecord.eq_of_prefix (ha : IsRecord f a) (hr : IsRecord f r) (h : a <+: r) : a = r := by
  rw [isRecord_iff] at ha hr
  have htake : r.take f.size = a.take f.size := by
    obtain ⟨t,rfl⟩ := h
    rw [List.take_append_of_le_length ha.1]
  have hlen : r.length-f.size = a.length-f.size := Option.some.inj (hr.2.symm.trans (htake ▸ ha.2))
  exact h.eq_of_length (by omega)

/-- The bodies of the records of a stream, and what is behind the last of them -/
structure Split (α : Type*) where
  bodies : List (List α)
  rest : List α

namespace Split

def next (s : Split α) (x : α) : Split α :=
  if IsRecord f (s.rest++[x]) then ⟨s.bodies++[(s.rest++[x]).drop f.size],[]⟩ else ⟨s.bodies,s.rest++[x]⟩

def scan (s : Split α) (bs : List α) : Split α := bs.foldl (next f) s

end Split

/-- The stream cut into its records -/
def split (bs : List α) : Split α := Split.scan f ⟨[],[]⟩ bs

namespace Split

variable {f} {s : Split α}

@[simp] theorem scan_nil : scan f s [] = s := rfl

theorem scan_append : scan f s (a++b) = scan f (scan f s a) b := List.foldl_append

theorem scan_concat (x : α) : scan f s (a++[x]) = next f (scan f s a) x := by simp [scan]

/-- The records that were cut before make no difference. -/
theorem scan_shift (p : List (List α)) (bs : List α) :
    scan f ⟨p++s.bodies,s.rest⟩ bs = ⟨p++(scan f s bs).bodies,(scan f s bs).rest⟩ := by
  induction bs using List.reverseRecOn with
  | nil => rfl
  | append_singleton bs x ih =>
    rw [scan_concat,scan_concat,ih]
    unfold next
    split
    · simp [List.append_assoc]
    · rfl

/-- No record ends in `b`. -/
theorem scan_open (h : ∀ a, a <+: b → a ≠ [] → ¬ IsRecord f (s.rest++a)) : scan f s b = ⟨s.bodies,s.rest++b⟩ := by
  induction b using List.reverseRecOn with
  | nil => simp
  | append_singleton b x ih =>
    have hb := ih fun a ha => h a (ha.trans (List.prefix_append b [x]))
    have hx : ¬ IsRecord f (s.rest++b++[x]) := by
      rw [List.append_assoc]
      exact h (b++[x]) List.prefix_rfl (by simp)
    rw [scan_concat,hb,next,if_neg hx,List.append_assoc]

/-- The first record that ends in `b` ends where `b` does. -/
theorem scan_closed (hne : b ≠ []) (hr : IsRecord f (s.rest++b)) : scan f s b = ⟨s.bodies++[(s.rest++b).drop f.size],[]⟩ := by
  obtain ⟨b,x,rfl⟩ := List.eq_nil_or_concat b |>.resolve_left hne
  rw [List.concat_eq_append] at hr ⊢
  have hb : scan f s b = ⟨s.bodies,s.rest++b⟩ := by
    refine scan_open fun a ha _ hrec => ?_
    obtain ⟨t,rfl⟩ := ha
    have heq := hrec.eq_of_prefix f hr ⟨t++[x],by simp⟩
    have hlen := congrArg List.length heq
    simp only [List.length_append,List.length_singleton] at hlen
    omega
  rw [← List.append_assoc] at hr ⊢
  rw [scan_concat,hb,next,if_pos hr]

theorem scan_record (hpos : 0 < f.size) (hr : IsRecord f r) (p : List (List α)) : scan f ⟨p,[]⟩ r = ⟨p++[r.drop f.size],[]⟩ := by
  have hne : r ≠ [] := by
    rintro rfl
    have hle := ((isRecord_iff f).1 hr).1
    simp at hle
    omega
  exact @scan_closed _ f r ⟨p,[]⟩ hne hr

end Split

/-- The parts of a stream, put together again -/
theorem split_spec (bs : List α) : ∃ rs : List (List α), bs = rs.flatten ++ (split f bs).rest ∧ (∀ r ∈ rs, IsRecord f r) ∧
    (split f bs).bodies = rs.map (List.drop f.size) := by
  induction bs using List.reverseRecOn with
  | nil => exact ⟨[],rfl,by simp,rfl⟩
  | append_singleton bs x ih =>
    obtain ⟨rs,hbs,hrs,hb⟩ := ih
    rw [split,Split.scan_concat]
    change ∃ qs : List (List α), bs++[x] = qs.flatten ++ (Split.next f (split f bs) x).rest ∧ (∀ r ∈ qs, IsRecord f r) ∧
      (Split.next f (split f bs) x).bodies = qs.map (List.drop f.size)
    generalize split f bs = s at hbs hb
    unfold Split.next
    split
    · rename_i hr
      refine ⟨rs++[s.rest++[x]],by rw [hbs]; simp,fun r hm => ?_,by rw [hb]; simp⟩
      rcases List.mem_append.1 hm with hm | hm
      · exact hrs r hm
      · exact List.mem_singleton.1 hm ▸ hr
    · exact ⟨rs,by rw [hbs,List.append_assoc],hrs,hb⟩

/-- `r` has a header that belongs to it, or one that no record has. -/
def Headed (r : List α) : Prop := ∃ h b, r = h++b ∧ h.length = f.size ∧ (f.len h = none ∨ f.len h = some b.length)

theorem IsRecord.headed (h : IsRecord f r) : Headed f r := by
  obtain ⟨h,b,rfl,hs,hl⟩ := h
  exact ⟨h,b,rfl,hs,.inr hl⟩

/-- What is cut from the beginning of a stream is the first of what it was put together from. -/
theorem split_prefix (hpos : 0 < f.size) (hrs : ∀ r ∈ rs, Headed f r) (h : bs <+: rs.flatten) :
    (split f bs).bodies <+: rs.map (List.drop f.size) := by
  induction rs generalizing bs with
  | nil =>
    rw [List.flatten_nil,List.prefix_nil] at h
    subst h
    exact List.prefix_rfl
  | cons r rs ih =>
    rw [List.flatten_cons] at h
    have hnone : (∀ a, a <+: bs → a ≠ [] → ¬ IsRecord f a) → (split f bs).bodies = [] := fun hno => by
      rw [split,@Split.scan_open _ f bs ⟨[],[]⟩ hno]
    obtain ⟨hd,b,hr,hs,hl⟩ := hrs r List.mem_cons_self
    have hhead : ∀ a, a <+: bs → IsRecord f a → a.take f.size = hd := by
      intro a ha hrec
      have hle := ((isRecord_iff f).1 hrec).1
      obtain ⟨t,ht⟩ := ha.trans h
      have htake := congrArg (List.take f.size) ht
      rw [List.take_append_of_le_length hle,hr,List.append_assoc,← hs,List.take_left,hs] at htake
      exact htake
    rcases hl with hl | hl
    · rw [hnone fun a ha _ hrec => ?_]
      · exact List.nil_prefix
      · have hsome := ((isRecord_iff f).1 hrec).2
        rw [hhead a ha hrec,hl] at hsome
        simp at hsome
    · have hrec : IsRecord f r := ⟨hd,b,hr,hs,hl⟩
      rcases Nat.lt_or_ge bs.length r.length with hlt | hge
      · have hbr : bs <+: r := List.prefix_of_prefix_length_le h (List.prefix_append _ _) hlt.le
        rw [hnone fun a ha _ hra => ?_]
        · exact List.nil_prefix
        · have heq := hra.eq_of_prefix f hrec (ha.trans hbr)
          have hle := ha.length_le
          rw [heq] at hle
          omega
      · obtain ⟨c,rfl⟩ := List.prefix_of_prefix_length_le (List.prefix_append r rs.flatten) h hge
        have hc : c <+: rs.flatten := (List.prefix_append_right_inj r).1 h
        have hcut : (split f (r++c)).bodies = r.drop f.size :: (split f c).bodies := by
          rw [split,Split.scan_append,Split.scan_record hpos hrec []]
          exact congrArg Split.bodies (@Split.scan_shift _ f ⟨[],[]⟩ [r.drop f.size] c)
        rw [hcut,List.map_cons]
        exact (List.prefix_cons_inj _).2 (ih (fun q hq => hrs q (List.mem_cons_of_mem r hq)) hc)

/-- Whole records are cut where they were put together. -/
theorem split_flatten (hpos : 0 < f.size) (hrs : ∀ r ∈ rs, IsRecord f r) : split f rs.flatten = ⟨rs.map (List.drop f.size),[]⟩ := by
  induction rs using List.reverseRecOn with
  | nil => rfl
  | append_singleton rs r ih =>
    have hone : [r].flatten = r := by simp
    rw [List.flatten_append,hone,split,Split.scan_append]
    change Split.scan f (split f rs.flatten) r = _
    rw [ih fun q hq => hrs q (List.mem_append_left _ hq),Split.scan_record hpos (hrs r (by simp)),List.map_append]
    rfl

end RecordMark
