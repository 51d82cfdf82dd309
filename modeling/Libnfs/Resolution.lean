import Libnfs.Lookup3
import Mathlib.Data.List.DropRight
import Mathlib.Logic.Relation

/-! What it is to resolve a path in an export, one name after the other, with symbolic links on the way. -/
namespace Libnfs
namespace Resolution

open Paths Normalize NestedMounts Lookup3

/-- One component more; a `..` takes the name in front of it away, and stays where there is none. -/
def cancel (st : List Path) (c : Path) : List Path :=
  if c = [] ∨ c = ['.'] then st
  else if c = ['.','.'] then
    match st with
    | [] => [c]
    | d :: st => if d = ['.','.'] then c :: d :: st else st
  else c :: st

/-- The components as they are meant: every `..` is in front. -/
def lexical (cs : List Path) : List Path := (cs.foldl cancel []).reverse

/-- Every `..` is in front of the names. -/
inductive Lexical : List Path → Prop
  | names {cs : List Path} : (∀ c ∈ cs, Plain c) → Lexical cs
  | up {cs : List Path} : Lexical cs → Lexical (['.','.'] :: cs)

/-- What is mounted: the root is a directory, and what fails has a status. -/
structure Export (α : Type) where
  server : Server α
  rootfh : Fh
  export_ : Path
  root_dir : ∃ attr, server.getattr rootfh = .ok attr ∧ ¬ server.isLink attr
  lookup_status : ∀ {fh c st}, server.lookup fh c = .error st → st ≠ 0
  readlink_status : ∀ {fh st}, server.readlink fh = .error st → st ≠ 0

/-- How far a resolution is: the links that were followed, the directories down to the one it is in, and the
components that are left. -/
structure Place where
  links : ℕ
  above : List Fh
  dir : Fh
  todo : List Path

inductive Outcome
  | reached (fh : Fh)
  | loop
  | failed
  deriving DecidableEq

/-- What is behind the export in an absolute path; an export does not end with its last `/`. -/
def insideExport (export_ target : Path) : Option Path :=
  let e := export_.rdropWhile (· = '/')
  if e <+: target ∧ Stops '/' (target.drop e.length) then some (target.drop e.length) else none

variable {α : Type} (ex : Export α) (flags : Flags)

/-- The target in the place of a symbolic link with `rest` behind it -/
def target (p : Place) (rest : List Path) (t : Path) : Place ⊕ Outcome :=
  if t.head? = some '/' then
    match insideExport ex.export_ t with
    | none => .inr .failed
    | some t => .inl ⟨p.links+1,[],ex.rootfh,lexical (components '/' t ++ rest)⟩
  else .inl ⟨p.links+1,p.above,p.dir,lexical (components '/' t ++ rest)⟩

/-- A symbolic link with `rest` behind it -/
def meet (p : Place) (rest : List Path) (fh : Fh) : Place ⊕ Outcome :=
  if rest = [] ∧ flags.oNoFollow then .inr .loop
  else if rest = [] ∧ flags.noFollow then .inr (.reached fh)
  else if p.links ≥ maxLinkCount then .inr .loop
  else
    match ex.server.readlink fh with
    | .error _ => .inr .failed
    | .ok t => target ex p rest t

/-- One component -/
def step (p : Place) : Place ⊕ Outcome :=
  match p.todo with
  | [] => .inr (.reached p.dir)
  | c :: rest =>
    if c = ['.','.'] then
      match p.above with
      | [] => .inr .failed
      | dir :: above => .inl ⟨p.links,above,dir,rest⟩
    else
      match ex.server.lookup p.dir c with
      | .error _ => .inr .failed
      | .ok (fh,attr) =>
        if ex.server.isLink attr then meet ex flags p rest fh
        else .inl ⟨p.links,p.dir :: p.above,fh,rest⟩

/-- Where a resolution ends -/
inductive Resolves : Place → Outcome → Prop
  | stop {p : Place} {o : Outcome} : step ex flags p = .inr o → Resolves p o
  | next {p q : Place} {o : Outcome} : step ex flags p = .inl q → Resolves q o → Resolves p o

/-- The places that a resolution comes through -/
def Reaches : Place → Place → Prop := Relation.ReflTransGen fun p q => step ex flags p = .inl q

/-- Where the resolution of a path starts -/
def start (cwd path : Path) : Place := ⟨0,[],ex.rootfh,lexical (components '/' (fullPath cwd path))⟩

variable {ex flags}

theorem Resolves.unique {p : Place} {o o' : Outcome} (h : Resolves ex flags p o) (h' : Resolves ex flags p o') :
    o = o' := by
  induction h with
  | stop hs =>
    cases h' with
    | stop hs' => exact Sum.inr.inj (hs.symm.trans hs')
    | next hs' _ => rw [hs] at hs'; simp at hs'
  | next hs _ ih =>
    cases h' with
    | stop hs' => rw [hs] at hs'; simp at hs'
    | next hs' hr =>
      rw [hs] at hs'
      obtain rfl := Sum.inl.inj hs'
      exact ih hr

/-- A step takes a component, or follows a link. -/
theorem step_smaller {p q : Place} (h : step ex flags p = .inl q) :
    q.links = p.links ∧ q.todo.length < p.todo.length ∨ q.links = p.links+1 ∧ p.links < maxLinkCount := by
  unfold step at h
  cases htodo : p.todo with
  | nil => simp [htodo] at h
  | cons c rest =>
    simp only [htodo] at h
    by_cases hc : c = ['.','.']
    · rw [if_pos hc] at h
      cases habove : p.above with
      | nil => simp [habove] at h
      | cons dir above =>
        simp only [habove,Sum.inl.injEq] at h
        subst h
        exact .inl ⟨rfl,by simp⟩
    · rw [if_neg hc] at h
      cases hl : ex.server.lookup p.dir c with
      | error st => simp [hl] at h
      | ok r =>
        obtain ⟨fh,attr⟩ := r
        simp only [hl] at h
        by_cases hlink : ex.server.isLink attr
        · rw [if_pos hlink] at h
          unfold meet at h
          split at h
          · simp at h
          · split at h
            · simp at h
            · split at h
              · simp at h
              · rename_i hlinks
                refine .inr ⟨?_,by omega⟩
                split at h
                · simp at h
                · unfold target at h
                  split at h
                  · split at h
                    · simp at h
                    · exact (Sum.inl.inj h) ▸ rfl
                  · exact (Sum.inl.inj h) ▸ rfl
        · rw [if_neg hlink,Sum.inl.injEq] at h
          subst h
          exact .inl ⟨rfl,by simp⟩

/-- Every resolution ends. -/
theorem resolves_total (p : Place) : ∃ o, Resolves ex flags p o := by
  cases hs : step ex flags p with
  | inr o => exact ⟨o,.stop hs⟩
  | inl q =>
    have hsmall := step_smaller hs
    obtain ⟨o,ho⟩ := resolves_total q
    exact ⟨o,.next hs ho⟩
termination_by (maxLinkCount-p.links,p.todo.length)
decreasing_by
  rcases hsmall with ⟨hl,ht⟩ | ⟨hl,ht⟩
  · rw [hl]
    exact Prod.Lex.right _ ht
  · exact Prod.Lex.left _ _ (by omega)

section Lexical

theorem Lexical.tail {c : Path} {cs : List Path} (h : Lexical (c :: cs)) (hc : c ≠ ['.','.']) : ∀ d ∈ c :: cs, Plain d := by
  cases h with
  | names h => exact h
  | up h => exact absurd rfl hc

theorem Lexical.rest {c : Path} {cs : List Path} (h : Lexical (c :: cs)) : Lexical cs := by
  cases h with
  | names h => exact .names fun d hd => h d (by simp [hd])
  | up h => exact h

variable {st cs : List Path} {c : Path}

/-- A stack that `cancel` leaves: names on top of every `..` -/
def Tidy (st : List Path) : Prop := ∃ names k, st = names ++ List.replicate k ['.','.'] ∧ ∀ c ∈ names, Plain c

theorem cancel_tidy (h : Tidy st) : Tidy (cancel st c) := by
  obtain ⟨names,k,rfl,hp⟩ := h
  unfold cancel
  by_cases h0 : c = [] ∨ c = ['.']
  · rw [if_pos h0]
    exact ⟨names,k,rfl,hp⟩
  · rw [if_neg h0]
    by_cases hdd : c = ['.','.']
    · rw [if_pos hdd]
      subst hdd
      cases names with
      | nil =>
        cases k with
        | zero => exact ⟨[],1,rfl,by simp⟩
        | succ k => exact ⟨[],k+2,by simp [List.replicate_succ],by simp⟩
      | cons d names =>
        simp only [List.cons_append,if_neg (hp d (by simp)).2.2]
        exact ⟨names,k,rfl,fun c hc => hp c (by simp [hc])⟩
    · rw [if_neg hdd]
      refine ⟨c :: names,k,rfl,fun d hd => ?_⟩
      rcases List.mem_cons.mp hd with rfl | hd
      · exact ⟨fun h => h0 (.inl h),fun h => h0 (.inr h),hdd⟩
      · exact hp d hd

theorem foldl_cancel_tidy (h : Tidy st) : Tidy (cs.foldl cancel st) := by
  induction cs generalizing st with
  | nil => exact h
  | cons c cs ih => exact ih (cancel_tidy h)

theorem Lexical.replicate {k : ℕ} (h : ∀ c ∈ cs, Plain c) : Lexical (List.replicate k ['.','.'] ++ cs) := by
  induction k with
  | zero => exact .names h
  | succ k ih => exact .up ih

theorem lexical_spec (cs : List Path) : Lexical (lexical cs) := by
  obtain ⟨names,k,he,hp⟩ := @foldl_cancel_tidy [] cs ⟨[],0,rfl,by simp⟩
  rw [lexical,he,List.reverse_append,List.reverse_replicate]
  exact Lexical.replicate fun c hc => hp c (List.mem_reverse.mp hc)

theorem cancel_mem {d : Path} (hd : d ∈ cancel st c) : d ∈ st ∨ d = c := by
  unfold cancel at hd
  split at hd
  · exact .inl hd
  · split at hd
    · split at hd
      · exact .inr (by simpa using hd)
      · split at hd
        · rcases List.mem_cons.mp hd with rfl | hd
          · exact .inr rfl
          · exact .inl hd
        · exact .inl (by simp [hd])
    · rcases List.mem_cons.mp hd with rfl | hd
      · exact .inr rfl
      · exact .inl hd

theorem lexical_mem {d : Path} (hd : d ∈ lexical cs) : d ∈ cs := by
  have h : ∀ {st : List Path}, d ∈ cs.foldl cancel st → d ∈ st ∨ d ∈ cs := by
    clear hd
    induction cs with
    | nil => exact fun h => .inl h
    | cons c cs ih =>
      intro st hd
      rcases ih hd with hd | hd
      · rcases cancel_mem hd with hd | rfl
        · exact .inl hd
        · exact .inr (by simp)
      · exact .inr (by simp [hd])
  exact (h (List.mem_reverse.mp hd)).resolve_left (by simp)

theorem cancel_push (h : Tidy st) (st' : List Path) :
    (cancel st c).reverse.foldlM push st' = (st.reverse.foldlM push st').bind (push · c) := by
  unfold cancel
  by_cases h0 : c = [] ∨ c = ['.']
  · have hp : ∀ s, push s c = some s := fun s => by
      unfold push
      exact if_pos h0
    rw [if_pos h0]
    simp [hp]
  · rw [if_neg h0]
    by_cases hdd : c = ['.','.']
    · rw [if_pos hdd]
      subst hdd
      obtain ⟨names,k,rfl,hp⟩ := h
      cases names with
      | nil =>
        cases k with
        | zero => simp
        | succ k =>
          rw [List.nil_append,List.replicate_succ]
          simp only [if_true,List.reverse_cons,List.foldlM_append]
          simp
      | cons d names =>
        simp only [List.cons_append,if_neg (hp d (by simp)).2.2,List.reverse_cons,List.foldlM_append]
        cases (names ++ List.replicate k ['.','.']).reverse.foldlM push st' with
        | none => rfl
        | some s =>
          simp [push_plain (hp d (by simp)),push_dotDot]
    · rw [if_neg hdd,List.reverse_cons,List.foldlM_append]
      simp

/-- The components lead to the same names as they are written and as they are meant. -/
theorem lexical_push (cs st' : List Path) : (lexical cs).foldlM push st' = cs.foldlM push st' := by
  have h : ∀ {st : List Path}, Tidy st →
      (cs.foldl cancel st).reverse.foldlM push st' = (st.reverse ++ cs).foldlM push st' := by
    induction cs with
    | nil => simp
    | cons c cs ih =>
      intro st hst
      rw [List.foldl_cons,ih (cancel_tidy hst),List.foldlM_append,cancel_push hst,List.foldlM_append]
      simp [Option.bind_assoc]
  exact h ⟨[],0,rfl,by simp⟩

end Lexical

end Resolution
end Libnfs
