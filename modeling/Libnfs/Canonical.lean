import Libnfs.Normalize

/-! What `nfs_normalize_path` leaves of a path, against the stack of its components. -/
namespace Libnfs
namespace Normalize

open Paths

/-- The names that an absolute path stands for; none where a `..` climbs above the root -/
def resolve (path : Path) : Option (List Path) :=
  if path.head? = some '/' then ((components '/' path).foldlM push []).map List.reverse else none

/-- The root, or names each behind a single `/` -/
def Canonical (path : Path) : Prop :=
  path = ['/'] ∨ ∃ cs, cs ≠ [] ∧ Cut '/' cs ∧ (∀ c ∈ cs, Plain c) ∧ path = glue '/' cs

/-- What a normalization owes to the stack: to fail where the stack does, and otherwise a canonical path that stands for the
same names and is normalized to itself -/
def Normalizes (path : Path) : Prop :=
  match nfsNormalizePath path with
  | .error _ => resolve path = none
  | .ok p => resolve path ≠ none ∧ resolve p = resolve path ∧ Canonical p ∧ nfsNormalizePath p = .ok p

/-- The last component is `.` or `..`. -/
def EndsInDots (path : Path) : Prop := ['/','.'] <:+ path ∨ ['/','.','.'] <:+ path

variable {pre cs : List Path} {l : Path}

theorem resolve_glue (hcut : Cut '/' cs) (hne : cs ≠ []) :
    resolve (glue '/' cs) = (cs.foldlM push []).map List.reverse := by
  have hhead : (glue '/' cs).head? = some '/' := by
    cases cs with
    | nil => exact absurd rfl hne
    | cons c cs => rfl
  rw [resolve,if_pos hhead,components_glue hcut,foldlM_push_filter [] (.inl rfl)]

/-- Names are normalized to themselves. -/
theorem nfsNormalizePath_plain (hcut : Cut '/' cs) (h : ∀ c ∈ cs, Plain c) (hne : cs ≠ []) :
    nfsNormalizePath (glue '/' cs) = .ok (glue '/' cs) := by
  obtain ⟨pre,l,rfl⟩ := dropLast_concat hne
  have hpre := foldlM_push_plain [] fun c hc => h c (List.mem_append_left [l] hc)
  rw [nfsNormalizePath_glue hcut,hpre]
  dsimp only
  rw [push_plain (h l (by simp))]
  simp [written]

theorem endsInDots_glue (hl : '/' ∉ l) : EndsInDots (glue '/' (pre ++ [l])) ↔ l = ['.'] ∨ l = ['.','.'] := by
  have h : glue '/' (pre ++ [l]) = glue '/' pre ++ '/' :: l := by simp
  rw [EndsInDots,h,suffix_glue hl (by decide),suffix_glue hl (by decide)]

/-- A path that is not absolute is refused. -/
theorem nfsNormalizePath_relative {path : Path} (h : path.head? ≠ some '/') : ∃ e, nfsNormalizePath path = .error e := by
  cases hp : nfsNormalizePath path with
  | error e => exact ⟨e,rfl⟩
  | ok p =>
    obtain ⟨pre,l,-,rfl⟩ := nfsNormalizePath_absolute hp
    exact absurd (by cases pre <;> rfl) h

/-- The stack behind the last component, as it is written -/
theorem canonical_written {st : List Path} (hcut : Cut '/' st) (h : ∀ c ∈ st, Plain c) (h0 : st = [] → l = []) :
    Canonical (written l st) ∧ resolve (written l st) = some st.reverse ∧
      nfsNormalizePath (written l st) = .ok (written l st) := by
  cases st with
  | nil =>
    rw [h0 rfl]
    exact ⟨.inl rfl,rfl,rfl⟩
  | cons c st =>
    have hcut' : Cut '/' (c :: st).reverse := fun d hd => hcut d (List.mem_reverse.mp hd)
    have hplain : ∀ d ∈ (c :: st).reverse, Plain d := fun d hd => h d (List.mem_reverse.mp hd)
    have hne : (c :: st).reverse ≠ [] := by simp
    refine ⟨.inr ⟨_,hne,hcut',hplain,rfl⟩,?_,nfsNormalizePath_plain hcut' hplain hne⟩
    rw [written,resolve_glue hcut' hne,foldlM_push_plain [] hplain]
    · simp
    · simp

theorem not_canonical_nil : ¬ Canonical [] := by
  rintro (h | ⟨cs,hne,-,-,h⟩)
  · simp at h
  · exact hne (glue_eq_nil.mp h.symm)

theorem push_eq_nil {st : List Path} (h : push st l = some []) : l = [] ∨ l = ['.'] ∨ l = ['.','.'] := by
  by_contra hl
  rw [push_plain ⟨fun h => hl (.inl h),fun h => hl (.inr (.inl h)),fun h => hl (.inr (.inr h))⟩] at h
  simp at h

/-- The end of a normalization, with the stack that the components leave -/
theorem normalizes_written {st : List Path} (hcut : Cut '/' st) (h : ∀ c ∈ st, Plain c)
    (hl : st = [] → l = [] ∨ l = ['.'] ∨ l = ['.','.']) :
    (resolve (written l st) = some st.reverse ∧ Canonical (written l st) ∧
        nfsNormalizePath (written l st) = .ok (written l st)) ↔
      ¬ (st = [] ∧ (l = ['.'] ∨ l = ['.','.'])) := by
  constructor
  · rintro ⟨-,hc,-⟩ ⟨rfl,hdots⟩
    refine not_canonical_nil ?_
    rcases hdots with rfl | rfl <;> exact hc
  · intro hno
    have hw := canonical_written (l := l) hcut h fun h0 => (hl h0).resolve_right fun hd => hno ⟨h0,hd⟩
    exact ⟨hw.2.1,hw.1,hw.2.2⟩

/-- A path is normalized as its stack says, if it is not one that ends in dots and stands for the root. -/
theorem nfsNormalizePath_normalizes (path : Path) : Normalizes path ↔ ¬ (resolve path = some [] ∧ EndsInDots path) := by
  by_cases hhead : path.head? = some '/'
  · obtain ⟨t,rfl⟩ : ∃ t, path = '/' :: t := by
      cases path with
      | nil => simp at hhead
      | cons x t => exact ⟨t,by simpa using hhead⟩
    obtain ⟨cs,hcut,he,hne⟩ := @exists_glue _ '/' t
    obtain ⟨pre,l,rfl⟩ := dropLast_concat hne
    rw [← he,endsInDots_glue (hcut l (by simp)),Normalizes,nfsNormalizePath_glue hcut,resolve_glue hcut hne,List.foldlM_append]
    cases hst : pre.foldlM push [] with
    | none => simp
    | some st =>
      cases hpush : push st l with
      | none => simp [hpush]
      | some st' =>
        have hmem : ∀ c ∈ st', c ∈ pre ++ [l] ∧ Plain c := by
          intro c hc
          rcases push_mem hpush c hc with hc | ⟨rfl,hc⟩
          · have hd := (foldlM_push_mem hst c hc).resolve_left (by simp)
            exact ⟨by simp [hd.1],hd.2⟩
          · exact ⟨by simp,hc⟩
        have hw := normalizes_written (fun c hc => hcut c (hmem c hc).1) (fun c hc => (hmem c hc).2)
          fun h0 => push_eq_nil (h0 ▸ hpush)
        simpa [hpush] using hw
  · obtain ⟨e,he⟩ := nfsNormalizePath_relative hhead
    simp [Normalizes,he,resolve,hhead]

/-- The parent of a top-level directory is written as nothing. -/
theorem normalizes_not_parent : ¬ Normalizes ['/','a','/','.','.'] ∧ ¬ Normalizes ['/','.'] :=
  ⟨fun h => not_canonical_nil h.2.2.1,fun h => not_canonical_nil h.2.2.1⟩

end Normalize
end Libnfs
