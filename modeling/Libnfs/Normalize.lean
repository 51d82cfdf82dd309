import Libnfs.Paths

/-! `nfs_normalize_path` of `lib/libnfs.c`. A path is the list of its characters up to the NUL. -/
namespace Libnfs
namespace Normalize

open Paths

abbrev Path := List Char

/-- What `nfs_set_error` is told -/
inductive NormalizeError
  | startsWithDotDot | notAbsolute | becameEmpty | isDotDot
  deriving DecidableEq, Repr

def NormalizeError.text : NormalizeError → String
  | .startsWithDotDot => "Absolute path starts with '/../' during normalization"
  | .notAbsolute => "Absolute path does not start with '/'"
  | .becameEmpty => "Absolute path became '' during normalization"
  | .isDotDot => "Absolute path is '/..' during normalization"

/-- `while ((str = strstr(path, pat)))` with a body that takes `n` characters out at `str` -/
def squeeze (pat : Path) (n : ℕ) : ℕ → Path → Path
  | 0, path => path
  | fuel+1, path =>
    match strstr pat path with
    | none => path
    | some str => squeeze pat n fuel (path.take str ++ path.drop (str+n))

/-- `tmp = str - 1; while (*tmp != '/') tmp--;` -/
def backToSlash (path : Path) : ℕ → ℕ
  | 0 => 0
  | k+1 => if path[k]? = some '/' then k else backToSlash path k

/-- `while ((str = strstr(path, "/../")))` -/
def climb : ℕ → Path → Except NormalizeError Path
  | 0, path => .ok path
  | fuel+1, path =>
    match strstr ['/','.','.','/'] path with
    | none => .ok path
    | some str =>
      if ['/','.','.','/'] <+: path then .error .startsWithDotDot
      else climb fuel (path.take (backToSlash path str) ++ path.drop (str+3))

/-- `/$ -> \0` -/
def cutSlash (path : Path) : Path :=
  if path.length > 1 ∧ path.drop (path.length-1) = ['/'] then path.take (path.length-1) else path

/-- `/.$ -> \0` -/
def cutDot (path : Path) : Path :=
  if path.length ≥ 2 ∧ path.drop (path.length-2) = ['/','.'] then path.take (path.length-2) else path

/-- `/string/..$ -> /` -/
def cutDotDot (path : Path) : Path :=
  if path.length ≥ 3 ∧ path.drop (path.length-3) = ['/','.','.'] then path.take (backToSlash path (path.length-3))
  else path

/-- `nfs_normalize_path` -/
def nfsNormalizePath (path : Path) : Except NormalizeError Path :=
  let path := squeeze ['/','/'] 1 path.length path
  let path := squeeze ['/','.','/'] 2 path.length path
  if ['/','.','.','/'] <+: path then .error .startsWithDotDot
  else if path.head? ≠ some '/' then .error .notAbsolute
  else
    match climb path.length path with
    | .error e => .error e
    | .ok path =>
      let path := cutSlash path
      if path = [] then .error .becameEmpty
      else
        let path := cutDot path
        if path = ['/','.','.'] then .error .isDotDot
        else .ok (cutDotDot path)

/-- One component, onto the stack of those that stay -/
def push (st : List Path) (c : Path) : Option (List Path) :=
  if c = [] ∨ c = ['.'] then some st
  else if c = ['.','.'] then
    match st with
    | [] => none
    | _ :: st => some st
  else some (c :: st)

/-- A name, as opposed to nothing, `.` and `..` -/
def Plain (c : Path) : Prop := c ≠ [] ∧ c ≠ ['.'] ∧ c ≠ ['.','.']

variable {c d : Path} {cs : List Path}

theorem push_plain {st : List Path} (h : Plain c) : push st c = some (c :: st) := by
  unfold push
  rw [if_neg (by simp [h.1,h.2.1]),if_neg h.2.2]

theorem push_dotDot (st : List Path) : push (c :: st) ['.','.'] = some st := rfl

theorem foldlM_push_plain (st : List Path) (h : ∀ c ∈ cs, Plain c) :
    cs.foldlM push st = some (cs.reverse ++ st) := by
  induction cs generalizing st with
  | nil => rfl
  | cons c cs ih =>
    rw [List.foldlM_cons,push_plain (h c (by simp))]
    simp [ih _ fun d hd => h d (by simp [hd])]

theorem foldlM_append_plain {ds : List Path} (h : ∀ c ∈ cs, Plain c) :
    (cs ++ ds).foldlM push [] = ds.foldlM push cs.reverse := by
  rw [List.foldlM_append,foldlM_push_plain [] h]
  simp

theorem foldlM_push_filter (st : List Path) (hd : d = [] ∨ d = ['.']) :
    (cs.filter (· ≠ d)).foldlM push st = cs.foldlM push st := by
  induction cs generalizing st with
  | nil => rfl
  | cons c cs ih =>
    by_cases hc : c = d
    · have hp : push st c = some st := by
        unfold push
        rw [if_pos (hc ▸ hd)]
      rw [List.foldlM_cons,hp,List.filter_cons_of_neg (by simp [hc]),ih]
      rfl
    · rw [List.foldlM_cons,List.filter_cons_of_pos (by simp [hc]),List.foldlM_cons]
      congr 1
      funext st
      exact ih st

/-- The components without those that are `d`, the last one apart -/
def inner (d : Path) (cs : List Path) : List Path := cs.dropLast.filter (· ≠ d) ++ cs.getLast?.toList

theorem inner_append_singleton (d l : Path) (cs : List Path) : inner d (cs ++ [l]) = cs.filter (· ≠ d) ++ [l] := by
  simp [inner]

theorem dropLast_concat (hne : cs ≠ []) : ∃ pre l, cs = pre ++ [l] :=
  ⟨_,_,(List.dropLast_append_getLast hne).symm⟩

theorem squeeze_glue (hd : '/' ∉ d) {fuel : ℕ} (hcut : Cut '/' cs) (hne : cs ≠ []) (hf : (glue '/' cs).length ≤ fuel) :
    squeeze ('/' :: (d ++ ['/'])) (d.length+1) fuel (glue '/' cs) = glue '/' (inner d cs) := by
  induction fuel generalizing cs with
  | zero =>
    have h0 : glue '/' cs = [] := List.length_eq_zero_iff.mp (by omega)
    exact absurd (glue_eq_nil.mp h0) hne
  | succ fuel ih =>
    rw [squeeze]
    cases hs : strstr ('/' :: (d ++ ['/'])) (glue '/' cs) with
    | none =>
      have hmem := strstr_glue_none hcut hd hs
      obtain ⟨pre,l,rfl⟩ := dropLast_concat hne
      rw [List.dropLast_concat] at hmem
      rw [inner_append_singleton,List.filter_eq_self.mpr]
      intro c hc
      simp only [decide_eq_true_eq]
      rintro rfl
      exact hmem hc
    | some i =>
      obtain ⟨pre,rest,rfl,hrest,-,rfl⟩ := strstr_glue_some hcut hd hs
      obtain ⟨r,l,rfl⟩ := dropLast_concat hrest
      have hstep : (glue '/' (pre ++ d :: (r ++ [l]))).take (glue '/' pre).length ++
          (glue '/' (pre ++ d :: (r ++ [l]))).drop ((glue '/' pre).length+(d.length+1)) = glue '/' (pre ++ (r ++ [l])) := by
        rw [← List.drop_drop,glue_append,List.take_left,List.drop_left,glue_cons,List.drop_succ_cons,List.drop_left,
          glue_append,glue_append,glue_append]
      have hi : inner d (pre ++ d :: (r ++ [l])) = inner d (pre ++ (r ++ [l])) := by
        rw [← List.append_assoc,inner_append_singleton,← List.cons_append,← List.append_assoc,inner_append_singleton]
        simp
      simp only [hstep,hi]
      refine ih (hcut.left.append hcut.right.tail) (by simp) ?_
      simp only [glue_append,glue_cons,List.length_append,List.length_cons] at hf ⊢
      omega

/-- The last separator before a component -/
theorem backToSlash_append {u t : Path} (hc : '/' ∉ c) :
    backToSlash (u ++ '/' :: (c ++ t)) (u.length+1+c.length) = u.length := by
  induction c using List.reverseRecOn generalizing t with
  | nil =>
    rw [List.length_nil,Nat.add_zero,backToSlash,if_pos]
    simp
  | append_singleton c x ih =>
    simp only [List.mem_append,List.mem_singleton,not_or] at hc
    have hx : (u ++ '/' :: (c ++ [x] ++ t))[u.length+1+c.length]? = some x := by
      rw [List.getElem?_append_right (by omega)]
      simp [Nat.add_assoc,Nat.add_comm 1]
    rw [List.length_append,List.length_singleton,← Nat.add_assoc,backToSlash,hx,if_neg]
    · rw [List.append_assoc]
      exact ih hc.1
    · simp only [Option.some.injEq]
      exact fun h => hc.2 h.symm

/-- Neither empty nor `.` -/
def Solid (cs : List Path) : Prop := ∀ c ∈ cs, c ≠ [] ∧ c ≠ ['.']

theorem Solid.plain (h : Solid cs) (hd : ['.','.'] ∉ cs) : ∀ c ∈ cs, Plain c :=
  fun c hc => ⟨(h c hc).1,(h c hc).2,by rintro rfl; exact hd hc⟩

/-- `climb` runs the stack over all components but the last. -/
theorem climb_glue {pre : List Path} {l : Path} {fuel : ℕ} (hcut : Cut '/' (pre ++ [l])) (hsolid : Solid pre)
    (hf : (glue '/' (pre ++ [l])).length ≤ fuel) :
    climb fuel (glue '/' (pre ++ [l])) =
      match pre.foldlM push [] with
      | none => .error .startsWithDotDot
      | some st => .ok (glue '/' (st.reverse ++ [l])) := by
  have hdd : '/' ∉ ['.','.'] := by decide
  induction fuel generalizing pre with
  | zero =>
    simp at hf
  | succ fuel ih =>
    rw [climb]
    cases hs : strstr ['/','.','.','/'] (glue '/' (pre ++ [l])) with
    | none =>
      have hmem := strstr_glue_none hcut hdd hs
      rw [List.dropLast_concat] at hmem
      rw [foldlM_push_plain [] (hsolid.plain hmem)]
      simp
    | some i =>
      obtain ⟨a,rest,he,hrest,ha,rfl⟩ := strstr_glue_some hcut hdd hs
      obtain ⟨r,l',rfl⟩ := dropLast_concat hrest
      rw [← List.cons_append,← List.append_assoc] at he
      obtain ⟨rfl,hl⟩ := List.append_inj' he rfl
      obtain rfl : l = l' := by simpa using hl
      by_cases hnil : a = []
      · subst hnil
        have hyes : ['/','.','.','/'] <+: glue '/' ([] ++ ['.','.'] :: r ++ [l]) :=
          (prefix_glue hdd hdd).mpr ⟨rfl,by simp⟩
        simp only [if_pos hyes]
        rfl
      · obtain ⟨a,y,rfl⟩ := dropLast_concat hnil
        have hplain : ∀ c ∈ a ++ [y], Plain c :=
          Solid.plain (fun c hc => hsolid c (List.mem_append_left _ hc)) ha
        have hcy : '/' ∉ y := hcut y (by simp)
        have hno : ¬ ['/','.','.','/'] <+: glue '/' (a ++ [y] ++ ['.','.'] :: r ++ [l]) := by
          cases a with
          | nil => exact fun hp => (hplain y (by simp)).2.2 ((prefix_glue hcy hdd).mp hp).1
          | cons b a => exact fun hp => (hplain b (by simp)).2.2 ((prefix_glue (hcut b (by simp)) hdd).mp hp).1
        have hback : backToSlash (glue '/' (a ++ [y] ++ ['.','.'] :: r ++ [l])) (glue '/' (a ++ [y])).length =
            (glue '/' a).length := by
          have := @backToSlash_append y (glue '/' a) (glue '/' (['.','.'] :: r ++ [l])) hcy
          simpa [Nat.add_assoc,Nat.add_comm 1] using this
        have hstep : (glue '/' (a ++ [y] ++ ['.','.'] :: r ++ [l])).take (glue '/' a).length ++
            (glue '/' (a ++ [y] ++ ['.','.'] :: r ++ [l])).drop ((glue '/' (a ++ [y])).length+3) =
              glue '/' (a ++ r ++ [l]) := by
          have ht : (glue '/' (a ++ [y] ++ ['.','.'] :: r ++ [l])).take (glue '/' a).length = glue '/' a := by
            simp
          rw [ht,← List.drop_drop,List.append_assoc (a ++ [y]),@glue_append _ _ (a ++ [y]),List.drop_left]
          simp
        simp only [if_neg hno,hback,hstep]
        have hfold : (a ++ [y] ++ ['.','.'] :: r).foldlM push [] = (a ++ r).foldlM push [] := by
          rw [foldlM_append_plain hplain,foldlM_append_plain fun c hc => hplain c (by simp [hc])]
          simp [push_dotDot]
        rw [hfold]
        refine ih (fun c hc => hcut c ?_) (fun c hc => hsolid c ?_) ?_
        · simp only [List.mem_append,List.mem_cons] at hc ⊢
          tauto
        · simp only [List.mem_append,List.mem_cons] at hc ⊢
          tauto
        · simp only [glue_append,glue_cons,List.length_append,List.length_cons] at hf ⊢
          omega

/-- What `nfs_normalize_path` does behind the loops -/
def finish (path : Path) : Except NormalizeError Path :=
  let path := cutSlash path
  if path = [] then .error .becameEmpty
  else
    let path := cutDot path
    if path = ['/','.','.'] then .error .isDotDot
    else .ok (cutDotDot path)

theorem nfsNormalizePath_eq (path : Path) : nfsNormalizePath path =
    (let path := squeeze ['/','/'] 1 path.length path
     let path := squeeze ['/','.','/'] 2 path.length path
     if ['/','.','.','/'] <+: path then .error .startsWithDotDot
     else if path.head? ≠ some '/' then .error .notAbsolute
     else (climb path.length path).bind finish) := by
  unfold nfsNormalizePath
  simp only
  split
  · rfl
  · split
    · rfl
    · cases climb _ _ <;> rfl

/-- A string ends with a separator and `d`. -/
theorem drop_glue {pre : List Path} {l : Path} (hl : '/' ∉ l) (hd : '/' ∉ d) :
    (glue '/' (pre ++ [l])).drop ((glue '/' (pre ++ [l])).length-(d.length+1)) = '/' :: d ↔ l = d := by
  have h := @suffix_glue _ '/' l d pre hl hd
  rw [List.suffix_iff_eq_drop] at h
  simp only [glue_append,glue_cons,glue_nil,List.append_nil] at h ⊢
  rw [← h]
  exact eq_comm

theorem cutSlash_glue {pre : List Path} {l : Path} (hl : '/' ∉ l) :
    cutSlash (glue '/' (pre ++ [l])) = if l = [] ∧ pre ≠ [] then glue '/' pre else glue '/' (pre ++ [l]) := by
  have hd := @drop_glue [] pre l hl (by simp)
  rw [List.length_nil,Nat.zero_add] at hd
  unfold cutSlash
  by_cases h : l = [] ∧ pre ≠ []
  · obtain ⟨rfl,hne⟩ := h
    have hpos : 0 < (glue '/' pre).length := List.length_pos_iff.mpr (glue_eq_nil.not.mpr hne)
    rw [if_pos ⟨by simp; omega,hd.mpr rfl⟩,if_pos ⟨rfl,hne⟩]
    simp
  · rw [if_neg h,if_neg]
    rintro ⟨hlen,hdrop⟩
    obtain rfl := hd.mp hdrop
    have : pre = [] := by simpa using h
    subst this
    simp at hlen

theorem cutDot_glue {pre : List Path} {l : Path} (hl : '/' ∉ l) :
    cutDot (glue '/' (pre ++ [l])) = if l = ['.'] then glue '/' pre else glue '/' (pre ++ [l]) := by
  have hd := @drop_glue ['.'] pre l hl (by simp)
  unfold cutDot
  by_cases h : l = ['.']
  · subst h
    rw [if_pos ⟨by simp,hd.mpr rfl⟩,if_pos rfl]
    simp
  · rw [if_neg h,if_neg fun hp => h (hd.mp hp.2)]

theorem cutDotDot_glue {pre : List Path} {l : Path} (hl : '/' ∉ l) :
    cutDotDot (glue '/' (pre ++ [l])) =
      if l = ['.','.'] then (glue '/' (pre ++ [l])).take (backToSlash (glue '/' (pre ++ [l])) (glue '/' pre).length)
      else glue '/' (pre ++ [l]) := by
  have hd := @drop_glue ['.','.'] pre l hl (by simp)
  unfold cutDotDot
  by_cases h : l = ['.','.']
  · subst h
    rw [if_pos ⟨by simp,hd.mpr rfl⟩,if_pos rfl]
    simp
  · rw [if_neg h,if_neg fun hp => h (hd.mp hp.2)]

theorem Plain.isDotDot {pre : List Path} (hcut : Cut '/' pre) (h : ∀ c ∈ pre, Plain c) :
    glue '/' pre ≠ ['/','.','.'] := by
  intro he
  have hone : glue '/' pre = glue '/' [['.','.']] := he
  obtain rfl := glue_inj hcut (by simp [Cut]) hone
  exact (h ['.','.'] (by simp)).2.2 rfl

theorem Plain.cutDotDot {pre : List Path} (hcut : Cut '/' pre) (h : ∀ c ∈ pre, Plain c) :
    cutDotDot (glue '/' pre) = glue '/' pre := by
  by_cases hne : pre = []
  · subst hne
    rfl
  · obtain ⟨p,y,rfl⟩ := dropLast_concat hne
    rw [cutDotDot_glue (hcut y (by simp)),if_neg (h y (by simp)).2.2]

theorem Plain.cutDot {pre : List Path} (hcut : Cut '/' pre) (h : ∀ c ∈ pre, Plain c) :
    cutDot (glue '/' pre) = glue '/' pre := by
  by_cases hne : pre = []
  · subst hne
    rfl
  · obtain ⟨p,y,rfl⟩ := dropLast_concat hne
    rw [cutDot_glue (hcut y (by simp)),if_neg (h y (by simp)).2.1]

/-- The stack of a path as `nfs_normalize_path` writes it; `l` is the last component. -/
def written (l : Path) : List Path → Path
  | [] => if l = [] then ['/'] else []
  | st => glue '/' st.reverse

/-- The last component, behind names only -/
theorem finish_glue {pre : List Path} {l : Path} (hcut : Cut '/' (pre ++ [l])) (hpre : ∀ c ∈ pre, Plain c) :
    finish (glue '/' (pre ++ [l])) =
      match push pre.reverse l with
      | none => .error .isDotDot
      | some st => .ok (written l st) := by
  have hl : '/' ∉ l := hcut l (by simp)
  have hw : ∀ {d}, pre ≠ [] → written d pre.reverse = glue '/' pre := by
    intro d hne
    obtain ⟨p,y,rfl⟩ := dropLast_concat hne
    simp [written]
  unfold finish
  by_cases h0 : l = []
  · subst h0
    by_cases hne : pre = []
    · subst hne
      rfl
    · have hs : cutSlash (glue '/' (pre ++ [[]])) = glue '/' pre := by
        rw [cutSlash_glue hl,if_pos ⟨rfl,hne⟩]
      rw [hs,if_neg (glue_eq_nil.not.mpr hne),Plain.cutDot hcut.left hpre,
        if_neg (Plain.isDotDot hcut.left hpre),Plain.cutDotDot hcut.left hpre]
      exact congrArg Except.ok (hw hne).symm
  · have hs : cutSlash (glue '/' (pre ++ [l])) = glue '/' (pre ++ [l]) := by
      rw [cutSlash_glue hl,if_neg fun h => h0 h.1]
    rw [hs,if_neg (glue_eq_nil.not.mpr (by simp)),cutDot_glue hl]
    by_cases h1 : l = ['.']
    · subst h1
      rw [if_pos rfl,if_neg (Plain.isDotDot hcut.left hpre),Plain.cutDotDot hcut.left hpre]
      by_cases hne : pre = []
      · subst hne
        rfl
      · exact congrArg Except.ok (hw hne).symm
    · rw [if_neg h1]
      by_cases h2 : l = ['.','.']
      · subst h2
        by_cases hne : pre = []
        · subst hne
          rfl
        · obtain ⟨p,y,rfl⟩ := dropLast_concat hne
          have hno : glue '/' (p ++ [y] ++ [['.','.']]) ≠ ['/','.','.'] := by
            intro he
            have hone : glue '/' (p ++ [y] ++ [['.','.']]) = glue '/' [['.','.']] := he
            simpa using congrArg List.length (glue_inj hcut (by simp [Cut]) hone)
          have hback : backToSlash (glue '/' (p ++ [y] ++ [['.','.']])) (glue '/' (p ++ [y])).length =
              (glue '/' p).length := by
            have := @backToSlash_append y (glue '/' p) (glue '/' [['.','.']]) (hcut y (by simp))
            simpa [Nat.add_assoc,Nat.add_comm 1] using this
          rw [if_neg hno,cutDotDot_glue hl,if_pos rfl,hback,List.reverse_append]
          simp only [List.reverse_singleton,List.singleton_append,push_dotDot,List.append_assoc,glue_append,
            List.take_left]
          cases hp : p.reverse with
          | nil =>
            rw [List.reverse_eq_nil_iff] at hp
            subst hp
            rfl
          | cons c st =>
            rw [written,← hp,List.reverse_reverse]
            simp
      · have hall : ∀ c ∈ pre ++ [l], Plain c := by
          intro c hc
          rcases List.mem_append.mp hc with hc | hc
          · exact hpre c hc
          · rw [List.mem_singleton.mp hc]
            exact ⟨h0,h1,h2⟩
        rw [if_neg (Plain.isDotDot hcut hall),Plain.cutDotDot hcut hall,push_plain ⟨h0,h1,h2⟩]
        simp [written]

/-- Only names of the path get onto the stack. -/
theorem push_mem {st st' : List Path} (h : push st c = some st') : ∀ d ∈ st', d ∈ st ∨ d = c ∧ Plain c := by
  unfold push at h
  split at h
  · obtain rfl := Option.some.inj h
    exact fun d hd => .inl hd
  · rename_i hsolid
    split at h
    · cases st with
      | nil => simp at h
      | cons y st =>
        obtain rfl := Option.some.inj h
        exact fun d hd => .inl (List.mem_cons_of_mem _ hd)
    · rename_i hdd
      obtain rfl := Option.some.inj h
      intro d hd
      rcases List.mem_cons.mp hd with rfl | hd
      · exact .inr ⟨rfl,by simpa [Plain,hdd] using hsolid⟩
      · exact .inl hd

theorem foldlM_push_mem {st st' : List Path} (h : cs.foldlM push st = some st') :
    ∀ d ∈ st', d ∈ st ∨ d ∈ cs ∧ Plain d := by
  induction cs generalizing st with
  | nil =>
    obtain rfl := Option.some.inj h
    exact fun d hd => .inl hd
  | cons c cs ih =>
    rw [List.foldlM_cons] at h
    cases hp : push st c with
    | none => simp [hp] at h
    | some mid =>
      rw [hp] at h
      intro d hd
      rcases ih h d hd with hd | hd
      · rcases push_mem hp d hd with hd | ⟨rfl,hd⟩
        · exact .inl hd
        · exact .inr ⟨by simp,hd⟩
      · exact .inr ⟨by simp [hd.1],hd.2⟩

/-- `nfs_normalize_path` is a run of the stack over the components. -/
theorem nfsNormalizePath_glue {pre : List Path} {l : Path} (hcut : Cut '/' (pre ++ [l])) :
    nfsNormalizePath (glue '/' (pre ++ [l])) =
      match pre.foldlM push [] with
      | none => .error .startsWithDotDot
      | some st =>
        match push st l with
        | none => .error .isDotDot
        | some st => .ok (written l st) := by
  have hdot : '/' ∉ ['.'] := by decide
  have hcut1 : Cut '/' (pre.filter (· ≠ []) ++ [l]) := (hcut.left.filter _).append hcut.right
  have h1 : squeeze ['/','/'] 1 (glue '/' (pre ++ [l])).length (glue '/' (pre ++ [l])) =
      glue '/' (pre.filter (· ≠ []) ++ [l]) := by
    have := @squeeze_glue [] _ List.not_mem_nil _ hcut (by simp) le_rfl
    rwa [inner_append_singleton] at this
  obtain ⟨mid,hmid⟩ : ∃ mid, mid = (pre.filter (· ≠ [])).filter (· ≠ ['.']) := ⟨_,rfl⟩
  have hcut2 : Cut '/' (mid ++ [l]) := by
    rw [hmid]
    exact ((hcut.left.filter _).filter _).append hcut.right
  have hsolid : Solid mid := by
    intro c hc
    rw [hmid,List.mem_filter,List.mem_filter] at hc
    simpa using And.intro hc.1.2 hc.2
  have h2 : squeeze ['/','.','/'] 2 (glue '/' (pre.filter (· ≠ []) ++ [l])).length (glue '/' (pre.filter (· ≠ []) ++ [l])) =
      glue '/' (mid ++ [l]) := by
    have := @squeeze_glue ['.'] _ hdot _ hcut1 (by simp) le_rfl
    rwa [inner_append_singleton,← hmid] at this
  have hfold : mid.foldlM push [] = pre.foldlM push [] := by
    rw [hmid,foldlM_push_filter [] (.inr rfl),foldlM_push_filter [] (.inl rfl)]
  have hhead : ¬ (glue '/' (mid ++ [l])).head? ≠ some '/' := by
    cases mid <;> simp
  rw [nfsNormalizePath_eq]
  simp only [h1,h2]
  rw [if_neg hhead,climb_glue hcut2 hsolid le_rfl,hfold]
  split
  · rename_i hp
    have hdd : '/' ∉ ['.','.'] := by decide
    rcases mid with _ | ⟨c,mid⟩
    · exact absurd rfl ((prefix_glue (hcut2 l (by simp)) hdd).mp hp).2
    · obtain ⟨rfl,-⟩ := (prefix_glue (hcut2 c (by simp)) hdd).mp hp
      rw [← hfold]
      rfl
  · cases hst : pre.foldlM push [] with
    | none => rfl
    | some st =>
      have hmem : ∀ c ∈ st, c ∈ pre ∧ Plain c := fun c hc => by simpa using foldlM_push_mem hst c hc
      have hcut3 : Cut '/' (st.reverse ++ [l]) := by
        intro c hc
        rcases List.mem_append.mp hc with hc | hc
        · exact hcut c (by simp [(hmem c (by simpa using hc)).1])
        · exact hcut c (by simp only [List.mem_append]; exact .inr hc)
      have hfin := finish_glue hcut3 fun c hc => (hmem c (by simpa using hc)).2
      rw [List.reverse_reverse] at hfin
      exact hfin

theorem squeeze_head {pat path : Path} {n fuel : ℕ} (hp : pat.head? = some '/') (h : path.head? ≠ some '/') :
    (squeeze pat n fuel path).head? = path.head? := by
  induction fuel generalizing path with
  | zero => rfl
  | succ fuel ih =>
    cases path with
    | nil =>
      have : pat ≠ [] := by rintro rfl; simp at hp
      rw [squeeze,strstr,if_neg this]
    | cons c path =>
      obtain ⟨pat,rfl⟩ : ∃ t, pat = '/' :: t := by
        cases pat with
        | nil => simp at hp
        | cons x t => exact ⟨t,by simpa using hp⟩
      have hc : c ≠ '/' := by simpa using h
      rw [squeeze,strstr,if_neg fun hpre => hc (List.cons_prefix_cons.mp hpre).1.symm]
      cases strstr ('/' :: pat) path with
      | none => rfl
      | some i =>
        simp only [Option.map_some,List.take_succ_cons,List.cons_append]
        rw [ih (by simpa using hc)]
        rfl

/-- Only a path from the root is normalized. -/
theorem nfsNormalizePath_absolute {path p : Path} (h : nfsNormalizePath path = .ok p) :
    ∃ pre l, Cut '/' (pre ++ [l]) ∧ path = glue '/' (pre ++ [l]) := by
  by_cases hhead : path.head? = some '/'
  · obtain ⟨t,rfl⟩ : ∃ t, path = '/' :: t := by
      cases path with
      | nil => simp at hhead
      | cons x t => exact ⟨t,by simpa using hhead⟩
    obtain ⟨cs,hcut,he,hne⟩ := @exists_glue _ '/' t
    obtain ⟨pre,l,rfl⟩ := dropLast_concat hne
    exact ⟨pre,l,hcut,he.symm⟩
  · rw [nfsNormalizePath_eq] at h
    have h1 := @squeeze_head ['/','/'] path 1 path.length rfl hhead
    simp only at h
    generalize squeeze ['/','/'] 1 path.length path = mid at h h1
    have h2 := @squeeze_head ['/','.','/'] mid 2 mid.length rfl (h1 ▸ hhead)
    split at h
    · simp at h
    · rw [if_pos (by rw [h2,h1]; exact hhead)] at h
      simp at h

/-- A normalized path: the root, or names only -/
theorem nfsNormalizePath_shape {path p : Path} (h : nfsNormalizePath path = .ok p) :
    p = [] ∨ p = ['/'] ∨ ∃ cs, cs ≠ [] ∧ Cut '/' cs ∧ (∀ c ∈ cs, Plain c) ∧ p = glue '/' cs := by
  obtain ⟨pre,l,hcut,rfl⟩ := nfsNormalizePath_absolute h
  rw [nfsNormalizePath_glue hcut] at h
  cases hst : pre.foldlM push [] with
  | none => simp [hst] at h
  | some st =>
    cases hl : push st l with
    | none => simp [hst,hl] at h
    | some st' =>
      simp only [hst,hl,Except.ok.injEq] at h
      subst h
      cases st' with
      | nil =>
        by_cases h0 : l = []
        · exact .inr (.inl (by simp [written,h0]))
        · exact .inl (by simp [written,h0])
      | cons c st' =>
        refine .inr (.inr ⟨(c :: st').reverse,by simp,?_,?_,rfl⟩)
        all_goals
          intro d hd
          rcases push_mem hl d (List.mem_reverse.mp hd) with hd | ⟨rfl,hd⟩
        · exact hcut d (by simp [((foldlM_push_mem hst d hd).resolve_left (by simp)).1])
        · exact hcut d (by simp)
        · exact ((foldlM_push_mem hst d hd).resolve_left (by simp)).2
        · exact hd

/-- A path that ends with a separator or a name does not become empty. -/
theorem nfsNormalizePath_ne_nil {s l p : Path} (hl : '/' ∉ l) (h0 : l = [] ∨ Plain l)
    (h : nfsNormalizePath (s ++ '/' :: l) = .ok p) : p ≠ [] := by
  obtain ⟨pre,l',hcut,he⟩ := nfsNormalizePath_absolute h
  obtain rfl : l' = l := by
    refine (@suffix_glue _ '/' l' l pre (hcut l' (by simp)) hl).mp ⟨s,?_⟩
    rw [he]
    simp
  rw [he,nfsNormalizePath_glue hcut] at h
  cases hst : pre.foldlM push [] with
  | none => simp [hst] at h
  | some st =>
    rcases h0 with rfl | hplain
    · simp only [hst,push,true_or,if_true,Except.ok.injEq] at h
      subst h
      cases st <;> simp [written]
    · simp only [hst,push_plain hplain,Except.ok.injEq] at h
      subst h
      simp [written]

/-- Two paths whose components leave the same names on the stack -/
def SameDir (x y : Path) : Prop :=
  ∃ cs ds, Cut '/' cs ∧ Cut '/' ds ∧ x = glue '/' cs ∧ y = glue '/' ds ∧ cs.foldlM push [] = ds.foldlM push []

section SameDir

variable {x y z : Path}

theorem SameDir.refl (h : Stops '/' x) : SameDir x x := by
  rcases h with rfl | ⟨t,rfl⟩
  · exact ⟨[],[],by simp [Cut],by simp [Cut],rfl,rfl,rfl⟩
  · obtain ⟨cs,hcut,he,-⟩ := @exists_glue _ '/' t
    exact ⟨cs,cs,hcut,hcut,he.symm,he.symm,rfl⟩

theorem SameDir.symm (h : SameDir x y) : SameDir y x := by
  obtain ⟨cs,ds,hcs,hds,hx,hy,he⟩ := h
  exact ⟨ds,cs,hds,hcs,hy,hx,he.symm⟩

theorem SameDir.trans (h : SameDir x y) (h' : SameDir y z) : SameDir x z := by
  obtain ⟨cs,ds,hcs,hds,hx,hy,he⟩ := h
  obtain ⟨ds',es,hds',hes,hy',hz,he'⟩ := h'
  obtain rfl := glue_inj hds hds' (hy.symm.trans hy')
  exact ⟨cs,es,hcs,hes,hx,hz,he.trans he'⟩

theorem SameDir.stops (h : SameDir x y) : Stops '/' x := by
  obtain ⟨cs,ds,hcs,hds,rfl,hy,he⟩ := h
  exact glue_stops

/-- They stay together under the same path behind them. -/
theorem SameDir.append (h : SameDir x y) (r : Path) : SameDir (x ++ '/' :: r) (y ++ '/' :: r) := by
  obtain ⟨cs,ds,hcs,hds,rfl,rfl,he⟩ := h
  obtain ⟨es,hes,hr,-⟩ := @exists_glue _ '/' r
  refine ⟨cs ++ es,ds ++ es,hcs.append hes,hds.append hes,?_,?_,?_⟩
  · rw [glue_append,hr]
  · rw [glue_append,hr]
  · rw [List.foldlM_append,List.foldlM_append,he]

/-- A path behind them is normalized to the same, or to the same error. -/
theorem SameDir.normalize (h : SameDir x y) (r : Path) :
    nfsNormalizePath (x ++ '/' :: r) = nfsNormalizePath (y ++ '/' :: r) := by
  obtain ⟨cs,ds,hcs,hds,rfl,rfl,he⟩ := h
  obtain ⟨es,hes,hr,hne⟩ := @exists_glue _ '/' r
  obtain ⟨pre,l,rfl⟩ := dropLast_concat hne
  have hrun : ∀ {bs : List Path}, Cut '/' bs → nfsNormalizePath (glue '/' bs ++ '/' :: r) =
      match (bs.foldlM push []).bind (pre.foldlM push) with
      | none => .error .startsWithDotDot
      | some st =>
        match push st l with
        | none => .error .isDotDot
        | some st => .ok (written l st) := by
    intro bs hbs
    have hcut : Cut '/' ((bs ++ pre) ++ [l]) := by
      rw [List.append_assoc]
      exact hbs.append hes
    rw [← hr,← glue_append,← List.append_assoc,nfsNormalizePath_glue hcut,List.foldlM_append]
    rfl
  rw [hrun hcs,hrun hds,he]

theorem foldlM_push_written {st : List Path} {l : Path} (hcut : Cut '/' st.reverse) (h : ∀ c ∈ st, Plain c) :
    ∃ ds, Cut '/' ds ∧ written l st = glue '/' ds ∧ ds.foldlM push [] = some st := by
  cases st with
  | nil =>
    by_cases hl : l = []
    · exact ⟨[[]],by simp [Cut],by simp [written,hl],rfl⟩
    · exact ⟨[],by simp [Cut],by simp [written,hl],rfl⟩
  | cons c st =>
    refine ⟨_,hcut,rfl,?_⟩
    rw [foldlM_push_plain [] fun d hd => h d (List.mem_reverse.mp hd),List.reverse_reverse,List.append_nil]

/-- A path and what it is normalized to -/
theorem nfsNormalizePath_sameDir (h : nfsNormalizePath x = .ok y) : SameDir x y := by
  obtain ⟨pre,l,hcut,rfl⟩ := nfsNormalizePath_absolute h
  rw [nfsNormalizePath_glue hcut] at h
  cases hst : pre.foldlM push [] with
  | none => simp [hst] at h
  | some st =>
    cases hl : push st l with
    | none => simp [hst,hl] at h
    | some st' =>
      simp only [hst,hl,Except.ok.injEq] at h
      have hfold : (pre ++ [l]).foldlM push [] = some st' := by
        rw [List.foldlM_append,hst]
        simp [hl]
      have hmem := foldlM_push_mem hfold
      obtain ⟨ds,hds,hw,hrun⟩ := @foldlM_push_written st' l
        (fun c hc => hcut c ((hmem c (List.mem_reverse.mp hc)).resolve_left (by simp)).1)
        (fun c hc => ((hmem c hc).resolve_left (by simp)).2)
      exact ⟨_,ds,hcut,hds,rfl,h.symm.trans hw,hfold.trans hrun.symm⟩

end SameDir

end Normalize
end Libnfs
