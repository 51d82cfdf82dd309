import Libnfs.Canonical

/-! The operations of a COMPOUND for a path in `lib/nfs_v4.c`: `nfs4_allocate_op` with the memory that it reads and the
array that it fills. -/
namespace Libnfs
namespace OpBuilder

open Paths Normalize

/-- What is at a pointer and behind it in its object; `none` is the NUL. -/
abbrev Buf := List (Option Char)

/-- A copy that `strdup` makes -/
def strdup (path : Path) : Buf := path.map some ++ [none]

/-- An access behind the end of the object -/
inductive Fault
  | readOutside | writeOutside
  deriving DecidableEq, Repr

/-- `*ptr` -/
def charAt : Buf → Except Fault (Option Char)
  | [] => .error .readOutside
  | c :: _ => .ok c

/-- `strchr(ptr, c)`, with what stands before the place -/
def strchr (c : Char) : Buf → Except Fault (Option (Path × Buf))
  | [] => .error .readOutside
  | none :: _ => .ok none
  | some x :: ptr => if x = c then .ok (some ([],some x :: ptr)) else (strchr c ptr).map fun r => r.map fun p => (x :: p.1,p.2)

def strlen : Buf → Except Fault ℕ
  | [] => .error .readOutside
  | none :: _ => .ok 0
  | some _ :: ptr => (strlen ptr).map (·+1)

/-- `nfs_argop4`, as far as the builder knows it; the filler numbers its own. -/
inductive Argop
  | putfh | putrootfh | getattr
  | lookup (name : Path) (len : ℕ)
  | filled (k : ℕ)
  deriving DecidableEq, Repr

/-- The array that was allocated, and what is in it -/
structure Ops where
  capacity : ℕ
  argops : List Argop

/-- `(*op)[i] = a` for the next index -/
def Ops.put (op : Ops) (a : Argop) : Except Fault Ops :=
  if op.argops.length < op.capacity then .ok { op with argops := op.argops ++ [a] } else .error .writeOutside

/-- `nfs4_op_lookup` -/
def nfs4OpLookup (op : Ops) (path : Buf) : Except Fault Ops := do
  let len ← strlen path
  op.put (.lookup (path.take len).reduceOption len)

/-- `nfs4_num_path_components` -/
def nfs4NumPathComponents : ℕ → Buf → Except Fault ℕ
  | 0, _ => .ok 0
  | fuel+1, path => do
    match ← strchr '/' path with
    | none => return 0
    | some (_,path) => return (← nfs4NumPathComponents fuel (path.drop 1))+1

/-- The loop of `nfs4_allocate_op`. A name ends where its `/` was cleared. -/
def allocateLookups : ℕ → Option Buf → Ops → Except Fault Ops
  | 0, _, op => .ok op
  | _+1, none, op => .ok op
  | fuel+1, some ptr, op => do
    match ← charAt ptr with
    | none => return op
    | some _ =>
      match ← strchr '/' ptr with
      | none => allocateLookups fuel none (← nfs4OpLookup op ptr)
      | some (name,tmp) =>
        allocateLookups fuel (some (tmp.drop 1)) (← nfs4OpLookup op (name.map some ++ none :: tmp.drop 1))

/-- `nfs4_allocate_op` -/
def nfs4AllocateOp (rootfhLen : ℕ) (path : Buf) (numExtra : ℕ) : Except Fault Ops := do
  let count ← nfs4NumPathComponents path.length path
  let op ← Ops.put ⟨2+count+numExtra,[]⟩ (if rootfhLen ≠ 0 then .putfh else .putrootfh)
  let op ← allocateLookups path.length (some (path.drop 1)) op
  op.put .getattr

/-- A `filler` writes at most `max_op` operations. -/
structure Filler where
  maxOp : ℕ
  numOp : ℕ
  numOp_le : numOp ≤ maxOp

/-- `filler.func` from its `k`-th operation on -/
def Filler.write (op : Ops) : ℕ → ℕ → Except Fault Ops
  | _, 0 => .ok op
  | k, n+1 => do Filler.write (← op.put (.filled k)) (k+1) n

/-- The operations that `nfs4_lookup_path_async` sends for a normalized path -/
def lookupOps (rootfhLen : ℕ) (path : Path) (filler : Filler) : Except Fault Ops := do
  let op ← nfs4AllocateOp rootfhLen (strdup path) filler.maxOp
  Filler.write op 0 filler.numOp

/-- The LOOKUPs with the lengths of their names -/
def Ops.lookups (op : Ops) : List (Path × ℕ) :=
  op.argops.filterMap fun
    | .lookup name len => some (name,len)
    | _ => none

/-- Nothing is read behind the path or written behind the array, and the LOOKUPs are for the components of the path. -/
def Builds (rootfhLen : ℕ) (path : Path) (filler : Filler) : Prop :=
  ∃ op, lookupOps rootfhLen path filler = .ok op ∧ op.argops.length ≤ op.capacity ∧
    op.lookups = (components '/' path).map (fun name => (name,name.length)) ∧ ∀ l ∈ op.lookups, l.1 ≠ []

section Strings

variable {c : Path} {cs : List Path}

theorem ok_bind {β γ : Type} (b : β) (f : β → Except Fault γ) : (Except.ok b >>= f) = f b := rfl

theorem strlen_name (name : Path) (rest : Buf) : strlen (name.map some ++ none :: rest) = .ok name.length := by
  induction name with
  | nil => rfl
  | cons x name ih =>
    rw [List.map_cons,List.cons_append,strlen,ih]
    rfl

theorem strchr_none (hc : '/' ∉ c) : strchr '/' (strdup c) = .ok none := by
  induction c with
  | nil => rfl
  | cons x c ih =>
    simp only [List.mem_cons,not_or] at hc
    have hrec := ih hc.2
    simp only [strdup,List.map_cons,List.cons_append,strchr] at hrec ⊢
    rw [if_neg (Ne.symm hc.1),hrec]
    rfl

theorem strchr_some (hc : '/' ∉ c) (s : Path) :
    strchr '/' (strdup (c ++ '/' :: s)) = .ok (some (c,some '/' :: strdup s)) := by
  induction c with
  | nil => simp [strdup,strchr]
  | cons x c ih =>
    simp only [List.mem_cons,not_or] at hc
    have hrec := ih hc.2
    simp only [strdup,List.map_cons,List.cons_append,strchr] at hrec ⊢
    rw [if_neg (Ne.symm hc.1),hrec]
    rfl

/-- There is one component for each separator. -/
theorem nfs4NumPathComponents_glue {fuel : ℕ} (hcut : Cut '/' cs) (hc : '/' ∉ c) (hf : cs.length < fuel) :
    nfs4NumPathComponents fuel (strdup (c ++ glue '/' cs)) = .ok cs.length := by
  induction cs generalizing c fuel with
  | nil =>
    obtain ⟨fuel,rfl⟩ : ∃ k, fuel = k+1 := ⟨fuel-1,by simp at hf; omega⟩
    rw [nfs4NumPathComponents,glue_nil,List.append_nil,strchr_none hc]
    rfl
  | cons d cs ih =>
    obtain ⟨fuel,rfl⟩ : ∃ k, fuel = k+1 := ⟨fuel-1,by simp at hf; omega⟩
    have hrec := @ih d fuel hcut.tail hcut.head (by simpa using hf)
    rw [nfs4NumPathComponents,glue_cons,strchr_some hc]
    simp only [ok_bind,List.drop_succ_cons,List.drop_zero,hrec]
    rfl

theorem nfs4OpLookup_name {op : Ops} (name : Path) (rest : Buf) (h : op.argops.length < op.capacity) :
    nfs4OpLookup op (name.map some ++ none :: rest) =
      .ok { op with argops := op.argops ++ [.lookup name name.length] } := by
  have htake : ((name.map some ++ none :: rest).take name.length).reduceOption = name := by
    have hlen : name.length = (name.map some).length := by simp
    rw [hlen,List.take_left]
    show (name.map some).filterMap id = name
    simp
  rw [nfs4OpLookup,strlen_name]
  simp only [ok_bind,Ops.put]
  rw [if_pos h,htake]

/-- The loop writes a LOOKUP for every component. -/
theorem allocateLookups_glue {fuel : ℕ} {op : Ops} (hcut : Cut '/' (c :: cs)) (hne : ∀ d ∈ c :: cs, d ≠ [])
    (hf : cs.length+1 < fuel) (hcap : op.argops.length+cs.length+1 ≤ op.capacity) :
    allocateLookups fuel (some (strdup (c ++ glue '/' cs))) op =
      .ok { op with argops := op.argops ++ (c :: cs).map fun name => Argop.lookup name name.length } := by
  induction cs generalizing c fuel op with
  | nil =>
    obtain ⟨fuel,rfl⟩ : ∃ k, fuel = k+2 := ⟨fuel-2,by simp at hf; omega⟩
    obtain ⟨x,c,rfl⟩ := List.exists_cons_of_ne_nil (hne c (by simp))
    have hlook := @nfs4OpLookup_name op (x :: c) [] (by simp at hcap; omega)
    have hbuf : strdup (x :: c) = (x :: c).map some ++ [none] := rfl
    rw [glue_nil,List.append_nil,allocateLookups]
    have hchar : charAt (strdup (x :: c)) = .ok (some x) := rfl
    rw [hchar]
    simp only [ok_bind,strchr_none hcut.head]
    rw [hbuf,hlook]
    rfl
  | cons d cs ih =>
    obtain ⟨fuel,rfl⟩ : ∃ k, fuel = k+1 := ⟨fuel-1,by simp at hf; omega⟩
    obtain ⟨x,c,rfl⟩ := List.exists_cons_of_ne_nil (hne c (by simp))
    simp only [List.length_cons] at hf hcap
    have hlook := @nfs4OpLookup_name op (x :: c) (strdup (d ++ glue '/' cs)) (by omega)
    have hchar : charAt (strdup (x :: c ++ glue '/' (d :: cs))) = .ok (some x) := rfl
    rw [allocateLookups,hchar]
    simp only [ok_bind,glue_cons,strchr_some hcut.head,List.drop_succ_cons,List.drop_zero,hlook]
    rw [@ih d fuel _ hcut.tail (fun e he => hne e (by simp [he])) (by omega) (by simp; omega)]
    simp

theorem filler_write {op : Ops} {k n : ℕ} (hcap : op.argops.length+n ≤ op.capacity) :
    Filler.write op k n = .ok { op with argops := op.argops ++ (List.range' k n).map Argop.filled } := by
  induction n generalizing op k with
  | zero => simp [Filler.write]
  | succ n ih =>
    have hput : op.put (.filled k) = .ok { op with argops := op.argops ++ [.filled k] } := if_pos (by omega)
    rw [Filler.write,hput]
    simp only [ok_bind]
    rw [ih (by simp; omega)]
    simp [List.range'_succ]

/-- What the builder sends for the components of a path behind its first separator -/
def sent (rootfhLen : ℕ) (names : List Path) (filler : Filler) : List Argop :=
  (if rootfhLen ≠ 0 then .putfh else .putrootfh) :: (names.map (fun name => Argop.lookup name name.length) ++
    .getattr :: (List.range' 0 filler.numOp).map .filled)

theorem lookupOps_names {rootfhLen : ℕ} {filler : Filler} (hcut : Cut '/' (c :: cs)) (hne : ∀ d ∈ c :: cs, d ≠ []) :
    lookupOps rootfhLen (glue '/' (c :: cs)) filler =
      .ok ⟨2+(c :: cs).length+filler.maxOp,sent rootfhLen (c :: cs) filler⟩ := by
  have hfill := filler.numOp_le
  have hlen : (glue '/' (c :: cs)).length+1 = (strdup (glue '/' (c :: cs))).length := by
    rw [strdup,List.length_append,List.length_map]
    rfl
  have hglue : cs.length ≤ (glue '/' cs).length := by
    clear hne hcut hlen
    induction cs with
    | nil => simp
    | cons d cs ih => simp only [glue_cons,List.length_cons,List.length_append] at ih ⊢; omega
  have hc : 0 < c.length := List.length_pos_iff.mpr (hne c (by simp))
  have hcount := @nfs4NumPathComponents_glue [] (c :: cs) (strdup (glue '/' (c :: cs))).length hcut (by simp)
    (by rw [← hlen]; simp; omega)
  have hdrop : (strdup (glue '/' (c :: cs))).drop 1 = strdup (c ++ glue '/' cs) := rfl
  rw [List.nil_append] at hcount
  rw [lookupOps,nfs4AllocateOp,hcount]
  simp only [ok_bind]
  rw [Ops.put,if_pos (by simp only [List.length_nil]; omega)]
  simp only [ok_bind,hdrop,List.nil_append]
  rw [allocateLookups_glue hcut hne (by rw [← hlen]; simp; omega) (by simp; omega)]
  simp only [ok_bind]
  rw [Ops.put,if_pos (by simp; omega)]
  simp only [ok_bind]
  rw [filler_write (by simp; omega)]
  simp [sent]

theorem lookupOps_root {rootfhLen : ℕ} {filler : Filler} :
    lookupOps rootfhLen ['/'] filler = .ok ⟨2+1+filler.maxOp,sent rootfhLen [] filler⟩ := by
  have hfill := filler.numOp_le
  have hcount : nfs4NumPathComponents (strdup ['/']).length (strdup ['/']) = .ok 1 := by rfl
  have hloop : ∀ op, allocateLookups (strdup ['/']).length (some ((strdup ['/']).drop 1)) op = .ok op := fun _ => rfl
  rw [lookupOps,nfs4AllocateOp,hcount]
  simp only [ok_bind]
  rw [Ops.put,if_pos (by simp only [List.length_nil]; omega)]
  simp only [ok_bind,hloop]
  rw [Ops.put,if_pos (by simp; omega)]
  simp only [ok_bind]
  rw [filler_write (by simp; omega)]
  simp [sent]

/-- Behind the NUL of an empty path the loop starts. -/
theorem lookupOps_empty {rootfhLen : ℕ} {filler : Filler} : lookupOps rootfhLen [] filler = .error .readOutside := by
  have hcount : nfs4NumPathComponents (strdup []).length (strdup []) = .ok 0 := by rfl
  have hloop : ∀ op, allocateLookups (strdup []).length (some ((strdup []).drop 1)) op = .error .readOutside := fun _ => rfl
  rw [lookupOps,nfs4AllocateOp,hcount]
  simp only [ok_bind]
  rw [Ops.put,if_pos (by simp only [List.length_nil]; omega)]
  simp only [ok_bind,hloop]
  rfl

theorem sent_lookups (capacity rootfhLen : ℕ) (names : List Path) (filler : Filler) :
    Ops.lookups ⟨capacity,sent rootfhLen names filler⟩ = names.map fun name => (name,name.length) := by
  unfold Ops.lookups sent
  split <;> simp [List.filterMap_append,List.filterMap_map]

end Strings

theorem builds_iff {path p : Path} (h : nfsNormalizePath path = .ok p) (rootfhLen : ℕ) (filler : Filler) :
    Builds rootfhLen p filler ↔ p ≠ [] := by
  have hfill := filler.numOp_le
  rcases nfsNormalizePath_shape h with rfl | rfl | ⟨cs,hne,hcut,hplain,rfl⟩
  · refine iff_of_false ?_ (by simp)
    rintro ⟨op,hop,-⟩
    rw [lookupOps_empty] at hop
    cases hop
  · refine iff_of_true ⟨_,lookupOps_root,by simp [sent]; omega,?_,?_⟩ (by simp)
    · rw [sent_lookups]
      rfl
    · rw [sent_lookups]
      simp
  · obtain ⟨c,cs,rfl⟩ := List.exists_cons_of_ne_nil hne
    have hnames : ∀ d ∈ c :: cs, d ≠ [] := fun d hd => (hplain d hd).1
    refine iff_of_true ⟨_,lookupOps_names hcut hnames,by simp [sent]; omega,?_,?_⟩ (by simp)
    · rw [sent_lookups,components_glue hcut,List.filter_eq_self.mpr fun d hd => by simpa using hnames d hd]
    · rw [sent_lookups]
      intro l hl
      obtain ⟨d,hd,rfl⟩ := List.mem_map.mp hl
      exact hnames d hd

/-- The builder stays inside its memory, with one LOOKUP for each component, exactly if the normalized path is not
empty. -/
theorem builds_iff_not_empty {path p : Path} (h : nfsNormalizePath path = .ok p) (rootfhLen : ℕ) (filler : Filler) :
    Builds rootfhLen p filler ↔ p ≠ [] :=
  builds_iff h rootfhLen filler

theorem builds_iff_not_empty_two : Builds 4 ['/','a','/','b'] ⟨1,1,le_rfl⟩ ↔ (['/','a','/','b'] : Path) ≠ [] :=
  @builds_iff_not_empty ['/','a','/','/','b','/'] _ (by decide) 4 ⟨1,1,le_rfl⟩

/-- The normalized `/.` is empty, and `path[1]` is behind its end. -/
theorem current_directory_not_built :
    ¬ ∀ (path p : Path) (rootfhLen : ℕ) (filler : Filler), nfsNormalizePath path = .ok p → Builds rootfhLen p filler := by
  intro h
  have hdot : nfsNormalizePath ['/','.'] = .ok [] := by decide
  exact (builds_iff hdot 4 ⟨1,1,le_rfl⟩).mp (h _ _ 4 ⟨1,1,le_rfl⟩ hdot) rfl

end OpBuilder
end Libnfs
