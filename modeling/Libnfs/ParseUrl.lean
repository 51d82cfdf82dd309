import Mathlib.Data.List.TakeWhile
import Mathlib.Tactic

/-! `nfs_parse_url` of `lib/libnfs.c`, and how a URL is written. Allocations do not fail. -/
namespace Libnfs
namespace ParseUrl

abbrev Str := List Char

/-- What is in front of the first `c`, and behind it -/
def strchr (c : Char) : Str → Option (Str × Str)
  | [] => none
  | d :: s => if d = c then some ([],s) else (strchr c s).map fun r => (d :: r.1,r.2)

/-- What is in front of the last `c`, and behind it -/
def strrchr (c : Char) (s : Str) : Option (Str × Str) := (strchr c s.reverse).map fun r => (r.2.reverse,r.1.reverse)

/-- A `long`, where there is a number -/
def strtol (s : Str) : Option ℤ :=
  let s := s.dropWhile fun c => c = ' ' ∨ 9 ≤ c.toNat ∧ c.toNat ≤ 13
  let neg := s.head? = some '-'
  let s := if s.head? = some '-' ∨ s.head? = some '+' then s.drop 1 else s
  let digits := s.takeWhile Char.isDigit
  let n : ℤ := Nat.ofDigitChars 10 digits 0
  if digits = [] then none else some (max (-2^63) (min (2^63-1) (if neg then -n else n)))

/-- What an `int` takes of a `long` -/
def int32 (n : ℤ) : ℤ := n.bmod (2^32)

def atoi (s : Str) : ℤ := int32 ((strtol s).getD 0)

/-- `tohex` -/
def tohex (c : Char) : Option ℕ :=
  if '0' ≤ c ∧ c ≤ '9' then some (c.toNat-48)
  else if 'A' ≤ c ∧ c ≤ 'F' then some (c.toNat-55)
  else if 'a' ≤ c ∧ c ≤ 'f' then some (c.toNat-87)
  else none

/-- The loop that unescapes all % hex hex characters -/
def unescape : Str → Str
  | '%' :: a :: b :: s =>
    match tohex a,tohex b with
    | some h,some l => Char.ofNat (h*16+l) :: unescape s
    | _,_ => '%' :: unescape (a :: b :: s)
  | c :: s => c :: unescape s
  | [] => []

/-- What the build has, and what `tls_global_init` returns -/
structure Config where
  bindtodevice : Bool
  tls : Bool
  krb5 : Bool
  tlsGlobalInit : Bool

/-- An argument of the URL, with its value if it has one -/
abbrev Arg := Str × Option Str

/-- What a URL sets in a context, with its arguments one after the other -/
structure Ctx where
  nfsport : ℤ
  mountport : ℤ
  username : Option Str
  wantedTls : Bool
  args : List Arg
  deriving DecidableEq

/-- The arguments that take any value -/
def numbers : List Str :=
  ["tcp-syncnt".toList,"uid".toList,"gid".toList,"debug".toList,"auto-traverse-mounts".toList,"dircache".toList,
    "autoreconnect".toList,"rsize".toList,"wsize".toList,"readdir-buffer".toList]

/-- `nfs_set_context_args` -/
def nfsSetContextArgs (cfg : Config) (ctx : Ctx) (arg val : Str) : Option Ctx :=
  let set : Ctx := { ctx with args := ctx.args ++ [(arg,some val)] }
  if arg ∈ numbers then some set
  else if arg = "timeo".toList then if int32 (atoi val*100) < 10*1000 then none else some set
  else if arg = "retrans".toList then if atoi val < 0 then none else some set
  else if arg = "if".toList ∧ cfg.bindtodevice then some set
  else if arg = "version".toList then if atoi val = 3 ∨ atoi val = 4 then some set else none
  else if arg = "nfsport".toList then some { set with nfsport := atoi val }
  else if arg = "mountport".toList then some { set with mountport := atoi val }
  else if arg = "xprtsec".toList ∧ cfg.tls then
    if val = "none".toList then some { set with wantedTls := false }
    else if val = "tls".toList ∨ val = "mtls".toList then some { set with wantedTls := true }
    else none
  else if arg = "sec".toList ∧ cfg.krb5 then
    if val = "krb5p".toList ∨ val = "krb5i".toList ∨ val = "krb5".toList then some set else none
  else none

/-- `nfs_set_context_args_no_val` -/
def nfsSetContextArgsNoVal (ctx : Ctx) (arg : Str) : Option Ctx :=
  if arg = "readonly".toList then some { ctx with args := ctx.args ++ [(arg,none)] } else none

/-- An argument as the loop hands it over -/
def setArg (cfg : Config) (ctx : Ctx) (arg : Str) : Option Ctx :=
  match strchr '=' arg with
  | some (strp,strp2) => nfsSetContextArgs cfg ctx strp strp2
  | none => nfsSetContextArgsNoVal ctx arg

/-- The loop over the arguments -/
def argsLoop (cfg : Config) : ℕ → Ctx → Str → Option Ctx
  | 0, ctx, _ => some ctx
  | fuel+1, ctx, strp =>
    if strp = [] then some ctx
    else
      match strchr '&' strp with
      | none => setArg cfg ctx strp
      | some (arg,flagsp) => (setArg cfg ctx arg).bind fun ctx => argsLoop cfg fuel ctx flagsp

/-- `struct nfs_url` -/
structure NfsUrl where
  server : Option Str
  path : Option Str
  file : Option Str
  port : ℤ
  deriving DecidableEq

/-- From `flags` on, with what is behind the `?` -/
def flags (cfg : Config) (incomplete : Bool) (ctx : Ctx) (server : Str) (path file flagsp : Option Str) :
    Option (NfsUrl × Ctx) :=
  if file = some [] ∧ ¬ incomplete then none
  else
    let file := if file = some [] then none else file
    (argsLoop cfg (flagsp.getD []).length ctx (flagsp.getD [])).bind fun ctx =>
      let (ctx,server) :=
        match strchr '@' server with
        | some (user,server) => ({ ctx with username := some user },server)
        | none => (ctx,server)
      if ctx.wantedTls ∧ ¬ cfg.tlsGlobalInit then none
      else
        some (⟨if server.length ≤ 1 then none else some server,path,file,
          if ctx.mountport ≠ 0 then ctx.mountport else ctx.nfsport⟩,ctx)

/-- `*flagsp = 0`: the string up to a `?`, and what is behind it -/
def cutFlags (s : Str) : Str × Option Str :=
  match strchr '?' s with
  | some (s,args) => (s,some args)
  | none => (s,none)

/-- The port behind a `:`, and the string without it -/
def port (ctx : Ctx) (server : Str) : Option (Ctx × Str) :=
  match strchr ':' server with
  | none => some (ctx,server)
  | some (host,strp) =>
    match (strtol (strp.takeWhile (· ≠ '/'))).map int32 with
    | none => none
    | some portNum =>
      if portNum < 0 ∨ portNum > 65535 then none
      else
        let slashPos := strp.dropWhile (· ≠ '/')
        some ({ ctx with nfsport := portNum },if slashPos = [] then host ++ [':'] else host ++ slashPos)

/-- What is behind the port -/
def location (cfg : Config) (dir incomplete : Bool) (ctx : Ctx) (server : Str) : Option (NfsUrl × Ctx) :=
  match strchr '/' server with
  | none =>
    if incomplete then
      let (server,flagsp) := cutFlags server
      flags cfg incomplete ctx server none none flagsp
    else none
  | some (server,rest) =>
    let path := '/' :: rest
    if dir then
      let (path,flagsp) := cutFlags path
      flags cfg incomplete ctx server (some path) none flagsp
    else
      match strrchr '/' path with
      | none =>
        if incomplete then
          let (path,flagsp) := cutFlags path
          flags cfg incomplete ctx server (some path) none flagsp
        else none
      | some (path,name) =>
        let (file,flagsp) := cutFlags ('/' :: name)
        flags cfg incomplete ctx server (some path) (some file) flagsp

def scheme : Str := ['n','f','s',':','/','/']

/-- `nfs_parse_url` -/
def nfsParseUrl (cfg : Config) (ctx : Ctx) (url : Str) (dir incomplete : Bool) : Option (NfsUrl × Ctx) :=
  if ¬ scheme <+: url then none
  else
    let server := (unescape (url.drop 6)).takeWhile (· ≠ '\x00')
    if server.head? = some '/' ∨ server = [] ∨ server.head? = some '?' then
      if incomplete then
        let (server,flagsp) := cutFlags server
        flags cfg incomplete ctx server none none flagsp
      else none
    else
      match port ctx server with
      | none => none
      | some (ctx,server) => location cfg dir incomplete ctx server

section Strings

variable {c x y : Char} {a b s : Str}

theorem strchr_append (h : c ∉ a) : strchr c (a ++ c :: b) = some (a,b) := by
  induction a with
  | nil => simp [strchr]
  | cons d a ih =>
    have hd : d ≠ c := fun hd => h (by simp [hd])
    rw [List.cons_append,strchr,if_neg hd,ih fun hc => h (List.mem_cons_of_mem d hc)]
    rfl

theorem strchr_none (h : c ∉ s) : strchr c s = none := by
  induction s with
  | nil => rfl
  | cons d s ih =>
    have hd : d ≠ c := fun hd => h (by simp [hd])
    rw [strchr,if_neg hd,ih fun hc => h (List.mem_cons_of_mem d hc)]
    rfl

/-- A string is without a character, or parts at the first one. -/
theorem part_first (c : Char) (s : Str) : c ∉ s ∨ ∃ a b, c ∉ a ∧ s = a ++ c :: b := by
  induction s with
  | nil => exact .inl (by simp)
  | cons d s ih =>
    by_cases hd : d = c
    · exact .inr ⟨[],s,by simp,by simp [hd]⟩
    · rcases ih with h | ⟨a,b,ha,rfl⟩
      · exact .inl (by simp [h,Ne.symm hd])
      · exact .inr ⟨d :: a,b,by simp [ha,Ne.symm hd],rfl⟩

theorem strrchr_append (h : c ∉ b) : strrchr c (a ++ c :: b) = some (a,b) := by
  have hrev : (a ++ c :: b).reverse = b.reverse ++ c :: a.reverse := by simp
  rw [strrchr,hrev,strchr_append (by simpa using h)]
  simp

/-- At the last one -/
theorem part_last (c : Char) (s : Str) : c ∉ s ∨ ∃ a b, c ∉ b ∧ s = a ++ c :: b := by
  rcases part_first c s.reverse with h | ⟨a,b,ha,he⟩
  · exact .inl (by simpa using h)
  · refine .inr ⟨b.reverse,a.reverse,by simpa using ha,?_⟩
    have := congrArg List.reverse he
    simpa using this

theorem strtol_digits {n : ℕ} (h : n < 2^63) : strtol (Nat.toDigits 10 n) = some (n : ℤ) := by
  have hd : ∀ c ∈ Nat.toDigits 10 n, c.isDigit = true := fun c hc =>
    Nat.isDigit_of_mem_toDigits (by norm_num) (by norm_num) hc
  have hne : Nat.toDigits 10 n ≠ [] := Nat.toDigits_ne_nil
  have hval : Nat.ofDigitChars 10 (Nat.toDigits 10 n) 0 = n := Nat.ofDigitChars_ten_toDigits
  obtain ⟨c,s,hcs⟩ := List.exists_cons_of_ne_nil hne
  rw [hcs] at hd hval hne ⊢
  have hc := hd c (by simp)
  have hbounds : 48 ≤ c.toNat ∧ c.toNat ≤ 57 := by
    simpa [Char.isDigit,UInt32.le_iff_toNat_le] using hc
  have hspace : ¬ (c = ' ' ∨ 9 ≤ c.toNat ∧ c.toNat ≤ 13) := by
    rintro (rfl | ⟨-,h⟩)
    · revert hbounds
      decide
    · omega
  have hsign : c ≠ '-' ∧ c ≠ '+' := by
    constructor <;>
    · rintro rfl
      revert hbounds
      decide
  have htake : (c :: s).takeWhile Char.isDigit = c :: s := List.takeWhile_eq_self_iff.mpr hd
  unfold strtol
  simp only [List.dropWhile_cons,hspace,decide_false,Bool.false_eq_true,if_false,List.head?_cons,Option.some.injEq,hsign.1,
    hsign.2,or_self,htake,hval,reduceCtorEq]
  omega

theorem unescape_cons (h : c ≠ '%') (s : Str) : unescape (c :: s) = c :: unescape s := by
  rcases s with _ | ⟨a,_ | ⟨b,s⟩⟩
  all_goals
    rw [unescape]
    simp [h]

theorem unescape_hex {h l : ℕ} (hx : tohex x = some h) (hy : tohex y = some l) (s : Str) :
    unescape ('%' :: x :: y :: s) = Char.ofNat (h*16+l) :: unescape s := by
  rw [unescape,hx,hy]

end Strings

end ParseUrl
end Libnfs
