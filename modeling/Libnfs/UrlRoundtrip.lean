import Libnfs.ParseUrl

/-! A URL that is written from its components, and what `nfs_parse_url` makes of it. -/
namespace Libnfs
namespace UrlRoundtrip

open ParseUrl

/-- The characters that are written as % hex hex -/
structure Escaping where
  reserved : Char → Bool
  percent : reserved '%' = true
  byte : ∀ c, reserved c = true → c.toNat < 256

def hexDigit (n : ℕ) : Char := Char.ofNat (if n < 10 then 48+n else 55+n)

def escape (e : Escaping) : Str → Str
  | [] => []
  | c :: s =>
    if e.reserved c then '%' :: hexDigit (c.toNat/16) :: hexDigit (c.toNat%16) :: escape e s else c :: escape e s

/-- Where a URL leads: an export and a file in it (`nfs_parse_url_full`), a directory (`nfs_parse_url_dir`), or less
(`nfs_parse_url_incomplete`) -/
inductive Place
  | full (path file : Str)
  | dir (path : Str)
  | incomplete (place : Option (Str × Str))

namespace Place

def isDir : Place → Bool
  | .dir _ => true
  | _ => false

def isIncomplete : Place → Bool
  | .incomplete _ => true
  | _ => false

def path : Place → Option Str
  | .full path _ | .dir path | .incomplete (some (path,_)) => some path
  | .incomplete none => none

def file : Place → Option Str
  | .full _ file | .incomplete (some (_,file)) => some ('/' :: file)
  | _ => none

/-- As it stands behind the server -/
def text (p : Place) : Str := p.path.getD [] ++ p.file.getD []

/-- A path is empty or starts with a separator, that of a directory does start with one; a file name has none. -/
structure WellFormed (p : Place) : Prop where
  path : ∀ s, p.path = some s → s = [] ∧ p.file ≠ none ∨ s.head? = some '/'
  file : ∀ s, p.file = some ('/' :: s) → '/' ∉ s
  nul : '\x00' ∉ p.text

end Place

/-- Without reserved characters -/
def Plain (s : Str) : Prop := ∀ c ∈ s, c ∉ ['/','?',':','@','%','\x00']

def argText : Arg → Str
  | (arg,some val) => arg ++ '=' :: val
  | (arg,none) => arg

def argsText : List Arg → Str
  | [] => []
  | [a] => argText a
  | a :: b :: args => argText a ++ '&' :: argsText (b :: args)

/-- `[?arg=val[&arg=val]*]` -/
def query (args : List Arg) : Str := if args = [] then [] else '?' :: argsText args

/-- A name, and a value in which there is nothing that ends it -/
structure ArgOk (a : Arg) : Prop where
  ne : a.1 ≠ []
  name : '=' ∉ a.1 ∧ '&' ∉ a.1 ∧ '\x00' ∉ a.1
  val : ∀ v, a.2 = some v → '&' ∉ v ∧ '\x00' ∉ v

/-- The components of a URL -/
structure Url where
  user : Option Str
  server : Str
  port : Option ℕ
  place : Place
  args : List Arg
  user_plain : ∀ s, user = some s → Plain s
  server_plain : Plain server
  server_length : 2 ≤ server.length
  port_le : ∀ n, port = some n → n ≤ 65535
  place_ok : place.WellFormed
  args_ok : ∀ a ∈ args, ArgOk a

namespace Url

/-- `[<username>@]<server>` -/
def host (u : Url) : Str :=
  match u.user with
  | some user => user ++ '@' :: u.server
  | none => u.server

def portText (u : Url) : Str :=
  match u.port with
  | some n => ':' :: Nat.toDigits 10 n
  | none => []

def escapedQuery (e : Escaping) (u : Url) : Str := if u.args = [] then [] else '?' :: escape e (argsText u.args)

/-- `nfs://[<username>@]<server>[:<port>]/path[?arg=val[&arg=val]*]` -/
def render (e : Escaping) (u : Url) : Str :=
  scheme ++ (u.host ++ (u.portText ++ (escape e u.place.text ++ u.escapedQuery e)))

end Url

/-- The arguments are set one after the other. -/
def applyArgs (cfg : Config) (ctx : Ctx) : List Arg → Option Ctx
  | [] => some ctx
  | (arg,val) :: args =>
    (match val with
      | some val => nfsSetContextArgs cfg ctx arg val
      | none => nfsSetContextArgsNoVal ctx arg).bind fun ctx => applyArgs cfg ctx args

/-- What is made of the components once the arguments are set -/
def finish (cfg : Config) (u : Url) (path file : Option Str) (ctx : Ctx) : Option (NfsUrl × Ctx) :=
  let ctx := match u.user with
    | some user => { ctx with username := some user }
    | none => ctx
  if ctx.wantedTls ∧ ¬ cfg.tlsGlobalInit then none
  else some (⟨some u.server,path,file,if ctx.mountport ≠ 0 then ctx.mountport else ctx.nfsport⟩,ctx)

/-- The context with the port of the URL -/
def withPort (u : Url) (ctx : Ctx) : Ctx :=
  match u.port with
  | some n => { ctx with nfsport := n }
  | none => ctx

/-- The components themselves, if the arguments are accepted -/
def expected (cfg : Config) (ctx : Ctx) (u : Url) : Option (NfsUrl × Ctx) :=
  (applyArgs cfg (withPort u ctx) u.args).bind (finish cfg u u.place.path u.place.file)

/-- Parsing inverts rendering. -/
def Inverts (cfg : Config) (ctx : Ctx) (e : Escaping) (u : Url) : Prop :=
  nfsParseUrl cfg ctx (u.render e) u.place.isDir u.place.isIncomplete = expected cfg ctx u

/-- What separates is where it is looked for: a file name has no `?`, nor has a directory, and the arguments behind a file no `/`;
without a port there is no `:`; and without a path there is no port either. -/
def Clear (u : Url) : Prop :=
  (u.port = none → ':' ∉ u.place.text ++ argsText u.args) ∧
  match u.place with
  | .full _ file | .incomplete (some (_,file)) => '?' ∉ file ∧ '/' ∉ argsText u.args
  | .dir path => '?' ∉ path
  | .incomplete none => u.port = none ∧ '/' ∉ argsText u.args

section Decode

variable {e : Escaping}

theorem tohex_hexDigit {n : ℕ} (h : n < 16) : tohex (hexDigit n) = some n := by
  interval_cases n <;> rfl

/-- What is escaped is unescaped, in front of anything. -/
theorem unescape_escape (s t : Str) : unescape (escape e s ++ t) = s ++ unescape t := by
  induction s with
  | nil => rfl
  | cons c s ih =>
    rw [escape]
    by_cases hc : e.reserved c = true
    · have hb := e.byte c hc
      rw [if_pos hc,List.cons_append,List.cons_append,List.cons_append,
        unescape_hex (tohex_hexDigit (by omega)) (tohex_hexDigit (Nat.mod_lt _ (by norm_num))),ih,
        Nat.div_add_mod',Char.ofNat_toNat]
      rfl
    · have hne : c ≠ '%' := by
        rintro rfl
        exact hc e.percent
      rw [if_neg hc,List.cons_append,unescape_cons hne,ih]
      rfl

theorem unescape_plain {s : Str} (h : '%' ∉ s) (t : Str) : unescape (s ++ t) = s ++ unescape t := by
  induction s with
  | nil => rfl
  | cons c s ih =>
    have hc : c ≠ '%' := fun hc => h (by simp [hc])
    rw [List.cons_append,unescape_cons hc,ih fun hs => h (List.mem_cons_of_mem c hs)]
    rfl

variable (u : Url)

/-- What may not be in the host -/
theorem Url.host_notMem {c : Char} (h : c ∈ ['/','?',':','%','\x00']) : c ∉ u.host := by
  have hplain : ∀ s, Plain s → c ∉ s := by
    intro s hs hc
    refine hs c hc ?_
    simp only [List.mem_cons,List.not_mem_nil,or_false] at h ⊢
    tauto
  have hat : c ≠ '@' := by
    rintro rfl
    simp at h
  have hserver := hplain _ u.server_plain
  unfold Url.host
  cases hu : u.user with
  | none => exact hserver
  | some user => simp [hplain _ (u.user_plain _ hu),hat,hserver]

theorem digit_notMem {c : Char} (h : c.isDigit = false) (n : ℕ) : c ∉ Nat.toDigits 10 n := by
  intro hc
  rw [Nat.isDigit_of_mem_toDigits (by norm_num) (by norm_num) hc] at h
  simp at h

theorem Url.portText_notMem {c : Char} (h : c.isDigit = false) (hc : c ≠ ':') : c ∉ u.portText := by
  unfold Url.portText
  cases u.port with
  | none => simp
  | some n => simp [hc,digit_notMem h]

theorem argsText_nul {args : List Arg} (h : ∀ a ∈ args, ArgOk a) : '\x00' ∉ argsText args := by
  have harg : ∀ a, ArgOk a → '\x00' ∉ argText a := by
    rintro ⟨name,val⟩ ha
    cases val with
    | none => exact ha.name.2.2
    | some v => simp [argText,ha.name.2.2,(ha.val v rfl).2]
  induction args with
  | nil => simp [argsText]
  | cons a args ih =>
    have ha := harg a (h a (by simp))
    cases args with
    | nil => exact ha
    | cons b args =>
      have hrest := ih fun a ha => h a (List.mem_cons_of_mem _ ha)
      simp [argsText,ha,hrest]

theorem Url.unescape_query : unescape (u.escapedQuery e) = query u.args := by
  unfold Url.escapedQuery query
  split
  · rfl
  · have h := @unescape_escape e (argsText u.args) []
    rw [List.append_nil] at h
    rw [unescape_cons (by decide),h]
    simp [unescape]

/-- What `nfs_parse_url` has after the loop that unescapes -/
theorem decoded : (unescape ((u.render e).drop 6)).takeWhile (· ≠ '\x00') =
    u.host ++ (u.portText ++ (u.place.text ++ query u.args)) := by
  have hdrop : (u.render e).drop 6 = u.host ++ (u.portText ++ (escape e u.place.text ++ u.escapedQuery e)) := rfl
  have hhost : '%' ∉ u.host := u.host_notMem (by simp)
  have hport : '%' ∉ u.portText := @Url.portText_notMem u '%' rfl (by decide)
  rw [hdrop,unescape_plain hhost,unescape_plain hport,unescape_escape,u.unescape_query]
  have hnul : '\x00' ∉ u.host ++ (u.portText ++ (u.place.text ++ query u.args)) := by
    have hargs := argsText_nul u.args_ok
    simp only [List.mem_append,not_or]
    refine ⟨u.host_notMem (by simp),@Url.portText_notMem u '\x00' rfl (by decide),u.place_ok.nul,?_⟩
    unfold query
    split
    · simp
    · simp [hargs]
  refine List.takeWhile_eq_self_iff.mpr fun c hc => ?_
  simpa using fun h : c = '\x00' => hnul (h ▸ hc)

end Decode

section Arguments

variable {cfg : Config} {ctx ctx' : Ctx}

theorem strchr_some {c : Char} {s a b : Str} (h : strchr c s = some (a,b)) : s = a ++ c :: b := by
  rcases part_first c s with hn | ⟨a',b',ha,rfl⟩
  · rw [strchr_none hn] at h
    simp at h
  · rw [strchr_append ha] at h
    simp only [Option.some.injEq,Prod.mk.injEq] at h
    rw [h.1,h.2]

theorem argText_ne {a : Arg} (h : ArgOk a) : argText a ≠ [] := by
  obtain ⟨name,val⟩ := a
  have hne := h.ne
  cases val <;> simp_all [argText]

theorem argsText_ne {a : Arg} {args : List Arg} (h : ArgOk a) : argsText (a :: args) ≠ [] := by
  have hne := argText_ne h
  cases args <;> simp [argsText,hne]

theorem argText_amp {a : Arg} (h : ArgOk a) : '&' ∉ argText a := by
  obtain ⟨name,val⟩ := a
  cases val with
  | none => exact h.name.2.1
  | some v => simp [argText,h.name.2.1,(h.val v rfl).1]

/-- An argument that is written is set. -/
theorem setArg_argText {a : Arg} (h : ArgOk a) : setArg cfg ctx (argText a) =
    match a.2 with
    | some val => nfsSetContextArgs cfg ctx a.1 val
    | none => nfsSetContextArgsNoVal ctx a.1 := by
  obtain ⟨name,val⟩ := a
  cases val with
  | none => rw [setArg,argText,strchr_none h.name.1]
  | some v => rw [setArg,argText,strchr_append h.name.1]

/-- The loop sets the arguments that are written. -/
theorem argsLoop_argsText {args : List Arg} (h : ∀ a ∈ args, ArgOk a) {fuel : ℕ} (hfuel : (argsText args).length ≤ fuel) :
    argsLoop cfg fuel ctx (argsText args) = applyArgs cfg ctx args := by
  induction args generalizing fuel ctx with
  | nil => cases fuel <;> rfl
  | cons a args ih =>
    have ha := h a (by simp)
    have hne := @argsText_ne a args ha
    have hpos := List.length_pos_iff.mpr hne
    obtain ⟨fuel,rfl⟩ : ∃ f, fuel = f+1 := ⟨fuel-1,by omega⟩
    obtain ⟨name,val⟩ := a
    rw [argsLoop,if_neg hne]
    cases args with
    | nil =>
      have hamp : '&' ∉ argsText [(name,val)] := argText_amp ha
      rw [strchr_none hamp]
      simp only [argsText]
      rw [setArg_argText ha]
      simp [applyArgs]
    | cons b args =>
      have htext : argsText ((name,val) :: b :: args) = argText (name,val) ++ '&' :: argsText (b :: args) := rfl
      have hlength := congrArg List.length htext
      simp only [List.length_append,List.length_cons] at hlength
      rw [htext,strchr_append (argText_amp ha)]
      simp only
      rw [setArg_argText ha]
      unfold applyArgs
      refine Option.bind_congr fun ctx _ => ?_
      exact ih (fun a ha => h a (List.mem_cons_of_mem _ ha)) (by omega)

/-- Only contexts with these arguments are returned. -/
def Sets (args : List Arg) (r : Option Ctx) : Prop := ∀ ctx, r = some ctx → ctx.args = args

theorem sets_ite {args : List Arg} {p : Prop} [Decidable p] {a b : Option Ctx} (ha : Sets args a) (hb : Sets args b) :
    Sets args (if p then a else b) := by
  split
  · exact ha
  · exact hb

theorem sets_some {args : List Arg} (h : ctx.args = args) : Sets args (some ctx) := by
  rintro _ ⟨⟩
  exact h

theorem sets_none {args : List Arg} : Sets args none := by
  rintro _ ⟨⟩

theorem nfsSetContextArgs_args (arg val : Str) :
    Sets (ctx.args ++ [(arg,some val)]) (nfsSetContextArgs cfg ctx arg val) := by
  unfold nfsSetContextArgs
  repeat' apply sets_ite
  all_goals first
    | exact sets_none
    | exact sets_some rfl

theorem nfsSetContextArgsNoVal_args (arg : Str) : Sets (ctx.args ++ [(arg,none)]) (nfsSetContextArgsNoVal ctx arg) :=
  sets_ite (sets_some rfl) sets_none

theorem applyArgs_args {args : List Arg} (h : applyArgs cfg ctx args = some ctx') : ctx'.args = ctx.args ++ args := by
  induction args generalizing ctx with
  | nil =>
    simp only [applyArgs,Option.some.injEq] at h
    simp [h]
  | cons a args ih =>
    obtain ⟨name,val⟩ := a
    unfold applyArgs at h
    rw [Option.bind_eq_some_iff] at h
    obtain ⟨mid,hset,hrest⟩ := h
    have hmid : mid.args = ctx.args ++ [(name,val)] := by
      cases val with
      | none => exact nfsSetContextArgsNoVal_args name mid hset
      | some v => exact nfsSetContextArgs_args name v mid hset
    rw [ih hrest,hmid,List.append_assoc]
    rfl

theorem setArg_args {arg : Str} (h : setArg cfg ctx arg = some ctx') :
    ∃ a, ctx'.args = ctx.args ++ [a] ∧ argText a = arg := by
  unfold setArg at h
  split at h
  · rename_i name val hcut
    exact ⟨(name,some val),nfsSetContextArgs_args name val ctx' h,(strchr_some hcut).symm⟩
  · exact ⟨(arg,none),nfsSetContextArgsNoVal_args arg ctx' h,rfl⟩

theorem argsText_cons_length (a : Arg) (args : List Arg) :
    (argsText (a :: args)).length ≤ (argText a).length+1+(argsText args).length := by
  cases args with
  | nil => simp [argsText]
  | cons b args =>
    simp only [argsText,List.length_append,List.length_cons]
    omega

/-- The arguments that are set were all written. -/
theorem argsLoop_args {fuel : ℕ} {s : Str} (h : argsLoop cfg fuel ctx s = some ctx') :
    ∃ new, ctx'.args = ctx.args ++ new ∧ (argsText new).length ≤ s.length ∧ (s = [] → new = []) := by
  induction fuel generalizing ctx s with
  | zero =>
    simp only [argsLoop,Option.some.injEq] at h
    exact ⟨[],by simp [h],by simp [argsText],fun _ => rfl⟩
  | succ fuel ih =>
    rw [argsLoop] at h
    split at h
    · simp only [Option.some.injEq] at h
      exact ⟨[],by simp [h],by simp [argsText],fun _ => rfl⟩
    · rename_i hne
      split at h
      · obtain ⟨a,hargs,rfl⟩ := setArg_args h
        exact ⟨[a],hargs,le_refl _,fun hs => absurd hs hne⟩
      · rename_i arg flagsp hcut
        rw [Option.bind_eq_some_iff] at h
        obtain ⟨mid,hset,hrest⟩ := h
        obtain ⟨a,hargs,rfl⟩ := setArg_args hset
        obtain ⟨new,hnew,hle,-⟩ := ih hrest
        refine ⟨a :: new,by rw [hnew,hargs,List.append_assoc]; rfl,?_,fun hs => absurd hs hne⟩
        have hcons := argsText_cons_length a new
        rw [strchr_some hcut,List.length_append,List.length_cons]
        omega

end Arguments

section Flags

variable {cfg : Config} {ctx c : Ctx} {dir incomplete : Bool} {r : NfsUrl} {s t path name : Str}

theorem cutFlags_append (h : '?' ∉ s) : cutFlags (s ++ t) = (s ++ (cutFlags t).1,(cutFlags t).2) := by
  rcases part_first '?' t with ht | ⟨a,b,ha,rfl⟩
  · rw [cutFlags,cutFlags,strchr_none ht,strchr_none (by simp [h,ht])]
  · rw [cutFlags,cutFlags,strchr_append ha,← List.append_assoc,strchr_append (by simp [h,ha])]

/-- The arguments are what is behind the first `?`. -/
theorem cutFlags_query (args : List Arg) : (cutFlags (query args)).1 = [] ∧ (cutFlags (query args)).2.getD [] = argsText args := by
  unfold query
  by_cases h : args = []
  · rw [if_pos h,h]
    exact ⟨rfl,rfl⟩
  · have hcut := @strchr_append '?' [] (argsText args) (by simp)
    rw [List.nil_append] at hcut
    rw [if_neg h,cutFlags,hcut]
    exact ⟨rfl,rfl⟩

/-- The length of a `?` and the arguments behind it -/
def flagsLength (flagsp : Option Str) : ℕ := (flagsp.map fun s => s.length+1).getD 0

theorem cutFlags_length (s : Str) : (cutFlags s).1.length+flagsLength (cutFlags s).2 = s.length := by
  rcases part_first '?' s with hs | ⟨a,b,ha,rfl⟩
  · rw [cutFlags,strchr_none hs]
    rfl
  · rw [cutFlags,strchr_append ha,List.length_append]
    rfl

/-- What `flags` returns: the path and the file as they are, arguments that were written, and the end of the server -/
theorem flags_some {server : Str} {path file flagsp : Option Str} (hfile : file ≠ some [])
    (h : flags cfg incomplete ctx server path file flagsp = some (r,c)) :
    r.path = path ∧ r.file = file ∧ (∀ s, r.server = some s → s ≠ [] ∧ s <:+ server) ∧
    ∃ new, c.args = ctx.args ++ new ∧ (query new).length ≤ flagsLength flagsp := by
  unfold flags at h
  rw [if_neg fun hf => hfile hf.1,if_neg hfile,Option.bind_eq_some_iff] at h
  obtain ⟨mid,hloop,hrest⟩ := h
  obtain ⟨new,hnew,hle,hnil⟩ := argsLoop_args hloop
  have hlength : (query new).length ≤ flagsLength flagsp := by
    cases flagsp with
    | none => simp [hnil rfl,query]
    | some s =>
      have hs : (argsText new).length ≤ s.length := hle
      unfold query flagsLength
      split <;> simp [hs]
  have hend : ∀ {srv s : Str}, srv <:+ server → (if srv.length ≤ 1 then none else some srv) = some s → s ≠ [] ∧ s <:+ server := by
    intro srv s hsuffix hs
    split at hs
    · simp at hs
    · rename_i hl
      cases hs
      exact ⟨fun hs => hl (by simp [hs]),hsuffix⟩
  cases hat : strchr '@' server with
  | none =>
    simp only [hat] at hrest
    split at hrest
    · simp at hrest
    · simp only [Option.some.injEq,Prod.mk.injEq] at hrest
      obtain ⟨rfl,rfl⟩ := hrest
      exact ⟨rfl,rfl,fun s => hend (List.suffix_refl _),new,hnew,hlength⟩
  | some p =>
    obtain ⟨user,srv⟩ := p
    simp only [hat] at hrest
    split at hrest
    · simp at hrest
    · simp only [Option.some.injEq,Prod.mk.injEq] at hrest
      obtain ⟨rfl,rfl⟩ := hrest
      have hsuffix : srv <:+ server := ⟨user ++ ['@'],by rw [strchr_some hat,List.append_assoc]; rfl⟩
      exact ⟨rfl,rfl,fun s => hend hsuffix,new,hnew,hlength⟩

variable (u : Url)

/-- The host is taken apart into user and server. -/
theorem flags_host {path file flagsp : Option Str} (hfile : file ≠ some []) :
    flags cfg incomplete ctx u.host path file flagsp =
      (argsLoop cfg (flagsp.getD []).length ctx (flagsp.getD [])).bind (finish cfg u path file) := by
  have hat : '@' ∉ u.server := fun h => u.server_plain _ h (by simp)
  have hlength : ¬ u.server.length ≤ 1 := by
    have := u.server_length
    omega
  unfold flags
  rw [if_neg fun hf => hfile hf.1,if_neg hfile]
  refine Option.bind_congr fun ctx _ => ?_
  unfold finish Url.host
  cases hu : u.user with
  | none => simp only [strchr_none hat,hlength,if_false]
  | some user =>
    have huser : '@' ∉ user := fun h => u.user_plain _ hu _ h (by simp)
    simp only [strchr_append huser,hlength,if_false]

theorem location_dir : location cfg true incomplete ctx (u.host ++ '/' :: s) =
    flags cfg incomplete ctx u.host (some (cutFlags ('/' :: s)).1) none (cutFlags ('/' :: s)).2 := by
  rw [location,strchr_append (u.host_notMem (by simp))]
  rfl

/-- A file is behind the last `/`. -/
theorem location_file (hs : '/' :: s = path ++ '/' :: name) (h : '/' ∉ name) :
    location cfg false incomplete ctx (u.host ++ '/' :: s) =
      flags cfg incomplete ctx u.host (some path) (some (cutFlags ('/' :: name)).1) (cutFlags ('/' :: name)).2 := by
  rw [location,strchr_append (u.host_notMem (by simp))]
  simp only [Bool.false_eq_true,if_false]
  rw [hs,strrchr_append h]

theorem location_server (h : '/' ∉ s) : location cfg dir true ctx (u.host ++ s) =
    flags cfg true ctx (u.host ++ (cutFlags s).1) none none (cutFlags s).2 := by
  have hslash : '/' ∉ u.host ++ s := by simp [h,u.host_notMem]
  rw [location,strchr_none hslash]
  simp only [if_true]
  rw [cutFlags_append (u.host_notMem (by simp))]

theorem cutFlags_ne (h : s.head? = some '/') : (cutFlags s).1 ≠ [] := by
  cases s with
  | nil => simp at h
  | cons d s =>
    cases h
    have happend := @cutFlags_append ['/'] s (by simp)
    rw [List.singleton_append] at happend
    simp [happend]

/-- A path, a file and arguments that are returned were all written behind the host. -/
theorem location_length (h : location cfg dir incomplete ctx (u.host ++ s) = some (r,c)) :
    ∃ new, c.args = ctx.args ++ new ∧ (r.path.getD []).length+(r.file.getD []).length+(query new).length ≤ s.length := by
  rcases part_first '/' s with hs | ⟨a,b,ha,rfl⟩
  · cases incomplete with
    | false =>
      have hslash : '/' ∉ u.host ++ s := by simp [hs,u.host_notMem]
      rw [location,strchr_none hslash] at h
      simp at h
    | true =>
      rw [location_server u hs] at h
      obtain ⟨hpath,hfile,-,new,hnew,hle⟩ := flags_some (by simp) h
      have hcut := cutFlags_length s
      refine ⟨new,hnew,?_⟩
      rw [hpath,hfile]
      simp only [Option.getD_none,List.length_nil]
      omega
  · have hslash : '/' ∉ u.host ++ a := by simp [ha,u.host_notMem]
    rw [location,← List.append_assoc,strchr_append hslash] at h
    simp only at h
    rw [List.length_append]
    cases dir with
    | true =>
      rw [if_pos rfl] at h
      obtain ⟨hpath,hfile,-,new,hnew,hle⟩ := flags_some (by simp) h
      have hcut := cutFlags_length ('/' :: b)
      refine ⟨new,hnew,?_⟩
      rw [hpath,hfile]
      simp only [Option.getD_none,Option.getD_some,List.length_nil]
      omega
    | false =>
      rw [if_neg (by simp)] at h
      rcases part_last '/' ('/' :: b) with hb | ⟨path,name,hname,hb⟩
      · simp at hb
      · rw [hb,strrchr_append hname] at h
        simp only at h
        have hne := @cutFlags_ne ('/' :: name) rfl
        obtain ⟨hpath,hfile,-,new,hnew,hle⟩ := flags_some (by simpa using hne) h
        have hcut := cutFlags_length ('/' :: name)
        refine ⟨new,hnew,?_⟩
        rw [hpath,hfile,hb,List.length_append]
        simp only [Option.getD_some]
        omega

end Flags

section Port

variable {cfg : Config} {ctx ctx' : Ctx} {s t t' : Str} (u : Url)

/-- The port that is written is taken out, in front of a path. -/
theorem port_some {n : ℕ} (hn : u.port = some n) : port ctx (u.host ++ (u.portText ++ '/' :: s)) =
    some (withPort u ctx,u.host ++ '/' :: s) := by
  have hle := u.port_le n hn
  have hslash : ∀ c ∈ Nat.toDigits 10 n, decide (c ≠ '/') = true := by
    intro c hc
    have hd : c ≠ '/' := fun h => @digit_notMem '/' rfl n (h ▸ hc)
    simpa using hd
  have htake : (Nat.toDigits 10 n ++ '/' :: s).takeWhile (· ≠ '/') = Nat.toDigits 10 n := by
    rw [List.takeWhile_append_of_pos hslash]
    simp
  have hdrop : (Nat.toDigits 10 n ++ '/' :: s).dropWhile (· ≠ '/') = '/' :: s := by
    rw [List.dropWhile_append_of_pos hslash]
    simp
  have htext : u.portText = ':' :: Nat.toDigits 10 n := by
    rw [Url.portText,hn]
  have hint : int32 (n : ℤ) = n := by
    unfold int32
    rw [Int.bmod_def]
    omega
  rw [htext,List.cons_append,port,strchr_append (u.host_notMem (by simp))]
  simp only [htake,hdrop,strtol_digits (show n < 2^63 by omega),Option.map_some,hint,withPort,hn]
  rw [if_neg (by omega),if_neg (by simp)]

theorem port_none (h : ':' ∉ s) : port ctx (u.host ++ s) = some (ctx,u.host ++ s) := by
  have hcolon : ':' ∉ u.host ++ s := by simp [h,u.host_notMem]
  rw [port,strchr_none hcolon]

/-- What is taken for a port is taken out, with everything up to the next `/`. -/
theorem port_cut (ht : ':' ∉ t) (h : port ctx (u.host ++ (t ++ ':' :: t')) = some (ctx',s)) :
    ctx'.args = ctx.args ∧ ∃ x, s = u.host ++ (t ++ x) ∧ x.length ≤ t'.length ∧ ('/' ∉ t' → x = [':']) ∧ ('/' ∈ t' → '/' ∈ x) := by
  have hcolon : ':' ∉ u.host ++ t := by simp [ht,u.host_notMem]
  rw [port,← List.append_assoc,strchr_append hcolon] at h
  simp only at h
  split at h
  · simp at h
  · rename_i portNum hnum
    have hsplit : t'.takeWhile (· ≠ '/') ++ t'.dropWhile (· ≠ '/') = t' := List.takeWhile_append_dropWhile
    have hne : t'.takeWhile (· ≠ '/') ≠ [] := by
      intro hnil
      rw [hnil] at hnum
      exact absurd hnum (by simp [show strtol [] = none from rfl])
    have hpos := List.length_pos_iff.mpr hne
    have hlength := congrArg List.length hsplit
    rw [List.length_append] at hlength
    have hnotMem : '/' ∉ t'.takeWhile (· ≠ '/') := fun hm => by simpa using List.mem_takeWhile_imp hm
    split at h
    · simp at h
    · simp only [Option.some.injEq,Prod.mk.injEq] at h
      obtain ⟨rfl,rfl⟩ := h
      refine ⟨rfl,?_⟩
      by_cases hd : t'.dropWhile (· ≠ '/') = []
      · refine ⟨[':'],by rw [if_pos hd,List.append_assoc],by simp; omega,fun _ => rfl,fun hm => ?_⟩
        rw [← hsplit,hd,List.append_nil] at hm
        exact absurd hm hnotMem
      · refine ⟨t'.dropWhile (· ≠ '/'),by rw [if_neg hd,List.append_assoc],by omega,fun hm => ?_,fun hm => ?_⟩
        · exact absurd (List.dropWhile_eq_nil_iff.mpr fun c hc => by simpa using fun h : c = '/' => hm (h ▸ hc)) hd
        · rw [← hsplit,List.mem_append] at hm
          exact hm.resolve_left hnotMem

/-- What a rendered URL is parsed as -/
theorem parse_render (e : Escaping) (dir incomplete : Bool) : nfsParseUrl cfg ctx (u.render e) dir incomplete =
    (port ctx (u.host ++ (u.portText ++ (u.place.text ++ query u.args)))).bind fun p =>
      location cfg dir incomplete p.1 p.2 := by
  have hscheme : scheme <+: u.render e := ⟨_,rfl⟩
  unfold nfsParseUrl
  rw [if_neg (by simp [hscheme]),decoded]
  obtain ⟨c,s,hhost⟩ : ∃ c s, u.host = c :: s := by
    refine List.exists_cons_of_ne_nil ?_
    have hlength := u.server_length
    unfold Url.host
    cases u.user with
    | none =>
      intro h
      simp [h] at hlength
    | some user => simp
  have hhead : ∀ d ∈ ['/','?',':','%','\x00'], c ≠ d := by
    rintro d hd rfl
    exact u.host_notMem hd (by simp [hhost])
  have hc : ¬ ((u.host ++ (u.portText ++ (u.place.text ++ query u.args))).head? = some '/' ∨
      u.host ++ (u.portText ++ (u.place.text ++ query u.args)) = [] ∨
      (u.host ++ (u.portText ++ (u.place.text ++ query u.args))).head? = some '?') := by
    rw [hhost]
    simp [hhead]
  rw [if_neg hc]
  cases port ctx (u.host ++ (u.portText ++ (u.place.text ++ query u.args))) <;> rfl

end Port

section Places

variable {cfg : Config} {ctx c : Ctx} {incomplete : Bool} {r : NfsUrl} {u : Url} {path file : Str}

theorem mem_query {args : List Arg} {d : Char} (hd : d ≠ '?') : d ∈ query args ↔ d ∈ argsText args := by
  unfold query
  split
  · rename_i h
    simp [h,argsText]
  · simp [hd]

theorem Place.text_slash {p : Place} (h : p.WellFormed) (hpath : p.path ≠ none) : ∃ s, p.text = '/' :: s := by
  obtain ⟨path,hp⟩ := Option.ne_none_iff_exists'.mp hpath
  unfold Place.text
  rw [hp]
  rcases h.path path hp with ⟨rfl,hf⟩ | hhead
  · cases p with
    | full path file => exact ⟨file,rfl⟩
    | dir path => simp [Place.file] at hf
    | incomplete place =>
      cases place with
      | none => simp [Place.path] at hpath
      | some place => exact ⟨place.2,rfl⟩
  · obtain ⟨s,rfl⟩ := List.head?_eq_some_iff.mp hhead
    exact ⟨s ++ p.file.getD [],rfl⟩

/-- The port is what is written, where no other `:` is and a path follows it. -/
theorem port_place (hcolon : u.port = none → ':' ∉ u.place.text ++ argsText u.args) (h : u.port = none ∨ u.place.path ≠ none) :
    port ctx (u.host ++ (u.portText ++ (u.place.text ++ query u.args))) =
      some (withPort u ctx,u.host ++ (u.place.text ++ query u.args)) := by
  cases hport : u.port with
  | none =>
    have hnone : ':' ∉ u.place.text ++ query u.args := by
      have hc := hcolon hport
      rw [List.mem_append,not_or] at hc ⊢
      exact ⟨hc.1,fun hq => hc.2 ((mem_query (by decide)).mp hq)⟩
    have htext : u.portText = [] := by
      rw [Url.portText,hport]
    rw [htext,List.nil_append,port_none u hnone,withPort,hport]
  | some n =>
    obtain ⟨s,hs⟩ := Place.text_slash u.place_ok (h.resolve_left (by simp [hport]))
    rw [hs,List.cons_append]
    exact port_some u hport

/-- Behind what has no `?` the arguments are set. -/
theorem flags_query {s : Str} {path file : Option Str} (hs : '?' ∉ s) (hfile : file ≠ some []) :
    flags cfg incomplete ctx u.host path file (cutFlags (s ++ query u.args)).2 =
      (applyArgs cfg ctx u.args).bind (finish cfg u path file) := by
  rw [flags_host u hfile,cutFlags_append hs,(cutFlags_query u.args).2,argsLoop_argsText u.args_ok (le_refl _)]

theorem cutFlags_path {s : Str} (hs : '?' ∉ s) (args : List Arg) : (cutFlags (s ++ query args)).1 = s := by
  rw [cutFlags_append hs,(cutFlags_query args).1,List.append_nil]

/-- An export and a file in it are one path that starts with a separator. -/
theorem named_slash (hpath : path = [] ∨ path.head? = some '/') (args : List Arg) : ∃ s,
    (path ++ '/' :: file) ++ query args = '/' :: s ∧ '/' :: s = path ++ '/' :: (file ++ query args) := by
  rcases hpath with rfl | hhead
  · exact ⟨_,rfl,rfl⟩
  · obtain ⟨t,rfl⟩ := List.head?_eq_some_iff.mp hhead
    exact ⟨_,by rw [List.append_assoc]; rfl,rfl⟩

/-- An export and a file in it, in front of the arguments -/
theorem location_named (hpath : path = [] ∨ path.head? = some '/') (hname : '/' ∉ file) (hfile : '?' ∉ file)
    (hargs : '/' ∉ argsText u.args) :
    location cfg false incomplete ctx (u.host ++ ((path ++ '/' :: file) ++ query u.args)) =
      (applyArgs cfg ctx u.args).bind (finish cfg u (some path) (some ('/' :: file))) := by
  obtain ⟨s,hassoc,hs⟩ := @named_slash path file hpath u.args
  have hslash : '/' ∉ file ++ query u.args := by
    rw [List.mem_append,not_or]
    exact ⟨hname,fun hq => hargs ((mem_query (by decide)).mp hq)⟩
  have hquestion : '?' ∉ '/' :: file := by simp [hfile]
  rw [hassoc,location_file u hs hslash,← List.cons_append,cutFlags_path hquestion,flags_query hquestion (by simp)]

/-- The components come back as they are, where what separates is clear. -/
theorem location_clear (h : Clear u) : location cfg u.place.isDir u.place.isIncomplete ctx (u.host ++ (u.place.text ++ query u.args)) =
    (applyArgs cfg ctx u.args).bind (finish cfg u u.place.path u.place.file) := by
  have hok := u.place_ok
  have hclear := h.2
  cases hplace : u.place with
  | full path file =>
    simp only [hplace] at hok hclear
    have hpath : path = [] ∨ path.head? = some '/' := (hok.path path rfl).imp_left And.left
    exact location_named hpath (hok.file file rfl) hclear.1 hclear.2
  | dir path =>
    simp only [hplace] at hok hclear
    obtain ⟨s,hs⟩ := Place.text_slash hok (by simp [Place.path])
    have htext : (Place.dir path).text = path := List.append_nil path
    rw [htext] at hs
    have hassoc : path ++ query u.args = '/' :: (s ++ query u.args) := by rw [hs]; rfl
    rw [htext,hassoc]
    have hlocation := @location_dir cfg ctx false (s ++ query u.args) u
    rw [← hassoc,cutFlags_path hclear,flags_query hclear (by simp)] at hlocation
    rw [← hassoc]
    exact hlocation
  | incomplete place =>
    cases place with
    | none =>
      simp only [hplace] at hclear
      have hslash : '/' ∉ query u.args := fun hq => hclear.2 ((mem_query (by decide)).mp hq)
      have htext : (Place.incomplete none).text = [] := rfl
      rw [htext,List.nil_append]
      have hlocation := @location_server cfg ctx false _ u hslash
      rw [(cutFlags_query u.args).1,List.append_nil] at hlocation
      exact hlocation.trans (@flags_query cfg ctx true u [] none none (by simp) (by simp))
    | some place =>
      obtain ⟨path,file⟩ := place
      simp only [hplace] at hok hclear
      have hpath : path = [] ∨ path.head? = some '/' := (hok.path path rfl).imp_left And.left
      exact location_named hpath (hok.file file rfl) hclear.1 hclear.2

end Places

section Separators

variable {cfg : Config} {ctx c : Ctx} {incomplete : Bool} {r : NfsUrl} {u : Url} {path file s : Str}

theorem expected_some (h : expected cfg ctx u = some (r,c)) :
    r.server = some u.server ∧ r.path = u.place.path ∧ r.file = u.place.file ∧ c.args = ctx.args ++ u.args := by
  unfold expected at h
  rw [Option.bind_eq_some_iff] at h
  obtain ⟨mid,hargs,hfinish⟩ := h
  have hmid := applyArgs_args hargs
  have hport : (withPort u ctx).args = ctx.args := by
    unfold withPort
    cases u.port <;> rfl
  rw [hport] at hmid
  unfold finish at hfinish
  by_cases htls : mid.wantedTls = true ∧ ¬ cfg.tlsGlobalInit = true
  · cases hu : u.user <;> simp [hu,htls] at hfinish
  · cases hu : u.user with
    | none =>
      simp only [hu] at hfinish
      rw [if_neg htls] at hfinish
      obtain ⟨rfl,rfl⟩ := Prod.mk.inj (Option.some.inj hfinish)
      exact ⟨rfl,rfl,rfl,hmid⟩
    | some user =>
      simp only [hu] at hfinish
      rw [if_neg htls] at hfinish
      obtain ⟨rfl,rfl⟩ := Prod.mk.inj (Option.some.inj hfinish)
      exact ⟨rfl,rfl,rfl,hmid⟩

theorem Place.text_length (p : Place) : p.text.length = (p.path.getD []).length+(p.file.getD []).length :=
  List.length_append

/-- A `:` that is not a port's would be taken for one, and something would be missing. -/
theorem colon_notMem {ctx' : Ctx} {s' : Str} (hexp : expected cfg ctx u = some (r,c)) {dir : Bool}
    (hport : port ctx (u.host ++ (u.portText ++ (u.place.text ++ query u.args))) = some (ctx',s'))
    (hloc : location cfg dir incomplete ctx' s' = some (r,c)) (hnone : u.port = none) :
    ':' ∉ u.place.text ++ argsText u.args := by
  intro hmem
  have hquery : ':' ∈ u.place.text ++ query u.args := by
    rw [List.mem_append] at hmem ⊢
    exact hmem.imp_right (mem_query (by decide)).mpr
  have htext : u.portText = [] := by
    rw [Url.portText,hnone]
  rw [htext,List.nil_append] at hport
  rcases part_first ':' (u.place.text ++ query u.args) with h | ⟨t,t',ht,hsplit⟩
  · exact h hquery
  · rw [hsplit] at hport
    obtain ⟨hargs,x,rfl,hx,-⟩ := port_cut u ht hport
    obtain ⟨new,hnew,hle⟩ := location_length u hloc
    obtain ⟨-,hpath,hfile,hc⟩ := expected_some hexp
    have heq : new = u.args := by
      rw [hnew,hargs] at hc
      exact List.append_cancel_left hc
    have hlength := congrArg List.length hsplit
    have hplace := u.place.text_length
    rw [heq,hpath,hfile,List.length_append] at hle
    simp only [List.length_append,List.length_cons] at hlength
    omega

/-- A `/` makes a path. -/
theorem location_path (hs : '/' ∈ s) (h : location cfg false incomplete ctx (u.host ++ s) = some (r,c)) : r.path ≠ none := by
  rcases part_first '/' s with hn | ⟨a,b,ha,rfl⟩
  · exact absurd hs hn
  · have hslash : '/' ∉ u.host ++ a := by simp [ha,u.host_notMem]
    rw [location,← List.append_assoc,strchr_append hslash] at h
    simp only at h
    rw [if_neg (by simp)] at h
    rcases part_last '/' ('/' :: b) with hb | ⟨path,name,hname,hb⟩
    · simp at hb
    · simp only [hb,strrchr_append hname] at h
      have hne := @cutFlags_ne ('/' :: name) rfl
      rw [(flags_some (by simpa using hne) h).1]
      simp

/-- With an export and a file, the last `/` is the file's and the first `?` behind it the arguments'. -/
theorem named_clear (hpath : path = [] ∨ path.head? = some '/') (hname : '/' ∉ file)
    (h : location cfg false incomplete ctx (u.host ++ ((path ++ '/' :: file) ++ query u.args)) = some (r,c))
    (hr : r.path = some path ∧ r.file = some ('/' :: file)) : '?' ∉ file ∧ '/' ∉ argsText u.args := by
  obtain ⟨s,hassoc,hs⟩ := @named_slash path file hpath u.args
  rw [hassoc] at h
  rcases part_last '/' (query u.args) with hquery | ⟨q,q',hq',hquery⟩
  · have hargs : '/' ∉ argsText u.args := fun ha => hquery ((mem_query (by decide)).mpr ha)
    refine ⟨fun hq => ?_,hargs⟩
    have hslash : '/' ∉ file ++ query u.args := by simp [hname,hquery]
    rw [location_file u hs hslash] at h
    have hne := @cutFlags_ne ('/' :: (file ++ query u.args)) rfl
    obtain ⟨-,hfile,-⟩ := flags_some (by simpa using hne) h
    rcases part_first '?' file with hn | ⟨f,f',hf,rfl⟩
    · exact hn hq
    · have hcut : (cutFlags ('/' :: ((f ++ '?' :: f') ++ query u.args))).1 = '/' :: f := by
        have hmem : '?' ∉ '/' :: f := by simp [hf]
        rw [List.append_assoc,List.cons_append,cutFlags,← List.cons_append,strchr_append hmem]
      rw [hcut,hr.2] at hfile
      simp at hfile
  · exfalso
    have hlast : '/' :: s = (path ++ '/' :: (file ++ q)) ++ '/' :: q' := by
      rw [hs,hquery]
      simp
    rw [location_file u hlast hq'] at h
    have hne := @cutFlags_ne ('/' :: q') rfl
    obtain ⟨hp,-⟩ := flags_some (by simpa using hne) h
    rw [hr.1] at hp
    simp at hp

/-- In front of the arguments, the first `?` is theirs. -/
theorem dir_clear (hpath : path.head? = some '/')
    (h : location cfg true incomplete ctx (u.host ++ (path ++ query u.args)) = some (r,c)) (hr : r.path = some path) : '?' ∉ path := by
  obtain ⟨s,rfl⟩ := List.head?_eq_some_iff.mp hpath
  have hdir := location_dir u ▸ h
  obtain ⟨hp,-⟩ := flags_some (by simp) hdir
  intro hq
  rcases part_first '?' ('/' :: s) with hn | ⟨p,p',hp',hsplit⟩
  · exact hn hq
  · have hcut : (cutFlags ('/' :: (s ++ query u.args))).1 = p := by
      rw [← List.cons_append,hsplit,List.append_assoc,List.cons_append,cutFlags,strchr_append hp']
    have hp := hp.symm.trans hr
    rw [List.append_eq,hcut,hsplit] at hp
    simp at hp

/-- With nothing but a server there is no port, of which the `:` would stay, and no `/`, which would make a path. -/
theorem server_clear (hcolon : u.port = none → ':' ∉ u.place.text ++ argsText u.args) (htext : u.place.text = []) {p : Ctx × Str}
    (hport : port ctx (u.host ++ (u.portText ++ (u.place.text ++ query u.args))) = some p)
    (h : location cfg false true p.1 p.2 = some (r,c)) (hserver : r.server = some u.server) (hpath : r.path = none) :
    u.port = none ∧ '/' ∉ argsText u.args := by
  obtain ⟨ctx',s'⟩ := p
  cases hu : u.port with
  | none =>
    refine ⟨rfl,fun hargs => ?_⟩
    rw [port_place hcolon (.inl hu),htext,List.nil_append] at hport
    obtain ⟨rfl,rfl⟩ := Prod.mk.inj (Option.some.inj hport)
    exact location_path ((mem_query (by decide)).mpr hargs) h hpath
  | some n =>
    exfalso
    have hportText : u.portText = ':' :: Nat.toDigits 10 n := by
      rw [Url.portText,hu]
    rw [htext,hportText,List.nil_append,List.cons_append] at hport
    obtain ⟨-,x,rfl,-,hx,hx'⟩ := @port_cut ctx ctx' s' [] _ u (by simp) hport
    simp only [List.nil_append] at h
    by_cases hs : '/' ∈ Nat.toDigits 10 n ++ query u.args
    · exact location_path (hx' hs) h hpath
    · rw [hx hs,location_server u (by simp)] at h
      obtain ⟨-,-,hend,-⟩ := flags_some (by simp) h
      obtain ⟨hne,hsuffix⟩ := hend u.server hserver
      have hlast := hsuffix.getLast hne
      have hmem : ':' ∈ u.server := by
        rw [show (':' : Char) = u.server.getLast hne by rw [hlast]; simp [cutFlags,strchr]]
        exact List.getLast_mem hne
      exact u.server_plain _ hmem (by simp)

/-- A URL that comes back is clear. -/
theorem clear_of_inverts {e : Escaping} (h : Inverts cfg ctx e u) (hexp : expected cfg ctx u = some (r,c)) : Clear u := by
  unfold Inverts at h
  rw [parse_render,hexp,Option.bind_eq_some_iff] at h
  obtain ⟨⟨ctx',s'⟩,hport,hloc⟩ := h
  have hcolon := colon_notMem hexp hport hloc
  refine ⟨hcolon,?_⟩
  obtain ⟨hserver,hpath,hfile,-⟩ := expected_some hexp
  have hok := u.place_ok
  have hplaced : u.place.path ≠ none → s' = u.host ++ (u.place.text ++ query u.args) := by
    intro hne
    rw [port_place hcolon (.inr hne)] at hport
    exact (Prod.mk.inj (Option.some.inj hport)).2.symm
  cases hplace : u.place with
  | full path file =>
    simp only [hplace] at hok hloc hpath hfile hplaced
    rw [hplaced (by simp [Place.path])] at hloc
    exact named_clear ((hok.path path rfl).imp_left And.left) (hok.file file rfl) hloc ⟨hpath,hfile⟩
  | dir path =>
    simp only [hplace] at hok hloc hpath hplaced
    have htext : (Place.dir path).text = path := List.append_nil path
    rw [hplaced (by simp [Place.path]),htext] at hloc
    exact dir_clear ((hok.path path rfl).resolve_left fun h => h.2 rfl) hloc hpath
  | incomplete place =>
    cases place with
    | none =>
      simp only [hplace] at hloc hpath
      exact server_clear hcolon (by rw [hplace]; rfl) hport hloc hserver hpath
    | some place =>
      obtain ⟨path,file⟩ := place
      simp only [hplace] at hok hloc hpath hfile hplaced
      rw [hplaced (by simp [Place.path])] at hloc
      exact named_clear ((hok.path path rfl).imp_left And.left) (hok.file file rfl) hloc ⟨hpath,hfile⟩

end Separators

/-- Rendered URLs come back where what separates is clear, and of those whose arguments are accepted no others do. -/
theorem parse_inverts (cfg : Config) (ctx : Ctx) (e : Escaping) (u : Url) :
    (Clear u → Inverts cfg ctx e u) ∧ ((expected cfg ctx u).isSome → (Inverts cfg ctx e u ↔ Clear u)) := by
  have hinverts : Clear u → Inverts cfg ctx e u := by
    intro hclear
    have hplaced : u.port = none ∨ u.place.path ≠ none := by
      have h := hclear.2
      cases hplace : u.place with
      | full path file => exact .inr (by simp [Place.path])
      | dir path => exact .inr (by simp [Place.path])
      | incomplete place =>
        cases place with
        | none =>
          simp only [hplace] at h
          exact .inl h.1
        | some place => exact .inr (by simp [Place.path])
    unfold Inverts
    rw [parse_render,port_place hclear.1 hplaced]
    exact location_clear hclear
  refine ⟨hinverts,fun hsome => ⟨fun h => ?_,hinverts⟩⟩
  obtain ⟨r,hr⟩ := Option.isSome_iff_exists.mp hsome
  exact clear_of_inverts h hr

/-- All the reserved characters but the separator of a path -/
def reservedEscaping : Escaping where
  reserved c := ['%','?','@',':','#','&','=','+',' '].contains c
  percent := rfl
  byte c h := by
    simp only [List.contains_iff_mem,List.mem_cons,List.not_mem_nil,or_false] at h
    rcases h with rfl | rfl | rfl | rfl | rfl | rfl | rfl | rfl | rfl <;> decide

/-- `nfs://u@h1:2049/p/a%3Ab?uid=1` -/
def portUrl : Url where
  user := some ['u']
  server := ['h','1']
  port := some 2049
  place := .full ['/','p'] ['a',':','b']
  args := [("uid".toList,some ['1'])]
  user_plain := by simp [Plain]
  server_plain := by simp [Plain]
  server_length := le_refl 2
  port_le := by simp
  place_ok := ⟨by simp [Place.path],by simp [Place.file],by simp [Place.text,Place.path,Place.file]⟩
  args_ok := by
    simp only [List.mem_singleton,forall_eq]
    exact ⟨by simp,by simp,by simp⟩

/-- `nfs://h1/p/a%3A5` -/
def colonUrl : Url where
  user := none
  server := ['h','1']
  port := none
  place := .full ['/','p'] ['a',':','5']
  args := []
  user_plain := by simp
  server_plain := by simp [Plain]
  server_length := le_refl 2
  port_le := by simp
  place_ok := ⟨by simp [Place.path],by simp [Place.file],by simp [Place.text,Place.path,Place.file]⟩
  args_ok := by simp

/-- `nfs://h1/m%3Fp` -/
def questionUrl : Url where
  user := none
  server := ['h','1']
  port := none
  place := .dir ['/','m','?','p']
  args := []
  user_plain := by simp
  server_plain := by simp [Plain]
  server_length := le_refl 2
  port_le := by simp
  place_ok := ⟨by simp [Place.path],by simp [Place.file],by simp [Place.text,Place.path,Place.file]⟩
  args_ok := by simp

/-- With a port, a `:` in a file name is none. -/
theorem parse_inverts_port : Inverts ⟨true,true,true,true⟩ ⟨0,0,none,false,[]⟩ reservedEscaping portUrl :=
  (parse_inverts _ _ _ portUrl).1 ⟨by simp [portUrl],by simp [portUrl,argsText,argText]⟩

/-- The escaped `:` of a file becomes a port, and the escaped `?` of a directory starts the arguments. -/
theorem parse_inverts_fails :
    nfsParseUrl ⟨true,true,true,true⟩ ⟨0,0,none,false,[]⟩ (colonUrl.render reservedEscaping) false false =
      some (⟨some ['h','1'],some ['/','p'],some ['/','a',':'],5⟩,⟨5,0,none,false,[]⟩) ∧
    nfsParseUrl ⟨true,true,true,true⟩ ⟨0,0,none,false,[]⟩ (questionUrl.render reservedEscaping) true false = none ∧
    ¬ Inverts ⟨true,true,true,true⟩ ⟨0,0,none,false,[]⟩ reservedEscaping colonUrl ∧
    ¬ Inverts ⟨true,true,true,true⟩ ⟨0,0,none,false,[]⟩ reservedEscaping questionUrl := by
  have hcolon : nfsParseUrl ⟨true,true,true,true⟩ ⟨0,0,none,false,[]⟩ (colonUrl.render reservedEscaping) false false =
      some (⟨some ['h','1'],some ['/','p'],some ['/','a',':'],5⟩,⟨5,0,none,false,[]⟩) := by decide +kernel
  have hquestion : nfsParseUrl ⟨true,true,true,true⟩ ⟨0,0,none,false,[]⟩ (questionUrl.render reservedEscaping) true false =
      none := by decide +kernel
  refine ⟨hcolon,hquestion,fun h => ?_,fun h => ?_⟩
  · have hne := hcolon.symm.trans h
    revert hne
    decide +kernel
  · have hne := hquestion.symm.trans h
    revert hne
    decide +kernel

end UrlRoundtrip
end Libnfs
