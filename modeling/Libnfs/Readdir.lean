import Libnfs.Paths
import Libnfs.Transition

/-! The listing of a directory: the READDIRPLUS and READDIR replies of `lib/nfs_v3.c` with the LOOKUPs behind them, and the
READDIR replies of `lib/nfs_v4.c`. Requests are sent and allocations do not fail. -/
namespace Libnfs
namespace Readdir

open Transition

/-- An entry in the directory of a server, with the attributes that a READDIRPLUS tells -/
structure Entry (α : Type) where
  name : List Char
  fileid : ℕ
  cookie : ℕ
  attrs : Option α

/-- A directory in the order in which the server lists it -/
structure Directory (α : Type) where
  entries : List (Entry α)
  nodup : (entries.map Entry.cookie).Nodup
  cookie_ne : ∀ e ∈ entries, e.cookie ≠ 0

/-- `struct nfsdirent`; its `type` is zero without attributes. -/
structure Dirent (α : Type) where
  name : List Char
  inode : ℕ
  attrs : Option α

variable {α : Type}

/-- What tells an entry from the others -/
def Entry.key (e : Entry α) : List Char × ℕ := (e.name,e.fileid)

def Dirent.key (d : Dirent α) : List Char × ℕ := (d.name,d.inode)

/-- A result, as far as the handlers look at it; `error` is what the callback is told. -/
inductive Res (α : Type)
  | ok (entries : List (Entry α)) (eof : Bool) (cookieverf : ℕ)
  | notsupp
  | error (err : ℤ)

/-- READDIRPLUS, or READDIR -/
structure Request where
  plus : Bool
  cookie : ℕ
  cookieverf : ℕ

/-- A request in flight with `nfsdir->entries`, LOOKUPs in flight for some of these, or the callback was told an error or the
listing. -/
inductive State (α : Type)
  | listing (req : Request) (entries : List (Dirent α))
  | looking (entries : List (Dirent α)) (pending : List ℕ) (failed : Bool)
  | called (res : Except ℤ (List (Dirent α)))

/-- The attributes of a nested mount that the entry is the place of -/
def nestedAttrs (mounts : List (List Char × α)) (savedPath name : List Char) : Option α :=
  let dir := if savedPath.length = 1 then [] else savedPath
  (mounts.find? fun m => m.1 = dir ++ '/' :: name).map Prod.snd

/-- The loop over the entries of a reply, with `nfsdir->entries` and `cookie` -/
def addEntries (dirent : Entry α → Dirent α) (entries : List (Dirent α)) (reply : List (Entry α)) : List (Dirent α) × ℕ :=
  reply.foldl (fun s e => (dirent e :: s.1,e.cookie)) (entries,0)

/-- `lookup_missing_attributes`, and the callback if there are none -/
def lookupMissingAttributes (entries : List (Dirent α)) : State α :=
  let pending := (List.range entries.length).filter fun i => (entries[i]?.bind Dirent.attrs).isNone
  if pending = [] then .called (.ok entries) else .looking entries pending false

/-- `nfs3_opendir_2_cb` -/
def nfs3Opendir2Cb (entries : List (Dirent α)) : Res α → State α
  | .error err => .called (.error err)
  | .notsupp => .called (.error (-22))
  | .ok reply eof cookieverf =>
    let added := addEntries (fun e => ⟨e.name,e.fileid,none⟩) entries reply
    if eof then lookupMissingAttributes added.1 else .listing ⟨false,added.2,cookieverf⟩ added.1

/-- `nfs3_opendir_cb` -/
def nfs3OpendirCb (mounts : List (List Char × α)) (savedPath : List Char) (entries : List (Dirent α)) : Res α → State α
  | .error err => .called (.error err)
  | .notsupp => .listing ⟨false,0,0⟩ entries
  | .ok reply eof cookieverf =>
    let dirent := fun e : Entry α => ⟨e.name,e.fileid,e.attrs <|> nestedAttrs mounts savedPath e.name⟩
    let added := addEntries dirent entries reply
    if eof then lookupMissingAttributes added.1 else .listing ⟨true,added.2,cookieverf⟩ added.1

/-- `nfs3_opendir_3_cb` for the entry `i`, with the attributes if the LOOKUP tells some; `none` is a failed RPC. -/
def nfs3Opendir3Cb (entries : List (Dirent α)) (pending : List ℕ) (failed : Bool) (i : ℕ) (res : Option (Option α)) : State α :=
  let entries := entries.modify i fun d => { d with attrs := res.join <|> d.attrs }
  let failed := failed || res.isNone
  let pending := pending.erase i
  if pending = [] then .called (if failed then .error (-12) else .ok entries) else .looking entries pending failed

/-- The first request of `nfs3_opendir_continue_internal`, when the directory is not in the cache -/
def opendir : State α := .listing ⟨true,0,0⟩ []

/-- The entries behind the one with the cookie -/
def Directory.behind (dir : Directory α) (cookie : ℕ) : List (Entry α) :=
  if cookie = 0 then dir.entries else (dir.entries.dropWhile (·.cookie ≠ cookie)).drop 1

/-- How a server answers: with at most `size` entries and, where none is left, `eof`; or not -/
inductive Reply
  | chunk (size : ℕ) (eof : Bool) (cookieverf : ℕ)
  | notsupp
  | error (err : ℤ)

def Directory.answer (dir : Directory α) (cookie : ℕ) : Reply → Res α
  | .chunk size eof cookieverf =>
    .ok ((dir.behind cookie).take size) (eof && (dir.behind cookie).length ≤ size) cookieverf
  | .notsupp => .notsupp
  | .error err => .error err

def Res.entries : Res α → List (Entry α)
  | .ok entries _ _ => entries
  | _ => []

/-- The answer to the request for entries, or to the LOOKUP of an entry -/
inductive Event (α : Type)
  | readdir (reply : Reply)
  | lookup (i : ℕ) (res : Option (Option α))

/-- The client, and the entries that the server has sent -/
structure World (σ α : Type) where
  state : σ
  received : List (Entry α)

/-- The cookie of the last entry -/
def lastCookie (entries : List (Entry α)) : ℕ := (entries.getLast?.map Entry.cookie).getD 0

section Nfs3

variable (dir : Directory α) (mounts : List (List Char × α)) (savedPath : List Char)

def step (w : World (State α) α) : Event α → World (State α) α
  | .readdir reply =>
    match w.state with
    | .listing req entries =>
      let res := dir.answer req.cookie reply
      ⟨if req.plus then nfs3OpendirCb mounts savedPath entries res else nfs3Opendir2Cb entries res,
        w.received ++ res.entries⟩
    | _ => w
  | .lookup i res =>
    match w.state with
    | .looking entries pending failed =>
      if i ∈ pending then ⟨nfs3Opendir3Cb entries pending failed i res,w.received⟩ else w
    | _ => w

/-- The request in flight is for what follows the last entry received. -/
def Resumes (w : World (State α) α) : Prop := ∀ req entries, w.state = .listing req entries → req.cookie = lastCookie w.received

/-- The listing has every entry once, and nothing else. -/
def Holds (entries : List (Dirent α)) : Prop := (entries.map Dirent.key).Perm (dir.entries.map Entry.key)

/-- An RPC fails, or the server has an error for it. -/
def Fails (w : World (State α) α) : Event α → Prop
  | .readdir (.error _) => True
  | .readdir .notsupp => ∃ req entries, w.state = .listing req entries ∧ req.plus = false
  | .readdir (.chunk _ _ _) => False
  | .lookup _ res => res = none

/-- Behind entries that were received there is a reply without entries that is not the last one, or READDIRPLUS is rejected. -/
def Restarts (w : World (State α) α) : Event α → Prop
  | .readdir reply =>
    ∃ req entries, w.state = .listing req entries ∧ w.received ≠ [] ∧
      match dir.answer req.cookie reply with
      | .ok reply eof _ => reply = [] ∧ eof = false
      | .notsupp => req.plus = true
      | .error _ => False
  | .lookup _ _ => False

end Nfs3

section Behind

variable {dir : Directory α} {pre rest : List (Entry α)} {cookie : ℕ}

theorem lastCookie_append (pre : List (Entry α)) {c : List (Entry α)} (h : c ≠ []) :
    lastCookie (pre ++ c) = lastCookie c := by
  rw [lastCookie,lastCookie,List.getLast?_append_of_ne_nil _ h]

/-- Behind the last of the first entries are the others. -/
theorem behind_last (h : dir.entries = pre ++ rest) : dir.behind (lastCookie pre) = rest := by
  unfold Directory.behind
  induction pre using List.reverseRecOn with
  | nil => simpa [lastCookie] using h
  | append_singleton pre e _ =>
    have hlast : lastCookie (pre ++ [e]) = e.cookie := by simp [lastCookie]
    have hne := dir.cookie_ne e (by rw [h]; simp)
    have hnodup := dir.nodup
    rw [h,List.append_assoc,List.map_append,List.nodup_append] at hnodup
    have hskip : ∀ x ∈ pre, decide (x.cookie ≠ e.cookie) = true := by
      intro x hx
      have := hnodup.2.2 _ (List.mem_map_of_mem hx) e.cookie (by simp)
      simpa using this
    rw [hlast,if_neg hne,h,List.append_assoc,List.dropWhile_append_of_pos hskip]
    simp

theorem behind_suffix (dir : Directory α) (cookie : ℕ) : ∃ pre, dir.entries = pre ++ dir.behind cookie := by
  unfold Directory.behind
  split
  · exact ⟨[],rfl⟩
  · obtain ⟨pre,hpre⟩ := (List.drop_suffix 1 _).trans (List.dropWhile_suffix (fun e : Entry α => decide (e.cookie ≠ cookie)))
    exact ⟨pre,hpre.symm⟩

theorem addEntries_eq (dirent : Entry α → Dirent α) (entries : List (Dirent α)) (reply : List (Entry α)) :
    addEntries dirent entries reply = ((reply.map dirent).reverse ++ entries,lastCookie reply) := by
  have h : ∀ (reply : List (Entry α)) (s : List (Dirent α) × ℕ), reply.foldl (fun s e => (dirent e :: s.1,e.cookie)) s =
      ((reply.map dirent).reverse ++ s.1,(reply.getLast?.map Entry.cookie).getD s.2) := by
    intro reply
    induction reply with
    | nil => simp
    | cons e reply ih =>
      intro s
      rw [List.foldl_cons,ih]
      cases hr : reply.getLast? with
      | none =>
        rw [List.getLast?_eq_none_iff] at hr
        simp [hr]
      | some x => simp [List.getLast?_cons,hr]
  exact h reply (entries,0)

end Behind

section Runs

variable {dir : Directory α} {mounts : List (List Char × α)} {savedPath : List Char} {w : World (State α) α} {e : Event α}

/-- The entries that are in the listing so far -/
def Listed (received : List (Entry α)) (entries : List (Dirent α)) : Prop :=
  entries.map Dirent.key = (received.map Entry.key).reverse

/-- What was received and what the next request is for make up the directory. -/
def Whole (dir : Directory α) (w : World (State α) α) : Prop :=
  match w.state with
  | .listing req entries => req.cookie = lastCookie w.received ∧ w.received ++ dir.behind req.cookie = dir.entries ∧
      Listed w.received entries
  | .looking entries _ _ => Listed dir.entries entries
  | .called (.ok entries) => Listed dir.entries entries
  | .called (.error _) => True

/-- There are more entries, with those that the next request is for, than in the directory. -/
def Surplus (dir : Directory α) (w : World (State α) α) : Prop :=
  match w.state with
  | .listing req entries => dir.entries.length < entries.length+(dir.behind req.cookie).length
  | .looking entries _ _ => dir.entries.length < entries.length
  | .called (.ok entries) => dir.entries.length < entries.length
  | .called (.error _) => True

/-- What `lookup_missing_attributes` leaves is a listing with the same entries. -/
theorem lookupMissing_cases (entries : List (Dirent α)) : lookupMissingAttributes entries = .called (.ok entries) ∨
    ∃ pending, lookupMissingAttributes entries = .looking entries pending false := by
  unfold lookupMissingAttributes
  simp only
  split
  · exact .inl rfl
  · exact .inr ⟨_,rfl⟩

theorem opendir3_cases (entries : List (Dirent α)) (pending : List ℕ) (failed : Bool) (i : ℕ) (res : Option (Option α)) :
    ∃ entries' : List (Dirent α), entries'.map Dirent.key = entries.map Dirent.key ∧
      (nfs3Opendir3Cb entries pending failed i res = .called (.error (-12)) ∧ (failed || res.isNone) = true ∨
        nfs3Opendir3Cb entries pending failed i res = .called (.ok entries') ∨
        ∃ pending', nfs3Opendir3Cb entries pending failed i res = .looking entries' pending' (failed || res.isNone)) := by
  refine ⟨entries.modify i fun d => { d with attrs := res.join <|> d.attrs },?_,?_⟩
  · have hid : (fun d : Dirent α => Dirent.key { d with attrs := res.join <|> d.attrs }) = Dirent.key := rfl
    apply List.ext_getElem?
    intro k
    rw [List.getElem?_map,List.getElem?_map,List.getElem?_modify]
    split
    · rw [Option.map_eq_map,Option.map_map]
      rfl
    · simp
  · unfold nfs3Opendir3Cb
    by_cases hp : pending.erase i = []
    · by_cases hf : (failed || res.isNone) = true
      · exact .inl ⟨by simp only [hp,hf,if_true],hf⟩
      · exact .inr (.inl (by simp only [hp,hf,if_true]; rfl))
    · refine .inr (.inr ⟨pending.erase i,?_⟩)
      simp only [hp,if_false]

theorem added_keys (dirent : Entry α → Dirent α) (h : ∀ e, (dirent e).key = e.key) (reply : List (Entry α))
    (entries : List (Dirent α)) : ((reply.map dirent).reverse ++ entries).map Dirent.key =
      (reply.map Entry.key).reverse ++ entries.map Dirent.key := by
  rw [List.map_append,List.map_reverse,List.map_map]
  congr 3
  exact funext h

/-- What a reply with entries leaves -/
theorem reply_cases (mounts : List (List Char × α)) (savedPath : List Char) (req : Request)
    (entries : List (Dirent α)) (reply : List (Entry α)) (eof : Bool) (verf : ℕ) :
    ∃ added : List (Dirent α), added.map Dirent.key = (reply.map Entry.key).reverse ++ entries.map Dirent.key ∧
      (if req.plus then nfs3OpendirCb mounts savedPath entries (.ok reply eof verf)
        else nfs3Opendir2Cb entries (.ok reply eof verf)) =
      if eof then lookupMissingAttributes added else .listing ⟨req.plus,lastCookie reply,verf⟩ added := by
  by_cases hplus : req.plus = true
  · refine ⟨_,added_keys (fun e => ⟨e.name,e.fileid,e.attrs <|> nestedAttrs mounts savedPath e.name⟩) (fun _ => rfl) reply
      entries,?_⟩
    rw [if_pos hplus,hplus]
    simp only [nfs3OpendirCb,addEntries_eq]
  · refine ⟨_,added_keys (fun e => ⟨e.name,e.fileid,none⟩) (fun _ => rfl) reply entries,?_⟩
    rw [if_neg hplus,Bool.not_eq_true _ |>.mp hplus]
    simp only [nfs3Opendir2Cb,addEntries_eq]

/-- A listing that is done but for missing attributes -/
theorem whole_missing {added : List (Dirent α)} {received : List (Entry α)} (h : Listed dir.entries added) :
    Whole dir ⟨lookupMissingAttributes added,received⟩ := by
  rcases lookupMissing_cases added with hm | ⟨pending,hm⟩
  · simpa only [Whole,hm] using h
  · simpa only [Whole,hm] using h

theorem surplus_missing {added : List (Dirent α)} {received : List (Entry α)} (h : dir.entries.length < added.length) :
    Surplus dir ⟨lookupMissingAttributes added,received⟩ := by
  rcases lookupMissing_cases added with hm | ⟨pending,hm⟩
  · simpa only [Surplus,hm] using h
  · simpa only [Surplus,hm] using h

theorem added_length {added entries : List (Dirent α)} {reply : List (Entry α)}
    (h : added.map Dirent.key = (reply.map Entry.key).reverse ++ entries.map Dirent.key) :
    added.length = reply.length+entries.length := by
  simpa using congrArg List.length h

/-- As long as no reply makes it start again, the listing grows by what is behind it. -/
theorem step_whole (h : Whole dir w) (hr : ¬ Restarts dir w e) : Whole dir (step dir mounts savedPath w e) := by
  obtain ⟨state,received⟩ := w
  cases e with
  | lookup i res =>
    cases state with
    | listing req entries => exact h
    | called res => exact h
    | looking entries pending failed =>
      simp only [step]
      split
      · obtain ⟨entries',hkeys,hcases⟩ := opendir3_cases entries pending failed i res
        have hlisted : Listed dir.entries entries' := hkeys.trans h
        rcases hcases with ⟨hc,-⟩ | hc | ⟨pending',hc⟩
        · simp only [Whole,hc]
        · simpa only [Whole,hc] using hlisted
        · simpa only [Whole,hc] using hlisted
      · exact h
  | readdir reply =>
    cases state with
    | looking entries pending failed => exact h
    | called res => exact h
    | listing req entries =>
      obtain ⟨hcookie,hrest,hlisted⟩ := h
      dsimp only at hcookie hrest hlisted
      cases reply with
      | error err => cases hplus : req.plus <;> simp [step,Directory.answer,hplus,nfs3OpendirCb,nfs3Opendir2Cb,Whole]
      | notsupp =>
        cases hplus : req.plus with
        | false => simp [step,Directory.answer,hplus,nfs3Opendir2Cb,Whole]
        | true =>
          have hnil : received = [] := by
            by_contra hne
            exact hr ⟨req,entries,rfl,hne,hplus⟩
          subst hnil
          simp only [step,Directory.answer,hplus,if_true,nfs3OpendirCb,Res.entries,Whole]
          exact ⟨rfl,rfl,hlisted⟩
      | chunk size eof verf =>
        obtain ⟨added,hkeys,hstate⟩ := reply_cases mounts savedPath req entries ((dir.behind req.cookie).take size)
          (eof && (dir.behind req.cookie).length ≤ size) verf
        have hgrown : Listed (received ++ (dir.behind req.cookie).take size) added := by
          rw [Listed,hkeys,hlisted]
          simp
        simp only [step,Directory.answer,hstate,Res.entries]
        by_cases hlast : (eof && decide ((dir.behind req.cookie).length ≤ size)) = true
        · rw [if_pos hlast]
          have hlen : (dir.behind req.cookie).length ≤ size := by
            simp only [Bool.and_eq_true,decide_eq_true_eq] at hlast
            exact hlast.2
          rw [List.take_of_length_le hlen,hrest] at hgrown
          exact whole_missing hgrown
        · rw [if_neg hlast]
          have hsplit : dir.entries = (received ++ (dir.behind req.cookie).take size) ++ (dir.behind req.cookie).drop size := by
            rw [List.append_assoc,List.take_append_drop,hrest]
          have hnext : lastCookie ((dir.behind req.cookie).take size) =
              lastCookie (received ++ (dir.behind req.cookie).take size) := by
            by_cases hc : (dir.behind req.cookie).take size = []
            · have hnil : received = [] := by
                by_contra hne
                exact hr ⟨req,entries,rfl,hne,hc,Bool.not_eq_true _ |>.mp hlast⟩
              rw [hnil,List.nil_append]
            · exact (lastCookie_append received hc).symm
          simp only [Whole]
          exact ⟨hnext,by rw [hnext,behind_last hsplit]; exact hsplit.symm,hgrown⟩

/-- A surplus stays. -/
theorem step_surplus (h : Surplus dir w) : Surplus dir (step dir mounts savedPath w e) := by
  obtain ⟨state,received⟩ := w
  cases e with
  | lookup i res =>
    cases state with
    | listing req entries => exact h
    | called res => exact h
    | looking entries pending failed =>
      simp only [step]
      split
      · obtain ⟨entries',hkeys,hcases⟩ := opendir3_cases entries pending failed i res
        have hlen : entries'.length = entries.length := by simpa using congrArg List.length hkeys
        have hmore : dir.entries.length < entries'.length := hlen ▸ h
        rcases hcases with ⟨hc,-⟩ | hc | ⟨pending',hc⟩
        · simp only [Surplus,hc]
        · simpa only [Surplus,hc] using hmore
        · simpa only [Surplus,hc] using hmore
      · exact h
  | readdir reply =>
    cases state with
    | looking entries pending failed => exact h
    | called res => exact h
    | listing req entries =>
      have hmore : dir.entries.length < entries.length+(dir.behind req.cookie).length := h
      have hall : dir.behind 0 = dir.entries := rfl
      obtain ⟨pre,hpre⟩ := behind_suffix dir req.cookie
      have hshort := congrArg List.length hpre
      rw [List.length_append] at hshort
      cases reply with
      | error err => cases hplus : req.plus <;> simp [step,Directory.answer,hplus,nfs3OpendirCb,nfs3Opendir2Cb,Surplus]
      | notsupp =>
        cases hplus : req.plus with
        | false => simp [step,Directory.answer,hplus,nfs3Opendir2Cb,Surplus]
        | true =>
          simp only [step,Directory.answer,hplus,if_true,nfs3OpendirCb,Surplus,hall]
          omega
      | chunk size eof verf =>
        obtain ⟨added,hkeys,hstate⟩ := reply_cases mounts savedPath req entries ((dir.behind req.cookie).take size)
          (eof && (dir.behind req.cookie).length ≤ size) verf
        have hlen := added_length hkeys
        simp only [step,Directory.answer,hstate]
        by_cases hlast : (eof && decide ((dir.behind req.cookie).length ≤ size)) = true
        · rw [if_pos hlast]
          simp only [Bool.and_eq_true,decide_eq_true_eq] at hlast
          rw [List.take_of_length_le hlast.2] at hlen
          exact surplus_missing (by omega)
        · rw [if_neg hlast]
          simp only [Surplus]
          by_cases hc : (dir.behind req.cookie).take size = []
          · rw [hc] at hlen ⊢
            have hzero : dir.behind (lastCookie ([] : List (Entry α))) = dir.entries := rfl
            rw [hzero]
            simp only [List.length_nil] at hlen
            omega
          · have hsplit : dir.entries = (pre ++ (dir.behind req.cookie).take size) ++ (dir.behind req.cookie).drop size := by
              rw [List.append_assoc,List.take_append_drop,← hpre]
            rw [← lastCookie_append pre hc,behind_last hsplit,hlen]
            have := congrArg List.length (List.take_append_drop size (dir.behind req.cookie))
            rw [List.length_append] at this
            omega

theorem lastCookie_ne {received rest : List (Entry α)} (h : received ++ rest = dir.entries) (hne : received ≠ []) :
    lastCookie received ≠ 0 := by
  obtain ⟨l,hl⟩ := Option.isSome_iff_exists.mp (List.getLast?_isSome.mpr hne)
  have hmem : l ∈ dir.entries := by
    rw [← h]
    exact List.mem_append_left _ (List.mem_of_getLast? hl)
  simpa [lastCookie,hl] using dir.cookie_ne l hmem

/-- A reply that makes the listing start again: the next request is for the entries that are there already. -/
theorem step_restarts (h : Whole dir w) (hr : Restarts dir w e) :
    Surplus dir (step dir mounts savedPath w e) ∧ ¬ Resumes (step dir mounts savedPath w e) := by
  obtain ⟨state,received⟩ := w
  cases e with
  | lookup i res => exact hr.elim
  | readdir reply =>
    obtain ⟨req,entries,rfl,hne,hr⟩ := hr
    dsimp only at hne
    obtain ⟨hcookie,hrest,hlisted⟩ := h
    dsimp only at hcookie hrest hlisted
    have hzero := lastCookie_ne hrest hne
    have hlen : entries.length = received.length := by simpa using congrArg List.length hlisted
    have hpos := List.length_pos_iff.mpr hne
    -- the next request, for everything
    suffices hnext : ∃ req' entries', step dir mounts savedPath ⟨.listing req entries,received⟩ (.readdir reply) =
        ⟨.listing req' entries',received⟩ ∧ req'.cookie = 0 ∧ entries'.length = entries.length by
      obtain ⟨req',entries',hstep,hc,hl⟩ := hnext
      rw [hstep]
      constructor
      · simp only [Surplus,hc]
        have hall : dir.behind 0 = dir.entries := rfl
        rw [hall]
        omega
      · intro hres
        exact hzero ((hres req' entries' rfl).symm.trans hc)
    cases reply with
    | error err => exact hr.elim
    | notsupp =>
      have hplus : req.plus = true := hr
      exact ⟨⟨false,0,0⟩,entries,by simp [step,Directory.answer,hplus,nfs3OpendirCb,Res.entries],rfl,rfl⟩
    | chunk size eof verf =>
      obtain ⟨hnil,heof⟩ := hr
      obtain ⟨added,hkeys,hstate⟩ := reply_cases mounts savedPath req entries ((dir.behind req.cookie).take size)
        (eof && (dir.behind req.cookie).length ≤ size) verf
      have hlen := added_length hkeys
      rw [hnil,List.length_nil,Nat.zero_add] at hlen
      refine ⟨⟨req.plus,lastCookie ([] : List (Entry α)),verf⟩,added,?_,rfl,hlen⟩
      rw [hnil,heof] at hstate
      simp only [Bool.false_eq_true,if_false] at hstate
      simp only [step,Directory.answer,Res.entries,heof,hnil,List.append_nil,hstate]

/-- The client that has sent its first request -/
def start : World (State α) α := ⟨opendir,[]⟩

theorem start_whole (dir : Directory α) : Whole dir start := ⟨rfl,rfl,rfl⟩

theorem Whole.resumes (h : Whole dir w) : Resumes w := by
  intro req entries hs
  rw [Whole,hs] at h
  exact h.1

theorem Whole.holds (h : Whole dir w) {entries : List (Dirent α)} (hs : w.state = .called (.ok entries)) : Holds dir entries := by
  rw [Whole,hs] at h
  rw [Holds,show entries.map Dirent.key = _ from h]
  exact List.reverse_perm _

theorem Surplus.not_holds (h : Surplus dir w) {entries : List (Dirent α)} (hs : w.state = .called (.ok entries)) :
    ¬ Holds dir entries := by
  rw [Surplus,hs] at h
  intro hp
  have hlen : entries.length = dir.entries.length := by simpa using hp.length_eq
  omega

theorem run_surplus (h : Surplus dir w) (es : List (Event α)) : Surplus dir (run (step dir mounts savedPath) w es) := by
  induction es generalizing w with
  | nil => exact h
  | cons e es ih => exact ih (step_surplus h)

/-- A run in which the listing never starts again -/
def Straight (dir : Directory α) (mounts : List (List Char × α)) (savedPath : List Char) (w : World (State α) α)
    (es : List (Event α)) : Prop :=
  Guarded (step dir mounts savedPath) (fun w e => ¬ Restarts dir w e) w es

theorem run_whole (h : Whole dir w) {es : List (Event α)} (hs : Straight dir mounts savedPath w es) :
    Whole dir (run (step dir mounts savedPath) w es) :=
  guarded_induction _ hs h fun _ _ hw hr => step_whole hw hr

/-- Otherwise there is a surplus in the end, and at some time a request that does not resume. -/
theorem run_restarts (h : Whole dir w) {es : List (Event α)} (hs : ¬ Straight dir mounts savedPath w es) :
    Surplus dir (run (step dir mounts savedPath) w es) ∧
      ∃ pre, pre <+: es ∧ ¬ Resumes (run (step dir mounts savedPath) w pre) := by
  induction es generalizing w with
  | nil => exact absurd trivial hs
  | cons e es ih =>
    by_cases hr : Restarts dir w e
    · obtain ⟨hsurplus,hres⟩ := @step_restarts _ _ mounts savedPath _ _ h hr
      exact ⟨run_surplus hsurplus es,[e],by simp,hres⟩
    · have hrest : ¬ Straight dir mounts savedPath (step dir mounts savedPath w e) es := fun hs' => hs ⟨hr,hs'⟩
      obtain ⟨hsurplus,pre,hpre,hres⟩ := ih (step_whole h hr) hrest
      exact ⟨hsurplus,e :: pre,List.cons_prefix_cons.mpr ⟨rfl,hpre⟩,hres⟩

/-- Nothing has failed so far. -/
def Sound (w : World (State α) α) : Prop :=
  match w.state with
  | .listing _ _ => True
  | .looking _ _ failed => failed = false
  | .called res => ∃ entries, res = .ok entries

theorem sound_missing {added : List (Dirent α)} {received : List (Entry α)} :
    Sound ⟨lookupMissingAttributes added,received⟩ := by
  rcases lookupMissing_cases added with hm | ⟨pending,hm⟩
  · simp [Sound,hm]
  · simp [Sound,hm]

theorem step_sound (h : Sound w) (hf : ¬ Fails w e) : Sound (step dir mounts savedPath w e) := by
  obtain ⟨state,received⟩ := w
  cases e with
  | lookup i res =>
    cases state with
    | listing req entries => exact h
    | called res => exact h
    | looking entries pending failed =>
      simp only [step]
      split
      · have hno : (failed || res.isNone) = false := by
          have hres : res ≠ none := hf
          rw [show failed = false from h,Bool.false_or,Option.isNone_eq_false_iff,Option.isSome_iff_ne_none]
          exact hres
        obtain ⟨entries',-,hcases⟩ := opendir3_cases entries pending failed i res
        rcases hcases with ⟨-,hc⟩ | hc | ⟨pending',hc⟩
        · simp [hno] at hc
        · simp [Sound,hc]
        · simp [Sound,hc,hno]
      · exact h
  | readdir reply =>
    cases state with
    | looking entries pending failed => exact h
    | called res => exact h
    | listing req entries =>
      cases reply with
      | error err => exact absurd trivial hf
      | notsupp =>
        cases hplus : req.plus with
        | false => exact absurd ⟨req,entries,rfl,hplus⟩ hf
        | true => simp [step,Directory.answer,hplus,nfs3OpendirCb,Sound]
      | chunk size eof verf =>
        obtain ⟨added,-,hstate⟩ := reply_cases mounts savedPath req entries ((dir.behind req.cookie).take size)
          (eof && (dir.behind req.cookie).length ≤ size) verf
        simp only [step,Directory.answer,hstate]
        split
        · exact sound_missing
        · trivial

/-- Every request resumes behind the last entry received, a listing that the callback gets has every entry once, and it is an error
only if something fails. -/
def Exact (dir : Directory α) (mounts : List (List Char × α)) (savedPath : List Char) (es : List (Event α)) : Prop :=
  (∀ pre, pre <+: es → Resumes (run (step dir mounts savedPath) start pre)) ∧
    (∀ entries, (run (step dir mounts savedPath) start es).state = .called (.ok entries) → Holds dir entries) ∧
    ((∃ err, (run (step dir mounts savedPath) start es).state = .called (.error err)) →
      ¬ Guarded (step dir mounts savedPath) (fun w e => ¬ Fails w e) start es)

theorem Straight.initial {es pre : List (Event α)} (h : Straight dir mounts savedPath w es) (hp : pre <+: es) :
    Straight dir mounts savedPath w pre := by
  obtain ⟨post,rfl⟩ := hp
  exact ((guarded_append _ _ _ _ _).mp h).1

theorem exact_iff (dir : Directory α) (mounts : List (List Char × α)) (savedPath : List Char) (es : List (Event α)) :
    Exact dir mounts savedPath es ↔ Straight dir mounts savedPath start es := by
  constructor
  · intro h
    by_contra hs
    obtain ⟨-,pre,hpre,hres⟩ := run_restarts (start_whole dir) hs
    exact hres (h.1 pre hpre)
  · intro hs
    refine ⟨fun pre hpre => (run_whole (start_whole dir) (hs.initial hpre)).resumes,
      fun entries he => (run_whole (start_whole dir) hs).holds he,?_⟩
    rintro ⟨err,herr⟩ hg
    have hsound : Sound (run (step dir mounts savedPath) start es) :=
      guarded_induction _ hg trivial fun _ _ hw hf => step_sound hw hf
    rw [Sound,herr] at hsound
    simp at hsound

/-- A listing that the callback gets has every entry once exactly if it never started again. -/
theorem listing_iff {es : List (Event α)} {entries : List (Dirent α)}
    (h : (run (step dir mounts savedPath) start es).state = .called (.ok entries)) :
    Holds dir entries ↔ Straight dir mounts savedPath start es := by
  constructor
  · intro hholds
    by_contra hs
    exact (run_restarts (start_whole dir) hs).1.not_holds h hholds
  · exact fun hs => (run_whole (start_whole dir) hs).holds h

end Runs

section Nfs4

/-- READDIR, with `filler.blob2` and `nfsdir->entries`, or the callback was told -/
inductive State4 (α : Type)
  | listing (cookie : ℕ) (entries : List (Dirent α))
  | called (res : Except ℤ (List (Dirent α)))

/-- The loop of `nfs4_parse_readdir`, which keeps the cookie; `none` are attributes that make no sense. -/
def nfs4ParseEntries : ℕ → List (Dirent α) → List (Entry α) → Option (ℕ × List (Dirent α))
  | cookie, entries, [] => some (cookie,entries)
  | _, entries, e :: reply =>
    match e.attrs with
    | none => none
    | some attrs => nfs4ParseEntries e.cookie (⟨e.name,e.fileid,some attrs⟩ :: entries) reply

/-- `nfs4_opendir_cb` and `nfs4_opendir_2_cb` -/
def nfs4OpendirCb (cookie : ℕ) (entries : List (Dirent α)) : Res α → State4 α
  | .error err => .called (.error err)
  | .notsupp => .called (.error (-22))
  | .ok reply eof _ =>
    match nfs4ParseEntries cookie entries reply with
    | none => .called (.error (-22))
    | some (cookie,entries) => if eof then .called (.ok entries) else .listing cookie entries

def step4 (dir : Directory α) (w : World (State4 α) α) (reply : Reply) : World (State4 α) α :=
  match w.state with
  | .listing cookie entries =>
    ⟨nfs4OpendirCb cookie entries (dir.answer cookie reply),w.received ++ (dir.answer cookie reply).entries⟩
  | .called _ => w

/-- What version 4 keeps -/
def Whole4 (dir : Directory α) (w : World (State4 α) α) : Prop :=
  match w.state with
  | .listing cookie entries => cookie = lastCookie w.received ∧ w.received ++ dir.behind cookie = dir.entries ∧
      Listed w.received entries
  | .called (.ok entries) => Listed dir.entries entries
  | .called (.error _) => True

theorem parseEntries_spec {cookie cookie' : ℕ} {entries entries' : List (Dirent α)} {reply received : List (Entry α)}
    (h : nfs4ParseEntries cookie entries reply = some (cookie',entries')) (hc : cookie = lastCookie received)
    (hl : Listed received entries) : cookie' = lastCookie (received ++ reply) ∧ Listed (received ++ reply) entries' := by
  induction reply generalizing cookie entries received with
  | nil =>
    obtain ⟨rfl,rfl⟩ := Prod.mk.inj (Option.some.inj h)
    exact ⟨by rw [List.append_nil,hc],by rwa [List.append_nil]⟩
  | cons e reply ih =>
    rw [nfs4ParseEntries] at h
    cases ha : e.attrs with
    | none => simp [ha] at h
    | some attrs =>
      rw [ha] at h
      have hstep := @ih _ _ (received ++ [e]) h (by simp [lastCookie]) (by simpa [Listed,Entry.key,Dirent.key] using hl)
      rwa [List.append_assoc] at hstep

theorem step4_whole {dir : Directory α} {w : World (State4 α) α} {reply : Reply} (h : Whole4 dir w) :
    Whole4 dir (step4 dir w reply) := by
  obtain ⟨state,received⟩ := w
  cases state with
  | called res => exact h
  | listing cookie entries =>
    obtain ⟨hcookie,hrest,hlisted⟩ := h
    dsimp only at hcookie hrest hlisted
    cases reply with
    | error err => trivial
    | notsupp => trivial
    | chunk size eof verf =>
      simp only [step4,Directory.answer,nfs4OpendirCb,Res.entries]
      cases hparse : nfs4ParseEntries cookie entries ((dir.behind cookie).take size) with
      | none => trivial
      | some r =>
        obtain ⟨cookie',entries'⟩ := r
        obtain ⟨hc',hl'⟩ := parseEntries_spec hparse hcookie hlisted
        dsimp only
        by_cases hlast : (eof && decide ((dir.behind cookie).length ≤ size)) = true
        · rw [if_pos hlast]
          simp only [Bool.and_eq_true,decide_eq_true_eq] at hlast
          rw [List.take_of_length_le hlast.2,hrest] at hl'
          exact hl'
        · rw [if_neg hlast]
          have hsplit : dir.entries = (received ++ (dir.behind cookie).take size) ++ (dir.behind cookie).drop size := by
            rw [List.append_assoc,List.take_append_drop,hrest]
          exact ⟨hc',by dsimp only; rw [hc',behind_last hsplit]; exact hsplit.symm,hl'⟩

theorem run4_whole (dir : Directory α) (replies : List Reply) : Whole4 dir (run (step4 dir) ⟨.listing 0 [],[]⟩ replies) :=
  reachable_induction (step4 dir) ⟨replies,rfl⟩ ⟨rfl,rfl,rfl⟩ fun _ _ h => step4_whole h

end Nfs4

/-- Two entries -/
def pair : Directory Unit where
  entries := [⟨['a'],7,1,some ()⟩,⟨['b'],8,2,some ()⟩]
  nodup := by decide
  cookie_ne := by simp

end Readdir
end Libnfs
