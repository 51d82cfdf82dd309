import Libnfs.MountDiscovery
import Mathlib.Tactic

/-! The loop of `nfs3_mount_3_cb` over the exports, round by round: which export a round is about, and that the mount
comes to its end afterwards. -/
namespace Libnfs
namespace ExportLoop

open Normalize NestedMounts MountDiscovery

/-- The variables of the loop: the exports that are left, the first being the `i`-th of all, and `k` rounds for it before -/
structure LoopSt where
  i : ℕ
  k : ℕ
  exports : List Path
  md : Option MdCb
  reqs : List Request

/-- The body of the loop, taken once -/
def round (export_ : Path) (he : export_ ≠ []) (attempts : ℕ → ℕ → Attempt) (s : LoopSt) : LoopSt :=
  match s.exports with
  | [] => s
  | exDir :: res =>
    match h : nestedPath export_ exDir with
    | none => { s with i := s.i+1, k := 0, exports := res }
    | some path =>
      let a := attempts s.i s.k
      if ¬ a.item ∨ ¬ a.path ∨ s.md = none ∧ ¬ a.md then { s with k := s.k+1 }
      else
        let mdCb := s.md.getD ⟨0,0,.success⟩
        if ¬ a.submit then { s with k := s.k+1, md := if mdCb.waitCount = 0 then none else some mdCb }
        else ⟨s.i+1,0,res,some { mdCb with waitCount := mdCb.waitCount+1 },
          s.reqs ++ [.mnt s.i ⟨path,nestedPath_absolute he h⟩]⟩

/-- The exports that the first `n` rounds are about -/
def visits (export_ : Path) (he : export_ ≠ []) (attempts : ℕ → ℕ → Attempt) (s : LoopSt) (n : ℕ) : List ℕ :=
  (List.range n).map fun j => ((round export_ he attempts)^[j] s).i

section Rounds

variable {export_ : Path} {he : export_ ≠ []} {attempts : ℕ → ℕ → Attempt}

theorem round_other {i k : ℕ} {exDir : Path} {res : List Path} {md : Option MdCb} {reqs : List Request}
    (h : nestedPath export_ exDir = none) :
    round export_ he attempts ⟨i,k,exDir :: res,md,reqs⟩ = ⟨i+1,0,res,md,reqs⟩ := by
  rw [round]
  dsimp only
  split
  · rfl
  · rename_i h'
    simp [h] at h'

theorem round_nested {i k : ℕ} {exDir path : Path} {res : List Path} {md : Option MdCb} {reqs : List Request}
    (h : nestedPath export_ exDir = some path) : round export_ he attempts ⟨i,k,exDir :: res,md,reqs⟩ =
      if ¬ (attempts i k).item ∨ ¬ (attempts i k).path ∨ md = none ∧ ¬ (attempts i k).md then ⟨i,k+1,exDir :: res,md,reqs⟩
      else if ¬ (attempts i k).submit then
        ⟨i,k+1,exDir :: res,if (md.getD ⟨0,0,.success⟩).waitCount = 0 then none else some (md.getD ⟨0,0,.success⟩),reqs⟩
      else ⟨i+1,0,res,some { md.getD ⟨0,0,.success⟩ with waitCount := (md.getD ⟨0,0,.success⟩).waitCount+1 },
        reqs ++ [.mnt i ⟨path,nestedPath_absolute he h⟩]⟩ := by
  rw [round]
  dsimp only
  split
  · rename_i h'
    simp [h] at h'
  · rename_i path' h'
    obtain rfl : path = path' := Option.some.inj (h.symm.trans h')
    rfl

/-- The rounds are those of the loop. -/
theorem mount3Loop_succ (fuel i k : ℕ) (exports : List Path) (md : Option MdCb) (reqs : List Request) :
    mount3Loop export_ he attempts (fuel+1) i k exports md reqs =
      let s := round export_ he attempts ⟨i,k,exports,md,reqs⟩
      mount3Loop export_ he attempts fuel s.i s.k s.exports s.md s.reqs := by
  cases exports with
  | nil => rw [mount3Loop_nil,round,mount3Loop_nil]
  | cons exDir res =>
    cases hn : nestedPath export_ exDir with
    | none => rw [mount3Loop_skip hn,round_other hn]
    | some path =>
      rw [round_nested hn,mount3Loop]
      split
      · rename_i h'
        simp [hn] at h'
      · rename_i path' h'
        obtain rfl : path = path' := Option.some.inj (hn.symm.trans h')
        by_cases h1 : (attempts i k).item
        · by_cases h2 : (attempts i k).path
          · by_cases h3 : md = none ∧ ¬ (attempts i k).md
            · rw [if_neg (not_not.mpr h1),if_neg (not_not.mpr h2),if_pos h3,if_pos (.inr (.inr h3))]
            · have hno : ¬ (¬ (attempts i k).item ∨ ¬ (attempts i k).path ∨ md = none ∧ ¬ (attempts i k).md) := by
                rintro (hn | hn | hn)
                exacts [hn h1,hn h2,h3 hn]
              rw [if_neg (not_not.mpr h1),if_neg (not_not.mpr h2),if_neg h3,if_neg hno]
              by_cases h4 : (attempts i k).submit
              · rw [if_neg (not_not.mpr h4),if_neg (not_not.mpr h4)]
              · rw [if_pos h4,if_pos h4]
          · rw [if_neg (not_not.mpr h1),if_pos h2,if_pos (.inr (.inl h2))]
        · rw [if_pos h1,if_pos (.inl h1)]

theorem mount3Loop_rounds (n : ℕ) (s : LoopSt) :
    mount3Loop export_ he attempts n s.i s.k s.exports s.md s.reqs =
      let t := (round export_ he attempts)^[n] s
      mount3Loop export_ he attempts 0 t.i t.k t.exports t.md t.reqs := by
  induction n generalizing s with
  | zero => rfl
  | succ n ih =>
    rw [mount3Loop_succ,Function.iterate_succ_apply]
    exact ih (round export_ he attempts s)

theorem mdOf_eq_none {reqs : List Request} : mdOf reqs = none ↔ reqs = [] := by
  unfold mdOf
  split <;> simp_all

theorem round_works {i k : ℕ} {exDir path : Path} {res : List Path} {reqs : List Request}
    (h : nestedPath export_ exDir = some path) (hw : (attempts i k).Works (reqs = [])) :
    round export_ he attempts ⟨i,k,exDir :: res,mdOf reqs,reqs⟩ =
      ⟨i+1,0,res,mdOf (reqs ++ [.mnt i ⟨path,nestedPath_absolute he h⟩]),reqs ++ [.mnt i ⟨path,nestedPath_absolute he h⟩]⟩ := by
  obtain ⟨h1,h2,h3,h4⟩ := hw
  have hno : ¬ (¬ (attempts i k).item ∨ ¬ (attempts i k).path ∨ mdOf reqs = none ∧ ¬ (attempts i k).md) := by
    rintro (hn | hn | ⟨hn,hmd⟩)
    · exact hn h1
    · exact hn h2
    · exact hmd (h3 (by simpa using mdOf_eq_none.mp hn))
  rw [round_nested h,if_neg hno,if_neg (not_not.mpr h4),mdOf_append]

/-- After a failure the next round is about the same export. -/
theorem round_fails {i k : ℕ} {exDir path : Path} {res : List Path} {reqs : List Request}
    (h : nestedPath export_ exDir = some path) (hw : ¬ (attempts i k).Works (reqs = [])) :
    round export_ he attempts ⟨i,k,exDir :: res,mdOf reqs,reqs⟩ = ⟨i,k+1,exDir :: res,mdOf reqs,reqs⟩ := by
  rw [round_nested h]
  by_cases h1 : ¬ (attempts i k).item ∨ ¬ (attempts i k).path ∨ mdOf reqs = none ∧ ¬ (attempts i k).md
  · rw [if_pos h1]
  · have h4 : ¬ (attempts i k).submit := by
      intro h4
      refine hw ⟨?_,?_,fun hr => ?_,h4⟩
      · by_contra h2
        exact h1 (.inl h2)
      · by_contra h2
        exact h1 (.inr (.inl h2))
      · by_contra h2
        exact h1 (.inr (.inr ⟨mdOf_eq_none.mpr (by simpa using hr),h2⟩))
    have hmd : (if ((mdOf reqs).getD ⟨0,0,.success⟩).waitCount = 0 then none
        else some ((mdOf reqs).getD ⟨0,0,.success⟩)) = mdOf reqs := by
      unfold mdOf
      cases reqs <;> simp
      omega
    rw [if_neg h1,if_pos h4,hmd]

/-- For every nested export the first attempt works. -/
def FirstTry (export_ : Path) (attempts : ℕ → ℕ → Attempt) : Bool → ℕ → List Path → Prop
  | _, _, [] => True
  | first, i, exDir :: res =>
    if (nestedPath export_ exDir).isSome then
      (attempts i 0).Works first ∧ FirstTry export_ attempts false (i+1) res
    else FirstTry export_ attempts first (i+1) res

theorem visits_succ (s : LoopSt) (n : ℕ) :
    visits export_ he attempts s (n+1) = s.i :: visits export_ he attempts (round export_ he attempts s) n := by
  simp [visits,List.range_succ_eq_map,Function.comp_def]

/-- The loop ends, and its rounds are about the exports that are left, each once. -/
def EachOnce (export_ : Path) (he : export_ ≠ []) (attempts : ℕ → ℕ → Attempt) (s : LoopSt) (n : ℕ) : Prop :=
  ((round export_ he attempts)^[n] s).exports = [] ∧ visits export_ he attempts s n = List.range' s.i s.exports.length

theorem eachOnce_succ {s : LoopSt} {n : ℕ} (hi : (round export_ he attempts s).i = s.i+1)
    (hl : (round export_ he attempts s).exports.length+1 = s.exports.length) :
    EachOnce export_ he attempts s (n+1) ↔ EachOnce export_ he attempts (round export_ he attempts s) n := by
  unfold EachOnce
  rw [Function.iterate_succ_apply,visits_succ,← hl,List.range'_succ,hi,List.cons.injEq,eq_self,true_and]

/-- Each export is visited once exactly if no attempt fails. -/
theorem eachOnce_iff {i : ℕ} {exports : List Path} {reqs : List Request} :
    (∃ n, EachOnce export_ he attempts ⟨i,0,exports,mdOf reqs,reqs⟩ n) ↔
      FirstTry export_ attempts (reqs = []) i exports := by
  induction exports generalizing i reqs with
  | nil => exact iff_of_true ⟨0,rfl,rfl⟩ trivial
  | cons exDir res ih =>
    have hpos : ∀ n, EachOnce export_ he attempts ⟨i,0,exDir :: res,mdOf reqs,reqs⟩ n → ∃ m, n = m+1 := by
      rintro (_ | m) ⟨hend,-⟩
      · simp at hend
      · exact ⟨m,rfl⟩
    have hstep : ∀ {t : LoopSt}, round export_ he attempts ⟨i,0,exDir :: res,mdOf reqs,reqs⟩ = t → t.i = i+1 →
        t.exports = res → ((∃ n, EachOnce export_ he attempts ⟨i,0,exDir :: res,mdOf reqs,reqs⟩ n) ↔
          ∃ n, EachOnce export_ he attempts t n) := by
      intro t ht hi hres
      have hsucc : ∀ n, EachOnce export_ he attempts ⟨i,0,exDir :: res,mdOf reqs,reqs⟩ (n+1) ↔
          EachOnce export_ he attempts t n := by
        intro n
        rw [eachOnce_succ (by rw [ht,hi]) (by rw [ht,hres]; rfl),ht]
      constructor
      · rintro ⟨n,hn⟩
        obtain ⟨m,rfl⟩ := hpos n hn
        exact ⟨m,(hsucc m).mp hn⟩
      · rintro ⟨n,hn⟩
        exact ⟨n+1,(hsucc n).mpr hn⟩
    cases hn : nestedPath export_ exDir with
    | none =>
      rw [FirstTry,if_neg (by simp [hn]),hstep (round_other hn) rfl rfl]
      exact ih
    | some path =>
      rw [FirstTry,if_pos (by simp [hn])]
      by_cases hw : (attempts i 0).Works (reqs = [])
      · rw [hstep (round_works hn hw) rfl rfl,ih]
        simp [hw]
      · refine iff_of_false ?_ fun h => hw h.1
        rintro ⟨n,hn'⟩
        obtain ⟨m,rfl⟩ := hpos n hn'
        obtain ⟨hend,hvis⟩ := hn'
        rw [visits_succ,round_fails hn hw] at hvis
        rw [Function.iterate_succ_apply,round_fails hn hw] at hend
        cases m with
        | zero => simp at hend
        | succ m =>
          -- the second round is about the first export again
          rw [visits_succ,List.length_cons,List.range'_succ,List.cons.injEq] at hvis
          have hmem : i ∈ List.range' (i+1) res.length := by
            rw [← hvis.2]
            exact List.mem_cons_self
          exact absurd (List.mem_range'_1.mp hmem).1 (by omega)

end Rounds

section Ends

variable {α : Type} {connects : Bool} {asked : List Request} {evs : List (Event α)} {s t : St α} {e : Event α}

/-- How many answers the rest of the mount can still wait for -/
def baseRank : Request → ℕ
  | .connect => 3
  | .fsinfo => 2
  | .getattr => 1
  | _ => 0

def rank (s : St α) : ℕ :=
  if s.outstanding = [] then 0
  else if s.md.isSome then 2*s.outstanding.length+s.nestedMounts.length+3
  else if s.ma.isSome then s.outstanding.length
  else s.nestedMounts.length+(s.outstanding.map baseRank).sum

theorem record_mounts_length (e : ℤ) (st : Status) (r : MountPath × MntReply) :
    (Tally.record ⟨e,st,[]⟩ r).mounts.length ≤ 1 := by
  rw [record_mounts]
  cases mounted r <;> simp

theorem mount7Loop_length (items : ℕ → Item) (i n : ℕ) : (mount7Loop items i n).length ≤ n := by
  induction n generalizing i with
  | zero => simp [mount7Loop]
  | succ n ih =>
    rw [mount7Loop]
    have h := ih (i+1)
    cases items i <;> simp only [List.length_nil,List.length_cons] <;> omega

theorem rank_call (s : St α) (err : ℤ) (h : s.outstanding = []) : rank (s.call err) = 0 := by
  simp [rank,St.call,h]

theorem rank_reconnect (s : St α) (h : s.outstanding = []) (hmd : s.md = none) (hma : s.ma = none) :
    rank (s.reconnect connects) ≤ s.nestedMounts.length+3 := by
  unfold St.reconnect
  split
  · simp [rank,h,hmd,hma,baseRank]
  · rw [rank_call _ _ h]
    omega

theorem erase_length {reqs : List Request} {r : Request} (h : r ∈ reqs) : (reqs.erase r).length+1 = reqs.length := by
  have hlen := List.length_erase_of_mem h
  have hpos := List.length_pos_of_mem h
  omega

/-- Every answer takes the mount nearer to its end. -/
theorem rank_lt (h : Phase connects asked evs s) (hs : step connects s e = some t) : rank t < rank s := by
  unfold MountDiscovery.step at hs
  split at hs
  · rename_i hmem
    obtain rfl := Option.some.inj hs
    cases h with
    | @discovering reqs hne hall ha =>
      have hmnt := hall _ hmem
      have hlen : (reqs.erase e.request).length+1 = reqs.length := erase_length hmem
      cases e with
      | connect | fsinfo | getattr | nestedGetattr => simp [Event.request,Request.isMnt] at hmnt
      | mnt tag path reply =>
        have hrank : ∀ (md : Option MdCb) (m : List (NestedMount × Option α)), md.isSome →
            rank ⟨reqs,md,none,m,[]⟩ = 2*reqs.length+m.length+3 := by
          intro md m hmd
          simp [rank,hne,hmd]
        rw [hrank _ _ rfl,List.length_map]
        have hone := record_mounts_length (tally (replies evs)).error (tally (replies evs)).status (path,reply)
        simp only [Event.handle,nfs3Mount4Cb]
        generalize Tally.record ⟨(tally (replies evs)).error,(tally (replies evs)).status,[]⟩ (path,reply) = d at hone ⊢
        split
        · simp only [rank]
          split
          · simp
          · simp only [Option.isSome_some,if_true,List.length_append,List.length_map]
            omega
        · rename_i hw
          have hnil : reqs.erase (Event.mnt tag path reply).request = [] := List.length_eq_zero_iff.mp (by omega)
          simp only [hnil]
          split
          · rw [rank_call _ _ rfl]
            omega
          · split
            · rw [rank_call _ _ rfl]
              omega
            · refine lt_of_le_of_lt (rank_reconnect _ rfl rfl rfl) ?_
              simp only [List.length_append,List.length_map]
              omega
    | @base r hr ha ht hc =>
      have her : e.request = r := by simpa using hmem
      subst her
      simp only [List.erase_cons_head]
      cases e with
      | mnt => simp [Event.request] at hr
      | nestedGetattr => simp [Event.request] at hr
      | connect status submits =>
        cases status <;> cases submits <;>
          simp [Event.handle,nfs3Mount5Cb,checkNfs3Error,rank,St.call,Event.request,baseRank]
      | fsinfo failure submits =>
        cases failure <;> cases submits <;> simp [Event.handle,nfs3Mount6Cb,rank,St.call,Event.request,baseRank]
      | getattr status maAlloc items =>
        have hlen := mount7Loop_length items 0 (tally (replies evs)).mounts.length
        cases status <;> simp only [Event.handle,nfs3Mount7Cb,checkNfs3Error]
        case success =>
          repeat' split
          all_goals simp_all [rank,St.call,Event.request,baseRank]
        all_goals simp [rank,St.call,Event.request,baseRank]
    | @attributes reqs mounts hne hall ha ht hm =>
      have hnested := hall _ hmem
      have hlen : (reqs.erase e.request).length+1 = reqs.length := erase_length hmem
      cases e with
      | mnt | connect | fsinfo | getattr => simp [Event.request,Request.isNestedGetattr] at hnested
      | nestedGetattr tag attr =>
        have hrank : rank (⟨reqs,none,some reqs.length,mounts,[]⟩ : St α) = reqs.length := by simp [rank,hne]
        rw [hrank]
        generalize reqs.erase (Event.nestedGetattr tag attr).request = left at hlen ⊢
        cases attr <;> simp only [Event.handle,nfs3Mount8Cb] <;> split
        case none.isTrue | some.isTrue =>
          simp only [rank]
          split <;> simp <;> omega
        all_goals
          have hnil : left = [] := List.length_eq_zero_iff.mp (by omega)
          rw [rank_call _ _ hnil]
          omega
    | done => simp at hmem
  · simp at hs

theorem length_le {evs' : List (Event α)} (h : Phase connects asked evs s)
    (hr : evs'.foldlM (MountDiscovery.step connects) s = some t) : evs'.length+rank t ≤ rank s := by
  induction evs' generalizing evs s with
  | nil =>
    obtain rfl := Option.some.inj hr
    simp
  | cons e evs' ih =>
    rw [List.foldlM_cons] at hr
    cases hs : MountDiscovery.step connects s e with
    | none => simp [hs] at hr
    | some s' =>
      rw [hs] at hr
      have hlt := rank_lt h hs
      have := ih (h.step hs) hr
      simp only [List.length_cons]
      omega

/-- However the requests are answered, they come to an end, and then the callback was called, once. -/
def CalledInTheEnd (connects : Bool) (s : St α) : Prop :=
  (∃ n, ∀ (evs : List (Event α)) (t : St α), evs.foldlM (step connects) s = some t → evs.length ≤ n) ∧
    ∀ (evs : List (Event α)) (t : St α), evs.foldlM (step connects) s = some t → t.outstanding = [] → ∃ err, t.calls = [err]

theorem calledInTheEnd (h : Phase connects asked [] s) : CalledInTheEnd connects s := by
  refine ⟨⟨rank s,fun evs t hr => ?_⟩,fun evs t hr hout => ?_⟩
  · have := length_le h hr
    omega
  · have ht := h.run hr
    cases ht with
    | discovering hne => exact absurd hout hne
    | base => simp at hout
    | attributes hne => exact absurd hout hne
    | done => exact ⟨_,rfl⟩

end Ends

/-- The loop is over after a round for each export, and the callback of the mount is called in the end. -/
def LoopOnce (α : Type) (export_ : Path) (he : export_ ≠ []) (attempts : ℕ → ℕ → Attempt) (connects : Bool)
    (exports : List Path) : Prop :=
  ∃ n, EachOnce export_ he attempts ⟨0,0,exports,none,[]⟩ n ∧
    ∃ s : St α, nfs3Mount3Cb export_ attempts connects n .success exports = some s ∧ CalledInTheEnd connects s

theorem loopOnce_iff {α : Type} {export_ : Path} {he : export_ ≠ []} {attempts : ℕ → ℕ → Attempt} {connects : Bool}
    {exports : List Path} : LoopOnce α export_ he attempts connects exports ↔ FirstTry export_ attempts true 0 exports := by
  have hnone : (none : Option MdCb) = mdOf [] := rfl
  have hiff := @eachOnce_iff export_ he attempts 0 exports []
  simp only [decide_true] at hiff
  rw [← hiff,← hnone]
  constructor
  · rintro ⟨n,hn,-⟩
    exact ⟨n,hn⟩
  · rintro ⟨n,hn⟩
    have hs : ∃ s : St α, nfs3Mount3Cb export_ attempts connects n .success exports = some s := by
      unfold nfs3Mount3Cb
      simp only [checkNfs3Error,dif_neg he]
      have hl := @mount3Loop_rounds export_ he attempts n ⟨0,0,exports,none,[]⟩
      dsimp only at hl
      rw [hn.1,mount3Loop_nil] at hl
      rw [hl]
      cases ((round export_ he attempts)^[n] ⟨0,0,exports,none,[]⟩).md <;> exact ⟨_,rfl⟩
    obtain ⟨s,hs⟩ := hs
    exact ⟨n,hn,s,hs,calledInTheEnd (start_phase he hs)⟩

/-- The loop visits each export once, and the mount reports in the end, exactly if the first attempt works for every
export below the mounted one. -/
theorem loop_once_iff_first_try (α : Type) (export_ : Path) (he : export_ ≠ []) (attempts : ℕ → ℕ → Attempt)
    (connects : Bool) (exports : List Path) :
    LoopOnce α export_ he attempts connects exports ↔ FirstTry export_ attempts true 0 exports :=
  loopOnce_iff

/-- Memory for the first export is not there at once. -/
def lateMemory : ℕ → ℕ → Attempt := fun _ k => ⟨k ≠ 0,true,true,true⟩

theorem loop_once_iff_first_try_late :
    LoopOnce Unit ['/','e'] (by simp) lateMemory true [['/','e','/','b']] ↔
      FirstTry ['/','e'] lateMemory true 0 [['/','e','/','b']] :=
  loop_once_iff_first_try Unit ['/','e'] (by simp) lateMemory true [['/','e','/','b']]

/-- The MNT of the one nested export is never sent: the loop stays at it. -/
theorem loop_stays_at_an_export :
    ¬ ∀ (export_ : Path) (he : export_ ≠ []) (attempts : ℕ → ℕ → Attempt) (connects : Bool) (exports : List Path),
      LoopOnce Unit export_ he attempts connects exports := by
  intro h
  have h1 := loopOnce_iff.mp (h ['/','e'] (by simp) (fun _ _ => ⟨true,true,true,false⟩) true [['/','e','/','b']])
  rw [FirstTry,if_pos (by decide)] at h1
  exact absurd h1.1.2.2.2 (by simp)

end ExportLoop
end Libnfs
