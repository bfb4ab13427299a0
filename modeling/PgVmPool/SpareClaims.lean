import PgVmPool.Replenish

namespace PgVmPool

open Function Transition

abbrev Stocked := Beside State Replenisher (List Handout)

def Stocked.note (j : Stocked) (l : Label ⊕ PoolAnswer) (_ : State) : List Handout :=
  match l with
  | .inl (.run t a) => j.seen ++ (j.sys.tasks[t]?.bind (·.handout a)).toList
  | _ => j.seen

def stockedStep (cfg : Config) (target : ℕ) : Label ⊕ PoolAnswer → Stocked → Option Stocked :=
  beside (pooledStep cfg) (replenish target) Stocked.note

def Stocked.boot (w : World) : Stocked := ⟨.boot w, .new, []⟩

abbrev Stocks (cfg : Config) (target : ℕ) (ok : Stocked → Label ⊕ PoolAnswer → Prop) (w : World)
    (j : Stocked) : Prop :=
  Run (stockedStep cfg target) ok (.boot w) j

namespace Handout

def takes (v : SandboxId) (e : Handout) : Prop := ∃ bound, e = .taken v bound

def releases (v : SandboxId) (e : Handout) : Prop := e = .released v

end Handout

/-- Between two takes that returned the same spare its kill was confirmed; no take returned an id
that it was told is bound; and a shelf is published without the ids that are bound or claimed. -/
structure Stocked.HandsOutOnce (cfg : Config) (target : ℕ) (j : Stocked) : Prop where
  once : ∀ v, Alternating (Handout.takes v) (Handout.releases v) j.seen
  unbound : ∀ v bound, .taken v bound ∈ j.seen → v ∉ bound
  shelf : ∀ s j', j.pc.pc = .publish s → stockedStep cfg target (.inr .go) j = some j' →
    ∀ v ∈ j'.sys.world.ready, v ∉ s.bound ∧ j'.sys.world.claimed v = false

/-- The claims behind a history: what is out or held is claimed, a spare is held by one bring-up, and
what a `take` has yet to confirm is not out and was not bound. -/
structure Stocked.Claims (j : Stocked) : Prop where
  once : ∀ v, Alternating (Handout.takes v) (Handout.releases v) j.seen
  unbound : ∀ v bound, .taken v bound ∈ j.seen → v ∉ bound
  out : ∀ v, Outstanding (Handout.takes v) (Handout.releases v) j.seen →
    j.sys.world.claimed v = true
  held : ∀ (t : ℕ) (x : Task) (v : SandboxId), j.sys.tasks[t]? = some x → x.holding = some v →
    j.sys.world.claimed v = true ∧
      ∀ (t' : ℕ) (y : Task), j.sys.tasks[t']? = some y → y.holding = some v → t' = t
  fresh : ∀ (t : ℕ) (x : Task) (b : BringUp) (left : ℕ) (v : SandboxId), j.sys.tasks[t]? = some x →
    x.ensuring = some (b, .confirmSpare left v) →
      v ∉ b.spares.getD [] ∧ ¬ Outstanding (Handout.takes v) (Handout.releases v) j.seen

section Steps

variable {cfg : Config} {target t : ℕ} {a : Answer} {j j' : Stocked} {x y : Task} {v : SandboxId}

theorem Stocked.Claims.quiet (h : j.Claims) (hc : j'.sys.world.claimed = j.sys.world.claimed)
    (hseen : j'.seen = j.seen)
    (htasks : ∀ (i : ℕ) (y : Task), j'.sys.tasks[i]? = some y → y.holding = none ∨
      ∃ x, j.sys.tasks[i]? = some x ∧ (∀ v, y.holding = some v → x.holding = some v) ∧
        (∀ b left v, y.ensuring = some (b, .confirmSpare left v) → x = y)) : j'.Claims where
  once := hseen ▸ h.once
  unbound := hseen ▸ h.unbound
  out := by
    rw [hseen, hc]
    exact h.out
  held t y v ht hv := by
    rcases htasks t y ht with hnone | ⟨x, hx, hxy, -⟩
    · simp [hnone] at hv
    obtain ⟨hcl, huniq⟩ := h.held t x v hx (hxy v hv)
    refine ⟨hc ▸ hcl, fun t' z ht' hz ↦ ?_⟩
    rcases htasks t' z ht' with hnone | ⟨x', hx', hxz, -⟩
    · simp [hnone] at hz
    · exact huniq t' x' hx' (hxz v hz)
  fresh t y b left v ht hy := by
    rcases htasks t y ht with hnone | ⟨x, hx, -, hxy⟩
    · simp [Task.holding, hy, EnsurePc.holding] at hnone
    · obtain rfl := hxy b left v hy
      rw [hseen]
      exact h.fresh t x b left v hx hy

theorem Task.holding_of_confirm {b : BringUp} {left : ℕ}
    (h : x.ensuring = some (b, .confirmSpare left v)) : x.holding = some v := by
  simp [Task.holding, h, EnsurePc.holding]

theorem Stocked.Claims.pop (h : j.Claims) {b : BringUp} {left : ℕ} (hb : v ∉ b.spares.getD [])
    (hfree : j.sys.world.claimed v = false)
    (hc : j'.sys.world.claimed = update j.sys.world.claimed v true) (hseen : j'.seen = j.seen)
    (htasks : j'.sys.tasks = j.sys.tasks.set t y) (hy : y.ensuring = some (b, .confirmSpare left v)) :
    j'.Claims := by
  have hyv := Task.holding_of_confirm hy
  have hne {u : SandboxId} (hu : j.sys.world.claimed u = true) : u ≠ v := by
    rintro rfl
    simp [hfree] at hu
  have hkeep {u : SandboxId} (hu : j.sys.world.claimed u = true) : j'.sys.world.claimed u = true := by
    rw [hc, update_of_ne (hne hu), hu]
  refine ⟨hseen ▸ h.once, hseen ▸ h.unbound, fun u hu ↦ hkeep (h.out u (hseen ▸ hu)), ?_, ?_⟩
  · intro i z u hi hz
    rw [htasks] at hi ⊢
    rcases getElem?_set_cases hi with ⟨rfl, rfl⟩ | ⟨hit, hi⟩
    · obtain rfl : v = u := Option.some.inj (hyv.symm.trans hz)
      refine ⟨by rw [hc, update_self], fun i' z' hi' hz' ↦ ?_⟩
      rcases getElem?_set_cases hi' with ⟨rfl, -⟩ | ⟨-, hi'⟩
      · rfl
      · exact absurd rfl (hne (h.held i' z' v hi' hz').1)
    · obtain ⟨hcl, huniq⟩ := h.held i z u hi hz
      refine ⟨hkeep hcl, fun i' z' hi' hz' ↦ ?_⟩
      rcases getElem?_set_cases hi' with ⟨-, rfl⟩ | ⟨-, hi'⟩
      · exact absurd (Option.some.inj (hz'.symm.trans hyv)) (hne hcl)
      · exact huniq i' z' hi' hz'
  · intro i z b' left' u hi hz
    rw [htasks] at hi
    rw [hseen]
    rcases getElem?_set_cases hi with ⟨rfl, rfl⟩ | ⟨-, hi⟩
    · cases hy.symm.trans hz
      exact ⟨hb, fun hout ↦ absurd rfl (hne (h.out v hout))⟩
    · exact h.fresh i z b' left' u hi hz

theorem Stocked.Claims.take (h : j.Claims) {b : BringUp} {left : ℕ} {p' : EnsurePc}
    (ht : j.sys.tasks[t]? = some x) (hx : x.ensuring = some (b, .confirmSpare left v))
    (hc : j'.sys.world.claimed = j.sys.world.claimed)
    (hseen : j'.seen = j.seen ++ [.taken v (b.spares.getD [])])
    (htasks : j'.sys.tasks = j.sys.tasks.set t y) (hy : y.ensuring = some (b, p'))
    (hv : p'.holding = some v) (hp' : p'.confirming = false) : j'.Claims := by
  have hxv := Task.holding_of_confirm hx
  have hyv : y.holding = some v := by simp [Task.holding, hy, hv]
  obtain ⟨hcl, huniq⟩ := h.held t x v ht hxv
  obtain ⟨hb, hout⟩ := h.fresh t x b left v ht hx
  have hold {i : ℕ} {z : Task} (hi : j'.sys.tasks[i]? = some z) :
      ∃ z', j.sys.tasks[i]? = some z' ∧ z'.holding = z.holding := by
    rw [htasks] at hi
    rcases getElem?_set_cases hi with ⟨rfl, rfl⟩ | ⟨-, hi⟩
    · exact ⟨x, ht, hxv.trans hyv.symm⟩
    · exact ⟨z, hi, rfl⟩
  have heq {u : SandboxId} (hu : Handout.takes u (.taken v (b.spares.getD []))) : u = v := by
    obtain ⟨bound, hbound⟩ := hu
    cases hbound
    rfl
  refine ⟨fun u ↦ ?_, fun u bound hu ↦ ?_, fun u hu ↦ ?_, ?_, ?_⟩
  · rw [hseen]
    exact (h.once u).snoc fun hu ↦ heq hu ▸ hout
  · rw [hseen] at hu
    rcases List.mem_append.mp hu with hu | hu
    · exact h.unbound u bound hu
    · cases List.mem_singleton.mp hu
      exact hb
  · rw [hseen] at hu
    rw [hc]
    exact hu.of_snoc.elim (fun hu ↦ h.out u hu.1) fun hu ↦ heq hu ▸ hcl
  · intro i z u hi hz
    obtain ⟨z', hi', hz'⟩ := hold hi
    obtain ⟨hclu, huniqu⟩ := h.held i z' u hi' (hz'.trans hz)
    refine ⟨hc ▸ hclu, fun k q hk hq ↦ ?_⟩
    obtain ⟨q', hk', hq'⟩ := hold hk
    exact huniqu k q' hk' (hq'.trans hq)
  · intro i z b' left' u hi hz
    rw [htasks] at hi
    rcases getElem?_set_cases hi with ⟨-, rfl⟩ | ⟨hit, hi⟩
    · cases hy.symm.trans hz
      cases hp'
    · obtain ⟨hb', hout'⟩ := h.fresh i z b' left' u hi hz
      refine ⟨hb', fun hu ↦ ?_⟩
      rw [hseen] at hu
      rcases hu.of_snoc with hu | hu
      · exact hout' hu.1
      · obtain rfl := heq hu
        exact hit (huniq i z hi (Task.holding_of_confirm hz))

theorem Stocked.Claims.unclaim (h : j.Claims) (ht : j.sys.tasks[t]? = some x)
    (hx : x.holding = some v) (hc : j'.sys.world.claimed = update j.sys.world.claimed v false)
    (htasks : j'.sys.tasks = j.sys.tasks.set t y) (hy : y.holding = none)
    (once : ∀ u, Alternating (Handout.takes u) (Handout.releases u) j'.seen)
    (unbound : ∀ u bound, .taken u bound ∈ j'.seen → u ∉ bound)
    (hout : ∀ u, Outstanding (Handout.takes u) (Handout.releases u) j'.seen →
      Outstanding (Handout.takes u) (Handout.releases u) j.seen ∧ u ≠ v) : j'.Claims := by
  have huniq := (h.held t x v ht hx).2
  have hother {i : ℕ} {z : Task} {u : SandboxId} (hi : j'.sys.tasks[i]? = some z)
      (hz : z.holding = some u) : j.sys.tasks[i]? = some z ∧ u ≠ v := by
    rw [htasks] at hi
    rcases getElem?_set_cases hi with ⟨-, rfl⟩ | ⟨hit, hi⟩
    · simp [hy] at hz
    · refine ⟨hi, ?_⟩
      rintro rfl
      exact hit (huniq i z hi hz)
  refine ⟨once, unbound, fun u hu ↦ ?_, ?_, ?_⟩
  · obtain ⟨hu, hne⟩ := hout u hu
    rw [hc, update_of_ne hne]
    exact h.out u hu
  · intro i z u hi hz
    obtain ⟨hi, hne⟩ := hother hi hz
    obtain ⟨hcl, huniqu⟩ := h.held i z u hi hz
    refine ⟨by rw [hc, update_of_ne hne, hcl], fun k q hk hq ↦ ?_⟩
    exact huniqu k q (hother hk hq).1 hq
  · intro i z b left u hi hz
    obtain ⟨hi, -⟩ := hother hi (Task.holding_of_confirm hz)
    obtain ⟨hb, hfresh⟩ := h.fresh i z b left u hi hz
    exact ⟨hb, fun hu ↦ hfresh (hout u hu).1⟩

theorem Stocked.Claims.task (h : j.Claims) (ht : j.sys.tasks[t]? = some x)
    (htasks : j'.sys.tasks = j.sys.tasks.set t y) (hseen : j'.seen = j.seen ++ (x.handout a).toList)
    (hm : TaskSpareMove a j.sys.world j'.sys.world x y) : j'.Claims := by
  cases hm with
  | other claimed _ holding _ quiet =>
    refine h.quiet claimed (by simpa [quiet] using hseen) fun i z hi ↦ ?_
    rw [htasks] at hi
    rcases getElem?_set_cases hi with ⟨-, rfl⟩ | ⟨-, hi⟩
    · exact .inl holding
    · exact .inr ⟨z, hi, fun _ ↦ id, fun _ _ _ _ ↦ rfl⟩
  | @ensure b p p' hx hy hm =>
    have hhand : x.handout a = p.handout (b.spares.getD []) a := by simp [Task.handout, hx]
    have hxv : x.holding = p.holding := by simp [Task.holding, hx]
    have hyv : y.holding = p'.holding := by simp [Task.holding, hy]
    rw [hhand] at hseen
    cases hm with
    | keep claimed _ holding _ confirming' quiet =>
      refine h.quiet claimed (by simpa [quiet] using hseen) fun i z hi ↦ .inr ?_
      rw [htasks] at hi
      rcases getElem?_set_cases hi with ⟨rfl, rfl⟩ | ⟨-, hi⟩
      · refine ⟨x, ht, fun v hv ↦ ?_, fun b' left v hz ↦ ?_⟩
        · rw [hxv]
          exact holding v (hyv ▸ hv)
        · cases hy.symm.trans hz
          cases confirming'
      · exact ⟨z, hi, fun _ ↦ id, fun _ _ _ _ ↦ rfl⟩
    | pop hpop claimed _ =>
      obtain ⟨hb, hfree, -⟩ := popReady_spec hpop
      exact h.pop hb hfree claimed (by simpa [EnsurePc.handout] using hseen) htasks hy
    | take claimed _ holding confirming taken =>
      exact h.take ht hx claimed (by simpa [taken] using hseen) htasks hy holding confirming
    | @drop left v claimed _ _ quiet =>
      have hsame : j'.seen = j.seen := by simpa [quiet] using hseen
      have hfresh := (h.fresh t x b left v ht hx).2
      refine h.unclaim ht hxv claimed htasks hyv (hsame ▸ h.once) (hsame ▸ h.unbound) fun u hu ↦ ?_
      rw [hsame] at hu
      exact ⟨hu, fun heq ↦ hfresh (heq ▸ hu)⟩
    | @release _ v holding _ claimed _ _ released =>
      have hsnoc : j'.seen = j.seen ++ [.released v] := by simpa [released] using hseen
      have hnot {u : SandboxId} : ¬ Handout.takes u (.released v) := by
        rintro ⟨_, heq⟩
        cases heq
      refine h.unclaim ht (hxv.trans holding) claimed htasks hyv ?_ ?_ fun u hu ↦ ?_
      · intro u
        rw [hsnoc]
        exact (h.once u).snoc fun hu ↦ absurd hu hnot
      · intro u bound hu
        rw [hsnoc] at hu
        rcases List.mem_append.mp hu with hu | hu
        · exact h.unbound u bound hu
        · cases List.mem_singleton.mp hu
      · rw [hsnoc] at hu
        rcases hu.of_snoc with ⟨hu, hne⟩ | hu
        · exact ⟨hu, fun heq ↦ hne (heq ▸ rfl)⟩
        · exact absurd hu hnot

theorem Stocked.Claims.step {l : Label ⊕ PoolAnswer} (h : j.Claims)
    (hs : stockedStep cfg target l j = some j') : j'.Claims := by
  obtain ⟨hseen, hstep⟩ := beside_cases hs
  rcases hstep with ⟨k, rfl, hk, -⟩ | ⟨c, rfl, hc⟩
  · rcases pooledStep_spare hk with ⟨t, a, x, y, rfl, ht, htasks, hm⟩ | ⟨hrun, hc, -, htasks⟩
    · exact h.task ht htasks (by simpa [Stocked.note, ht] using hseen) hm
    · have hsame : j'.seen = j.seen := by
        cases k with
        | run t a => exact absurd rfl (hrun t a)
        | spawn | land | tick | publish | flush => exact hseen
      refine h.quiet hc hsame fun i y hi ↦ ?_
      rcases htasks i y hi with hnone | hi
      · exact .inl (by simp [Task.holding, hnone])
      · exact .inr ⟨y, hi, fun _ ↦ id, fun _ _ _ _ ↦ rfl⟩
  · obtain ⟨hr, htasks⟩ := replenish_eq hc
    refine h.quiet (by rw [replenishStep_frame hr]) hseen fun i y hi ↦ .inr ?_
    exact ⟨y, htasks ▸ hi, fun _ ↦ id, fun _ _ _ _ ↦ rfl⟩

theorem Stocked.claims_boot (w : World) : (Stocked.boot w).Claims where
  once _ := .nil
  unbound _ _ h := by cases h
  out v h := by
    obtain ⟨before, e, after, heq, -⟩ := h
    simp [Stocked.boot] at heq
  held t x v ht := by simp [Stocked.boot, State.boot] at ht
  fresh t x b left v ht := by simp [Stocked.boot, State.boot] at ht

theorem Stocked.publish_shelf {s : Stock} (hpc : j.pc.pc = .publish s)
    (hs : stockedStep cfg target (.inr .go) j = some j') (hv : v ∈ j'.sys.world.ready) :
    v ∉ s.bound ∧ j'.sys.world.claimed v = false := by
  rcases (beside_cases hs).2 with ⟨k, hk, -⟩ | ⟨c, hc, hm⟩
  · cases hk
  · cases hc
    obtain ⟨hr, -⟩ := replenish_eq hm
    simp only [replenishStep, hpc, Option.some.injEq, Prod.mk.injEq] at hr
    rw [← hr.1] at hv ⊢
    obtain ⟨hshelved, hbound⟩ := j.sys.world.shelved_publish s.healthy s.bound
    exact ⟨hbound v hv, hshelved.free v hv⟩

/-- In every run of checkouts, offloads and passes a spare is handed out again only after its kill
was confirmed, never against the ids a `take` is given, and never published while bound or claimed. -/
theorem spares_handed_once {w : World} (h : Stocks cfg target (fun _ _ ↦ True) w j) :
    j.HandsOutOnce cfg target := by
  have hclaims : j.Claims :=
    Run.invariant h (Stocked.claims_boot w) fun _ _ _ hI _ hs ↦ hI.step hs
  exact ⟨hclaims.once, hclaims.unbound, fun s j' hpc hs v hv ↦ Stocked.publish_shelf hpc hs hv⟩

def World.oneSpare : World := .host "" fun id ↦ if id = sb2 then some ⟨[], 0⟩ else none

def spareInfos (running : Bool) : List Info := [⟨sb2, "spare-pg-1", running⟩]

def healthyPass : List (Label ⊕ PoolAnswer) :=
  ([.go, .listed (spareInfos true), .go, .probed 0 true] ++ List.replicate 8 .go :
    List PoolAnswer).map .inr

def claimsSpare (t : ℕ) (s : Schema) : List Label :=
  [.spawn (.checkout s .touch)] ++ goes t 9 ++ [.run t (.listing [])] ++ goes t 1

theorem spares_handed_once_run : ∃ j, Stocks .full 1 (fun _ _ ↦ True) .oneSpare j ∧
    j.seen = [.taken sb2 [], .released sb2] ∧ j.HandsOutOnce .full 1 := by
  obtain ⟨j, hr, hj⟩ := Run.exists_of_exec (stockedStep .full 1) (fun _ _ ↦ True) (.boot .oneSpare)
    (healthyPass ++ alone (claimsSpare 0 app ++ runs 0 [.running "spare-pg-1", .failed, .ok]))
    (fun j ↦ j.seen = [.taken sb2 [], .released sb2]) (by decide +kernel) (by decide +kernel)
  exact ⟨j, hr, of_decide_eq_true hj, spares_handed_once hr⟩

end Steps

end PgVmPool
