import PgVmPool.SpareClaims

namespace PgVmPool

open Function Transition

def ReplenishPc.marked (p : ReplenishPc) : List SandboxId := p.culls ++ p.deletes

/-- The spares that a pass is about to pick: the first ones that have been sick for too long, or the
surplus among those that it listed as stopped. -/
def Replenisher.draws (target : ℕ) (w : World) (r : Replenisher) : List SandboxId :=
  match r.pc with
  | .sickSince s => r.doomed w.now s.sick
  | .plan s => (planReplenish s.planInput s.bound w.claimed (min target maxSpares)).delete
  | _ => []

def World.Free (w : World) (v : SandboxId) : Prop := w.claimed v = false ∧ v ∉ w.store.boundIds

def Stocked.DeletesFree (j : Stocked) : Prop :=
  ∀ v, j.pc.pc.victim = some v → j.sys.world.Free v

def Stocked.Skirts (j : Stocked) (x : Task) : Prop :=
  (∀ v ∈ x.spare j.sys.world, v ∉ j.pc.pc.marked) ∧ ∀ p ∈ x.puts j.sys.world, p.2 ∉ j.pc.pc.marked

/-- A pass picks only spares that are still free, and until it has deleted them nobody claims or binds
them. -/
def PicksFree (target : ℕ) (j : Stocked) : Label ⊕ PoolAnswer → Prop
  | .inl l => OnRun (fun t _ ↦ ∀ x ∈ j.sys.tasks[t]?, j.Skirts x) l
  | .inr .go => ∀ v ∈ j.pc.draws target j.sys.world, j.sys.world.Free v
  | .inr _ => True

instance (w : World) (v : SandboxId) : Decidable (w.Free v) := inferInstanceAs (Decidable (_ ∧ _))

instance (j : Stocked) (x : Task) : Decidable (j.Skirts x) := inferInstanceAs (Decidable (_ ∧ _))

instance (target : ℕ) (j : Stocked) : (l : Label ⊕ PoolAnswer) → Decidable (PicksFree target j l)
  | .inl l => inferInstanceAs (Decidable (OnRun _ l))
  | .inr .go => inferInstanceAs (Decidable (∀ v ∈ j.pc.draws target j.sys.world, j.sys.world.Free v))
  | .inr (.listed _) | .inr .failed | .inr (.probed _ _) | .inr (.killed _) | .inr (.restarted _ _)
  | .inr (.accepted _ _) | .inr .refused | .inr (.booted _ _) | .inr (.disposed _ _)
  | .inr (.forget _) => isTrue trivial

section Steps

variable {cfg : Config} {target : ℕ} {w w' : World} {r r' : Replenisher} {a : PoolAnswer}
  {v : SandboxId} {j j' : Stocked} {l : Label ⊕ PoolAnswer}

theorem ReplenishPc.marked_of_victim {p : ReplenishPc} (h : p.victim = some v) : v ∈ p.marked := by
  unfold ReplenishPc.victim at h
  split at h
  · cases h
    exact List.mem_append_left _ List.mem_cons_self
  · cases h
    exact List.mem_append_right _ List.mem_cons_self
  · cases h

theorem ReplenishPc.Narrows.marked {p p' : ReplenishPc} (h : p.Narrows p') (hv : v ∈ p'.marked) :
    v ∈ p.marked := by
  rcases List.mem_append.mp hv with hv | hv
  · exact List.mem_append_left _ (h.culls hv)
  · exact List.mem_append_right _ (h.deletes hv)

theorem replenishStep_marked (h : replenishStep (min target maxSpares) w r a = some (w', r'))
    (hv : v ∈ r'.pc.marked) : v ∈ r.pc.marked ∨ a = .go ∧ v ∈ r.draws target w := by
  cases replenishStep_move h with
  | other _ hpc => exact .inl (hpc.marked hv)
  | start _ _ hpc' | publish _ _ hpc' =>
    rw [hpc'] at hv
    cases hv
  | cull ha _ hpc hpc' | plan ha _ hpc hpc' =>
    rw [hpc'] at hv
    refine .inr ⟨ha, ?_⟩
    simpa [Replenisher.draws, hpc, ReplenishPc.marked, ReplenishPc.culls, ReplenishPc.deletes] using hv

/-- The spares that are claimed or bound, against those that a pass has picked. -/
def Stocked.custody (j : Stocked) : Custody SandboxId where
  held := {v | j.sys.world.claimed v = true ∨ v ∈ j.sys.world.store.boundIds}
  doomed := {v | v ∈ j.pc.pc.marked}

theorem World.Free.not_held (h : w.Free v) : ¬ (w.claimed v = true ∨ v ∈ w.store.boundIds) := by
  rintro (hc | hb)
  · simp [h.1] at hc
  · exact h.2 hb

theorem Stocked.custody_step (hok : PicksFree target j l) (hs : stockedStep cfg target l j = some j') :
    Custody.Step j.custody j'.custody := by
  rcases (beside_cases hs).2 with ⟨k, rfl, hk, hpc⟩ | ⟨c, rfl, hc⟩
  · have hstep := step_sound (step_of_pooled hk)
    refine ⟨fun v hv ↦ ?_, fun v hv ↦ .inl ?_⟩
    · rcases hv with hclaim | hbound
      · rcases hstep.claimed hclaim with hold | ⟨t, b, x, rfl, ht, hspare⟩
        · exact .inl (.inl hold)
        · exact .inr fun hd ↦ (hok x ht).1 v hspare (hpc ▸ hd)
      · rcases hstep.bound hbound with hold | ⟨t, b, x, s, rfl, ht, hput⟩
        · exact .inl (.inr hold)
        · exact .inr fun hd ↦ (hok x ht).2 (s, v) hput (hpc ▸ hd)
    · rw [Stocked.custody, hpc] at hv
      exact hv
  · obtain ⟨hr, -⟩ := replenish_eq hc
    have hw : ∀ v, (j'.sys.world.claimed v = true ∨ v ∈ j'.sys.world.store.boundIds) →
        (j.sys.world.claimed v = true ∨ v ∈ j.sys.world.store.boundIds) := by
      rw [replenishStep_frame hr]
      exact fun _ ↦ id
    refine ⟨fun v hv ↦ .inl (hw v hv), fun v hv ↦ ?_⟩
    rcases replenishStep_marked hr hv with hold | ⟨rfl, hdraw⟩
    · exact .inl hold
    · exact .inr fun hheld ↦ (hok v hdraw).not_held (hw v hheld)

/-- In every run whose passes pick spares that are free, and in which nobody claims or binds a spare
between its being picked and its kill, only free spares are deleted. -/
theorem spares_deleted_free {w : World} (h : Stocks cfg target (PicksFree target) w j) :
    j.DeletesFree := by
  have hsafe : j.custody.Safe := by
    refine Run.custody (I := fun _ ↦ True) Stocked.custody h ?_ (fun _ _ ↦ trivial) ?_
    · intro v hv
      cases hv
    · exact fun _ _ _ _ hok hs ↦ Stocked.custody_step hok hs
  intro v hv
  have hfree := hsafe v (ReplenishPc.marked_of_victim hv)
  simpa [Stocked.custody, World.Free] using hfree

def World.twoSpares : World := .host "" fun id ↦ if id = sb1 ∨ id = sb2 then some ⟨[], 0⟩ else none

def pairInfos (first second : Bool) : List Info :=
  [⟨sb1, "spare-pg-0", first⟩, ⟨sb2, "spare-pg-1", second⟩]

def probingPass (first second : Bool) (probes : List Bool) : List (Label ⊕ PoolAnswer) :=
  ([.go, .listed (pairInfos first second), .go] ++ probes.map (.probed 0) ++ [.go, .go] :
    List PoolAnswer).map .inr

def restOfPass (n : ℕ) : List (Label ⊕ PoolAnswer) := List.replicate n (.inr .go)

theorem spares_deleted_free_run : ∃ j, Stocks .full 1 (PicksFree 1) .twoSpares j ∧
    j.pc.pc.victim = some sb2 ∧ j.sys.world.claimed sb1 = true ∧ j.DeletesFree := by
  obtain ⟨j, hr, hj⟩ := Run.exists_of_exec (stockedStep .full 1) (PicksFree 1) (.boot .twoSpares)
    (probingPass true true [true, false] ++ restOfPass 6 ++ [.inl (.tick 300)] ++
      alone (claimsSpare 0 app) ++ probingPass true true [false])
    (fun j ↦ j.pc.pc.victim = some sb2 ∧ j.sys.world.claimed sb1 = true)
    (by decide +kernel) (by decide +kernel)
  obtain ⟨hv, hc⟩ := of_decide_eq_true hj
  exact ⟨j, hr, hv, hc, spares_deleted_free hr⟩

/-- A pass plans to delete a spare that is still on the old shelf; before it gets to it a checkout
claims the spare, in spite of the daemon's error, and binds it. -/
theorem spares_not_deleted_free : ∃ j, Stocks .full 1 (fun _ _ ↦ True) .twoSpares j ∧
    j.pc.pc.victim = some sb2 ∧ j.sys.world.claimed sb2 = true ∧
      j.sys.world.store.idOf app = some sb2 ∧ ¬ j.DeletesFree := by
  obtain ⟨j, hr, hj⟩ := Run.exists_of_exec (stockedStep .full 1) (fun _ _ ↦ True) (.boot .twoSpares)
    (healthyPass ++ probingPass true false [true] ++ restOfPass 2 ++
      alone (claimsSpare 0 app ++ runs 0 [.failed, .ok, .ok, .slots 10] ++ goes 0 2) ++ restOfPass 1)
    (fun j ↦ j.pc.pc.victim = some sb2 ∧ j.sys.world.claimed sb2 = true ∧
      j.sys.world.store.idOf app = some sb2) (by decide +kernel) (by decide +kernel)
  obtain ⟨hv, hc, hid⟩ := of_decide_eq_true hj
  refine ⟨j, hr, hv, hc, hid, fun h ↦ ?_⟩
  simp [(h sb2 hv).1] at hc

end Steps

end PgVmPool
