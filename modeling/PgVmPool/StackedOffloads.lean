import PgVmPool.Promotion
import PgVmPool.Rows

namespace PgVmPool

open Function Transition

/-- The tier that sends an offload down its route; a schema without a row counts as live. -/
def Route.tier : Route → Tier
  | .archive | .freeze | .compact | .image _ => .live
  | .promoteFrozen => .frozen
  | .promoteCompacted => .compacted

def Final.tier : Final → Tier
  | .kill _ | .killById _ => .live
  | .removeDump => .frozen
  | .removeImage => .compacted

/-- The tier an offload takes the row to have while it holds its `ArchivingGuard`: the one it read, then
the one it wrote. The promotion of a frozen schema reads it once more first. -/
def OffPc.acts : OffPc → Option Tier
  | .evict r | .readRecord r | .bringUp r _ _ | .leak r _ | .leakByName r _ | .leakStop r _ _ | .dump r _
  | .failedCheckpoint r _ | .failedStop r _ => some r.tier
  | .uploadScratch _ | .imageCheckpoint _ _ | .imageStop _ _ | .imageDisk _ | .ensureRow _
  | .compactDisk _ => some .live
  | .statDump | .uploadDump _ | .verifyDump _ => some .frozen
  | .statImage | .uploadImage _ | .verifyImage _ | .deleteDump => some .compacted
  | .setTier _ fin => some fin.tier
  | .writeTier tier _ _ _ | .finish tier (some _) _ => some tier
  | .finish _ none _ => some .live
  | .begin | .imageTarget _ | .claim _ | .checkFrozen | .done | .failed => none

def World.rowTier (w : World) (s : Schema) : Tier := (w.store.tierOf s).getD .live

/-- An offload acts on the tier the row has, and before it acts it changes nothing. -/
structure ActsOnRow (cfg : Config) (s : Schema) (kind : OffloadKind) (w : World) (pc : OffPc) : Prop where
  tier : ∀ tier, pc.acts = some tier → w.rowTier s = tier
  effect : pc.acts = none → ∀ a w' pc', offStep cfg s kind w pc a = some (w', pc') →
    w'.copies s = w.copies s ∧ w'.disks = w.disks

/-- Every offload that holds its guard acts on the tier the row has. -/
def State.Unstacked (cfg : Config) (st : State) : Prop :=
  ∀ (t : ℕ) (s : Schema) (kind : OffloadKind) (pc : OffPc),
    st.tasks[t]? = some (.offload s kind pc) → ActsOnRow cfg s kind st.world pc

def Task.claiming : Task → Option (Schema × Route)
  | .offload s _ (.claim r) => some (s, r)
  | _ => none

def Task.rebinds : Task → Option Schema
  | .checkout s (.recordBinding _ _) => some s
  | _ => none

/-- An offload that claims the schema finds the tier it has read, unless it reads it again with the
claim. -/
def World.Current (w : World) (s : Schema) (r : Route) : Prop :=
  w.archiving s = false → r ≠ .promoteFrozen → w.rowTier s = r.tier

instance (w : World) (s : Schema) (r : Route) : Decidable (w.Current s r) :=
  inferInstanceAs (Decidable (_ → _ → _))

/-- Every offload claims the schema with the tier it has read still in the row; a checkout, if there is
one, binds a schema only when no offload holds it. -/
def ClaimsCurrent (st : State) : Label → Prop :=
  OnRun fun t _ ↦ ∀ x ∈ st.tasks[t]?,
    (∀ p ∈ x.claiming, st.world.Current p.1 p.2) ∧ ∀ s ∈ x.rebinds, st.world.archiving s = false

instance (st : State) (l : Label) : Decidable (ClaimsCurrent st l) :=
  inferInstanceAs (Decidable (OnRun _ l))

section Steps

variable {cfg : Config} {s r : Schema} {kind : OffloadKind} {w w' : World} {pc pc' : OffPc} {a : Answer}

theorem World.rowTier_of_map (h : w'.store.map = w.store.map) (s : Schema) : w'.rowTier s = w.rowTier s := by
  rw [World.rowTier, Store.tierOf_of_map h, World.rowTier]

theorem OffPc.holds_of_acts {tier : Tier} (h : pc.acts = some tier) : pc.holds = true := by
  cases pc <;> first | rfl | cases h

theorem offEvict_acts {route : Route} {tier : Tier} (h : (offEvict s route w).2.acts = some tier) :
    tier = route.tier := by
  unfold offEvict at h
  cases route <;> (split at h <;> (try split at h) <;> cases h) <;> rfl

theorem imageFallback_acts {route : Route} {id : Option SandboxId} {tier : Tier}
    (h : (imageFallback cfg route id).acts = some tier) : tier = route.tier := by
  unfold imageFallback at h
  split at h
  · split at h <;> cases h
    rfl
  · cases h

theorem offBegin_acts (cfg : Config) (tier : Option Tier) (kind : OffloadKind) :
    (offBegin cfg tier kind).acts = none := by
  rcases offBegin_cases cfg tier kind with heq | ⟨_, heq⟩ | ⟨_, heq⟩ <;> rw [heq] <;> rfl

theorem offCore_acts (h : offCore cfg s kind w pc a = some (w', pc'))
    (htier : ∀ tier, pc.acts = some tier → w.rowTier s = tier)
    (hclaim : ∀ r, pc = .claim r → w.Current s r) {tier : Tier} (hp : pc'.acts = some tier) :
    w'.rowTier s = tier := by
  revert h
  fun_cases offCore cfg s kind w pc a <;> intro h <;> (try cases h)
  case case1 => simp [offBegin_acts] at hp
  case case5 r harch =>
    have hcur := hclaim r rfl (by simpa using harch)
    cases r <;> cases hp <;> exact hcur (by simp)
  case case6 r =>
    obtain rfl : (offEvict s r w).1 = w' := by rw [Option.some.inj h]
    obtain rfl : (offEvict s r w).2 = pc' := by rw [Option.some.inj h]
    rw [offEvict_frame, offEvict_acts hp]
    exact htier _ rfl
  case case12 =>
    obtain ⟨_, hx, heq⟩ := Option.map_eq_some_iff.mp h
    cases heq
    rw [ensureStep_frame hx]
    exact htier _ hp
  case case15 | case19 | case27 | case28 =>
    rw [imageFallback_acts hp]
    exact htier _ rfl
  case case20 | case21 | case23 | case33 | case36 | case41 | case45 =>
    obtain ⟨_, -, heq⟩ := Option.map_eq_some_iff.mp h
    (try split at heq) <;> cases heq <;> exact htier _ hp
  case case35 id =>
    cases hp
    split
    · simp [World.rowTier, Store.tierOf_put, Final.tier]
    · exact htier _ rfl
  case case38 =>
    split at hp
    · rename_i hrow
      cases hp
      simp [World.rowTier, hrow]
    · cases hp
  case case39 | case42 | case43 | case46 =>
    split at hp <;> cases hp
    exact htier _ rfl
  case case54 hset =>
    cases hp
    simp [World.rowTier, Store.tierOf_setTier hset]
  case case55 hset =>
    have hnone : w.store.record s = none := by simpa [Store.setTier] using hset
    cases hp
    simp [World.rowTier, Store.tierOf, hnone]
  case case56 | case57 =>
    rw [World.rowTier_of_map (Store.writeLatest_map ..)]
    exact htier _ hp
  all_goals first | exact htier _ hp | cases hp

/-- An offload that does not act yet changes no copy of the data and no VM. -/
theorem offCore_idle (h : offCore cfg s kind w pc a = some (w', pc')) (hp : pc.acts = none) :
    w'.copies s = w.copies s ∧ w'.disks = w.disks := by
  cases pc with
  | begin =>
    cases a <;> cases h
    exact ⟨rfl, rfl⟩
  | imageTarget viewed =>
    cases a <;> simp only [offCore, reduceCtorEq] at h
    split at h <;> cases h <;> exact ⟨rfl, rfl⟩
  | claim route =>
    cases a <;> simp only [offCore, reduceCtorEq] at h
    split at h <;> cases h <;> exact ⟨rfl, rfl⟩
  | checkFrozen =>
    cases a <;> cases h
    exact ⟨rfl, rfl⟩
  | done | failed => cases a <;> cases h
  | finish tier g fin => cases g <;> cases hp
  | _ => cases hp

theorem offStep_acts (h : offStep cfg s kind w pc a = some (w', pc'))
    (htier : ∀ tier, pc.acts = some tier → w.rowTier s = tier)
    (hclaim : ∀ r, pc = .claim r → w.Current s r) {tier : Tier} (hp : pc'.acts = some tier) :
    w'.rowTier s = tier := by
  obtain ⟨u, hu, x, rfl⟩ := offStep_eq h
  exact offCore_acts hu htier hclaim hp

theorem offStep_idle (h : offStep cfg s kind w pc a = some (w', pc')) (hp : pc.acts = none) :
    w'.copies s = w.copies s ∧ w'.disks = w.disks := by
  obtain ⟨u, hu, x, rfl⟩ := offStep_eq h
  obtain ⟨hcopies, hdisks⟩ := offCore_idle hu hp
  exact ⟨hcopies, hdisks⟩

theorem offStep_rowTier_ne (h : offStep cfg r kind w pc a = some (w', pc')) (hs : s ≠ r) :
    w'.rowTier s = w.rowTier s := by
  obtain ⟨u, hu, x, rfl⟩ := offStep_eq h
  have hrow : u.store.record s = w.store.record s := (offCore_move hu).record_ne hs
  simp [World.rowTier, Store.tierOf, hrow]

theorem ckStep_rowTier {t : ℕ} {p p' : CkPc} (h : ckStep cfg t r w p a = some (w', p'))
    (hs : (∃ e o, p = .recordBinding e o) → s ≠ r) : w'.rowTier s = w.rowTier s := by
  rcases ckStep_store h with hst | hst | ⟨e, o, rfl, hst⟩ <;> simp only [World.rowTier, hst]
  · rw [Store.tierOf_touch]
  · rw [Store.tierOf_put_ne (hs ⟨e, o, rfl⟩)]

end Steps

section Runs

variable {cfg : Config} {st st' : State} {l : Label}

/-- The row of a schema that an offload acts on has the tier it acts on. -/
def State.RowsKept (st : State) : Prop :=
  ∀ (t : ℕ) (s : Schema) (kind : OffloadKind) (pc : OffPc) (tier : Tier),
    st.tasks[t]? = some (.offload s kind pc) → pc.acts = some tier → st.world.rowTier s = tier

theorem State.RowsKept.set (h : st.RowsKept) {w' : World} {t : ℕ} {x : Task}
    (hx : ∀ s kind pc, x ≠ .offload s kind pc)
    (hrow : ∀ (j : ℕ) (s : Schema) (kind : OffloadKind) (pc : OffPc),
      st.tasks[j]? = some (.offload s kind pc) → pc.holds = true →
        w'.rowTier s = st.world.rowTier s) : State.RowsKept ⟨w', st.tasks.set t x⟩ := by
  intro j s kind pc tier hj hp
  rcases getElem?_set_cases hj with ⟨-, rfl⟩ | ⟨-, hj⟩
  · exact absurd rfl (hx s kind pc)
  · exact (hrow j s kind pc hj (OffPc.holds_of_acts hp)).trans (h j s kind pc tier hj hp)

theorem State.RowsKept.checkout (h : st.RowsKept) (hex : st.Exclusive) {t : ℕ} {a : Answer} {r : Schema}
    {p p' : CkPc} {w' : World} (hok : ClaimsCurrent st (.run t a))
    (ht : st.tasks[t]? = some (.checkout r p)) (hck : ckStep cfg t r st.world p a = some (w', p')) :
    State.RowsKept ⟨w', st.tasks.set t (.checkout r p')⟩ := by
  refine h.set (by simp) fun j s kind pc hj hheld ↦ ckStep_rowTier hck ?_
  rintro ⟨e, o, rfl⟩ rfl
  have hfree : st.world.archiving s = false := (hok _ ht).2 s rfl
  have hmark : st.world.archiving s = true := (hex j _ s hj (by simp [Task.archives, hheld])).1
  exact absurd (hmark.symm.trans hfree) (by simp)

theorem State.RowsKept.offload (h : st.RowsKept) (hex : st.Exclusive) {t : ℕ} {a : Answer} {r : Schema}
    {kind : OffloadKind} {pc pc' : OffPc} {w' : World} (hok : ClaimsCurrent st (.run t a))
    (ht : st.tasks[t]? = some (.offload r kind pc))
    (ho : offStep cfg r kind st.world pc a = some (w', pc')) :
    State.RowsKept ⟨w', st.tasks.set t (.offload r kind pc')⟩ := by
  intro j s k q tier hset hq
  rcases getElem?_set_cases hset with ⟨-, heq⟩ | ⟨hne, hj⟩
  · cases heq
    exact offStep_acts ho (fun tier ↦ h t r kind pc tier ht)
      (fun route hpc ↦ (hok _ ht).1 (r, route) (by simp [Task.claiming, hpc])) hq
  · have hrow : w'.rowTier s = st.world.rowTier s := by
      by_cases hs : s = r
      · subst hs
        have hidle : pc.acts = none := by
          by_contra hacts
          obtain ⟨tier', hacts⟩ := Option.ne_none_iff_exists'.mp hacts
          have huniq := (hex t _ s ht (by simp [Task.archives, OffPc.holds_of_acts hacts])).2
          exact hne (huniq j _ hj (by simp [Task.archives, OffPc.holds_of_acts hq]))
        have hcopies := (offStep_idle ho hidle).1
        exact congrArg (fun v : Copies ↦ v.tier.getD .live) hcopies
      · exact offStep_rowTier_ne ho hs
    exact hrow.trans (h j s k q tier hj hq)

theorem State.RowsKept.step (h : st.RowsKept) (hex : st.Exclusive) (hok : ClaimsCurrent st l)
    (hs : Step cfg st l st') : st'.RowsKept := by
  cases hs with
  | spawn hx =>
    intro t s kind pc tier ht hp
    rcases getElem?_append_cases ht with ⟨-, rfl⟩ | ht
    · cases Task.eq_begin_of_initial hx
      cases hp
    · exact h t s kind pc tier ht hp
  | checkout ht hck => exact h.checkout hex hok ht hck
  | offload ht ho => exact h.offload hex hok ht ho
  | reapIdle _ hi => exact h.set (by simp) fun j s _ _ _ _ ↦ by rw [idleStep_frame hi]; rfl
  | reapUntracked _ hu => exact h.set (by simp) fun j s _ _ _ _ ↦ by rw [untrackedStep_world hu]
  | purge _ hp => exact h.set (by simp) fun j s _ _ _ _ ↦ by rw [purgeStep_frame hp]; rfl
  | outside hw =>
    intro t s kind pc tier ht hp
    rw [World.rowTier_of_map (worldStep_map hw)]
    exact h t s kind pc tier ht hp

/-- In every run in which each offload claims the schema while the row has the tier it has read, every
offload acts on the tier the row has. -/
theorem offloads_unstacked {w : World} (h : Reaches cfg ClaimsCurrent w st) : st.Unstacked cfg := by
  have hrows : st.RowsKept := by
    refine Run.invariant_of (J := State.Exclusive) h (fun _ hr ↦ Reaches.exclusive hr) ?_ ?_
    · intro t s kind pc tier ht
      simp [State.boot] at ht
    · intro s l s' hI hJ _ hok hstep
      exact hI.step hJ hok (step_sound hstep)
  intro t s kind pc ht
  exact ⟨fun tier ↦ hrows t s kind pc tier ht, fun hidle a w' pc' ho ↦ offStep_idle ho hidle⟩

/-- A claim that finds another tier than the one read before it leads to a state that is stacked. -/
theorem State.stacks_of_stale {t : ℕ} {s : Schema} {kind : OffloadKind} {r : Route}
    (ht : st.tasks[t]? = some (.offload s kind (.claim r))) (h : ¬ st.world.Current s r) :
    ∃ st', step cfg (.run t .go) st = some st' ∧ ¬ st'.Unstacked cfg := by
  simp only [World.Current, Classical.not_imp] at h
  obtain ⟨hfree, hr, hne⟩ := h
  have hstep : offStep cfg s kind st.world (.claim r) .go =
      some ({ st.world with archiving := update st.world.archiving s true }, r.afterClaim) := by
    simp [offStep, offCore, hfree, OffPc.holds]
  have hlt := (List.getElem?_eq_some_iff.mp ht).1
  refine ⟨_, by simp [PgVmPool.step, ht, taskStep, hstep]; rfl, fun hun ↦ hne ?_⟩
  have hacts : r.afterClaim.acts = some r.tier := by
    cases r <;> first | rfl | exact absurd rfl hr
  exact (hun t s kind r.afterClaim (List.getElem?_set_self hlt)).tier r.tier hacts

def State.acts (st : State) (t : ℕ) : Option (Schema × Tier) :=
  match st.tasks[t]? with
  | some (.offload s _ pc) => pc.acts.map (s, ·)
  | _ => none

theorem State.Unstacked.rowTier (h : st.Unstacked cfg) {t : ℕ} {s : Schema} {tier : Tier}
    (ht : st.acts t = some (s, tier)) : st.world.rowTier s = tier := by
  unfold State.acts at ht
  split at ht
  · rename_i q kind pc htask
    obtain ⟨tier', hacts, heq⟩ := Option.map_eq_some_iff.mp ht
    cases heq
    exact (h t s kind pc htask).tier tier hacts
  · cases ht

/-- The VM of a live schema, with one write on its disk. -/
def writtenHost : World :=
  .host "app\tsb-1\t0\tlive\n" fun id ↦ if id = sb1 then some ⟨[7], 0⟩ else none

/-- A freeze from its claim to its end. -/
def claimsAndFreezes (t : ℕ) : List Label :=
  goes t 4 ++ attaches t ++ runs t [.size 600, .go, .ok, .ok]

/-- An archive asked for after the freeze of the schema promotes the frozen dump. -/
theorem offloads_unstacked_run : ∃ st, Reaches .full ClaimsCurrent writtenHost st ∧
    st.acts 1 = some (app, .frozen) ∧ st.Unstacked .full := by
  obtain ⟨st, hr, hst⟩ := Run.exists_of_exec (step .full) ClaimsCurrent (.boot writtenHost)
    ([.spawn (.offload app .freeze .begin), .run 0 .go] ++ claimsAndFreezes 0 ++
      [.spawn (.offload app .archive .begin)] ++ goes 1 3)
    (fun st ↦ st.acts 1 = some (app, .frozen)) (by decide +kernel) (by decide +kernel)
  exact ⟨st, hr, by simpa using hst, offloads_unstacked hr⟩

/-- An archive that has read the live tier claims the schema after its freeze, and dumps a fresh VM. -/
theorem offloads_stack : ∃ st, Reaches .full Always writtenHost st ∧
    st.world.store.tierOf app = some .frozen ∧ st.world.dumps app = some ⟨[7], 600⟩ ∧
    st.world.s3Dump app = some ⟨[], 600⟩ ∧ ¬ st.Unstacked .full := by
  obtain ⟨st, hr, hst⟩ := Run.exists_of_exec (step .full) Always (.boot writtenHost)
    ([.spawn (.offload app .freeze .begin), .spawn (.offload app .archive .begin), .run 0 .go,
      .run 1 .go] ++ claimsAndFreezes 0 ++ goes 1 4 ++ runs 1 [.notFound, .go, .notFound, .listing [],
        .created sb2, .go, .go, .ok, .ok, .ok, .slots 10, .go, .size 600])
    (fun st ↦ st.world.store.tierOf app = some .frozen && st.world.dumps app = some ⟨[7], 600⟩ &&
      st.world.s3Dump app = some ⟨[], 600⟩ && st.acts 1 = some (app, .live))
    (by decide +kernel) (by decide +kernel)
  simp only [Bool.and_eq_true, decide_eq_true_eq] at hst
  obtain ⟨⟨⟨htier, hdump⟩, hs3⟩, hacts⟩ := hst
  refine ⟨st, hr, htier, hdump, hs3, fun h ↦ ?_⟩
  have hrow := h.rowTier hacts
  simp [World.rowTier, htier] at hrow

end Runs

end PgVmPool
