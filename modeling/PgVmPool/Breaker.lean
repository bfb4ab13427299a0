import PgVmPool.Cleanup

namespace PgVmPool

open Function Transition

/-- The hold that the failures counted so far put on a schema. -/
def World.hold (w : World) (s : Schema) : ℕ := holdFor (((w.breaker s).map (·.1)).getD 0)

namespace CkPc

/-- Past the breaker check, and not yet in an attempt of its own. -/
def poised : CkPc → Bool
  | .readRecord _ | .pickRestore _ _ | .boundIds _ _ _ | .awaitCell _ _ => true
  | _ => false

/-- In its own attempt, or with the failure of one still to record. -/
def attempting : CkPc → Bool
  | .bringUp _ _ _ | .leak _ | .leakByName | .leakStop _ | .recordFailure => true
  | _ => false

/-- Past its attempt: nothing is left to record. -/
def resolved : CkPc → Bool
  | .recordBinding _ _ | .clearPending _ _ _ | .removeThawed _ _ _ | .clearBreaker _ | .admitCold _
  | .serving _ | .done | .failed => true
  | _ => false

end CkPc

/-- A checkout of `s` at a position that a test picks. -/
def Task.checksOut (s : Schema) (p : CkPc → Bool) : Task → Bool
  | .checkout r pc => r = s && p pc
  | .offload _ _ _ | .reapIdle _ | .reapUntracked _ | .purge _ => false

def CkPc.clears : CkPc → Bool
  | .clearBreaker _ => true
  | _ => false

def CkPc.records : CkPc → Bool
  | .recordFailure => true
  | _ => false

/-- No checkout of `s` succeeds in this step. -/
def NoSuccess (s : Schema) (st : State) : Label → Prop :=
  OnRun fun t _ ↦ ∀ x ∈ st.tasks[t]?, x.checksOut s CkPc.clears = false

/-- A recorded failure holds the schema off: until its hold is over, or a checkout succeeds, no
checkout of the schema starts an attempt. -/
def HoldsOff (cfg : Config) (ok : State → Label → Prop) (s : Schema) (w : World) : Prop :=
  ∀ (st₀ st₁ st₂ st₃ : State) (t j : ℕ) (x : Task), Reaches cfg ok w st₀ →
    st₀.tasks[t]? = some (.checkout s .recordFailure) → ok st₀ (.run t .go) →
    step cfg (.run t .go) st₀ = some st₁ →
    Run (step cfg) (fun st l ↦ ok st l ∧ NoSuccess s st l) st₁ st₂ →
    st₂.tasks[j]? = some x → x.retries st₂.world s = true → ok st₂ (.run j .go) →
    step cfg (.run j .go) st₂ = some st₃ →
      st₀.world.now + st₁.world.hold s ≤ st₂.world.now

/-- A checkout in its attempt when another one starts later, succeeds and clears the breaker, does
not record a failure afterwards. -/
def NeverLate (cfg : Config) (ok : State → Label → Prop) (s : Schema) (w : World) : Prop :=
  ∀ (st₀ st₁ st₂ st₃ st₄ : State) (i j e : ℕ) (ck : CkPc) (x : Task),
    i ≠ j → Reaches cfg ok w st₀ →
    st₀.tasks[i]? = some (.checkout s ck) → ck.attempting = true →
    st₀.tasks[j]? = some x → x.retries st₀.world s = true → ok st₀ (.run j .go) →
    step cfg (.run j .go) st₀ = some st₁ → Run (step cfg) ok st₁ st₂ →
    st₂.tasks[j]? = some (.checkout s (.clearBreaker e)) → ok st₂ (.run j .go) →
    step cfg (.run j .go) st₂ = some st₃ → Run (step cfg) ok st₃ st₄ →
      st₄.tasks[i]? ≠ some (.checkout s .recordFailure)

/-- When a checkout of `s` records a failure no other one stands between its breaker check and its
attempt, and when one clears the breaker no other one is in its own attempt or its cleanup. -/
def SettlesAlone (s : Schema) (st : State) : Label → Prop :=
  OnRun fun t _ ↦ ∀ x ∈ st.tasks[t]?,
    (x.checksOut s CkPc.records = true → ∀ y ∈ st.tasks, y.checksOut s CkPc.poised = false) ∧
      (x.checksOut s CkPc.clears = true → ∀ y ∈ st.tasks, y.checksOut s CkPc.attempting = false)

instance (s : Schema) (st : State) (l : Label) : Decidable (SettlesAlone s st l) :=
  inferInstanceAs (Decidable (OnRun _ l))

theorem holdFor_mono {m n : ℕ} (h : m ≤ n) : holdFor m ≤ holdFor n := by
  unfold holdFor
  have hexp : min (m - 1) 10 ≤ min (n - 1) 10 := by omega
  gcongr
  decide

section Steps

variable {cfg : Config} {t : ℕ} {s : Schema} {w w' : World} {pc pc' : CkPc} {a : Answer}

theorem ckStep_now (h : ckStep cfg t s w pc a = some (w', pc')) : w'.now = w.now := by
  revert h
  fun_cases ckStep cfg t s w pc a <;> intro h <;> (try cases h)
  case case11 => split <;> rfl
  case case24 =>
    obtain ⟨r, hr, hp⟩ := Option.map_eq_some_iff.mp h
    cases hp
    rw [ensureStep_frame hr]
  case case27 => rw [World.dropThawed_frame]
  all_goals rfl

theorem ckStep_breaker (h : ckStep cfg t s w pc a = some (w', pc')) :
    w'.breaker = w.breaker ∨ pc.clears = true ∧ w'.breaker = (w.clearBreaker s).breaker ∨
      pc.records = true ∧ w'.breaker = (w.recordFailure s).breaker := by
  revert h
  fun_cases ckStep cfg t s w pc a <;> intro h <;> (try cases h)
  case case11 => split <;> exact .inl rfl
  case case24 =>
    obtain ⟨r, hr, hp⟩ := Option.map_eq_some_iff.mp h
    cases hp
    rw [ensureStep_frame hr]
    exact .inl rfl
  case case27 =>
    rw [World.dropThawed_frame]
    exact .inl rfl
  all_goals first
    | exact .inl rfl
    | exact .inr (.inl ⟨rfl, rfl⟩)
    | exact .inr (.inr ⟨rfl, rfl⟩)

theorem ckStep_poised (h : ckStep cfg t s w pc a = some (w', pc')) (hp : pc'.poised = true) :
    pc.poised = true ∨ w.holding s = false := by
  revert h
  fun_cases ckStep cfg t s w pc a <;> intro h <;> (try cases h)
  case case2 => split at hp <;> cases hp
  case case12 =>
    split at hp
    · cases hp
    · exact .inr (by simpa using ‹¬ w.holding s = true›)
  case case24 =>
    obtain ⟨r, hr, hp'⟩ := Option.map_eq_some_iff.mp h
    cases hp'
    cases hp
  all_goals first
    | exact .inl rfl
    | cases hp

theorem ckStep_attempting (h : ckStep cfg t s w pc a = some (w', pc')) (hp : pc.attempting = true) :
    pc'.attempting = true ∨ pc'.resolved = true := by
  revert h
  fun_cases ckStep cfg t s w pc a <;> intro h <;> (try cases h)
  case case24 =>
    obtain ⟨r, hr, hp'⟩ := Option.map_eq_some_iff.mp h
    cases hp'
    exact .inl rfl
  all_goals first
    | exact .inl rfl
    | exact .inr rfl
    | cases hp

theorem ckStep_resolved (h : ckStep cfg t s w pc a = some (w', pc')) (hp : pc.resolved = true) :
    pc'.resolved = true := by
  revert h
  fun_cases ckStep cfg t s w pc a <;> intro h <;> (try cases h)
  case case24 => cases hp
  all_goals first
    | rfl
    | cases hp

end Steps

section Runs

variable {cfg : Config} {s : Schema} {st st' : State} {l : Label}

theorem Step.now_le (hs : Step cfg st l st') : st.world.now ≤ st'.world.now := by
  cases hs with
  | spawn => exact le_rfl
  | checkout _ hck => exact (ckStep_now hck).ge
  | offload _ ho => rw [offStep_frame ho]
  | reapIdle _ hi => rw [idleStep_frame hi]
  | reapUntracked _ hu => rw [untrackedStep_world hu]
  | purge _ hp => rw [purgeStep_frame hp]
  | outside hw => exact worldStep_now_le hw

theorem Step.breaker (hs : Step cfg st l st') (s : Schema) :
    st'.world.breaker s = st.world.breaker s ∨ ∃ t a x, l = .run t a ∧ st.tasks[t]? = some x ∧
      (x.checksOut s CkPc.clears = true ∨ x.checksOut s CkPc.records = true ∧
        st'.world.breaker s = (st.world.recordFailure s).breaker s) := by
  cases hs with
  | spawn => exact .inl rfl
  | @checkout t a r pc pc' w' ht hck =>
    by_cases hr : r = s
    · subst hr
      rcases ckStep_breaker hck with heq | ⟨hc, -⟩ | ⟨hc, heq⟩
      · exact .inl (congrFun heq r)
      · exact .inr ⟨t, a, _, rfl, ht, .inl (by simp [Task.checksOut, hc])⟩
      · exact .inr ⟨t, a, _, rfl, ht, .inr ⟨by simp [Task.checksOut, hc], congrFun heq r⟩⟩
    · left
      rcases ckStep_breaker hck with heq | ⟨-, heq⟩ | ⟨-, heq⟩
      · exact congrFun heq s
      · exact (congrFun heq s).trans (update_of_ne (Ne.symm hr) _ _)
      · exact (congrFun heq s).trans (update_of_ne (Ne.symm hr) _ _)
  | offload _ ho => exact .inl (by rw [offStep_frame ho])
  | reapIdle _ hi => exact .inl (by rw [idleStep_frame hi])
  | reapUntracked _ hu => exact .inl (by rw [untrackedStep_world hu])
  | purge _ hp => exact .inl (by rw [purgeStep_frame hp])
  | outside hw => exact .inl (by rw [worldStep_frame hw])

theorem Step.poised (hs : Step cfg st l st') {y : Task} (hy : y ∈ st'.tasks)
    (hp : y.checksOut s CkPc.poised = true) :
    (∃ x ∈ st.tasks, x.checksOut s CkPc.poised = true) ∨ st.world.holding s = false := by
  have hset {t : ℕ} {x : Task} (hy : y ∈ st.tasks.set t x) (hx : x.checksOut s CkPc.poised = false) :
      (∃ x ∈ st.tasks, x.checksOut s CkPc.poised = true) ∨ st.world.holding s = false := by
    rcases List.mem_or_eq_of_mem_set hy with hy | rfl
    · exact .inl ⟨y, hy, hp⟩
    · simp [hx] at hp
  cases hs with
  | @spawn x hx =>
    rcases List.mem_append.mp hy with hy | hy
    · exact .inl ⟨y, hy, hp⟩
    · obtain rfl := List.mem_singleton.mp hy
      cases y with
      | checkout r pc =>
        cases Task.eq_touch_of_initial hx
        simp [Task.checksOut, CkPc.poised] at hp
      | offload | reapIdle | reapUntracked | purge => cases hp
  | @checkout t a r pc pc' w' ht hck =>
    rcases List.mem_or_eq_of_mem_set hy with hy | rfl
    · exact .inl ⟨y, hy, hp⟩
    · simp only [Task.checksOut, Bool.and_eq_true, decide_eq_true_eq] at hp
      obtain ⟨rfl, hp⟩ := hp
      refine (ckStep_poised hck hp).imp_left fun hpc ↦ ?_
      exact ⟨_, List.mem_of_getElem? ht, by simp [Task.checksOut, hpc]⟩
  | offload | reapIdle | reapUntracked | purge => exact hset hy rfl
  | outside => exact .inl ⟨y, hy, hp⟩

/-- The schema is held off until `limit`, and so is every checkout that has passed the check. -/
structure State.Held (s : Schema) (limit : ℕ) (st : State) : Prop where
  breaker : ∃ n last, st.world.breaker s = some (n, last) ∧ last ≤ st.world.now ∧
    limit ≤ last + holdFor n
  poised : ∀ y ∈ st.tasks, y.checksOut s CkPc.poised = true → limit ≤ st.world.now

theorem State.Held.step {limit : ℕ} (h : st.Held s limit) (hno : NoSuccess s st l)
    (hs : Step cfg st l st') : st'.Held s limit := by
  have hnow := hs.now_le
  obtain ⟨n, last, hb, hlast, hlimit⟩ := h.breaker
  refine ⟨?_, fun y hy hp ↦ ?_⟩
  · rcases hs.breaker s with heq | ⟨t, a, x, rfl, hx, hc | ⟨-, heq⟩⟩
    · exact ⟨n, last, heq.trans hb, hlast.trans hnow, hlimit⟩
    · simp [hno x hx] at hc
    · refine ⟨n + 1, st.world.now, ?_, hnow, ?_⟩
      · rw [heq]
        simp [World.recordFailure, hb]
      · have hmono : holdFor n ≤ holdFor (n + 1) := holdFor_mono (Nat.le_succ n)
        omega
  · rcases hs.poised hy hp with ⟨x, hx, hxp⟩ | hfree
    · exact (h.poised x hx hxp).trans hnow
    · simp only [World.holding, hb, decide_eq_false_iff_not, not_lt] at hfree
      omega

theorem Task.checksOut_of_retries {x : Task} {w : World} (h : x.retries w s = true) :
    x.checksOut s CkPc.poised = true := by
  unfold Task.retries at h
  split at h
  · simp only [Bool.and_eq_true, decide_eq_true_eq] at h
    simp [Task.checksOut, CkPc.poised, h.1]
  · cases h

theorem State.held_of_recordFailure {t : ℕ} (ht : st.tasks[t]? = some (.checkout s .recordFailure))
    (hok : SettlesAlone s st (.run t .go)) (hs : PgVmPool.step cfg (.run t .go) st = some st') :
    st'.Held s (st.world.now + st'.world.hold s) := by
  simp only [PgVmPool.step, ht, Option.bind_some, taskStep, ckStep, Option.map_some,
    Option.some.injEq] at hs
  subst hs
  refine ⟨⟨_, st.world.now, update_self .., le_rfl, ?_⟩, fun y hy hp ↦ ?_⟩
  · simp [World.hold, World.recordFailure]
  · rcases List.mem_or_eq_of_mem_set hy with hy | rfl
    · have halone := (hok _ ht).1 (by simp [Task.checksOut, CkPc.records]) y hy
      simp [halone] at hp
    · simp [Task.checksOut, CkPc.poised] at hp

theorem holdsOff_of_settlesAlone (w : World) : HoldsOff cfg (SettlesAlone s) s w := by
  intro st₀ st₁ st₂ st₃ t j x _ ht hok hrec hrun hj hx _ _
  have hheld : st₂.Held s (st₀.world.now + st₁.world.hold s) :=
    hrun.invariant (State.held_of_recordFailure ht hok hrec)
      fun _ _ _ hI hok hs ↦ hI.step hok.2 (step_sound hs)
  exact hheld.poised x (List.mem_of_getElem? hj) (Task.checksOut_of_retries hx)

/-- Task `i` is a checkout of `s` at a position of a given kind. -/
def State.Follows (s : Schema) (i : ℕ) (p : CkPc → Prop) (st : State) : Prop :=
  ∃ ck, st.tasks[i]? = some (.checkout s ck) ∧ p ck

theorem State.Follows.step {i : ℕ} {p : CkPc → Prop} (h : st.Follows s i p)
    (hp : ∀ t w w' a pc pc', ckStep cfg t s w pc a = some (w', pc') → p pc → p pc')
    (hs : PgVmPool.step cfg l st = some st') : st'.Follows s i p := by
  obtain ⟨ck, hi, hck⟩ := h
  rcases step_task hs hi with ⟨a, y, -, hy, hi'⟩ | hi'
  · obtain ⟨⟨w', pc'⟩, hr, heq⟩ := Option.map_eq_some_iff.mp hy
    obtain rfl := (Prod.ext_iff.mp heq).2
    exact ⟨pc', hi', hp _ _ _ _ _ _ hr hck⟩
  · exact ⟨ck, hi', hck⟩

theorem neverLate_of_settlesAlone (w : World) : NeverLate cfg (SettlesAlone s) s w := by
  intro st₀ st₁ st₂ st₃ st₄ i j e ck x hij _ hi hck _ _ _ hstart hrun hj hok hclear hlate hrec
  have hone : ∀ t w w' a pc pc', ckStep cfg t s w pc a = some (w', pc') →
      (pc.attempting = true ∨ pc.resolved = true) → (pc'.attempting = true ∨ pc'.resolved = true) :=
    fun t w w' a pc pc' h hp ↦ hp.elim (ckStep_attempting h) fun hr ↦ .inr (ckStep_resolved h hr)
  have h₁ : st₁.Follows s i fun pc ↦ pc.attempting = true ∨ pc.resolved = true :=
    State.Follows.step ⟨ck, hi, .inl hck⟩ hone hstart
  obtain ⟨ck₂, hi₂, hck₂⟩ := hrun.invariant h₁ fun _ _ _ hI _ hs ↦ hI.step hone hs
  have hres : ck₂.resolved = true := by
    refine hck₂.resolve_left fun hatt ↦ ?_
    have halone := (hok _ hj).2 (by simp [Task.checksOut, CkPc.clears]) _ (List.mem_of_getElem? hi₂)
    simp [Task.checksOut, hatt] at halone
  have htwo : ∀ t w w' a pc pc', ckStep cfg t s w pc a = some (w', pc') → pc.resolved = true →
      pc'.resolved = true := fun t w w' a pc pc' h hp ↦ ckStep_resolved h hp
  have h₃ : st₃.Follows s i fun pc ↦ pc.resolved = true :=
    State.Follows.step ⟨ck₂, hi₂, hres⟩ htwo hclear
  obtain ⟨ck₄, hi₄, hres₄⟩ := hlate.invariant h₃ fun _ _ _ hI _ hs ↦ hI.step htwo hs
  cases hi₄.symm.trans hrec
  cases hres₄

/-- In every run whose checkouts of `s` record their failures and clear the breaker alone, the
breaker bounds the attempts. -/
theorem breaker_bounds (cfg : Config) (s : Schema) (w : World) :
    HoldsOff cfg (SettlesAlone s) s w ∧ NeverLate cfg (SettlesAlone s) s w :=
  ⟨holdsOff_of_settlesAlone w, neverLate_of_settlesAlone w⟩

instance (s : Schema) (st : State) (l : Label) : Decidable (NoSuccess s st l) :=
  inferInstanceAs (Decidable (OnRun _ l))

/-- Checkout `t` records a failure, nobody succeeds in `ls`, and then checkout `j` starts an attempt. -/
def State.startsAfter (cfg : Config) (ok : State → Label → Prop) [∀ st l, Decidable (ok st l)]
    (s : Schema) (t j : ℕ) (ls : List Label) (p : ℕ → ℕ → Bool) (st : State) : Bool :=
  st.tasks[t]?.any (·.checksOut s CkPc.records) && ok st (.run t .go) &&
    (step cfg (.run t .go) st).any fun st₁ ↦
      allowed (step cfg) (fun st l ↦ ok st l ∧ NoSuccess s st l) ls st₁ &&
        (exec (step cfg) ls st₁).any fun st₂ ↦ st₂.tasks[j]?.any (·.retries st₂.world s) &&
          ok st₂ (.run j .go) && (step cfg (.run j .go) st₂).isSome &&
          p (st.world.now + st₁.world.hold s) st₂.world.now

/-- Checkout `i` is in its attempt when `j` starts one, and after `ls`, in which `j` succeeds and
clears the breaker, it has a failure to record. -/
def State.recordsLate (cfg : Config) (s : Schema) (i j : ℕ) (ls ks : List Label) (st : State) : Bool :=
  st.tasks[i]?.any (·.checksOut s CkPc.attempting) && st.tasks[j]?.any (·.retries st.world s) &&
    (step cfg (.run j .go) st).any fun st₁ ↦ (exec (step cfg) ls st₁).any fun st₂ ↦
      st₂.tasks[j]?.any (·.checksOut s CkPc.clears) && (step cfg (.run j .go) st₂).any fun st₃ ↦
        (exec (step cfg) ks st₃).any fun st₄ ↦ st₄.tasks[i]?.any (·.checksOut s CkPc.records)

theorem Task.eq_of_records {x : Task} (h : x.checksOut s CkPc.records = true) :
    x = .checkout s .recordFailure := by
  cases x with
  | checkout r pc => cases pc <;> simp_all [Task.checksOut, CkPc.records]
  | offload | reapIdle | reapUntracked | purge => cases h

theorem Task.eq_of_clears {x : Task} (h : x.checksOut s CkPc.clears = true) :
    ∃ e, x = .checkout s (.clearBreaker e) := by
  cases x with
  | checkout r pc => cases pc <;> simp_all [Task.checksOut, CkPc.clears]
  | offload | reapIdle | reapUntracked | purge => cases h

theorem Task.eq_of_attempting {x : Task} (h : x.checksOut s CkPc.attempting = true) :
    ∃ ck, x = .checkout s ck ∧ ck.attempting = true := by
  cases x with
  | checkout r pc =>
    simp only [Task.checksOut, Bool.and_eq_true, decide_eq_true_eq] at h
    exact ⟨pc, by rw [h.1], h.2⟩
  | offload | reapIdle | reapUntracked | purge => cases h

theorem HoldsOff.le {ok : State → Label → Prop} [∀ st l, Decidable (ok st l)] {w : World} {t j : ℕ}
    {ls : List Label} {p : ℕ → ℕ → Bool} (hoff : HoldsOff cfg ok s w) (hr : Reaches cfg ok w st)
    (h : st.startsAfter cfg ok s t j ls p = true) : ∃ m n, p m n = true ∧ m ≤ n := by
  simp only [State.startsAfter, Bool.and_eq_true, Option.any_eq_true, decide_eq_true_eq,
    Option.isSome_iff_exists] at h
  obtain ⟨⟨⟨x, hx, hrec⟩, hok⟩, st₁, hst₁, hall,
    st₂, hst₂, ⟨⟨⟨y, hy, hret⟩, hok'⟩, st₃, hst₃⟩, hp⟩ := h
  obtain rfl := Task.eq_of_records hrec
  exact ⟨_, _, hp, hoff st st₁ st₂ st₃ t j y hr hx hok hst₁ (.of_exec hst₂ hall) hy hret hok' hst₃⟩

theorem breaker_bounds_run : ∃ st, Reaches .full (SettlesAlone app) (.recorded .live) st ∧
    st.startsAfter .full (SettlesAlone app) app 0 1
      ([.spawn (.checkout app .touch), .tick 60] ++ goes 1 6) (fun _ _ ↦ true) = true ∧
    HoldsOff .full (SettlesAlone app) app (.recorded .live) ∧
    NeverLate .full (SettlesAlone app) app (.recorded .live) := by
  obtain ⟨st, hr, hst⟩ := Run.exists_of_exec (step .full) (SettlesAlone app) (.boot (.recorded .live))
    ([.spawn (.checkout app .touch)] ++ failsToStart 0 ++ runs 0 [.go, .ok, .go])
    (fun st ↦ st.startsAfter .full (SettlesAlone app) app 0 1
      ([.spawn (.checkout app .touch), .tick 60] ++ goes 1 6) (fun _ _ ↦ true))
    (by decide +kernel) (by decide +kernel)
  exact ⟨st, hr, hst, breaker_bounds .full app (.recorded .live)⟩

theorem not_neverLate {w : World} {i j : ℕ} {ls ks : List Label} (hij : i ≠ j)
    (hr : Reaches cfg Always w st) (h : st.recordsLate cfg s i j ls ks = true) :
    ¬ NeverLate cfg Always s w := by
  simp only [State.recordsLate, Bool.and_eq_true, Option.any_eq_true] at h
  obtain ⟨⟨⟨x, hx, hatt⟩, y, hy, hret⟩, st₁, hst₁,
    st₂, hst₂, ⟨z, hz, hclear⟩, st₃, hst₃, st₄, hst₄,
    u, hu, hrec⟩ := h
  obtain ⟨ck, rfl, hck⟩ := Task.eq_of_attempting hatt
  obtain ⟨e, rfl⟩ := Task.eq_of_clears hclear
  obtain rfl := Task.eq_of_records hrec
  intro hnever
  exact hnever st st₁ st₂ st₃ st₄ i j e ck y hij hr hx hck hy hret trivial hst₁
    (.of_exec_true hst₂ fun _ _ ↦ trivial) hz
    trivial hst₃ (.of_exec_true hst₄ fun _ _ ↦ trivial) hu

/-- A checkout that waits on the `OnceCell` starts its own attempt as soon as the failure of another
is recorded, and the failure that a slow cleanup records late holds off a schema that is being
served. -/
theorem breaker_not_bounds : ¬ HoldsOff .full Always app (.recorded .live) ∧
    ¬ NeverLate .full Always app (.recorded .live) := by
  constructor
  · obtain ⟨st, hr, hst⟩ := Run.exists_of_exec (step .full) Always (.boot (.recorded .live))
      ([.spawn (.checkout app .touch), .spawn (.checkout app .touch)] ++ failsToStart 0 ++ goes 1 6 ++
        runs 0 [.go, .ok, .go])
      (fun st ↦ st.startsAfter .full Always app 0 1 [] fun m n ↦ n < m) (by decide +kernel)
      (by decide +kernel)
    intro hoff
    obtain ⟨m, n, hlt, hle⟩ := hoff.le hr hst
    exact absurd (of_decide_eq_true hlt) (not_lt.mpr hle)
  · obtain ⟨st, hr, hst⟩ := Run.exists_of_exec (step .full) Always (.boot (.recorded .live))
      ([.spawn (.checkout app .touch), .spawn (.checkout app .touch)] ++ failsToStart 0 ++ goes 1 6)
      (fun st ↦ st.recordsLate .full app 0 1 (goes 1 1 ++ attaches 1 ++ goes 1 3) (runs 0 [.go, .ok, .go]))
      (by decide +kernel) (by decide +kernel)
    exact not_neverLate (by decide) hr hst

end Runs

end PgVmPool
