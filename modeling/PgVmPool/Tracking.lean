import PgVmPool.Pending

namespace PgVmPool

open Function Transition

/-- The VM has a row, or is the ledger's entry for its schema, or its bring-up is about to write
that entry: no await lies between the answer to a create and the ledger write. -/
def State.Tracks (st : State) (s : Schema) (v : SandboxId) : Prop :=
  v ∈ st.world.store.boundIds ∨ (st.world.pending s).map (·.1) = some v ∨
    ∃ x ∈ st.tasks, x.records = some (s, v)

namespace Tended

/-- No VM that was created and is not known to be gone is lost track of. -/
def Tracked (j : Tended) : Prop := ∀ v s, j.seen v = some s → j.sys.Tracks s v

def Settled (j : Tended) (s : Schema) (next : Option SandboxId) : Prop :=
  ∀ k ∈ (j.sys.world.pending s).map (·.1), j.seen k = some s →
    k ∈ j.sys.world.store.boundIds ∨ next = some k

/-- The row of `s` may give way to one with `id`. -/
def Replaceable (j : Tended) (s : Schema) (id : SandboxId) : Prop :=
  ∀ k ∈ j.sys.world.store.idOf s, k ≠ id → ∀ r ∈ j.seen k,
    (j.sys.world.pending r).map (·.1) = some k ∨
      ∃ p ∈ j.sys.world.store.records, p.1 ≠ s ∧ p.2.sandboxId = k

/-- What the next step of a task does to the ledger and the rows loses no VM. -/
def Forgoes (j : Tended) (x : Task) : Prop :=
  (∀ s ∈ x.ledger, j.Settled s (x.records.map (·.2))) ∧
    ∀ p ∈ x.puts j.sys.world, j.Replaceable p.1 p.2

end Tended

/-- The daemon makes no VM of a create that its client gave up on. -/
def Answer.Timely : Answer → Prop
  | .late _ => False
  | _ => True

/-- Every create that makes a VM is answered in time. A ledger entry is dropped or replaced only when its VM is
known to be gone or has a row, and a row only when its VM is known to be gone, has another row or is in the
ledger. -/
def KeepsTrack (j : Tended) : Label ⊕ Answer → Prop
  | .inl l => OnRun (fun t a ↦ a.Timely ∧ ∀ x ∈ j.sys.tasks[t]?, j.Forgoes x) l
  | .inr _ => ∀ s ∈ j.pc.clears, j.Settled s none

instance : DecidablePred Answer.Timely
  | .late _ => isFalse id
  | .go | .ok | .notFound | .failed | .stopped | .running _ | .listing _ | .created _ | .slots _ | .heads _ _
  | .size _ | .wrote _ | .order _ => isTrue trivial

instance (j : Tended) (s : Schema) (next : Option SandboxId) : Decidable (j.Settled s next) :=
  inferInstanceAs (Decidable (∀ k ∈ (j.sys.world.pending s).map (·.1), j.seen k = some s →
    k ∈ j.sys.world.store.boundIds ∨ next = some k))

instance (j : Tended) (s : Schema) (id : SandboxId) : Decidable (j.Replaceable s id) :=
  inferInstanceAs (Decidable (∀ k ∈ j.sys.world.store.idOf s, k ≠ id → ∀ r ∈ j.seen k,
    (j.sys.world.pending r).map (·.1) = some k ∨
      ∃ p ∈ j.sys.world.store.records, p.1 ≠ s ∧ p.2.sandboxId = k))

instance (j : Tended) (x : Task) : Decidable (j.Forgoes x) := inferInstanceAs (Decidable (_ ∧ _))

instance (j : Tended) : (l : Label ⊕ Answer) → Decidable (KeepsTrack j l)
  | .inl l => inferInstanceAs (Decidable (OnRun _ l))
  | .inr _ => inferInstanceAs (Decidable (∀ s ∈ j.pc.clears, j.Settled s none))

section Steps

variable {cfg : Config} {minAge t : ℕ} {a : Answer} {w w' : World} {x y : Task} {s : Schema}
  {v : SandboxId} {st st' : State} {l : Label} {j j' : Tended}

theorem ensureStep_created {b : BringUp} {p' : EnsurePc}
    (h : ensureStep b w .creating (.created v) = some (w', p')) : p' = .recordPending v := by
  obtain ⟨-, h⟩ := Option.ite_none_right_eq_some.mp h
  cases h
  rfl

theorem Task.records_of_creates (h : taskStep cfg t w a x = some (w', y)) (ha : a.Timely)
    (hx : x.creates a = some (v, s)) : y.records = some (s, v) := by
  unfold Task.creates at hx
  split at hx <;> cases hx <;> try cases ha
  · obtain ⟨⟨u, p⟩, hp, heq⟩ := Option.map_eq_some_iff.mp h
    cases heq
    obtain ⟨_, hcreate, heq⟩ := Option.map_eq_some_iff.mp hp
    cases heq
    rw [ensureStep_created hcreate]
    rfl
  · obtain ⟨⟨u, p⟩, hp, heq⟩ := Option.map_eq_some_iff.mp h
    cases heq
    obtain ⟨u, hu, -⟩ := offStep_eq hp
    obtain ⟨_, hcreate, heq⟩ := Option.map_eq_some_iff.mp hu
    cases heq
    rw [ensureStep_created hcreate]
    rfl

theorem Tended.note_cases {k : Label ⊕ Answer} (h : j.note k st v = some s) :
    j.creates k = some (v, s) ∨ j.seen v = some s := by
  unfold Tended.note at h
  split at h
  · cases h
  · split at h
    · rename_i id r hc
      split at h
      · subst id
        cases h
        exact .inl hc
      · exact .inr h
    · exact .inr h

theorem Step.records (hs : step cfg l st = some st') (hx : x ∈ st.tasks)
    (hrec : x.records = some (s, v)) : st'.Tracks s v := by
  obtain ⟨t, ht⟩ := List.getElem?_of_mem hx
  rcases step_task hs ht with ⟨a, y, -, hy, -⟩ | ht
  · refine .inr (.inl ?_)
    simp [Task.pending_of_ledger hy (Task.ledger_of_records hrec), hrec]
  · exact .inr (.inr ⟨x, List.mem_of_getElem? ht, hrec⟩)

theorem Tended.tracks_of_pending (hok : KeepsTrack j (.inl l)) (hs : step cfg l j.sys = some st')
    (hseen : j.seen v = some s) (hp : (j.sys.world.pending s).map (·.1) = some v) :
    st'.Tracks s v := by
  by_cases hsame : st'.world.pending s = j.sys.world.pending s
  · exact .inr (.inl (by rw [hsame, hp]))
  obtain ⟨t, a, x, rfl, ht, hx⟩ := (step_sound hs).pending hsame
  rcases (hok.2 x ht).1 s hx v hp hseen with hb | hrec
  · obtain ⟨r, hr⟩ := Store.mem_boundIds.mp hb
    rcases (step_sound hs).idOf r with heq | ⟨t', a', y, id, hl, hy, hput, -⟩
    · exact .inl (Store.mem_boundIds.mpr ⟨r, by rw [heq, hr]⟩)
    · cases hl
      cases ht.symm.trans hy
      simp [Task.ledger_of_puts hput] at hx
  · obtain ⟨⟨q, k⟩, hk, rfl⟩ := Option.map_eq_some_iff.mp hrec
    obtain rfl : q = s := Option.some.inj ((Task.ledger_of_records hk).symm.trans hx)
    exact Step.records hs (List.mem_of_getElem? ht) hk

theorem Tended.tracks_of_bound (hok : KeepsTrack j (.inl l)) (hs : step cfg l j.sys = some st')
    (hseen : j.seen v = some s) (hb : v ∈ j.sys.world.store.boundIds) : st'.Tracks s v := by
  obtain ⟨r, hr⟩ := Store.mem_boundIds.mp hb
  rcases (step_sound hs).idOf r with heq | ⟨t, a, x, id, rfl, ht, hput, hid⟩
  · exact .inl (Store.mem_boundIds.mpr ⟨r, by rw [heq, hr]⟩)
  by_cases hv : v = id
  · exact .inl (Store.mem_boundIds.mpr ⟨r, by rw [hid, hv]⟩)
  rcases (hok.2 x ht).2 _ hput v hr hv s hseen with hp | ⟨⟨q, rec⟩, hq, hne, hk⟩
  · exact Tended.tracks_of_pending hok hs hseen hp
  · have hidq : j.sys.world.store.idOf q = some v := by
      simp [Store.idOf, Store.mem_records.mp hq, ← hk]
    rcases (step_sound hs).idOf q with heq | ⟨t', a', y, id', hl, hy, hput', -⟩
    · exact .inl (Store.mem_boundIds.mpr ⟨q, by rw [heq, hidq]⟩)
    · cases hl
      cases ht.symm.trans hy
      cases hput.symm.trans hput'
      exact absurd rfl hne

theorem Tended.tracks_of_janitor {pc' : JanitorPc} (hok : KeepsTrack j (.inr a))
    (hs : tend minAge j.sys j.pc a = some (st', pc')) (hseen : j.seen v = some s)
    (h : j.sys.Tracks s v) : st'.Tracks s v := by
  obtain ⟨hj, htasks⟩ := tend_eq hs
  have hrows : st'.world.store = j.sys.world.store := by rw [janitorStep_frame hj]
  rcases h with hb | hp | ⟨x, hx, hrec⟩
  · exact .inl (by rw [hrows]; exact hb)
  · by_cases hsame : st'.world.pending s = j.sys.world.pending s
    · exact .inr (.inl (by rw [hsame, hp]))
    · rcases hok s (janitorStep_pending hj hsame) v hp hseen with hb | hnone
      · exact .inl (by rw [hrows]; exact hb)
      · cases hnone
  · exact .inr (.inr ⟨x, by rw [htasks]; exact hx, hrec⟩)

theorem Tended.Tracked.step {k : Label ⊕ Answer} (h : j.Tracked) (hok : KeepsTrack j k)
    (hs : tendedStep cfg minAge k j = some j') : j'.Tracked := by
  intro v s hv
  obtain ⟨hseen, hstep⟩ := beside_cases hs
  rw [hseen] at hv
  rcases Tended.note_cases hv with hc | hold
  · unfold Tended.creates at hc
    split at hc
    · rename_i t a
      obtain ⟨x, ht, hx⟩ := Option.bind_eq_some_iff.mp hc
      rcases hstep with ⟨l, hl, hs, -⟩ | ⟨b, hb, -⟩
      · cases hl
        obtain ⟨y, hy, htasks⟩ := step_run hs ht
        have hlt := (List.getElem?_eq_some_iff.mp ht).1
        refine .inr (.inr ⟨y, ?_, Task.records_of_creates hy hok.1 hx⟩)
        rw [htasks]
        exact List.mem_set hlt y
      · cases hb
    · cases hc
  · rcases hstep with ⟨l, rfl, hs, -⟩ | ⟨a, rfl, hm⟩
    · rcases h v s hold with hb | hp | ⟨x, hx, hrec⟩
      · exact Tended.tracks_of_bound hok hs hold hb
      · exact Tended.tracks_of_pending hok hs hold hp
      · exact Step.records hs hx hrec
    · exact Tended.tracks_of_janitor hok hm hold (h v s hold)

/-- In every run in which every create that makes a VM is answered in time, an entry of the ledger gives way only
when its VM is known to be gone or has a row, and a row only when its VM is tracked elsewhere, no created VM is lost
track of. -/
theorem created_tracked (h : Tends cfg minAge KeepsTrack w j) : j.Tracked :=
  Run.invariant h (fun _ _ hv ↦ by cases hv) fun _ _ _ hI hok hs ↦ hI.step hok hs

theorem created_tracked_run : ∃ j, Tends .full 0 KeepsTrack .blank j ∧
    j.seen sb2 = some app ∧ j.pc = .visit [] ∧ j.Tracked := by
  obtain ⟨j, hr, hj⟩ := Run.exists_of_exec (tendedStep .full 0) KeepsTrack (.boot .blank)
    (alone (createsVm 0 app sb2 ++ goes 0 2 ++ runs 0 [.failed, .failed, .go]) ++
      [.inr (.order [app]), .inr .go, .inr .go])
    (fun j ↦ j.seen sb2 = some app ∧ j.pc = .visit []) (by decide +kernel) (by decide +kernel)
  obtain ⟨hseen, hpc⟩ := of_decide_eq_true hj
  exact ⟨j, hr, hseen, hpc, created_tracked hr⟩

/-- A VM of the ledger, its kill failed, is dropped from the ledger as if it were gone. -/
def killFails : List Label := createsVm 0 app sb2 ++ goes 0 2 ++ runs 0 [.ok, .failed, .failed, .go]

/-- The create of a VM times out at the client; the daemon builds it. -/
def createTimesOut : List Label :=
  [.spawn (.checkout app .touch)] ++ goes 0 9 ++ [.run 0 (.listing [])] ++ goes 0 1 ++ [.run 0 (.late sb2)]

theorem exists_untracked {labels : List Label}
    (h : (exec (tendedStep .full 0) (alone labels) (.boot .blank)).any (fun j ↦ decide
      (j.seen sb2 = some app ∧ sb2 ∉ j.sys.world.store.boundIds ∧ j.sys.world.pending app = none ∧
        ∀ x ∈ j.sys.tasks, x.records = none)) = true) :
    ∃ j, exec (tendedStep .full 0) (alone labels) (.boot .blank) = some j ∧
      Tends .full 0 (fun _ _ ↦ True) .blank j ∧ ¬ j.Tracked := by
  obtain ⟨j, hexec, hj⟩ := (Option.any_eq_true _ _).mp h
  obtain ⟨hseen, hb, hp, hx⟩ := of_decide_eq_true hj
  refine ⟨j, hexec, .of_exec_true hexec fun _ _ ↦ trivial, fun h ↦ ?_⟩
  rcases h sb2 app hseen with h | h | ⟨x, hmem, h⟩
  · exact hb h
  · simp [hp] at h
  · simp [hx x hmem] at h

theorem created_not_tracked :
    (∃ j, exec (tendedStep .full 0) (alone killFails) (.boot .blank) = some j ∧
      Tends .full 0 (fun _ _ ↦ True) .blank j ∧ ¬ j.Tracked) ∧
    ∃ j, exec (tendedStep .full 0) (alone createTimesOut) (.boot .blank) = some j ∧
      Tends .full 0 (fun _ _ ↦ True) .blank j ∧ ¬ j.Tracked :=
  ⟨exists_untracked (by decide +kernel), exists_untracked (by decide +kernel)⟩

end Steps

end PgVmPool
