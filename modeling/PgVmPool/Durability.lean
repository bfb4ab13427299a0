import PgVmPool.Guards

namespace PgVmPool

open Function Transition

namespace Store

/-- Generation `g` of the registry is the map `m`. -/
def Stamped (st : Store) (g : ℕ) (m : Rows) : Prop := 0 < g ∧ st.stamped[g - 1]? = some m

/-- The write of generation `g` with these contents. -/
def Writes (st : Store) (g : ℕ) (contents : String) : Prop :=
  ∃ m, st.Stamped g m ∧ contents = serialize m

/-- Generations are stamped in order, every write in flight carries its own generation, and the
file is the newest generation that was written. -/
structure Recorded (st : Store) : Prop where
  seq : st.seq = st.stamped.length
  queue : ∀ q ∈ st.queue, st.Writes q.1 q.2
  file : st.written = 0 ∨ st.Writes st.written st.file

/-- History and disk only move forward: a step stamps nothing or the map it leaves. -/
structure Grows (st st' : Store) : Prop where
  stamped : st'.stamped = st.stamped ∨ st'.stamped = st.stamped ++ [st'.map]
  written : st.written ≤ st'.written
  file : st'.written = 0 → st'.file = st.file

variable {st st' : Store} {s : Schema} {id : SandboxId} {now : UInt64} {m : Rows} {g : ℕ}
  {contents : String}

theorem Grows.refl (st : Store) : st.Grows st := ⟨.inl rfl, le_rfl, fun _ ↦ rfl⟩

theorem Stamped.grows (h : st.Stamped g m) (hg : st.Grows st') : st'.Stamped g m := by
  refine ⟨h.1, ?_⟩
  obtain ⟨hlt, -⟩ := List.getElem?_eq_some_iff.mp h.2
  rcases hg.stamped with heq | heq <;> rw [heq]
  · exact h.2
  · rw [List.getElem?_append_left hlt]
    exact h.2

theorem Writes.grows (h : st.Writes g contents) (hg : st.Grows st') : st'.Writes g contents := by
  obtain ⟨m, hm, heq⟩ := h
  exact ⟨m, hm.grows hg, heq⟩

theorem stamp_grows (st : Store) (m : Rows) : st.Grows (st.stamp m) := ⟨.inr rfl, le_rfl, fun _ ↦ rfl⟩

theorem Recorded.stamped_stamp (h : st.Recorded) (m : Rows) : (st.stamp m).Stamped (st.stamp m).seq m := by
  refine ⟨Nat.succ_pos _, ?_⟩
  simp [Store.stamp, h.seq]

theorem Recorded.stamp (h : st.Recorded) (m : Rows) : (st.stamp m).Recorded where
  seq := by simp [Store.stamp, h.seq]
  queue q hq := (h.queue q hq).grows (stamp_grows st m)
  file := h.file.imp_right fun hw ↦ hw.grows (stamp_grows st m)

theorem Recorded.writeDetached (h : st.Recorded) (hm : st.Stamped st.seq st.map) :
    st.writeDetached.Recorded where
  seq := h.seq
  queue q hq := by
    rcases List.mem_append.mp hq with hq | hq
    · exact h.queue q hq
    · obtain rfl := List.mem_singleton.mp hq
      exact ⟨st.map, hm, rfl⟩
  file := h.file

theorem Recorded.writeLatest (h : st.Recorded) (hw : st.Writes g contents) (ok : Bool) :
    (st.writeLatest g contents ok).Recorded ∧ st.Grows (st.writeLatest g contents ok) := by
  unfold Store.writeLatest
  split
  · exact ⟨h, .refl st⟩
  · rename_i hlt
    split
    · refine ⟨⟨h.seq, h.queue, .inr hw⟩, .inl rfl, (not_le.mp hlt).le, fun hg ↦ ?_⟩
      simp [show g = 0 from hg] at hlt
    · exact ⟨h, .refl st⟩

/-- Once a generation is written the file reads as that generation or a later one. -/
theorem Recorded.onDisk (h : st.Recorded) (hm : st.Stamped g m) (hle : g ≤ st.written) :
    ∃ g' m', g ≤ g' ∧ st.Stamped g' m' ∧ ∀ now r, (parse st.file now).lookup r = m'.lookup r := by
  rcases h.file with h0 | ⟨m', hm', hfile⟩
  · have hpos := hm.1
    omega
  · refine ⟨_, m', hle, hm', fun now r ↦ ?_⟩
    rw [hfile]
    exact lookup_parse_serialize m' now r

theorem Recorded.put (h : st.Recorded) (s : Schema) (id : SandboxId) (now : UInt64) :
    (st.put s id now).Recorded ∧ st.Grows (st.put s id now) := by
  have hfresh : ((st.stamp (st.map.insert s ⟨id, now, .live⟩)).writeDetached).Recorded ∧
      st.Grows (st.stamp (st.map.insert s ⟨id, now, .live⟩)).writeDetached :=
    ⟨(h.stamp _).writeDetached (h.stamped_stamp _), .inr rfl, le_rfl, fun _ ↦ rfl⟩
  unfold Store.put
  split
  · split
    · exact ⟨⟨h.seq, h.queue, h.file⟩, .inl rfl, le_rfl, fun _ ↦ rfl⟩
    · exact hfresh
  · exact hfresh

theorem Recorded.touch (h : st.Recorded) (s : Schema) (now : UInt64) :
    (st.touch s now).Recorded ∧ st.Grows (st.touch s now) := by
  unfold Store.touch
  split
  · exact ⟨⟨h.seq, h.queue, h.file⟩, .inl rfl, le_rfl, fun _ ↦ rfl⟩
  · exact ⟨h, .refl st⟩

theorem Recorded.flushDirty (h : st.Recorded) : st.flushDirty.Recorded ∧ st.Grows st.flushDirty := by
  unfold Store.flushDirty
  split
  · have hs := h.stamp st.map
    exact ⟨Recorded.writeDetached ⟨hs.seq, hs.queue, hs.file⟩ (h.stamped_stamp st.map), .inr rfl,
      le_rfl, fun _ ↦ rfl⟩
  · exact ⟨h, .refl st⟩

theorem Recorded.land (h : st.Recorded) {k : ℕ} {ok : Bool} (hl : st.land k ok = some st') :
    st'.Recorded ∧ st.Grows st' := by
  obtain ⟨q, hq, rfl⟩ := Option.map_eq_some_iff.mp hl
  have hrest : ({ st with queue := st.queue.eraseIdx k } : Store).Recorded :=
    ⟨h.seq, fun p hp ↦ h.queue p (List.mem_of_mem_eraseIdx hp), h.file⟩
  obtain ⟨hrec, hgrows⟩ := hrest.writeLatest (h.queue q (List.mem_of_getElem? hq)) ok
  exact ⟨hrec, hgrows.stamped, hgrows.written, hgrows.file⟩

theorem Recorded.setTier (h : st.Recorded) {tier : Tier} (hset : st.setTier s tier = some st') :
    st'.Recorded ∧ st.Grows st' ∧ st'.Stamped st'.seq st'.map ∧
      (st'.map.lookup s).map (·.tier) = some tier := by
  obtain ⟨r, -, rfl⟩ := Option.map_eq_some_iff.mp hset
  exact ⟨h.stamp _, stamp_grows st _, h.stamped_stamp _, by simp [Store.stamp]⟩

end Store

/-- The registry write an offload is waiting for, or has waited for. -/
def OffPc.flips : OffPc → Option (Tier × ℕ)
  | .writeTier tier g _ _ | .finish tier (some g) _ => some (tier, g)
  | _ => none

/-- What the registry's history says of an offload that has flipped a tier. -/
def Task.Flipped (w : World) : Task → Prop
  | .offload s _ pc =>
    (∀ tier g, pc.flips = some (tier, g) →
      ∃ m, w.store.Stamped g m ∧ (m.lookup s).map (·.tier) = some tier) ∧
    ∀ tier g contents fin, pc = .writeTier tier g contents fin → w.store.Writes g contents
  | .checkout _ _ | .reapIdle _ | .reapUntracked _ | .purge _ => True

/-- The tier that an offload has flipped is on disk. -/
def Task.Landed (w : World) : Task → Prop
  | .offload _ _ (.finish _ g _) => ∃ g₀, g = some g₀ ∧ g₀ ≤ w.store.written
  | _ => True

def Task.setsTier : Task → Option Schema
  | .offload s _ (.setTier _ _) => some s
  | _ => none

def Task.writesTier : Task → Option ℕ
  | .offload _ _ (.writeTier _ g _ _) => some g
  | _ => none

/-- An offload flips the tier of a row that exists, and its own registry write succeeds unless a
newer generation is already on disk. -/
def FlipsWritten (st : State) : Label → Prop :=
  OnRun fun t a ↦ ∀ x ∈ st.tasks[t]?,
    (∀ s ∈ x.setsTier, (st.world.store.record s).isSome = true) ∧
      (a = .failed → ∀ g ∈ x.writesTier, g ≤ st.world.store.written)

instance (st : State) (l : Label) : Decidable (FlipsWritten st l) :=
  inferInstanceAs (Decidable (OnRun _ l))

/-- When an offload is about to delete its VM or its local file, the registry file holds the
generation in which the tier was set, or a later one. -/
def State.TierDurable (st : State) : Prop :=
  ∀ (t : ℕ) (s : Schema) (kind : OffloadKind) (tier : Tier) (g : Option ℕ) (fin : Final),
    st.tasks[t]? = some (.offload s kind (.finish tier g fin)) →
      ∃ g₀ g' m m', g = some g₀ ∧ st.world.store.Stamped g₀ m ∧
        (m.lookup s).map (·.tier) = some tier ∧ g₀ ≤ g' ∧ st.world.store.Stamped g' m' ∧
        ∀ now r, (parse st.world.store.file now).lookup r = m'.lookup r

section Runs

variable {cfg : Config} {st st' : State} {l : Label}

theorem Task.Flipped.grows {x : Task} {w w' : World} (h : x.Flipped w) (hg : w.store.Grows w'.store) :
    x.Flipped w' := by
  cases x with
  | offload s kind pc =>
    refine ⟨fun tier g hf ↦ ?_, fun tier g c fin hpc ↦ (h.2 tier g c fin hpc).grows hg⟩
    obtain ⟨m, hm, ht⟩ := h.1 tier g hf
    exact ⟨m, hm.grows hg, ht⟩
  | checkout | reapIdle | reapUntracked | purge => trivial

theorem Task.Landed.grows {x : Task} {w w' : World} (h : x.Landed w) (hg : w.store.Grows w'.store) :
    x.Landed w' := by
  cases x with
  | offload s kind pc =>
    cases pc with
    | finish =>
      obtain ⟨g₀, heq, hle⟩ := h
      exact ⟨g₀, heq, hle.trans hg.written⟩
    | _ => trivial
  | checkout | reapIdle | reapUntracked | purge => trivial

theorem Task.flipped_of_not_writing {s : Schema} {kind : OffloadKind} {pc : OffPc} (w : World)
    (h : pc.writing = false) :
    (Task.offload s kind pc).Flipped w ∧ (Task.offload s kind pc).Landed w := by
  cases pc with
  | writeTier | finish => cases h
  | _ => exact ⟨⟨nofun, nofun⟩, trivial⟩

theorem offEvict_writing (s : Schema) (r : Route) (w : World) :
    (offEvict s r w).2.writing = false := by
  unfold offEvict Route.afterEvict
  repeat' split
  all_goals rfl

theorem Store.le_written_writeLatest {st : Store} {g : ℕ} {c : String} {ok : Bool}
    (h : ok = false → g ≤ st.written) : g ≤ (st.writeLatest g c ok).written := by
  unfold Store.writeLatest
  split
  · assumption
  · rename_i hlt
    cases ok with
    | true => exact le_rfl
    | false => exact absurd (h rfl) hlt

theorem OffMove.flipped {a : Answer} {s : Schema} {kind : OffloadKind} {w w' : World}
    {pc pc' : OffPc} (h : OffMove a s w w' pc pc') (hrec : w.store.Recorded)
    (hx : (Task.offload s kind pc).Flipped w) :
    w'.store.Recorded ∧ w.store.Grows w'.store ∧ (Task.offload s kind pc').Flipped w' := by
  cases h with
  | other hw _ _ writing =>
    rw [hw]
    exact ⟨hrec, .refl _, (Task.flipped_of_not_writing _ writing).1⟩
  | @claim r _ hw =>
    subst hw
    exact ⟨hrec, .refl _, (Task.flipped_of_not_writing _ (by cases r <;> rfl)).1⟩
  | @evict r _ h =>
    obtain rfl : (offEvict s r w).1 = w' := by rw [h]
    obtain rfl : (offEvict s r w).2 = pc' := by rw [h]
    have hst : (offEvict s r w).1.store = w.store := by rw [offEvict_frame]
    rw [hst]
    exact ⟨hrec, .refl _, (Task.flipped_of_not_writing _ (offEvict_writing s r w)).1⟩
  | ensure h =>
    rw [ensureStep_frame h]
    exact ⟨hrec, .refl _, (Task.flipped_of_not_writing _ rfl).1⟩
  | bind _ hw =>
    subst hw
    exact ⟨(hrec.put ..).1, (hrec.put ..).2, (Task.flipped_of_not_writing _ rfl).1⟩
  | @flip tier fin store hset hw =>
    subst hw
    obtain ⟨hrec', hgrows, hstamped, htier⟩ := hrec.setTier hset
    refine ⟨hrec', hgrows, fun t g hf ↦ ?_, fun t g c f hpc ↦ ?_⟩
    · obtain ⟨rfl, rfl⟩ : tier = t ∧ store.seq = g := by simpa [OffPc.flips] using hf
      exact ⟨store.map, hstamped, htier⟩
    · cases hpc
      exact ⟨store.map, hstamped, rfl⟩
  | missing _ hw =>
    subst hw
    exact ⟨hrec, .refl _, nofun, nofun⟩
  | @write tier g c fin ok ha hw =>
    subst hw
    obtain ⟨hrec', hgrows⟩ := hrec.writeLatest (hx.2 tier g c fin rfl) ok
    refine ⟨hrec', hgrows, fun t g' hf ↦ ?_, nofun⟩
    obtain ⟨m, hm, ht⟩ := hx.1 t g' hf
    exact ⟨m, hm.grows hgrows, ht⟩

theorem OffMove.landed {a : Answer} {s : Schema} {kind : OffloadKind} {w w' : World}
    {pc pc' : OffPc} (h : OffMove a s w w' pc pc')
    (hrow : ∀ tier fin, pc = .setTier tier fin → (w.store.record s).isSome = true)
    (hfail : ∀ tier g c fin, pc = .writeTier tier g c fin → a = .failed → g ≤ w.store.written) :
    (Task.offload s kind pc').Landed w' := by
  cases h with
  | other _ _ _ writing => exact (Task.flipped_of_not_writing _ writing).2
  | @claim r => exact (Task.flipped_of_not_writing _ (by cases r <;> rfl)).2
  | @evict r _ h =>
    obtain rfl : (offEvict s r w).2 = pc' := by rw [h]
    exact (Task.flipped_of_not_writing _ (offEvict_writing s r w)).2
  | ensure | bind | flip => trivial
  | missing hnone => simp [hnone] at hrow
  | @write tier g c fin ok ha hw =>
    subst hw
    refine ⟨g, rfl, Store.le_written_writeLatest fun hok ↦ ?_⟩
    exact hfail tier g c fin rfl (by simp [ha, hok])

/-- The registry's history, as every offload relies on it. -/
structure State.Chronicled (st : State) : Prop where
  store : st.world.store.Recorded
  tasks : ∀ (t : ℕ) (x : Task), st.tasks[t]? = some x → x.Flipped st.world

def State.Landed (st : State) : Prop :=
  ∀ (t : ℕ) (x : Task), st.tasks[t]? = some x → x.Landed st.world

theorem Task.flipped_of_initial {x : Task} (h : x.initial = true) (w : World) :
    x.Flipped w ∧ x.Landed w := by
  cases x with
  | offload s kind pc =>
    cases pc <;> first
      | exact Task.flipped_of_not_writing w rfl
      | cases h
  | checkout | reapIdle | reapUntracked | purge => exact ⟨trivial, trivial⟩

theorem ckStep_recorded {t : ℕ} {s : Schema} {w w' : World} {pc pc' : CkPc} {a : Answer}
    (h : ckStep cfg t s w pc a = some (w', pc')) (hrec : w.store.Recorded) :
    w'.store.Recorded ∧ w.store.Grows w'.store := by
  rcases ckStep_store h with hst | hst | ⟨e, r, -, hst⟩ <;> rw [hst]
  · exact ⟨hrec, .refl _⟩
  · exact hrec.touch ..
  · exact hrec.put ..

theorem worldStep_recorded {w w' : World} (h : worldStep w l = some w') (hrec : w.store.Recorded) :
    w'.store.Recorded ∧ w.store.Grows w'.store := by
  cases l with
  | land k ok =>
    obtain ⟨store, hl, rfl⟩ := Option.map_eq_some_iff.mp h
    exact hrec.land hl
  | tick n | publish ids bound =>
    cases h
    exact ⟨hrec, .refl _⟩
  | flush =>
    cases h
    exact hrec.flushDirty
  | spawn | run => cases h

theorem State.Chronicled.moves (h : st.Chronicled) (hs : Step cfg st l st') :
    st'.world.store.Recorded ∧ st.world.store.Grows st'.world.store ∧
      ∀ (t : ℕ) (x : Task), st'.tasks[t]? = some x → x.Flipped st'.world ∨ st.tasks[t]? = some x := by
  have hset {t : ℕ} {x : Task} {w : World} (hx : x.Flipped w) (j : ℕ) (y : Task)
      (hj : (st.tasks.set t x)[j]? = some y) : y.Flipped w ∨ st.tasks[j]? = some y := by
    rcases getElem?_set_cases hj with ⟨-, rfl⟩ | ⟨-, hj⟩
    · exact .inl hx
    · exact .inr hj
  cases hs with
  | spawn hx =>
    refine ⟨h.store, .refl _, fun t y ht ↦ ?_⟩
    rcases getElem?_append_cases ht with ⟨-, rfl⟩ | ht
    · exact .inl (Task.flipped_of_initial hx _).1
    · exact .inr ht
  | checkout _ hck =>
    obtain ⟨hrec, hg⟩ := ckStep_recorded hck h.store
    exact ⟨hrec, hg, hset trivial⟩
  | offload ht ho =>
    obtain ⟨u, hu, x, rfl⟩ := offStep_eq ho
    obtain ⟨hrec, hg, hx⟩ := (offCore_move hu).flipped h.store (h.tasks _ _ ht)
    exact ⟨hrec, hg, hset hx⟩
  | reapIdle _ hi =>
    rw [idleStep_frame hi]
    exact ⟨h.store, .refl _, hset trivial⟩
  | reapUntracked _ hu =>
    rw [untrackedStep_world hu]
    exact ⟨h.store, .refl _, hset trivial⟩
  | purge _ hp =>
    rw [purgeStep_frame hp]
    exact ⟨h.store, .refl _, hset trivial⟩
  | outside hw =>
    obtain ⟨hrec, hg⟩ := worldStep_recorded hw h.store
    exact ⟨hrec, hg, fun t x hx ↦ .inr hx⟩

theorem State.Chronicled.step (h : st.Chronicled) (hs : Step cfg st l st') : st'.Chronicled := by
  obtain ⟨hrec, hg, htasks⟩ := h.moves hs
  refine ⟨hrec, fun t x ht ↦ ?_⟩
  rcases htasks t x ht with hx | hx
  · exact hx
  · exact (h.tasks t x hx).grows hg

theorem Reaches.chronicled {ok : State → Label → Prop} {w : World} (h : Reaches cfg ok w st) :
    st.Chronicled := by
  refine h.invariant ⟨⟨rfl, ?_, .inl rfl⟩, ?_⟩ fun _ _ _ hI _ hs ↦ hI.step (step_sound hs)
  · simp [State.boot, World.boot, Store.load]
  · simp [State.boot]

theorem State.Landed.step (h : st.Landed) (hc : st.Chronicled) (hok : FlipsWritten st l)
    (hs : Step cfg st l st') : st'.Landed := by
  have hg := (hc.moves hs).2.1
  cases hs with
  | spawn hx => exact forall_append (Task.flipped_of_initial hx _).2 h
  | checkout | reapIdle | reapUntracked | purge =>
    exact forall_set trivial fun j y _ hj ↦ (h j y hj).grows hg
  | offload ht ho =>
    obtain ⟨u, hu, x, rfl⟩ := offStep_eq ho
    refine forall_set ?_ fun j y _ hj ↦ (h j y hj).grows hg
    refine (offCore_move hu).landed ?_ ?_
    · rintro tier fin rfl
      exact (hok _ ht).1 _ rfl
    · rintro tier g c fin rfl rfl
      exact (hok _ ht).2 rfl g rfl
  | outside => exact fun t x hx ↦ (h t x hx).grows hg

theorem Reaches.landed {w : World} (h : Reaches cfg FlipsWritten w st) : st.Landed := by
  refine Run.invariant_of h (fun _ ↦ Reaches.chronicled) ?_
    fun _ _ _ hI hJ _ hok hs ↦ hI.step hJ hok (step_sound hs)
  intro t x hx
  simp [State.boot] at hx

theorem tier_durable {w : World} (h : Reaches cfg FlipsWritten w st) : st.TierDurable := by
  intro t s kind tier g fin ht
  have hc := Reaches.chronicled h
  obtain ⟨g₀, rfl, hle⟩ := h.landed t _ ht
  have hflip := (hc.tasks t _ ht).1
  obtain ⟨m, hm, htier⟩ := hflip tier g₀ rfl
  obtain ⟨g', m', hg', hm', hfile⟩ := hc.store.onDisk hm hle
  exact ⟨g₀, g', m, m', rfl, hm, htier, hg', hm', hfile⟩

def State.finishing (st : State) (t : ℕ) (id : SandboxId) : Bool :=
  match st.tasks[t]? with
  | some (.offload _ _ (.finish _ _ (.kill v))) => v = id
  | _ => false

def freezes (t : ℕ) : List Label :=
  goes t 5 ++ attaches t ++ runs t [.size 600, .go]

theorem tier_durable_run : ∃ st, Reaches .full FlipsWritten (.recorded .live) st ∧
    st.finishing 0 sb1 = true ∧ st.TierDurable := by
  obtain ⟨st, hr, hst⟩ := Run.exists_of_exec (step .full) FlipsWritten (.boot (.recorded .live))
    ([.spawn (.offload app .freeze .begin)] ++ freezes 0 ++ [.run 0 .ok])
    (fun st ↦ st.finishing 0 sb1) (by decide +kernel) (by decide +kernel)
  exact ⟨st, hr, hst, tier_durable hr⟩

/-- The offload `t` is about to delete a VM, and no generation agrees with the registry file. -/
def State.deletesUnwritten (st : State) (t : ℕ) : Bool :=
  match st.tasks[t]? with
  | some (.offload s _ (.finish _ _ (.kill _))) =>
    st.world.store.stamped.all fun m ↦ m.lookup s ≠ (parse st.world.store.file 0).lookup s
  | _ => false

theorem State.not_tierDurable {t : ℕ} (h : st.deletesUnwritten t = true) : ¬ st.TierDurable := by
  unfold State.deletesUnwritten at h
  split at h
  · rename_i s kind tier g v ht
    intro hd
    obtain ⟨-, g', -, m', -, -, -, -, ⟨-, hm'⟩, hfile⟩ := hd t s kind tier g (.kill v) ht
    have hne := List.all_eq_true.mp h m' (List.mem_of_getElem? hm')
    rw [hfile] at hne
    simp at hne
  · cases h

/-- A failed registry write is only logged: the VM is deleted while the file has its row live. -/
theorem tier_not_durable : ∃ st, Reaches .full Always (.recorded .live) st ∧
    (parse st.world.store.file 0).lookup app = some ⟨sb1, 0, .live⟩ ∧ st.finishing 0 sb1 = true ∧
    ¬ st.TierDurable := by
  obtain ⟨st, hr, hst⟩ := Run.exists_of_exec (step .full) Always (.boot (.recorded .live))
    ([.spawn (.offload app .freeze .begin)] ++ freezes 0 ++ [.run 0 .failed])
    (fun st ↦ (parse st.world.store.file 0).lookup app = some ⟨sb1, 0, .live⟩ && st.finishing 0 sb1 &&
      st.deletesUnwritten 0) (by decide +kernel) (by decide +kernel)
  simp only [Bool.and_eq_true, decide_eq_true_eq] at hst
  exact ⟨st, hr, hst.1.1, hst.1.2, State.not_tierDurable hst.2⟩

end Runs

end PgVmPool
