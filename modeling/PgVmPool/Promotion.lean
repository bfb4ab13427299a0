import PgVmPool.Guards

namespace PgVmPool

open Function Transition

/-- What is known of a schema's data outside its VM. -/
structure Copies where
  tier : Option Tier
  dump : Option Content
  image : Option Content
  s3Dump : Option Content
  s3Image : Option Content
  acked : List ℕ

def World.copies (w : World) (s : Schema) : Copies :=
  ⟨w.store.tierOf s, w.dumps s, w.images s, w.s3Dump s, w.s3Image s, w.acked s⟩

namespace Copies

variable (v : Copies)

def archived : Option Content :=
  match chooseRestore (v.s3Dump.map (·.bytes)) (v.s3Image.map (·.bytes)) with
  | .dump => v.s3Dump
  | .image => v.s3Image

/-- The copy has every write that was acknowledged to a client. -/
def Keeps (o : Option Content) : Prop := ∃ c, o = some c ∧ v.acked ⊆ c.writes

/-- The copy that the tier points to has every acknowledged write. -/
structure Covered : Prop where
  frozen : v.tier = some .frozen → v.Keeps v.dump
  compacted : v.tier = some .compacted → v.Keeps v.image
  archived : v.tier = some .archived → v.Keeps v.archived

end Copies

theorem World.archived_eq (w : World) (s : Schema) : w.archived s = (w.copies s).archived := rfl

def CkPc.hot : CkPc → Bool
  | .admitWarm _ _ | .probing _ _ | .clearPending _ _ _ | .removeThawed _ _ _ | .clearBreaker _
  | .admitCold _ | .serving _ => true
  | _ => false

/-- A promotion past its last look at the tier. -/
def OffPc.promoting : OffPc → Bool
  | .statDump | .uploadDump _ | .verifyDump _ | .statImage | .uploadImage _ | .verifyImage _
  | .deleteDump | .setTier _ _ | .writeTier _ _ _ _ | .finish _ _ _ => true
  | _ => false

/-- What a promotion relies on, step by step. -/
def OffPc.Promotes (v : Copies) : OffPc → Prop
  | .begin | .checkFrozen | .done | .failed => True
  | .claim r => r = .promoteFrozen ∨ r = .promoteCompacted
  | .statDump => v.tier = some .frozen
  | .uploadDump len => v.tier = some .frozen ∧ minDumpBytes ≤ len
  | .verifyDump len => v.tier = some .frozen ∧ minDumpBytes ≤ len ∧ v.s3Dump = v.dump
  | .statImage => v.tier = some .compacted
  | .uploadImage len => v.tier = some .compacted ∧ minImageBytes ≤ len
  | .verifyImage len => v.tier = some .compacted ∧ minImageBytes ≤ len ∧ v.s3Image = v.image
  | .deleteDump => v.tier = some .compacted ∧ v.s3Image = v.image ∧
      ∃ c, v.image = some c ∧ minImageBytes ≤ c.bytes
  | .setTier tier fin => tier = .archived ∧ (v.tier = some .frozen ∨ v.tier = some .compacted) ∧
      fin.vm = none ∧ v.Keeps v.archived
  | .writeTier _ _ _ fin | .finish _ _ fin => v.tier = some .archived ∧ fin.vm = none
  | _ => False

def World.warm (w : World) (s : Schema) : Bool :=
  match (w.entries.lookup s).map w.cells with
  | some (.full _) => true
  | _ => false

def Task.inFlight (s : Schema) : Task → Bool
  | .checkout r pc => r = s && pc.inFlight
  | .offload _ _ _ | .reapIdle _ | .reapUntracked _ | .purge _ => false

def Task.begins (s : Schema) : Task → Option OffloadKind
  | .offload r kind .begin => if r = s then some kind else none
  | _ => none

/-- A promotion of `s` about to take its last look at the tier, with the tier it is for. -/
def Task.looks (s : Schema) : Task → Option Tier
  | .offload r _ (.claim .promoteCompacted) => if r = s then some .compacted else none
  | .offload r _ .checkFrozen => if r = s then some .frozen else none
  | _ => none

def Task.locks (s : Schema) : Task → Bool
  | .checkout r .lockEntries => r = s
  | _ => false

def PromotesOnly (s : Schema) (st : State) : Label → Prop :=
  OnRun fun t _ ↦ ∀ x ∈ st.tasks[t]?, ∀ kind ∈ x.begins s, kind = .archive ∧
    (st.world.store.tierOf s = some .frozen ∨ st.world.store.tierOf s = some .compacted ∨
      st.world.store.tierOf s = some .archived)

/-- What the next step of a task asks of the checkouts of `s`. -/
def State.Unhurried (s : Schema) (st : State) (x : Task) : Prop :=
  (x.looks s = some .compacted → st.world.archiving s = false →
    st.world.store.tierOf s = some .compacted ∧ ∀ y ∈ st.tasks, y.inFlight s = false) ∧
  (x.looks s = some .frozen → st.world.store.tierOf s = some .frozen →
    ∀ y ∈ st.tasks, y.inFlight s = false) ∧
  (x.locks s = true → st.world.warm s = true → st.world.store.tierOf s = some .live)

/-- Every offload of `s` is a promotion, which takes its last look at the tier when no checkout of
`s` is in flight, the compacted one with its claim; and no checkout of `s` is handed a warm VM whose
row is not live yet. -/
def PromotesAlone (s : Schema) (st : State) (l : Label) : Prop :=
  PromotesOnly s st l ∧ OnRun (fun t _ ↦ ∀ x ∈ st.tasks[t]?, st.Unhurried s x) l

instance (s : Schema) (st : State) (l : Label) : Decidable (PromotesOnly s st l) :=
  inferInstanceAs (Decidable (OnRun _ l))

instance (s : Schema) (st : State) (x : Task) : Decidable (st.Unhurried s x) :=
  inferInstanceAs (Decidable (_ ∧ _))

instance (s : Schema) (st : State) (l : Label) : Decidable (PromotesAlone s st l) :=
  inferInstanceAs (Decidable (_ ∧ OnRun _ l))

/-- What S3 has of an archived schema holds every acknowledged write, and no promotion is about to
archive a schema that a thaw has made live. -/
structure State.Unshadowed (s : Schema) (st : State) : Prop where
  restored : st.world.store.tierOf s = some .archived →
    ∃ c, st.world.archived s = some c ∧ st.world.acked s ⊆ c.writes
  thawed : ∀ (t : ℕ) (kind : OffloadKind) (fin : Final),
    st.tasks[t]? = some (.offload s kind (.setTier .archived fin)) →
      st.world.store.tierOf s ≠ some .live

section Copies

variable {cfg : Config} {t : ℕ} {s r : Schema} {w w' : World} {a : Answer}

theorem ensureStep_copies {b : BringUp} {p p' : EnsurePc} (h : ensureStep b w p a = some (w', p'))
    (s : Schema) : w'.copies s = w.copies s := by
  rw [ensureStep_frame h]
  rfl

theorem ckStep_copies {pc pc' : CkPc} (h : ckStep cfg t s w pc a = some (w', pc')) :
    w'.copies s = w.copies s ∨
      ((∃ e r, pc = .recordBinding e r) ∧ w'.copies s = { w.copies s with tier := some .live }) ∨
      pc.hot = true ∧ (w'.copies s).tier = (w.copies s).tier := by
  revert h
  fun_cases ckStep cfg t s w pc a <;> intro h <;> (try cases h)
  case case1 =>
    left
    simp [World.copies, Store.tierOf_touch]
  case case11 => split <;> exact .inl rfl
  case case24 =>
    obtain ⟨_, hx, heq⟩ := Option.map_eq_some_iff.mp h
    cases heq
    exact .inl (ensureStep_copies hx s)
  case case25 =>
    refine .inr (.inl ⟨⟨_, _, rfl⟩, ?_⟩)
    simp only [World.copies, Copies.mk.injEq, and_true]
    exact Store.tierOf_put ..
  case case27 =>
    rw [World.dropThawed_frame]
    exact .inr (.inr ⟨rfl, rfl⟩)
  case case33 => exact .inr (.inr ⟨rfl, rfl⟩)
  all_goals exact .inl rfl

theorem ckStep_copies_ne {pc pc' : CkPc} (h : ckStep cfg t r w pc a = some (w', pc')) (hs : s ≠ r) :
    w'.copies s = w.copies s := by
  revert h
  fun_cases ckStep cfg t r w pc a <;> intro h <;> (try cases h)
  case case1 => simp [World.copies, Store.tierOf_touch]
  case case11 => split <;> rfl
  case case24 =>
    obtain ⟨_, hx, heq⟩ := Option.map_eq_some_iff.mp h
    cases heq
    exact ensureStep_copies hx s
  case case25 =>
    simp only [World.copies, Copies.mk.injEq, and_true]
    exact Store.tierOf_put_ne hs ..
  case case27 =>
    unfold World.dropThawed
    split <;> simp [World.copies, update_of_ne hs]
  case case33 => simp [World.copies, World.clientWrite, update_of_ne hs]
  all_goals rfl

theorem ckStep_hot {pc pc' : CkPc} (h : ckStep cfg t s w pc a = some (w', pc')) (hp : pc'.hot = true) :
    w'.store.tierOf s = some .live ∨
      w'.store = w.store ∧ (pc.hot = true ∨ pc = .lockEntries ∧ w.warm s = true) := by
  revert h
  fun_cases ckStep cfg t s w pc a <;> intro h <;> (try cases h) <;> (try exact .inr ⟨rfl, .inl rfl⟩)
  case case2 => split at hp <;> cases hp
  case case4 h _ hc => exact .inr ⟨rfl, .inr ⟨rfl, by simp [World.warm, h, hc]⟩⟩
  case case12 => split at hp <;> cases hp
  case case24 =>
    obtain ⟨_, hx, heq⟩ := Option.map_eq_some_iff.mp h
    cases heq
    cases hp
  case case25 => exact .inl (Store.tierOf_put ..)
  case case27 =>
    rw [World.dropThawed_frame]
    exact .inr ⟨rfl, .inl rfl⟩
  all_goals cases hp

theorem ckStep_inFlight {pc pc' : CkPc} (h : ckStep cfg t s w pc a = some (w', pc'))
    (hp : pc'.inFlight = true) : pc.inFlight = true ∨ w.archiving s = false := by
  revert h
  fun_cases ckStep cfg t s w pc a <;> intro h <;> (try cases h) <;> (try exact .inl rfl)
  case case2 =>
    cases hs : w.archiving s with
    | true => simp [hs, CkPc.inFlight] at hp
    | false => exact .inr rfl
  all_goals cases hp

theorem offCore_copies_ne {kind : OffloadKind} {pc pc' : OffPc}
    (h : offCore cfg r kind w pc a = some (w', pc')) (hs : s ≠ r) : w'.copies s = w.copies s := by
  revert h
  fun_cases offCore cfg r kind w pc a <;> intro h <;> (try cases h) <;> (try rfl)
  case case6 q =>
    obtain rfl : (offEvict r q w).1 = w' := congrArg Prod.fst (Option.some.inj h)
    rw [offEvict_frame]
    rfl
  case case12 =>
    obtain ⟨_, hx, heq⟩ := Option.map_eq_some_iff.mp h
    cases heq
    exact ensureStep_copies hx s
  case case20 | case23 | case33 | case36 | case41 | case45 =>
    obtain ⟨_, -, heq⟩ := Option.map_eq_some_iff.mp h
    cases heq
    simp [World.copies, update_of_ne hs]
  case case21 =>
    obtain ⟨_, -, heq⟩ := Option.map_eq_some_iff.mp h
    split at heq <;> cases heq <;> simp [World.copies, update_of_ne hs]
  case case35 =>
    split
    · simp [World.copies, Store.tierOf_put_ne hs]
    · rfl
  case case54 hset => simp [World.copies, Store.tierOf_setTier_ne hset hs]
  case case56 | case57 => simp [World.copies, Store.tierOf_of_map (Store.writeLatest_map ..)]
  all_goals simp [World.copies, update_of_ne hs]

theorem OffPc.Promotes.of_not_promoting {pc : OffPc} {v v' : Copies} (h : pc.Promotes v)
    (hp : pc.promoting = false) : pc.Promotes v' := by
  cases pc <;> first | exact h | cases hp

theorem OffPc.Promotes.tier_ne {pc : OffPc} {v : Copies} (h : pc.Promotes v)
    (hp : pc.promoting = true) : v.tier ≠ some .live := by
  intro hv
  cases pc with
  | setTier =>
    obtain ⟨-, htier, -⟩ := h
    simp [hv] at htier
  | _ => first | (simp [OffPc.Promotes, hv] at h; done) | cases hp

theorem OffPc.holds_of_promoting {pc : OffPc} (h : pc.promoting = true) : pc.holds = true := by
  cases pc <;> first | rfl | cases h

/-- What a promotion step does to the copies of its schema. -/
structure PromotionStep (s : Schema) (w w' : World) (pc pc' : OffPc) : Prop where
  promotes : pc'.Promotes (w'.copies s)
  covered : (w'.copies s).Covered
  same : pc.promoting = false → w'.copies s = w.copies s

theorem PromotionStep.same_world {pc pc' : OffPc} (hcov : (w.copies s).Covered)
    (hp : pc'.Promotes (w.copies s)) : PromotionStep s w w pc pc' :=
  ⟨hp, hcov, fun _ ↦ rfl⟩

theorem offBegin_promotes {v : Copies} {tier : Option Tier}
    (h : tier = some .frozen ∨ tier = some .compacted ∨ tier = some .archived) :
    (offBegin cfg tier .archive).Promotes v := by
  unfold offBegin
  rcases h with rfl | rfl | rfl <;> repeat' split
  all_goals simp_all [OffPc.Promotes]

theorem Copies.archived_dump {v : Copies} {c : Content} (h : v.s3Dump = some c)
    (hlen : minDumpBytes ≤ c.bytes) : v.archived = some c := by
  simp [Copies.archived, chooseRestore, h, hlen]

theorem Copies.archived_image {v : Copies} {c : Content} (h : v.s3Image = some c)
    (hlen : minImageBytes ≤ c.bytes) (hdump : v.s3Dump = none) : v.archived = some c := by
  simp [Copies.archived, chooseRestore, h, hlen, hdump]

theorem offCore_promotes_dump {kind : OffloadKind} {pc pc' : OffPc}
    (h : offCore cfg s kind w pc a = some (w', pc')) (hp : pc.Promotes (w.copies s))
    (hcov : (w.copies s).Covered)
    (hpc : pc = .checkFrozen ∨ pc = .statDump ∨ (∃ len, pc = .uploadDump len) ∨
      ∃ len, pc = .verifyDump len) : PromotionStep s w w' pc pc' := by
  rcases hpc with rfl | rfl | ⟨len, rfl⟩ | ⟨len, rfl⟩
  · cases a <;> cases h
    refine .same_world hcov ?_
    split
    · assumption
    · trivial
  · cases a <;> try cases h
    simp only [offCore] at h
    split at h <;> cases h
    · refine .same_world hcov ?_
      split
      · trivial
      · rename_i hlen
        exact ⟨hp, not_lt.mp hlen⟩
    · exact .same_world hcov trivial
  · cases a <;> try cases h
    · obtain ⟨c, hc, heq⟩ := Option.map_eq_some_iff.mp h
      cases heq
      refine ⟨⟨hp.1, hp.2, ?_⟩, ⟨hcov.frozen, hcov.compacted, ?_⟩, by simp [OffPc.promoting]⟩
      · simp [World.copies, hc]
      · intro harch
        cases hp.1.symm.trans harch
    · exact .same_world hcov trivial
  · cases a <;> cases h
    · refine .same_world hcov ?_
      split
      · rename_i hlen
        obtain ⟨c, hc, rfl⟩ := Option.map_eq_some_iff.mp hlen
        obtain ⟨c', hc', hacked⟩ := hcov.frozen hp.1
        obtain rfl : c = c' := Option.some.inj (hc.symm.trans (hp.2.2.trans hc'))
        exact ⟨rfl, .inl hp.1, rfl, c, Copies.archived_dump hc hp.2.1, hacked⟩
      · trivial
    · exact .same_world hcov trivial

theorem offCore_promotes_image {kind : OffloadKind} {pc pc' : OffPc}
    (h : offCore cfg s kind w pc a = some (w', pc')) (hp : pc.Promotes (w.copies s))
    (hcov : (w.copies s).Covered)
    (hpc : pc = .statImage ∨ (∃ len, pc = .uploadImage len) ∨ (∃ len, pc = .verifyImage len) ∨
      pc = .deleteDump) : PromotionStep s w w' pc pc' := by
  rcases hpc with rfl | ⟨len, rfl⟩ | ⟨len, rfl⟩ | rfl
  · cases a <;> try cases h
    · simp only [offCore] at h
      split at h <;> cases h
      · refine .same_world hcov ?_
        split
        · trivial
        · rename_i hlen
          exact ⟨hp, not_lt.mp hlen⟩
      · exact .same_world hcov trivial
    · exact .same_world hcov trivial
  · cases a <;> try cases h
    · obtain ⟨c, hc, heq⟩ := Option.map_eq_some_iff.mp h
      cases heq
      refine ⟨⟨hp.1, hp.2, ?_⟩, ⟨hcov.frozen, hcov.compacted, ?_⟩, by simp [OffPc.promoting]⟩
      · simp [World.copies, hc]
      · intro harch
        cases hp.1.symm.trans harch
    · exact .same_world hcov trivial
  · cases a <;> cases h
    · refine .same_world hcov ?_
      split
      · rename_i hlen
        obtain ⟨c, hc, rfl⟩ := Option.map_eq_some_iff.mp hlen
        exact ⟨hp.1, hp.2.2, c, hp.2.2.symm.trans hc, hp.2.1⟩
      · trivial
    · exact .same_world hcov trivial
  · cases a <;> cases h
    · obtain ⟨htier, hs3, c, hc, hlen⟩ := hp
      obtain ⟨c', hc', hacked⟩ := hcov.compacted htier
      obtain rfl : c = c' := Option.some.inj (hc.symm.trans hc')
      refine ⟨⟨rfl, .inr htier, rfl, c, ?_, hacked⟩, ⟨hcov.frozen, hcov.compacted, ?_⟩,
        by simp [OffPc.promoting]⟩
      · exact Copies.archived_image (hs3.trans hc) hlen (by simp [World.copies])
      · intro harch
        cases htier.symm.trans harch
    · exact .same_world hcov trivial

theorem offCore_promotes_flip {kind : OffloadKind} {pc pc' : OffPc}
    (h : offCore cfg s kind w pc a = some (w', pc')) (hp : pc.Promotes (w.copies s))
    (hcov : (w.copies s).Covered)
    (hpc : (∃ tier fin, pc = .setTier tier fin) ∨ (∃ tier g c fin, pc = .writeTier tier g c fin) ∨
      ∃ tier g fin, pc = .finish tier g fin) : PromotionStep s w w' pc pc' := by
  rcases hpc with ⟨tier, fin, rfl⟩ | ⟨tier, g, c, fin, rfl⟩ | ⟨tier, g, fin, rfl⟩
  · cases a <;> try cases h
    obtain ⟨rfl, htier, hfin, hkeep⟩ := hp
    simp only [offCore] at h
    split at h
    · rename_i store hset
      cases h
      have htier' : store.tierOf s = some .archived := Store.tierOf_setTier hset
      refine ⟨⟨htier', hfin⟩, ⟨?_, ?_, fun _ ↦ hkeep⟩, by simp [OffPc.promoting]⟩
      · intro hf
        cases htier'.symm.trans hf
      · intro hc
        cases htier'.symm.trans hc
    · rename_i hnone
      have hrow : w.store.record s = none := by simpa [Store.setTier] using hnone
      simp [World.copies, Store.tierOf, hrow] at htier
  · have hsame (ok : Bool) :
        ({ w with store := w.store.writeLatest g c ok } : World).copies s = w.copies s := by
      simp [World.copies, Store.tierOf_of_map (Store.writeLatest_map ..)]
    cases a <;> cases h
    all_goals exact ⟨by rw [hsame]; exact hp, by rw [hsame]; exact hcov, fun _ ↦ hsame _⟩
  · have hne {tier : Tier} (ht : tier ≠ .archived) : w.store.tierOf s ≠ some tier := by
      intro h'
      cases hp.1.symm.trans h'
      exact ht rfl
    cases fin with
    | kill | killById => cases hp.2
    | removeDump | removeImage =>
      cases a <;> cases h
      · refine ⟨trivial, ⟨fun hf ↦ ?_, fun hc ↦ ?_, hcov.archived⟩, by simp [OffPc.promoting]⟩
        · exact absurd hf (hne (by simp))
        · exact absurd hc (hne (by simp))
      · exact .same_world hcov trivial

theorem offCore_promotes {kind : OffloadKind} {pc pc' : OffPc}
    (h : offCore cfg s kind w pc a = some (w', pc')) (hp : pc.Promotes (w.copies s))
    (hcov : (w.copies s).Covered)
    (hbegin : pc = .begin → kind = .archive ∧ (w.store.tierOf s = some .frozen ∨
      w.store.tierOf s = some .compacted ∨ w.store.tierOf s = some .archived))
    (hclaim : pc = .claim .promoteCompacted → w.archiving s = false →
      w.store.tierOf s = some .compacted) : PromotionStep s w w' pc pc' := by
  cases pc with
  | begin =>
    cases a <;> cases h
    obtain ⟨rfl, htier⟩ := hbegin rfl
    exact .same_world hcov (offBegin_promotes htier)
  | claim q =>
    cases a <;> try cases h
    simp only [offCore] at h
    split at h
    · cases h
      exact .same_world hcov trivial
    · rename_i hs
      cases h
      refine ⟨?_, hcov, fun _ ↦ rfl⟩
      rcases hp with rfl | rfl
      · trivial
      · exact hclaim rfl (by simpa using hs)
  | checkFrozen | statDump | uploadDump | verifyDump => exact offCore_promotes_dump h hp hcov (by simp)
  | statImage | uploadImage | verifyImage | deleteDump =>
    exact offCore_promotes_image h hp hcov (by simp)
  | setTier | writeTier | finish => exact offCore_promotes_flip h hp hcov (by simp)
  | done | failed => cases h
  | _ => cases hp

theorem offCore_promoting {kind : OffloadKind} {pc pc' : OffPc}
    (h : offCore cfg s kind w pc a = some (w', pc')) (hp : pc.Promotes (w.copies s))
    (hpc' : pc'.promoting = true) : pc.promoting = true ∨
      pc = .checkFrozen ∧ w.store.tierOf s = some .frozen ∨
      pc = .claim .promoteCompacted ∧ w.archiving s = false := by
  cases pc with
  | begin =>
    cases a <;> cases h
    rcases offBegin_cases cfg (w.store.tierOf s) kind with heq | ⟨_, heq⟩ | ⟨_, heq⟩
    all_goals
      rw [heq] at hpc'
      cases hpc'
  | claim q =>
    cases a <;> try cases h
    simp only [offCore] at h
    split at h <;> cases h
    · cases hpc'
    · rename_i hs
      rcases hp with rfl | rfl
      · cases hpc'
      · exact .inr (.inr ⟨rfl, by simpa using hs⟩)
  | checkFrozen =>
    cases a <;> cases h
    split at hpc'
    · exact .inr (.inl ⟨rfl, ‹_›⟩)
    · cases hpc'
  | done | failed => cases h
  | _ => first | exact .inl rfl | cases hp

end Copies

section Runs

variable {cfg : Config} {s : Schema} {st st' : State} {l : Label}

def Task.promotes (s : Schema) : Task → Bool
  | .offload r _ pc => r = s && pc.promoting
  | .checkout _ _ | .reapIdle _ | .reapUntracked _ | .purge _ => false

/-- What a task of `s` relies on. -/
def Task.Promoted (s : Schema) (v : Copies) : Task → Prop
  | .checkout r pc => r = s → pc.hot = true → v.tier = some .live
  | .offload r _ pc => r = s → pc.Promotes v
  | .reapIdle _ | .reapUntracked _ | .purge _ => True

structure State.Promoted (s : Schema) (st : State) : Prop where
  tasks : ∀ (t : ℕ) (x : Task), st.tasks[t]? = some x → x.Promoted s (st.world.copies s)
  alone : ∀ (t : ℕ) (x : Task), st.tasks[t]? = some x → x.promotes s = true →
    ∀ (j : ℕ) (y : Task), st.tasks[j]? = some y → y.inFlight s = false
  covered : (st.world.copies s).Covered

theorem State.Promoted.set (h : st.Promoted s) {t : ℕ} {x x' : Task} {w' : World}
    (ht : st.tasks[t]? = some x) (hx : x'.Promoted s (w'.copies s))
    (hothers : ∀ j y, j ≠ t → st.tasks[j]? = some y → y.Promoted s (w'.copies s))
    (hcov : (w'.copies s).Covered)
    (hprom : x'.promotes s = true → x.promotes s = true ∨ ∀ y ∈ st.tasks, y.inFlight s = false)
    (hfl : x'.inFlight s = true → x.inFlight s = true ∨ ∀ y ∈ st.tasks, y.promotes s = false) :
    State.Promoted s ⟨w', st.tasks.set t x'⟩ where
  tasks := forall_set hx hothers
  covered := hcov
  alone i z hi hz j y hj := by
    rcases getElem?_set_cases hi with ⟨rfl, rfl⟩ | ⟨-, hz'⟩
    · rcases getElem?_set_cases hj with ⟨-, rfl⟩ | ⟨-, hy'⟩
      · cases y <;> first | rfl | cases hz
      · rcases hprom hz with hx | hall
        · exact h.alone _ x ht hx j y hy'
        · exact hall y (List.mem_of_getElem? hy')
    · rcases getElem?_set_cases hj with ⟨rfl, rfl⟩ | ⟨-, hy'⟩
      · by_contra hy
        rcases hfl (by simpa using hy) with hx | hall
        · simp [h.alone i z hz' hz _ x ht] at hx
        · simp [hall z (List.mem_of_getElem? hz')] at hz
      · exact h.alone i z hz' hz j y hy'

theorem State.Promoted.of_copies (h : st.Promoted s) {t : ℕ} {x x' : Task} {w' : World}
    (ht : st.tasks[t]? = some x) (hw : w'.copies s = st.world.copies s)
    (hx : x'.Promoted s (st.world.copies s)) (hprom : x'.promotes s = false)
    (hfl : x'.inFlight s = false) : State.Promoted s ⟨w', st.tasks.set t x'⟩ := by
  refine h.set ht (by rwa [hw]) (fun j y _ hj ↦ ?_) (by rw [hw]; exact h.covered) ?_ ?_
  · rw [hw]
    exact h.tasks j y hj
  · simp [hprom]
  · simp [hfl]

theorem Task.archives_of_promotes {x : Task} (h : x.promotes s = true) : x.archives = some s := by
  cases x with
  | offload r kind pc =>
    obtain ⟨hr, hp⟩ := Bool.and_eq_true_iff.mp h
    obtain rfl := of_decide_eq_true hr
    simp [Task.archives, OffPc.holds_of_promoting hp]
  | checkout | reapIdle | reapUntracked | purge => cases h

theorem State.Promoted.promotes_tier_ne (h : st.Promoted s) {j : ℕ} {y : Task}
    (hj : st.tasks[j]? = some y) (hy : y.promotes s = true) : st.world.store.tierOf s ≠ some .live := by
  cases y with
  | offload r kind pc =>
    obtain ⟨hr, hp⟩ := Bool.and_eq_true_iff.mp hy
    exact (h.tasks j _ hj (of_decide_eq_true hr)).tier_ne hp
  | checkout | reapIdle | reapUntracked | purge => cases hy

theorem Task.Promoted.of_not_promotes {y : Task} {v v' : Copies} (h : y.Promoted s v)
    (hy : y.promotes s = false) (hl : v'.tier = some .live) : y.Promoted s v' := by
  cases y with
  | checkout r pc => exact fun _ _ ↦ hl
  | offload r kind pc =>
    intro hr
    exact (h hr).of_not_promoting (by simpa [Task.promotes, hr] using hy)
  | reapIdle | reapUntracked | purge => trivial

theorem Copies.Covered.of_live {v : Copies} (h : v.tier = some .live) : v.Covered := by
  constructor <;> simp [h]

theorem State.Promoted.checkout (h : st.Promoted s) (hex : st.Exclusive) {t : ℕ} {a : Answer}
    {pc pc' : CkPc} {w' : World} (hok : PromotesAlone s st (.run t a))
    (ht : st.tasks[t]? = some (.checkout s pc)) (hck : ckStep cfg t s st.world pc a = some (w', pc')) :
    State.Promoted s ⟨w', st.tasks.set t (.checkout s pc')⟩ := by
  have hlive : pc.hot = true → st.world.store.tierOf s = some .live := h.tasks t _ ht rfl
  have htier : st.world.store.tierOf s = some .live → w'.store.tierOf s = some .live := by
    intro hl
    rcases ckStep_copies hck with heq | ⟨-, heq⟩ | ⟨-, heq⟩
    · exact (congrArg Copies.tier heq).trans hl
    · exact congrArg Copies.tier heq
    · exact heq.trans hl
  have hquiet : w'.copies s = st.world.copies s ∨ w'.store.tierOf s = some .live ∧
      ∀ (j : ℕ) (y : Task), st.tasks[j]? = some y → y.promotes s = false := by
    rcases ckStep_copies hck with heq | ⟨⟨e, r, rfl⟩, heq⟩ | ⟨hhot, -⟩
    · exact .inl heq
    · refine .inr ⟨congrArg Copies.tier heq, fun j y hj ↦ ?_⟩
      by_contra hy
      have := h.alone j y hj (by simpa using hy) t _ ht
      simp [Task.inFlight, CkPc.inFlight] at this
    · refine .inr ⟨htier (hlive hhot), fun j y hj ↦ ?_⟩
      by_contra hy
      exact h.promotes_tier_ne hj (by simpa using hy) (hlive hhot)
  refine h.set ht ?_ ?_ ?_ ?_ ?_
  · intro _ hp
    rcases ckStep_hot hck hp with hl | ⟨hst, hhot | ⟨rfl, hwarm⟩⟩
    · exact hl
    · exact htier (hlive hhot)
    · have hrow : st.world.store.tierOf s = some .live := 
        (hok.2 _ ht).2.2 (by simp [Task.locks]) hwarm
      exact htier hrow
  · intro j y _ hj
    rcases hquiet with heq | ⟨hl, hnone⟩
    · rw [heq]
      exact h.tasks j y hj
    · exact (h.tasks j y hj).of_not_promotes (hnone j y hj) hl
  · rcases hquiet with heq | ⟨hl, -⟩
    · rw [heq]
      exact h.covered
    · exact .of_live hl
  · simp [Task.promotes]
  · intro hp
    rcases ckStep_inFlight hck (by simpa [Task.inFlight] using hp) with hp | harch
    · exact .inl (by simpa [Task.inFlight] using hp)
    · refine .inr fun y hy ↦ ?_
      obtain ⟨j, hj⟩ := List.mem_iff_getElem?.mp hy
      by_contra hprom
      have := (hex j y s hj (Task.archives_of_promotes (by simpa using hprom))).1
      simp [harch] at this

theorem State.Promoted.promotion (h : st.Promoted s) (hex : st.Exclusive) {t : ℕ} {a : Answer}
    {kind : OffloadKind} {pc pc' : OffPc} {w' : World} (hok : PromotesAlone s st (.run t a))
    (ht : st.tasks[t]? = some (.offload s kind pc))
    (ho : offCore cfg s kind st.world pc a = some (w', pc')) :
    State.Promoted s ⟨w', st.tasks.set t (.offload s kind pc')⟩ := by
  have hp : pc.Promotes (st.world.copies s) := h.tasks t _ ht rfl
  have hclaim : pc = .claim .promoteCompacted → st.world.archiving s = false →
      st.world.store.tierOf s = some .compacted ∧ ∀ x ∈ st.tasks, x.inFlight s = false := by
    rintro rfl harch
    exact (hok.2 _ ht).1 (by simp [Task.looks]) harch
  have hstep : PromotionStep s st.world w' pc pc' := by
    refine offCore_promotes ho hp h.covered ?_ fun hpc harch ↦ (hclaim hpc harch).1
    rintro rfl
    exact hok.1 _ ht kind (by simp [Task.begins])
  refine h.set ht (fun _ ↦ hstep.promotes) (fun j y hne hj ↦ ?_) hstep.covered ?_ (by simp [Task.inFlight])
  · cases hprom : pc.promoting with
    | false =>
      rw [hstep.same hprom]
      exact h.tasks j y hj
    | true =>
      have hself : (Task.offload s kind pc).promotes s = true := by simp [Task.promotes, hprom]
      have hother : y.promotes s = false := by
        by_contra hy
        have hguard := Task.archives_of_promotes (by simpa using hy)
        exact hne ((hex t _ s ht (Task.archives_of_promotes hself)).2 j y hj hguard)
      cases y with
      | checkout r ck =>
        rintro rfl hhot
        exact absurd (h.tasks j _ hj rfl hhot) (h.promotes_tier_ne ht hself)
      | offload r k pc₂ =>
        intro hr
        exact (h.tasks j _ hj hr).of_not_promoting (by simpa [Task.promotes, hr] using hother)
      | reapIdle | reapUntracked | purge => trivial
  · intro hpc'
    have hpc' : pc'.promoting = true := by simpa [Task.promotes] using hpc'
    rcases offCore_promoting ho hp hpc' with hprom | ⟨rfl, htier⟩ | ⟨rfl, harch⟩
    · exact .inl (by simp [Task.promotes, hprom])
    · exact .inr ((hok.2 _ ht).2.1 (by simp [Task.looks]) htier)
    · exact .inr (hclaim rfl harch).2

theorem Task.promoted_of_initial {x : Task} (h : x.initial = true) (s : Schema) (v : Copies) :
    x.Promoted s v ∧ x.promotes s = false ∧ x.inFlight s = false := by
  obtain ⟨_, rfl⟩ | ⟨_, _, rfl⟩ | rfl | rfl | rfl := Task.initial_cases h
  · simp [Task.Promoted, Task.promotes, Task.inFlight, CkPc.hot, CkPc.inFlight]
  · simp [Task.Promoted, Task.promotes, Task.inFlight, OffPc.promoting, OffPc.Promotes]
  · exact ⟨trivial, rfl, rfl⟩
  · exact ⟨trivial, rfl, rfl⟩
  · exact ⟨trivial, rfl, rfl⟩

theorem State.Promoted.of_archiving {w : World} {ts : List Task} (h : State.Promoted s ⟨w, ts⟩)
    (x : Schema → Bool) : State.Promoted s ⟨{ w with archiving := x }, ts⟩ :=
  ⟨h.tasks, h.alone, h.covered⟩

theorem State.Promoted.step (h : st.Promoted s) (hex : st.Exclusive) (hok : PromotesAlone s st l)
    (hs : Step cfg st l st') : st'.Promoted s := by
  cases hs with
  | @spawn x hx =>
    have hnew := Task.promoted_of_initial hx s (st.world.copies s)
    refine ⟨forall_append hnew.1 h.tasks, fun t y ht hy j z hj ↦ ?_, h.covered⟩
    rcases getElem?_append_cases ht with ⟨-, rfl⟩ | ht
    · simp [hnew.2.1] at hy
    · rcases getElem?_append_cases hj with ⟨-, rfl⟩ | hj
      · exact hnew.2.2
      · exact h.alone t y ht hy j z hj
  | @checkout t a r pc pc' w' ht hck =>
    by_cases hr : r = s
    · subst hr
      exact h.checkout hex hok ht hck
    · refine h.of_copies ht (ckStep_copies_ne hck (Ne.symm hr)) (fun hr' ↦ absurd hr' hr) rfl ?_
      simp [Task.inFlight, hr]
  | @offload t a r kind pc pc' w' ht ho =>
    obtain ⟨u, hu, x, rfl⟩ := offStep_eq ho
    by_cases hr : r = s
    · subst hr
      exact (h.promotion hex hok ht hu).of_archiving x
    · have hcopies : u.copies s = st.world.copies s := offCore_copies_ne hu (Ne.symm hr)
      refine h.of_copies ht hcopies (fun hr' ↦ absurd hr' hr) ?_ rfl
      simp [Task.promotes, hr]
  | reapIdle ht hi =>
    refine h.of_copies ht ?_ trivial rfl rfl
    rw [idleStep_frame hi]
    rfl
  | reapUntracked ht hu =>
    refine h.of_copies ht ?_ trivial rfl rfl
    rw [untrackedStep_world hu]
  | purge ht hp =>
    refine h.of_copies ht ?_ trivial rfl rfl
    rw [purgeStep_frame hp]
    rfl
  | @outside _ w' hw =>
    have hcopies : w'.copies s = st.world.copies s := by
      have hmap := worldStep_map hw
      rw [worldStep_frame hw]
      simp [World.copies, Store.tierOf_of_map hmap]
    refine ⟨fun t x ht ↦ ?_, h.alone, ?_⟩
    · rw [hcopies]
      exact h.tasks t x ht
    · rw [hcopies]
      exact h.covered

theorem Reaches.promoted {w : World} (hw : (w.boot.copies s).Covered)
    (h : Reaches cfg (PromotesAlone s) w st) : st.Promoted s := by
  refine Run.invariant_of h (fun _ ↦ Reaches.exclusive) ⟨?_, ?_, hw⟩
    fun _ _ _ hI hJ _ hok hstep ↦ hI.step hJ hok (step_sound hstep)
  · simp [State.boot]
  · simp [State.boot]

/-- In every run in which promotions of a schema meet no checkout in flight, an archived schema's
restore has every acknowledged write and a thawed schema is not archived. -/
theorem promotion_unshadowed {w : World} (hw : (w.boot.copies s).Covered)
    (h : Reaches cfg (PromotesAlone s) w st) : st.Unshadowed s := by
  have hp := Reaches.promoted hw h
  refine ⟨fun htier ↦ ?_, fun t kind fin ht ↦ ?_⟩
  · rw [World.archived_eq]
    exact hp.covered.archived htier
  · exact hp.promotes_tier_ne ht (by simp [Task.promotes, OffPc.promoting])

def frozenHost : World :=
  { World.recorded .frozen with
    dumps := fun s ↦ if s = app then some ⟨[7], 600⟩ else none
    acked := fun s ↦ if s = app then [7] else [] }

theorem frozenHost_covered : (frozenHost.boot.copies app).Covered := by
  have htier : (frozenHost.boot.copies app).tier = some .frozen := by decide +kernel
  refine ⟨fun _ ↦ ⟨⟨[7], 600⟩, rfl, by decide⟩, ?_, ?_⟩ <;> simp [htier]

def promotesDump (t : ℕ) : List Label := goes t 4 ++ runs t [.ok, .ok]

theorem promotion_unshadowed_run : ∃ st, Reaches .full (PromotesAlone app) frozenHost st ∧
    st.world.store.tierOf app = some .archived ∧ st.Unshadowed app := by
  obtain ⟨st, hr, hst⟩ := Run.exists_of_exec (step .full) (PromotesAlone app) (.boot frozenHost)
    ([.spawn (.offload app .archive .begin), .spawn (.checkout app .touch)] ++ promotesDump 0 ++
      goes 1 2 ++ runs 0 [.go, .ok])
    (fun st ↦ st.world.store.tierOf app = some .archived) (by decide +kernel) (by decide +kernel)
  exact ⟨st, hr, by simpa using hst, promotion_unshadowed frozenHost_covered hr⟩

def thaws (t : ℕ) : List Label :=
  goes t 9 ++ runs t [.listing [], .go, .created sb2, .go, .go, .ok, .ok, .ok]

/-- A promotion that claims the schema while a thaw is in flight archives it after the thaw has made
it live and a client has written to it. -/
theorem promotion_shadows_thaw : ∃ st, Reaches .full (PromotesOnly app) frozenHost st ∧
    ¬ st.Unshadowed app := by
  obtain ⟨st, hr, hst⟩ := Run.exists_of_exec (step .full) (PromotesOnly app) (.boot frozenHost)
    ([.spawn (.checkout app .touch), .spawn (.offload app .archive .begin)] ++ thaws 0 ++
      promotesDump 1 ++ runs 0 [.ok, .slots 10] ++ goes 0 6 ++ [.run 0 (.wrote 8), .run 1 .go])
    (fun st ↦ st.world.store.tierOf app = some .archived && st.world.archived app = some ⟨[7], 600⟩ &&
      st.world.acked app = [8, 7]) (by decide +kernel) (by decide +kernel)
  simp only [Bool.and_eq_true, decide_eq_true_eq] at hst
  obtain ⟨⟨htier, hcopy⟩, hacked⟩ := hst
  refine ⟨st, hr, fun h ↦ ?_⟩
  obtain ⟨c, hc, hsub⟩ := h.restored htier
  cases hcopy.symm.trans hc
  rw [hacked] at hsub
  exact absurd hsub (by decide)

end Runs

end PgVmPool
