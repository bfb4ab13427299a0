import PgVmPool.DumpInvariant

namespace PgVmPool.Dumps

open Function HostFiles HostPath Transition

variable {d : HostDirs} {srv srv' : Server} {s s' : ClientSchema} {i t : ℕ}

theorem Inv.uploading_accepts (h : Inv d srv) (hu : srv.Uploading t s) : issueAccepts s = true := by
  rcases hu with hp | ⟨r, hr, hw, -⟩
  · exact pendingOn_accepts h hp
  · obtain ⟨i, hi⟩ := List.mem_iff_getElem?.mp hr
    exact h.accepts hi (Request.busy_of_writing hw)

/-- Who writes to a schema's temp file is the schema's only upload. -/
theorem Inv.uploading_ne_of_writing (h : Inv d srv) {r : Request} (hr : srv.requests[i]? = some r)
    (hw : r.writing = some s') (ht : r.token ≠ t) (hu : srv.Uploading t s) : s ≠ s' := by
  rintro rfl
  rcases hu with hp | ⟨q, hq, hqw, hqt⟩
  · rw [h.unpending i r s hr hw] at hp
    cases hp
  · obtain ⟨j, hj⟩ := List.mem_iff_getElem?.mp hq
    obtain rfl := h.alone i j r q s hr hj hw (Request.busy_of_writing hqw)
    obtain rfl := Option.some_inj.mp (hr.symm.trans hj)
    exact ht hqt

theorem Server.Free.uploading_ne (hfree : srv.Free s') (hu : srv.Uploading t s) : s ≠ s' := by
  rintro rfl
  rcases hu with hp | ⟨q, hq, hqw, -⟩
  · rw [hfree.pendingOn_eq] at hp
    cases hp
  · exact hfree.quiet q hq (Request.busy_of_writing hqw)

theorem Inv.uploading_ne_of_pending (h : Inv d srv) {t' : ℕ} (hp : srv.pendingOn t' s' = true)
    (ht : t' ≠ t) (hu : srv.Uploading t s) : s ≠ s' := by
  rintro rfl
  rcases hu with hpt | ⟨q, hq, hqw, -⟩
  · exact ht (h.single t' t s hp hpt)
  · obtain ⟨j, hj⟩ := List.mem_iff_getElem?.mp hq
    rw [h.unpending j q s hj hqw] at hp
    cases hp

theorem Server.Own.uploading_ne {t' : ℕ} (ho : srv.Own t' s') (ht : t' ≠ t)
    (hu : srv.Uploading t s) : s ≠ s' := by
  rintro rfl
  rcases hu with hp | ⟨q, hq, hqw, hqt⟩
  · obtain ⟨g, n, hg, -, -⟩ := Server.pendingOn_iff.mp hp
    have hlt := (List.getElem?_eq_some_iff.mp (Option.join_eq_some_iff.mp hg)).1
    rw [ho.unpending t hlt (Ne.symm ht)] at hp
    cases hp
  · exact ht ((ho.writing q hq hqw).symm.trans hqt)

theorem read_rename_of_ne {fs fs' : Files (List Char) UInt8} (hs : issueAccepts s = true)
    (hs' : issueAccepts s' = true) (hne : s ≠ s')
    (h : fs.rename (d.tmpPath s') (d.dumpPath s') = some fs') :
    fs'.read (d.tmpPath s) = fs.read (d.tmpPath s) := by
  obtain ⟨f, hf, hlinks, hdata, -⟩ := Files.rename_eq h
  rw [Files.read, Files.read, hlinks, hdata, update_of_ne (dumpPath_ne_tmpPath s' hs).symm,
    update_of_ne fun he ↦ hne (tmpPath_inj hs hs' he)]

theorem read_remove_of_none {fs : Files (List Char) UInt8} {p q : List Char}
    (h : fs.read q = none) : (fs.remove q).read p = fs.read p := by
  by_cases he : p = q
  · subst he
    rw [h, Files.read, Files.remove_links_self]
    rfl
  · exact Files.remove_read_of_ne he

/-- All that one step of a request can do to the server. -/
inductive Effect (d : HostDirs) (srv : Server) : Request → Server → Prop
  | idle (r : Request) : Effect d srv r srv
  | create (u : Upload) (s : ClientSchema) :
    Effect d srv (.put u (.create s)) { srv with files := (srv.files.create (d.tmpPath s)).2 }
  | write (u : Upload) (s : ClientSchema) (f : ℕ) (bytes : List UInt8) :
    Effect d srv (.put u (.stream s f)) { srv with files := srv.files.write f u.received.length bytes }
  | publish (u : Upload) (s : ClientSchema) (f : ℕ) {files : Files (List Char) UInt8}
    (h : srv.files.rename (d.tmpPath s) (d.dumpPath s) = some files) :
    Effect d srv (.put u (.rename s f)) { srv with files := files }
  | record (u : Upload) (s : ClientSchema) (f : ℕ) :
    Effect d srv (.put u (.record s f)) (srv.modGrant u.token fun g ↦
      if u.declared.isSome then { g with completed := some u.received.length }
      else { g with pending := some u.received.length })
  | cleanup (u : Upload) (s : ClientSchema) :
    Effect d srv (.put u (.cleanup s)) { srv with files := srv.files.remove (d.tmpPath s) }
  | commit (t : ℕ) (s : ClientSchema) (n : ℕ) {files : Files (List Char) UInt8}
    (h : srv.files.rename (d.tmpPath s) (d.dumpPath s) = some files) :
    Effect d srv (.commit t (.rename s n)) { srv with files := files }
  | committed (t : ℕ) (s : ClientSchema) (n : ℕ) :
    Effect d srv (.commit t (.record s n))
      (srv.modGrant t fun g ↦ { g with pending := none, completed := some n })
  | clear (t : ℕ) (s : ClientSchema) :
    Effect d srv (.abort t (.clear s)) (srv.modGrant t fun g ↦ { g with pending := none })
  | remove (t : ℕ) (s : ClientSchema) :
    Effect d srv (.abort t (.remove s)) { srv with files := srv.files.remove (d.tmpPath s) }

theorem putStep_effect {u u' : Upload} {pc pc' : PutPc} {e : Event}
    (hs : putStep d srv u pc e = some (srv', u', pc')) : Effect d srv (.put u pc) srv' := by
  unfold putStep at hs
  split at hs
  · split at hs <;> (cases hs; exact .idle _)
  · cases hs
    exact .create u _
  · cases hs
    exact .idle _
  · dsimp only at hs
    split_ifs at hs
    · cases hs
      exact .write u _ _ _
    · cases hs
      exact .idle _
  · split_ifs at hs
    cases hs
    exact .idle _
  · cases hs
    exact .idle _
  · cases hs
    exact .idle _
  · cases hs
    exact .idle _
  · split at hs
    · cases hs
      exact .publish u _ _ ‹_›
    · cases hs
      exact .idle _
  · cases hs
    exact .idle _
  · cases hs
    exact .record u _ _
  · cases hs
    exact .cleanup u _
  · cases hs
    exact .idle _
  · cases hs

theorem commitStep_effect {pc pc' : CommitPc} {e : Event}
    (hs : commitStep d srv t pc e = some (srv', pc')) : Effect d srv (.commit t pc) srv' := by
  unfold commitStep at hs
  split at hs
  · split at hs <;> (cases hs; exact .idle _)
  · split at hs <;> (cases hs; exact .idle _)
  · split at hs
    · cases hs
      exact .commit t _ _ ‹_›
    · cases hs
      exact .idle _
  · cases hs
    exact .idle _
  · cases hs
    exact .committed t _ _
  · cases hs

theorem abortStep_effect {pc pc' : AbortPc} {e : Event}
    (hs : abortStep d srv t pc e = some (srv', pc')) : Effect d srv (.abort t pc) srv' := by
  unfold abortStep at hs
  split at hs
  · split at hs <;> (cases hs; exact .idle _)
  · cases hs
    exact .clear t _
  · cases hs
    exact .remove t _
  · cases hs
    exact .idle _
  · cases hs

theorem Request.step_effect {r r' : Request} {e : Event} (hs : r.step d srv e = some (srv', r')) :
    Effect d srv r srv' := by
  cases r with
  | put u pc =>
    obtain ⟨q, hq, he⟩ := Option.map_eq_some_iff.mp hs
    cases he
    exact putStep_effect hq
  | commit t pc =>
    obtain ⟨q, hq, he⟩ := Option.map_eq_some_iff.mp hs
    cases he
    exact commitStep_effect hq
  | abort t pc =>
    obtain ⟨q, hq, he⟩ := Option.map_eq_some_iff.mp hs
    cases he
    exact abortStep_effect hq

/-- A careful step with one token leaves the temp files of the others alone. -/
theorem Inv.effect_others (h : Inv d srv) {r : Request} {e : Event} (hr : srv.requests[i]? = some r)
    (hcare : Careful d srv (.act i e)) (heff : Effect d srv r srv') (ht : r.token ≠ t)
    (hu : srv.Uploading t s) : srv'.files.read (d.tmpPath s) = srv.files.read (d.tmpPath s) := by
  have hacc := h.uploading_accepts hu
  have hne : ∀ {s'}, r.writing = some s' → s ≠ s' := fun hw ↦ h.uploading_ne_of_writing hr hw ht hu
  have hpath : ∀ {s'}, issueAccepts s' = true → s ≠ s' → d.tmpPath s ≠ d.tmpPath s' :=
    fun ha hn he ↦ hn (tmpPath_inj hacc ha he)
  have hnames : ∀ {s'}, r.schema = some s' → issueAccepts s' = true := fun hs ↦ (h.names hr hs).accepted
  replace hcare := hcare _ hr
  cases heff with
  | idle => rfl
  | create u s' => exact Files.create_read_of_ne (hpath (hnames rfl) (hcare.uploading_ne hu))
  | write u s' f bytes =>
    have hok : PutOk d srv u (.stream s' f) := h.requests i _ hr
    exact Files.write_read_of_only (hok.opened s' f rfl rfl).only (hpath (hnames rfl) (hne rfl))
  | publish u s' f hren => exact read_rename_of_ne hacc (hnames rfl) (hne rfl) hren
  | record => rfl
  | cleanup u s' => exact Files.remove_read_of_ne (hpath (hnames rfl) (hne rfl))
  | commit t' s' n hren =>
    have hn := h.names hr (s := s') rfl
    obtain ⟨f, hf, -⟩ := Files.rename_eq hren
    have hpend : srv.pendingOn t' s' = true := by
      rcases hcare with hnone | hp
      · rw [Files.read, hf] at hnone
        cases hnone
      · obtain ⟨g, hg, hgn⟩ := Option.bind_eq_some_iff.mp hp
        exact Server.pendingOn_iff.mpr ⟨g, n, hg, hn.bound g hg, hgn⟩
    exact read_rename_of_ne hacc hn.accepted (h.uploading_ne_of_pending hpend ht hu) hren
  | committed => rfl
  | clear => rfl
  | remove t' s' =>
    rcases hcare with hnone | hown
    · exact read_remove_of_none hnone
    · exact Files.remove_read_of_ne (hpath (hnames rfl) (hown.uploading_ne ht hu))

theorem read_removeAll {paths : List (List Char)} {p : List Char} (hp : p ∉ paths)
    (fs : Files (List Char) UInt8) : (paths.foldl Files.remove fs).read p = fs.read p := by
  induction paths generalizing fs with
  | nil => rfl
  | cons q paths ih =>
    obtain ⟨hq, hrest⟩ := not_or.mp (mt List.mem_cons.mpr hp)
    exact (ih hrest _).trans (Files.remove_read_of_ne hq)

/-- The expiry of other tokens spares the uploads of a token that is still good. -/
theorem Inv.issue_others (h : Inv d srv) {schema : ClientSchema} {mode : Mode} {removed : Bool}
    (hs : srv.issue d schema mode removed = some srv')
    (ht : ¬∃ g, srv.grant t = some g ∧ srv.live g = false) (hu : srv.Uploading t s) :
    srv'.files.read (d.tmpPath s) = srv.files.read (d.tmpPath s) := by
  have hnot : d.tmpPath s ∉ srv.expiredTmp d := by
    intro hp
    obtain ⟨o, ho, hb⟩ := List.mem_filterMap.mp hp
    obtain ⟨g, rfl, he⟩ := Option.bind_eq_some_iff.mp hb
    split_ifs at he with hg
    obtain ⟨t', ht'⟩ := List.mem_iff_getElem?.mp ho
    have hgrant : srv.grant t' = some g := by
      rw [Server.grant, ht']
      rfl
    obtain ⟨n, hn⟩ := Option.isSome_iff_exists.mp hg.2
    have hsg : s = g.schema := (tmpPath_inj (h.accepted t' g hgrant) (h.uploading_accepts hu)
      (Option.some_inj.mp he)).symm
    have htt : t' ≠ t := by
      rintro rfl
      exact ht ⟨g, hgrant, hg.1⟩
    exact h.uploading_ne_of_pending (Server.pendingOn_iff.mpr ⟨g, n, hgrant, rfl, hn⟩) htt hu hsg
  rw [Server.issue] at hs
  split_ifs at hs
  · cases hs
    exact read_removeAll hnot _
  · cases hs
    rfl

theorem Inv.others (h : Inv d srv) {l : Action} (hcare : Careful d srv l)
    (hs : dumpStep d l srv = some srv') (hl : ¬l.concerns srv t) (hu : srv.Uploading t s) :
    srv'.files.read (d.tmpPath s) = srv.files.read (d.tmpPath s) := by
  cases l with
  | tick =>
    cases hs
    rfl
  | issue schema mode removed => exact h.issue_others hs hl hu
  | arrive r =>
    simp only [dumpStep] at hs
    split_ifs at hs
    cases hs
    rfl
  | cancel i =>
    obtain ⟨r', -, rfl⟩ := Option.map_eq_some_iff.mp hs
    rfl
  | act i e =>
    obtain ⟨r, hr, hs⟩ := Option.bind_eq_some_iff.mp hs
    obtain ⟨⟨next, r'⟩, ho, rfl⟩ := Option.map_eq_some_iff.mp hs
    have hread := h.effect_others hr hcare (Request.step_effect ho) (fun he ↦ hl ⟨r, hr, he⟩) hu
    exact hread

section Completion

variable {n : ℕ}

theorem Server.uploadCompleted_modGrant {t' : ℕ} {f : Grant → Grant}
    (h : (srv.modGrant t' f).uploadCompleted t = some n) :
    srv.uploadCompleted t = some n ∨ t = t' ∧ ∃ g, srv.grant t = some g ∧ (f g).completed = some n := by
  obtain ⟨g', hg', hn⟩ := Option.bind_eq_some_iff.mp h
  rw [Server.grant_modGrant] at hg'
  split_ifs at hg' with he
  · subst he
    obtain ⟨g, hg, rfl⟩ := Option.map_eq_some_iff.mp hg'
    exact .inr ⟨rfl, g, hg, hn⟩
  · exact .inl (Option.bind_eq_some_iff.mpr ⟨g', hg', hn⟩)

theorem Server.Names.bound_modGrant {t' : ℕ} {f : Grant → Grant} (h : srv.Names t s)
    {g : Grant} (hg : (srv.modGrant t' f).grant t = some g) (hf : ∀ g, (f g).schema = g.schema) :
    g.schema = s := by
  rw [Server.grant_modGrant] at hg
  split_ifs at hg with he
  · subst he
    obtain ⟨g', hg', rfl⟩ := Option.map_eq_some_iff.mp hg
    exact (hf g').trans (h.bound g' hg')
  · exact h.bound g hg

/-- The two steps that complete a token find its bytes published. -/
theorem Inv.effect_completes (h : Inv d srv) {r : Request} (hr : srv.requests[i]? = some r)
    (heff : Effect d srv r srv') (hn : srv'.uploadCompleted t = some n)
    (hold : srv.uploadCompleted t ≠ some n) :
    ∃ schema bytes, (∀ g, srv'.grant t = some g → g.schema = schema) ∧ srv.Body t n bytes ∧
      srv'.files.read (d.dumpPath schema) = some bytes := by
  cases heff with
  | record u s' f =>
    have hok : PutOk d srv u (.record s' f) := h.requests i _ hr
    rcases Server.uploadCompleted_modGrant hn with hn | ⟨rfl, g, hg, hn⟩
    · exact absurd hn hold
    · split_ifs at hn with hd
      · obtain ⟨hwhole, hlen⟩ := hok.late rfl
        have hn := Option.some_inj.mp hn
        obtain ⟨m, hm⟩ := Option.isSome_iff_exists.mp hd
        have hbound : ∀ g : Grant, (if u.declared.isSome then { g with completed := some u.received.length }
            else { g with pending := some u.received.length } : Grant).schema = g.schema := by
          intro g
          split_ifs
          rfl
        refine ⟨s', u.received, fun g hg ↦ (hok.names s' rfl).bound_modGrant hg hbound,
          ⟨u, _, List.mem_of_getElem? hr, rfl, hwhole, ?_, rfl, hn⟩, (hok.published s' f rfl hd).read⟩
        rw [hm] at hlen ⊢
        simp only [Option.all_some, decide_eq_true_eq] at hlen ⊢
        omega
      · exact absurd (Option.bind_eq_some_iff.mpr ⟨g, hg, hn⟩) hold
  | committed t' s' m =>
    have hok : CommitOk d srv t' (.record s' m) := h.requests i _ hr
    rcases Server.uploadCompleted_modGrant hn with hn | ⟨rfl, g, -, hn⟩
    · exact absurd hn hold
    · cases hn
      obtain ⟨bytes, hbody, hp⟩ := hok.published s' n rfl
      exact ⟨s', bytes, fun g hg ↦ (hok.names s' rfl).bound_modGrant hg fun _ ↦ rfl, hbody, hp.read⟩
  | clear t' s' =>
    rcases Server.uploadCompleted_modGrant hn with hn | ⟨-, g, hg, hn⟩
    · exact absurd hn hold
    · exact absurd (Option.bind_eq_some_iff.mpr ⟨g, hg, hn⟩) hold
  | idle => exact absurd hn hold
  | create => exact absurd hn hold
  | write => exact absurd hn hold
  | publish => exact absurd hn hold
  | cleanup => exact absurd hn hold
  | commit => exact absurd hn hold
  | remove => exact absurd hn hold

theorem putStep_upload {u u' : Upload} {pc pc' : PutPc} {e : Event}
    (hs : putStep d srv u pc e = some (srv', u', pc')) : u' = u ∨ ∃ s f, pc = .stream s f := by
  cases pc with
  | stream s f => exact .inr ⟨s, f, rfl⟩
  | authorize =>
    cases e with
    | ok =>
      simp only [putStep] at hs
      split at hs
      · cases hs
        exact .inl rfl
      · cases hs
        exact .inl rfl
    | fail => cases hs
    | chunk => cases hs
    | ended => cases hs
  | rename s f =>
    cases e with
    | ok =>
      simp only [putStep] at hs
      split at hs
      · cases hs
        exact .inl rfl
      · cases hs
        exact .inl rfl
    | fail =>
      cases hs
      exact .inl rfl
    | chunk => cases hs
    | ended => cases hs
  | create s => cases e <;> cases hs <;> exact .inl rfl
  | sync s f => cases e <;> cases hs <;> exact .inl rfl
  | record s f =>
    cases e with
    | ok =>
      cases hs
      exact .inl rfl
    | fail => cases hs
    | chunk => cases hs
    | ended => cases hs
  | cleanup s => cases e <;> cases hs <;> exact .inl rfl
  | done => cases e <;> cases hs

theorem Request.step_keeps {r r' : Request} {e : Event} (hok : r.Ok d srv)
    (hs : r.step d srv e = some (srv', r')) : Keeps r r' := by
  cases r with
  | put u pc =>
    obtain ⟨q, hq, he⟩ := Option.map_eq_some_iff.mp hs
    cases he
    rcases putStep_upload hq with hu | ⟨s, f, rfl⟩
    · rw [hu]
      exact keeps_put _ _ _
    · rintro v pc ⟨⟩ hw
      exact absurd (hok.early rfl) (by simp [hw])
  | commit t pc => exact keeps_commit _ _ _
  | abort t pc => exact keeps_abort _ _ _

theorem Inv.completes (h : Inv d srv) {l : Action} (hcare : Careful d srv l)
    (hs : dumpStep d l srv = some srv') (hn : srv'.uploadCompleted t = some n)
    (hold : srv.uploadCompleted t ≠ some n) :
    ∃ g bytes, srv'.grant t = some g ∧ srv'.Body t n bytes ∧
      srv'.files.read (d.dumpPath g.schema) = some bytes := by
  have h' := h.step hcare hs
  obtain ⟨g, hg, hgn⟩ := Option.bind_eq_some_iff.mp hn
  cases l with
  | tick =>
    cases hs
    exact absurd hn hold
  | issue schema mode removed =>
    rcases Server.grant_issue hs t hg with ⟨hg, -⟩ | ⟨-, -, rfl⟩
    · exact absurd (Option.bind_eq_some_iff.mpr ⟨g, hg, hgn⟩) hold
    · cases hgn
  | arrive r =>
    simp only [dumpStep] at hs
    split_ifs at hs
    cases hs
    exact absurd hn hold
  | cancel i =>
    obtain ⟨r', -, rfl⟩ := Option.map_eq_some_iff.mp hs
    exact absurd hn hold
  | act i e =>
    obtain ⟨r, hr, hs⟩ := Option.bind_eq_some_iff.mp hs
    obtain ⟨⟨next, r'⟩, ho, rfl⟩ := Option.map_eq_some_iff.mp hs
    have heff := Request.step_effect ho
    obtain ⟨schema, bytes, hbound, hbody, hread⟩ := h.effect_completes hr heff hn hold
    obtain rfl := hbound g hg
    exact ⟨g, bytes, hg, hbody.set hr rfl (Request.step_keeps (h.requests i r hr) ho), hread⟩

end Completion

/-- In every run in which the temp file of a schema changes hands only when nobody else's bytes are
in it, a completed token is one of its own complete bodies and no token disturbs another's. -/
theorem uploads_exact (h : Run (dumpStep d) (Careful d) .init srv) {l : Action} (hl : Careful d srv l)
    (hs : dumpStep d l srv = some srv') : UploadSafe d srv l srv' := by
  have hinv : Inv d srv := h.invariant inv_init fun _ _ _ hI hc hs ↦ hI.step hc hs
  exact ⟨fun t n hn hold ↦ hinv.completes hl hs hn hold, fun t s hc hu ↦ hinv.others hl hs hc hu⟩

def arrivePut (token : ℕ) (declared : Option ℕ) : Action :=
  .arrive (.put ⟨token, declared, [], false⟩ .authorize)

def streamed : List Action :=
  [.issue plainX .put true, arrivePut 0 none, .act 0 .ok, .act 0 .ok, .act 0 (.chunk [1, 2]),
    .act 0 .ended, .act 0 .ok, .act 0 .ok, .arrive (.commit 0 .authorize), .act 1 .ok, .act 1 .ok,
    .act 1 .ok]

theorem uploads_exact_run : ∃ srv srv', Run (dumpStep dirs) (Careful dirs) .init srv ∧
    dumpStep dirs (.act 1 .ok) srv = some srv' ∧ srv'.uploadCompleted 0 = some 2 ∧
      UploadSafe dirs srv (.act 1 .ok) srv' := by
  obtain ⟨srv, hr, hp⟩ := Run.exists_of_exec (dumpStep dirs) (Careful dirs) .init streamed
    (fun srv ↦ decide (Careful dirs srv (.act 1 .ok)) &&
      (dumpStep dirs (.act 1 .ok) srv).any fun srv' ↦ srv'.uploadCompleted 0 = some 2)
    (by decide +kernel) (by decide +kernel)
  obtain ⟨hc, hp⟩ := Bool.and_eq_true_iff.mp hp
  obtain ⟨srv', hs, hn⟩ := (Option.any_eq_true _ _).mp hp
  exact ⟨srv, srv', hr, hs, of_decide_eq_true hn, uploads_exact hr (of_decide_eq_true hc) hs⟩

/-- Two tokens of one schema: the second upload empties the first one's temp file and writes the
first byte of what the first token then completes with. -/
def truncated : List Action :=
  [.issue plainX .put true, .issue plainX .put true, arrivePut 0 (some 2), .act 0 .ok, .act 0 .ok,
    .act 0 (.chunk [1]), arrivePut 1 (some 2), .act 1 .ok, .act 1 .ok, .act 1 (.chunk [9]),
    .act 0 (.chunk [2]), .act 0 .ended, .act 0 .ok, .act 0 .ok]

def Server.bodies (srv : Server) (token : ℕ) : List (List UInt8) :=
  srv.requests.filterMap fun
    | .put u _ => if u.token = token then some u.received else none
    | .commit _ _ | .abort _ _ => none

theorem Server.Body.mem_bodies {n : ℕ} {bytes : List UInt8} (h : srv.Body t n bytes) :
    bytes ∈ srv.bodies t := by
  obtain ⟨u, pc, hm, ht, -, -, rfl, -⟩ := h
  exact List.mem_filterMap.mpr ⟨.put u pc, hm, if_pos ht⟩

theorem uploads_mixed : ∃ srv srv', Run (dumpStep dirs) (fun _ _ ↦ True) .init srv ∧
    dumpStep dirs (.act 0 .ok) srv = some srv' ∧ srv'.uploadCompleted 0 = some 2 ∧
      srv'.files.read (dirs.dumpPath plainX) = some [9, 2] ∧ srv'.bodies 0 = [[1, 2]] ∧
      ¬UploadSafe dirs srv (.act 0 .ok) srv' := by
  obtain ⟨srv, hr, hp⟩ := Run.exists_of_exec (dumpStep dirs) (fun _ _ ↦ True) .init truncated
    (fun srv ↦ srv.uploadCompleted 0 = none && (dumpStep dirs (.act 0 .ok) srv).any fun srv' : Server ↦
      decide (srv'.uploadCompleted 0 = some 2 ∧ (srv'.grant 0).map (·.schema) = some plainX ∧
        srv'.files.read (dirs.dumpPath plainX) = some [9, 2] ∧ srv'.bodies 0 = [[1, 2]]))
    (by decide +kernel) (by decide +kernel)
  obtain ⟨hold, hp⟩ := Bool.and_eq_true_iff.mp hp
  obtain ⟨srv', hs, hq⟩ := (Option.any_eq_true _ _).mp hp
  obtain ⟨hn, hgrant, hread, hbodies⟩ := of_decide_eq_true hq
  refine ⟨srv, srv', hr, hs, hn, hread, hbodies, fun hsafe ↦ ?_⟩
  obtain ⟨g, bytes, hg, hbody, hbytes⟩ := hsafe.complete 0 2 hn (by rw [of_decide_eq_true hold]; simp)
  rw [hg, Option.map_some, Option.some_inj] at hgrant
  rw [hgrant, hread, Option.some_inj] at hbytes
  have hmem := hbody.mem_bodies
  rw [hbodies, ← hbytes] at hmem
  exact absurd hmem (by decide)

end PgVmPool.Dumps
