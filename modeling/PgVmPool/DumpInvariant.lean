import PgVmPool.DumpServer

namespace PgVmPool.Dumps

open Function HostFiles HostPath Transition

variable {d : HostDirs} {srv srv' : Server} {s s' : ClientSchema}

section Paths

theorem dumpPath_eq (d : HostDirs) (s : ClientSchema) :
    d.dumpPath s = join d.dumpDir.path s.text.toList ++ ".dump".toList := by
  rw [HostDirs.dumpPath, String.toList_append, join_append s.toList_ne_nil]

theorem tmpPath_eq_append (hs : issueAccepts s = true) :
    d.tmpPath s = join d.dumpDir.path s.text.toList ++ ".dump.tmp".toList := by
  rw [tmpPath_eq d hs, join_append s.toList_ne_nil]

theorem dumpPath_ne_tmpPath (s : ClientSchema) (hs : issueAccepts s' = true) :
    d.dumpPath s ≠ d.tmpPath s' := by
  rw [dumpPath_eq, tmpPath_eq_append hs]
  intro h
  have := (suffix_inj (by simp [suffixes]) (by simp [suffixes]) h).1
  exact absurd this (by decide)

theorem join_inj (hs : issueAccepts s = true) (hs' : issueAccepts s' = true)
    (h : join d.dumpDir.path s.text.toList = join d.dumpDir.path s'.text.toList) : s = s' := by
  have hrel : ∀ {t : ClientSchema}, issueAccepts t = true → t.text.toList.head? ≠ some '/' :=
    fun ht hh ↦ noSlash_of_issueAccepts ht (List.mem_of_mem_head? hh)
  simp only [join, if_neg (hrel hs), if_neg (hrel hs')] at h
  have hname : s.text.toList = s'.text.toList := by
    split_ifs at h
    · exact List.append_cancel_left h
    · exact List.cons_injective (List.append_cancel_left h)
  cases s
  cases s'
  obtain rfl := String.toList_inj.mp hname
  rfl

theorem tmpPath_inj (hs : issueAccepts s = true) (hs' : issueAccepts s' = true)
    (h : d.tmpPath s = d.tmpPath s') : s = s' := by
  rw [tmpPath_eq_append hs, tmpPath_eq_append hs'] at h
  exact join_inj hs hs' (List.append_cancel_right h)

theorem dumpPath_inj (hs : issueAccepts s = true) (hs' : issueAccepts s' = true)
    (h : d.dumpPath s = d.dumpPath s') : s = s' := by
  rw [dumpPath_eq, dumpPath_eq] at h
  exact join_inj hs hs' (List.append_cancel_right h)

end Paths

namespace PutPc

def schema : PutPc → Option ClientSchema
  | .create s => some s
  | pc => pc.writing

/-- The open file, or the temp file a streamed upload is about to leave behind. -/
def file (declared : Option ℕ) : PutPc → Option ℕ
  | .stream _ f | .sync _ f | .rename _ f => some f
  | .record _ f => if declared.isSome then none else some f
  | .authorize | .create _ | .cleanup _ | .done => none

def unopened : PutPc → Bool
  | .authorize | .create _ => true
  | _ => false

def early : PutPc → Bool
  | .authorize | .create _ | .stream _ _ => true
  | _ => false

def late : PutPc → Bool
  | .sync _ _ | .rename _ _ | .record _ _ => true
  | _ => false

end PutPc

def CommitPc.schema : CommitPc → Option ClientSchema
  | .read s | .rename s _ | .record s _ => some s
  | .authorize | .done => none

def AbortPc.schema : AbortPc → Option ClientSchema
  | .clear s | .remove s => some s
  | .authorize | .done => none

namespace Request

def schema : Request → Option ClientSchema
  | .put _ pc => pc.schema
  | .commit _ pc => pc.schema
  | .abort _ pc => pc.schema

def file : Request → Option ℕ
  | .put u pc => pc.file u.declared
  | .commit _ _ | .abort _ _ => none

theorem busy_of_writing {r : Request} (h : r.writing = some s) : r.busy = some s := by
  cases r with
  | put => exact h
  | commit => cases h
  | abort => cases h

theorem schema_of_busy {r : Request} (h : r.busy = some s) : r.schema = some s := by
  cases r with
  | put u pc => cases pc <;> simp_all [busy, schema, PutPc.schema, PutPc.writing]
  | commit t pc => cases pc <;> simp_all [busy, schema, CommitPc.schema]
  | abort => cases h

end Request

/-- The token is bound to the schema for as long as it is known. -/
structure Server.Names (srv : Server) (token : ℕ) (schema : ClientSchema) : Prop where
  known : token < srv.tokens.length
  accepted : issueAccepts schema = true
  bound : ∀ g, srv.grant token = some g → g.schema = schema

/-- What is open as `f` is the temp file of the schema, unless that was removed. -/
structure Opened (d : HostDirs) (fs : Files (List Char) UInt8) (schema : ClientSchema) (f : ℕ)
    (bytes : List UInt8) : Prop where
  only : fs.Only (d.tmpPath schema) f
  linked : fs.links (d.tmpPath schema) = some f ∨ fs.links (d.tmpPath schema) = none
  data : fs.data f = bytes

structure Published (d : HostDirs) (fs : Files (List Char) UInt8) (schema : ClientSchema)
    (bytes : List UInt8) : Prop where
  moved : fs.links (d.tmpPath schema) = none
  read : fs.read (d.dumpPath schema) = some bytes

structure PutOk (d : HostDirs) (srv : Server) (u : Upload) (pc : PutPc) : Prop where
  names : ∀ s, pc.schema = some s → srv.Names u.token s
  opened : ∀ s f, pc.writing = some s → pc.file u.declared = some f → Opened d srv.files s f u.received
  unopened : pc.unopened = true → u.received = []
  early : pc.early = true → u.whole = false
  late : pc.late = true → u.whole = true ∧ u.declared.all (u.received.length = ·) = true
  declared : ∀ s f, pc = .rename s f → u.declared.isSome = true
  published : ∀ s f, pc = .record s f → u.declared.isSome = true → Published d srv.files s u.received

structure CommitOk (d : HostDirs) (srv : Server) (token : ℕ) (pc : CommitPc) : Prop where
  names : ∀ s, pc.schema = some s → srv.Names token s
  published : ∀ s n, pc = .record s n → ∃ bytes, srv.Body token n bytes ∧ Published d srv.files s bytes

def Request.Ok (d : HostDirs) (srv : Server) : Request → Prop
  | .put u pc => PutOk d srv u pc
  | .commit token pc => CommitOk d srv token pc
  | .abort token pc => ∀ s, pc.schema = some s → srv.Names token s

structure Inv (d : HostDirs) (srv : Server) : Prop where
  accepted : ∀ t g, srv.grant t = some g → issueAccepts g.schema = true
  requests : ∀ (i : ℕ) (r : Request), srv.requests[i]? = some r → r.Ok d srv
  alone : ∀ (i j : ℕ) (r q : Request) s, srv.requests[i]? = some r → srv.requests[j]? = some q →
    r.writing = some s → q.busy = some s → i = j
  files : ∀ (i j : ℕ) (r q : Request) f, srv.requests[i]? = some r → srv.requests[j]? = some q →
    r.file = some f → q.file = some f → i = j
  unpending : ∀ (i : ℕ) (r : Request) s, srv.requests[i]? = some r → r.writing = some s →
    ∀ t, srv.pendingOn t s = false
  single : ∀ t t' s, srv.pendingOn t s = true → srv.pendingOn t' s = true → t = t'
  pending : ∀ t g n, srv.grant t = some g → g.pending = some n →
    srv.files.read (d.tmpPath g.schema) = none ∨
      ∃ bytes, srv.Body t n bytes ∧ srv.files.read (d.tmpPath g.schema) = some bytes

/-- What a change of the files leaves to the uploads of the schema. -/
structure Same (d : HostDirs) (fs fs' : Files (List Char) UInt8) (schema : ClientSchema) : Prop where
  only : ∀ f, fs.Only (d.tmpPath schema) f → fs'.Only (d.tmpPath schema) f
  linked : fs'.links (d.tmpPath schema) = fs.links (d.tmpPath schema) ∨
    fs'.links (d.tmpPath schema) = none
  dump : fs'.read (d.dumpPath schema) = fs.read (d.dumpPath schema)

section Frame

variable {fs fs' : Files (List Char) UInt8} {f : ℕ} {bytes : List UInt8}

theorem Same.refl (fs : Files (List Char) UInt8) (s : ClientSchema) : Same d fs fs s :=
  ⟨fun _ h ↦ h, .inl rfl, rfl⟩

theorem Opened.frame (h : Opened d fs s f bytes) (hs : Same d fs fs' s)
    (hd : fs'.data f = fs.data f) : Opened d fs' s f bytes where
  only := hs.only f h.only
  linked := by
    rcases hs.linked with hl | hl
    · rw [hl]
      exact h.linked
    · exact .inr hl
  data := hd.trans h.data

theorem Published.frame (h : Published d fs s bytes) (hs : Same d fs fs' s) :
    Published d fs' s bytes where
  moved := by
    rcases hs.linked with hl | hl
    · exact hl.trans h.moved
    · exact hl
  read := hs.dump.trans h.read

theorem Request.writing_of_file {u : Upload} {pc : PutPc} (h : pc.file u.declared = some f) :
    ∃ s, pc.writing = some s := by
  cases pc <;> first | exact ⟨_, rfl⟩ | cases h

theorem Request.Ok.frame {q : Request} (h : q.Ok d srv)
    (hs : ∀ s, q.busy = some s → Same d srv.files srv'.files s)
    (hd : ∀ f, q.file = some f → srv'.files.data f = srv.files.data f)
    (hn : ∀ t s, srv.Names t s → srv'.Names t s)
    (hb : ∀ t n bytes, srv.Body t n bytes → srv'.Body t n bytes) : q.Ok d srv' := by
  cases q with
  | put u pc =>
    exact {
      names := fun s hps ↦ hn _ _ (h.names s hps)
      opened := fun s f hw hf ↦ (h.opened s f hw hf).frame (hs s hw) (hd f hf)
      unopened := h.unopened
      early := h.early
      late := h.late
      declared := h.declared
      published := fun s f hpc hu ↦ (h.published s f hpc hu).frame (hs s (hpc ▸ rfl)) }
  | commit t pc =>
    refine ⟨fun s hps ↦ hn _ _ (h.names s hps), ?_⟩
    rintro s n rfl
    obtain ⟨bytes, hbody, hp⟩ := h.published s n rfl
    exact ⟨bytes, hb _ _ _ hbody, hp.frame (hs s rfl)⟩
  | abort t pc => exact fun s hps ↦ hn _ _ (h s hps)

end Frame

section Change

variable {i : ℕ} {r r' : Request}

/-- A PUT that has its whole body keeps it. -/
def Keeps (r r' : Request) : Prop := ∀ u pc, r = .put u pc → u.whole = true → ∃ pc', r' = .put u pc'

theorem Server.Body.set (hr : srv.requests[i]? = some r)
    (hreq : srv'.requests = srv.requests.set i r') (hk : Keeps r r') {t n : ℕ} {bytes : List UInt8}
    (h : srv.Body t n bytes) : srv'.Body t n bytes := by
  obtain ⟨u, pc, hm, ht, hw, hd, hb, hl⟩ := h
  obtain ⟨j, hj⟩ := List.mem_iff_getElem?.mp hm
  have hi := (List.getElem?_eq_some_iff.mp hr).1
  by_cases hji : j = i
  · subst hji
    obtain ⟨pc', rfl⟩ := hk u pc (Option.some_inj.mp (hr.symm.trans hj)) hw
    refine ⟨u, pc', hreq ▸ List.mem_iff_getElem?.mpr ⟨j, ?_⟩, ht, hw, hd, hb, hl⟩
    rw [List.getElem?_set_self hi]
  · refine ⟨u, pc, hreq ▸ List.mem_iff_getElem?.mpr ⟨j, ?_⟩, ht, hw, hd, hb, hl⟩
    rw [List.getElem?_set_ne (Ne.symm hji), hj]

/-- One request moves on: what the rest of the server must see of it. -/
structure Moves (d : HostDirs) (srv srv' : Server) (i : ℕ) (r r' : Request) : Prop where
  here : srv.requests[i]? = some r
  requests : srv'.requests = srv.requests.set i r'
  keeps : Keeps r r'
  names : ∀ t s, srv.Names t s → srv'.Names t s
  same : ∀ (j : ℕ) (q : Request) s, j ≠ i → srv.requests[j]? = some q → q.busy = some s →
    Same d srv.files srv'.files s
  data : ∀ (j : ℕ) (q : Request) f, j ≠ i → srv.requests[j]? = some q → q.file = some f →
    srv'.files.data f = srv.files.data f
  writing : ∀ s, r'.writing = some s → r.writing = some s ∨
    ∀ (j : ℕ) (q : Request), j ≠ i → srv.requests[j]? = some q → q.busy ≠ some s
  busy : ∀ s, r'.busy = some s → r'.writing = some s ∨ r.busy = some s ∨
    ∀ (j : ℕ) (q : Request), j ≠ i → srv.requests[j]? = some q → q.writing ≠ some s
  file : ∀ f, r'.file = some f → r.file = some f ∨
    ∀ (j : ℕ) (q : Request), j ≠ i → srv.requests[j]? = some q → q.file ≠ some f

theorem Moves.cases (m : Moves d srv srv' i r r') {j : ℕ} {q : Request}
    (h : srv'.requests[j]? = some q) : j = i ∧ q = r' ∨ j ≠ i ∧ srv.requests[j]? = some q :=
  getElem?_set_cases (m.requests ▸ h)

theorem Moves.body (m : Moves d srv srv' i r r') {t n : ℕ} {bytes : List UInt8}
    (h : srv.Body t n bytes) : srv'.Body t n bytes :=
  h.set m.here m.requests m.keeps

theorem Inv.of_moves (h : Inv d srv) (m : Moves d srv srv' i r r') (hok : r'.Ok d srv')
    (haccepted : ∀ t g, srv'.grant t = some g → issueAccepts g.schema = true)
    (hunpending : ∀ (j : ℕ) (q : Request) s, srv'.requests[j]? = some q → q.writing = some s →
      ∀ t, srv'.pendingOn t s = false)
    (hsingle : ∀ t t' s, srv'.pendingOn t s = true → srv'.pendingOn t' s = true → t = t')
    (hpending : ∀ t g n, srv'.grant t = some g → g.pending = some n →
      srv'.files.read (d.tmpPath g.schema) = none ∨
        ∃ bytes, srv'.Body t n bytes ∧ srv'.files.read (d.tmpPath g.schema) = some bytes) :
    Inv d srv' where
  accepted := haccepted
  requests := by
    intro j q hj
    rcases m.cases hj with ⟨-, rfl⟩ | ⟨hji, hj⟩
    · exact hok
    · exact (h.requests j q hj).frame (fun s ↦ m.same j q s hji hj) (fun f ↦ m.data j q f hji hj)
        m.names fun _ _ _ ↦ m.body
  alone := by
    intro j k q q' s hj hk hq hq'
    rcases m.cases hj with ⟨rfl, rfl⟩ | ⟨hji, hj⟩
    · rcases m.cases hk with ⟨rfl, -⟩ | ⟨hki, hk⟩
      · rfl
      · rcases m.writing s hq with hw | hfree
        · exact h.alone _ k _ q' s m.here hk hw hq'
        · exact absurd hq' (hfree k q' hki hk)
    · rcases m.cases hk with ⟨rfl, rfl⟩ | ⟨-, hk⟩
      · rcases m.busy s hq' with hw | hw | hfree
        · rcases m.writing s hw with hw | hfree
          · exact h.alone j _ q _ s hj m.here hq (Request.busy_of_writing hw)
          · exact absurd (Request.busy_of_writing hq) (hfree j q hji hj)
        · exact h.alone j _ q _ s hj m.here hq hw
        · exact absurd hq (hfree j q hji hj)
      · exact h.alone j k q q' s hj hk hq hq'
  files := by
    intro j k q q' f hj hk hq hq'
    rcases m.cases hj with ⟨rfl, rfl⟩ | ⟨hji, hj⟩
    · rcases m.cases hk with ⟨rfl, -⟩ | ⟨hki, hk⟩
      · rfl
      · rcases m.file f hq with hf | hfree
        · exact h.files _ k _ q' f m.here hk hf hq'
        · exact absurd hq' (hfree k q' hki hk)
    · rcases m.cases hk with ⟨rfl, rfl⟩ | ⟨-, hk⟩
      · rcases m.file f hq' with hf | hfree
        · exact h.files j _ q _ f hj m.here hq hf
        · exact absurd hq (hfree j q hji hj)
      · exact h.files j k q q' f hj hk hq hq'
  unpending := hunpending
  single := hsingle
  pending := hpending

theorem Server.grant_congr (ht : srv'.tokens = srv.tokens) (t : ℕ) : srv'.grant t = srv.grant t := by
  rw [Server.grant, Server.grant, ht]

theorem Server.pendingOn_congr (ht : srv'.tokens = srv.tokens) (t : ℕ) (s : ClientSchema) :
    srv'.pendingOn t s = srv.pendingOn t s := by
  rw [Server.pendingOn, Server.pendingOn, Server.grant_congr ht]

theorem Server.Names.congr (ht : srv'.tokens = srv.tokens) {t : ℕ} (h : srv.Names t s) :
    srv'.Names t s :=
  ⟨ht ▸ h.known, h.accepted, fun g hg ↦ h.bound g (by rwa [Server.grant_congr ht] at hg)⟩

theorem Server.pendingOn_iff {t : ℕ} :
    srv.pendingOn t s = true ↔ ∃ g n, srv.grant t = some g ∧ g.schema = s ∧ g.pending = some n := by
  simp only [Server.pendingOn, Option.any_eq_true, Bool.and_eq_true, decide_eq_true_eq,
    Option.isSome_iff_exists]
  constructor
  · rintro ⟨g, hg, hs, n, hn⟩
    exact ⟨g, n, hg, hs, hn⟩
  · rintro ⟨g, n, hg, hs, hn⟩
    exact ⟨g, hg, hs, n, hn⟩

/-- A step that leaves the grants alone keeps the invariant when it keeps the pending bytes. -/
theorem Inv.of_files (h : Inv d srv) (m : Moves d srv srv' i r r') (hok : r'.Ok d srv')
    (ht : srv'.tokens = srv.tokens)
    (hfree : ∀ s, r'.writing = some s → r.writing = some s ∨ ∀ t, srv.pendingOn t s = false)
    (hread : ∀ t s, srv.pendingOn t s = true → srv'.files.read (d.tmpPath s) = none ∨
      srv'.files.read (d.tmpPath s) = srv.files.read (d.tmpPath s)) : Inv d srv' := by
  refine h.of_moves m hok ?_ ?_ ?_ ?_
  · intro t g hg
    exact h.accepted t g (by rwa [Server.grant_congr ht] at hg)
  · intro j q s hj hq t
    rw [Server.pendingOn_congr ht]
    rcases m.cases hj with ⟨rfl, rfl⟩ | ⟨-, hj⟩
    · rcases hfree s hq with hw | hfree
      · exact h.unpending _ r s m.here hw t
      · exact hfree t
    · exact h.unpending j q s hj hq t
  · intro t t' s hs hs'
    rw [Server.pendingOn_congr ht] at hs hs'
    exact h.single t t' s hs hs'
  · intro t g n hg hn
    rw [Server.grant_congr ht] at hg
    rcases hread t g.schema (Server.pendingOn_iff.mpr ⟨g, n, hg, rfl, hn⟩) with hr | hr
    · exact .inl hr
    · rcases h.pending t g n hg hn with hnone | ⟨bytes, hb, hbytes⟩
      · exact .inl (hr.trans hnone)
      · exact .inr ⟨bytes, m.body hb, hr.trans hbytes⟩

/-- A step that touches nothing but its own request. -/
theorem Inv.quiet (h : Inv d srv) (hr : srv.requests[i]? = some r)
    (he : srv' = { srv with requests := srv.requests.set i r' }) (hk : Keeps r r')
    (hw : ∀ s, r'.writing = some s → r.writing = some s)
    (hb : ∀ s, r'.busy = some s → r.busy = some s)
    (hf : ∀ f, r'.file = some f → r.file = some f)
    (hok : r'.Ok d srv) : Inv d srv' := by
  have ht : srv'.tokens = srv.tokens := by rw [he]
  have hfs : srv'.files = srv.files := by rw [he]
  have m : Moves d srv srv' i r r' := {
    here := hr
    requests := by rw [he]
    keeps := hk
    names := fun _ _ hn ↦ hn.congr ht
    same := fun _ _ s _ _ _ ↦ hfs ▸ .refl _ s
    data := fun _ _ _ _ _ _ ↦ by rw [hfs]
    writing := fun s hs ↦ .inl (hw s hs)
    busy := fun s hs ↦ .inr (.inl (hb s hs))
    file := fun f hs ↦ .inl (hf f hs) }
  refine h.of_files m ?_ ht (fun s hs ↦ .inl (hw s hs)) fun _ _ _ ↦ .inr (by rw [hfs])
  exact hok.frame (fun s _ ↦ hfs ▸ .refl _ s) (fun f _ ↦ by rw [hfs]) m.names fun _ _ _ ↦ m.body

end Change

section Same

variable {fs fs' : Files (List Char) UInt8} {f : ℕ} {bytes : List UInt8}

theorem Same.create (hs : issueAccepts s = true) (hs' : issueAccepts s' = true) (hne : s' ≠ s) :
    Same d fs (fs.create (d.tmpPath s)).2 s' where
  only := by
    intro f hf
    have hp : d.tmpPath s' ≠ d.tmpPath s := fun h ↦ hne (tmpPath_inj hs' hs h)
    refine ⟨hf.1.trans_le (Files.create_next_le fs _), fun q hq ↦ ?_⟩
    by_cases hqs : q = d.tmpPath s
    · subst hqs
      rw [Files.create_links_self, Option.some_inj] at hq
      rcases Files.create_fst fs (d.tmpPath s) with hold | ⟨-, hnew⟩
      · exact hf.2 _ (hq ▸ hold)
      · exact absurd hf.1 (by rw [← hq, hnew]; exact lt_irrefl _)
    · exact hf.2 q (by rwa [Files.create_links_of_ne hqs] at hq)
  linked := .inl (Files.create_links_of_ne fun h ↦ hne (tmpPath_inj hs' hs h))
  dump := Files.create_read_of_ne (dumpPath_ne_tmpPath s' hs)

theorem Same.write (hs : issueAccepts s = true) (hf : fs.Only (d.tmpPath s) f) (off : ℕ)
    (s' : ClientSchema) : Same d fs (fs.write f off bytes) s' where
  only := fun _ h ↦ h
  linked := .inl rfl
  dump := Files.write_read_of_only hf (dumpPath_ne_tmpPath s' hs)

theorem Same.remove (hs : issueAccepts s = true) (s' : ClientSchema) :
    Same d fs (fs.remove (d.tmpPath s)) s' where
  only := by
    intro f hf
    refine ⟨hf.1, fun q hq ↦ ?_⟩
    rcases update_link_cases hq with ⟨-, hq⟩ | ⟨-, hq⟩
    · cases hq
    · exact hf.2 q hq
  linked := by
    by_cases h : d.tmpPath s' = d.tmpPath s
    · exact .inr (h ▸ Files.remove_links_self fs _)
    · exact .inl (Files.remove_links_of_ne h)
  dump := Files.remove_read_of_ne (dumpPath_ne_tmpPath s' hs)

theorem Same.rename (hs : issueAccepts s = true) (hs' : issueAccepts s' = true) (hne : s' ≠ s)
    (h : fs.rename (d.tmpPath s) (d.dumpPath s) = some fs') : Same d fs fs' s' := by
  obtain ⟨i, hi, hlinks, hdata, hnext⟩ := Files.rename_eq h
  have htmp : d.tmpPath s' ≠ d.tmpPath s := fun h ↦ hne (tmpPath_inj hs' hs h)
  have hdump : d.dumpPath s' ≠ d.dumpPath s := fun h ↦ hne (dumpPath_inj hs' hs h)
  refine ⟨fun f hf ↦ ⟨hnext ▸ hf.1, fun q hq ↦ ?_⟩, .inl ?_, ?_⟩
  · rw [hlinks] at hq
    rcases update_link_cases hq with ⟨-, hfi⟩ | ⟨-, hq⟩
    · exact absurd (hf.2 _ (hi.trans hfi)).symm htmp
    · rcases update_link_cases hq with ⟨-, hq⟩ | ⟨-, hq⟩
      · cases hq
      · exact hf.2 q hq
  · rw [hlinks, update_of_ne (dumpPath_ne_tmpPath s hs').symm, update_of_ne htmp]
  · rw [Files.read, Files.read, hlinks, hdata, update_of_ne hdump,
      update_of_ne (dumpPath_ne_tmpPath s' hs)]

theorem Published.rename (hs : issueAccepts s = true)
    (h : fs.rename (d.tmpPath s) (d.dumpPath s) = some fs')
    (hb : fs.read (d.tmpPath s) = some bytes) : Published d fs' s bytes := by
  obtain ⟨i, hi, hlinks, hdata, -⟩ := Files.rename_eq h
  constructor
  · rw [hlinks, update_of_ne (dumpPath_ne_tmpPath s hs).symm, update_self]
  · rw [Files.read, hlinks, update_self, hdata]
    rwa [Files.read, hi] at hb

end Same

section Steps

variable {i : ℕ} {u : Upload}

theorem Server.authorize_names (h : Inv d srv) {t : ℕ} {mode : Mode}
    (ha : srv.authorize t mode = some s) : srv.Names t s := by
  obtain ⟨g, hg, hs⟩ := Option.bind_eq_some_iff.mp ha
  split at hs
  · cases hs
    refine ⟨?_, h.accepted t g hg, fun g' hg' ↦ ?_⟩
    · obtain ⟨hlt, -⟩ := List.getElem?_eq_some_iff.mp (Option.join_eq_some_iff.mp hg)
      exact hlt
    · rw [Option.some_inj.mp (hg.symm.trans hg')]
  · cases hs

theorem Inv.names (h : Inv d srv) {r : Request} (hr : srv.requests[i]? = some r)
    (hs : r.schema = some s) : srv.Names r.token s := by
  have hok := h.requests i r hr
  cases r with
  | put u pc => exact hok.names s hs
  | commit t pc => exact hok.names s hs
  | abort t pc => exact hok s hs

theorem Inv.accepts (h : Inv d srv) {j : ℕ} {q : Request} (hq : srv.requests[j]? = some q)
    (hs : q.busy = some s) : issueAccepts s = true :=
  (h.names hq (Request.schema_of_busy hs)).accepted

theorem Server.Free.pendingOn_eq (h : srv.Free s) (t : ℕ) : srv.pendingOn t s = false := by
  by_cases ht : t < srv.tokens.length
  · exact h.unpending t ht
  · simp [Server.pendingOn, Server.grant, List.getElem?_eq_none (not_lt.mp ht)]

theorem Server.Free.busy_ne (h : srv.Free s) {j : ℕ} {q : Request} (hq : srv.requests[j]? = some q) :
    q.busy ≠ some s :=
  h.quiet q (List.mem_of_getElem? hq)

theorem pendingOn_accepts (h : Inv d srv) {t : ℕ} (hp : srv.pendingOn t s = true) :
    issueAccepts s = true := by
  obtain ⟨g, -, hg, rfl, -⟩ := Server.pendingOn_iff.mp hp
  exact h.accepted t g hg

theorem Inv.create (h : Inv d srv) (hr : srv.requests[i]? = some (.put u (.create s)))
    (hfree : srv.Free s) (ht : srv'.tokens = srv.tokens)
    (hfs : srv'.files = (srv.files.create (d.tmpPath s)).2)
    (hreq : srv'.requests =
      srv.requests.set i (.put u (.stream s (srv.files.create (d.tmpPath s)).1))) :
    Inv d srv' := by
  have hok : PutOk d srv u (.create s) := h.requests i _ hr
  have hn := hok.names s rfl
  have hother : ∀ {s'}, issueAccepts s' = true → s' ≠ s → Same d srv.files srv'.files s' :=
    fun hs' hne ↦ hfs ▸ .create hn.accepted hs' hne
  have hnew : ∀ (j : ℕ) (q : Request), j ≠ i → srv.requests[j]? = some q →
      q.file ≠ some (srv.files.create (d.tmpPath s)).1 := by
    intro j q _ hq hf
    cases q with
    | commit => cases hf
    | abort => cases hf
    | put v pc =>
      obtain ⟨s', hw⟩ := Request.writing_of_file hf
      have hopen := (h.requests j _ hq).opened s' _ hw hf
      have hs' : s' ≠ s := fun he ↦ hfree.busy_ne hq (he ▸ hw)
      have hacc := h.accepts hq hw
      rcases Files.create_fst srv.files (d.tmpPath s) with hold | ⟨-, hfresh⟩
      · exact hs' (tmpPath_inj hacc hn.accepted (hopen.only.2 _ hold).symm)
      · exact absurd hopen.only.1 (by rw [hfresh]; exact lt_irrefl _)
  have hempty := hok.unopened rfl
  refine h.of_files {
      here := hr
      requests := hreq
      keeps := ?_
      names := fun _ _ hn ↦ hn.congr ht
      same := fun j q s' _ hq hb ↦ hother (h.accepts hq hb) fun he ↦ hfree.busy_ne hq (he ▸ hb)
      data := ?_
      writing := ?_
      busy := fun _ hs ↦ .inl hs
      file := ?_ } ?_ ht ?_ ?_
  · intro v pc hv hw
    cases hv
    exact absurd (hok.early rfl) (by simp [hw])
  · intro j q f hj hq hf
    rw [hfs]
    exact Files.create_data_of_ne fun he ↦ hnew j q hj hq (he ▸ hf)
  · intro s' hs'
    cases hs'
    exact .inr fun j q _ hq ↦ hfree.busy_ne hq
  · intro f hf
    cases hf
    exact .inr hnew
  · refine ⟨fun s' hs' ↦ ?_, fun s' f hw hf ↦ ?_, by simp [PutPc.unopened],
      fun _ ↦ hok.early rfl, by simp [PutPc.late], by simp, by simp⟩
    · cases hs'
      exact hn.congr ht
    · cases hw
      cases hf
      rw [hfs]
      exact ⟨Files.create_only _ _, .inl (Files.create_links_self _ _),
        by rw [hempty, Files.create_data_self]⟩
  · intro s' hs'
    cases hs'
    exact .inr hfree.pendingOn_eq
  · intro t s' hp
    refine .inr ?_
    have hs' : s' ≠ s := by
      rintro rfl
      rw [hfree.pendingOn_eq] at hp
      cases hp
    rw [hfs]
    exact Files.create_read_of_ne fun he ↦ hs' (tmpPath_inj (pendingOn_accepts h hp) hn.accepted he)

theorem Inv.createFails (h : Inv d srv) (hr : srv.requests[i]? = some (.put u (.create s)))
    (hfree : srv.Free s) (ht : srv'.tokens = srv.tokens) (hfs : srv'.files = srv.files)
    (hreq : srv'.requests = srv.requests.set i (.put u (.cleanup s))) : Inv d srv' := by
  have hok : PutOk d srv u (.create s) := h.requests i _ hr
  refine h.of_files {
      here := hr
      requests := hreq
      keeps := ?_
      names := fun _ _ hn ↦ hn.congr ht
      same := fun _ _ s' _ _ _ ↦ hfs ▸ .refl _ s'
      data := fun _ _ _ _ _ _ ↦ by rw [hfs]
      writing := ?_
      busy := fun _ hs ↦ .inl hs
      file := fun _ hf ↦ by cases hf } ?_ ht ?_ fun _ _ _ ↦ .inr (by rw [hfs])
  · intro v pc hv hw
    cases hv
    exact absurd (hok.early rfl) (by simp [hw])
  · intro s' hs'
    cases hs'
    exact .inr fun j q _ hq ↦ hfree.busy_ne hq
  · refine ⟨fun s' hs' ↦ ?_, fun s' f hw hf ↦ ?_, by simp [PutPc.unopened], by simp [PutPc.early],
      by simp [PutPc.late], by simp, by simp⟩
    · cases hs'
      exact (hok.names _ rfl).congr ht
    · cases hf
  · intro s' hs'
    cases hs'
    exact .inr hfree.pendingOn_eq

/-- Bytes go to the end of the open file and to no other. -/
theorem Inv.chunk (h : Inv d srv) {f : ℕ} {bytes : List UInt8}
    (hr : srv.requests[i]? = some (.put u (.stream s f))) (ht : srv'.tokens = srv.tokens)
    (hfs : srv'.files = srv.files.write f u.received.length bytes)
    (hreq : srv'.requests =
      srv.requests.set i (.put { u with received := u.received ++ bytes } (.stream s f))) :
    Inv d srv' := by
  have hok : PutOk d srv u (.stream s f) := h.requests i _ hr
  have hn := hok.names s rfl
  have hopen := hok.opened s f rfl rfl
  refine h.of_files {
      here := hr
      requests := hreq
      keeps := ?_
      names := fun _ _ hn ↦ hn.congr ht
      same := fun _ _ s' _ _ _ ↦ hfs ▸ .write hn.accepted hopen.only _ s'
      data := ?_
      writing := fun _ hs ↦ .inl hs
      busy := fun _ hs ↦ .inl hs
      file := fun _ hf ↦ .inl hf } ?_ ht (fun _ hs ↦ .inl hs) ?_
  · intro v pc hv hw
    cases hv
    exact absurd (hok.early rfl) (by simp [hw])
  · intro j q f' hj hq hf'
    have hne : f' ≠ f := by
      rintro rfl
      exact hj (h.files j i q _ f' hq hr hf' rfl)
    rw [hfs]
    exact update_of_ne hne ..
  · refine ⟨fun s' hs' ↦ ?_, fun s' f' hw hf ↦ ?_, by simp [PutPc.unopened],
      fun _ ↦ hok.early rfl, by simp [PutPc.late], by simp, by simp⟩
    · cases hs'
      exact hn.congr ht
    · cases hw
      cases hf
      refine ⟨hfs ▸ hopen.only, hfs ▸ hopen.linked, ?_⟩
      rw [hfs, Files.write_data_self, hopen.data, splice_length]
  · intro t s' hp
    refine .inr ?_
    have hs' : s' ≠ s := by
      rintro rfl
      rw [h.unpending i _ s' hr rfl] at hp
      cases hp
    rw [hfs]
    exact Files.write_read_of_only hopen.only fun he ↦
      hs' (tmpPath_inj (pendingOn_accepts h hp) hn.accepted he)

theorem Inv.putRenames (h : Inv d srv) {f : ℕ} {files : Files (List Char) UInt8}
    (hr : srv.requests[i]? = some (.put u (.rename s f))) (ht : srv'.tokens = srv.tokens)
    (hren : srv.files.rename (d.tmpPath s) (d.dumpPath s) = some files) (hfs : srv'.files = files)
    (hreq : srv'.requests = srv.requests.set i (.put u (.record s f))) : Inv d srv' := by
  have hok : PutOk d srv u (.rename s f) := h.requests i _ hr
  have hn := hok.names s rfl
  have hopen := hok.opened s f rfl rfl
  have hd := hok.declared s f rfl
  subst hfs
  have hother : ∀ {s'}, issueAccepts s' = true → s' ≠ s → Same d srv.files srv'.files s' :=
    fun hs' hne ↦ .rename hn.accepted hs' hne hren
  have hlinked : srv.files.links (d.tmpPath s) = some f := by
    obtain ⟨k, hk, -⟩ := Files.rename_eq hren
    rcases hopen.linked with hl | hl
    · exact hl
    · rw [hl] at hk
      cases hk
  refine h.of_files {
      here := hr
      requests := hreq
      keeps := fun v pc hv _ ↦ by cases hv; exact ⟨_, rfl⟩
      names := fun _ _ hn ↦ hn.congr ht
      same := ?_
      data := ?_
      writing := fun _ hs ↦ .inl hs
      busy := fun _ hs ↦ .inl hs
      file := ?_ } ?_ ht (fun _ hs ↦ .inl hs) ?_
  · intro j q s' hj hq hb
    exact hother (h.accepts hq hb) fun he ↦ hj (h.alone i j _ q s' hr hq (he ▸ rfl) hb).symm
  · intro j q f' _ _ _
    obtain ⟨-, -, -, hdata, -⟩ := Files.rename_eq hren
    rw [hdata]
  · intro f' hf'
    simp [Request.file, PutPc.file, hd] at hf'
  · refine ⟨fun s' hs' ↦ ?_, fun s' f' hw hf' ↦ ?_, by simp [PutPc.unopened], by simp [PutPc.early],
      fun _ ↦ hok.late rfl, by simp, fun s' f' hpc _ ↦ ?_⟩
    · cases hs'
      exact hn.congr ht
    · simp [PutPc.file, hd] at hf'
    · cases hpc
      exact .rename hn.accepted hren (by rw [Files.read, hlinked, Option.map_some, hopen.data])
  · intro t s' hp
    have hs' : s' ≠ s := by
      rintro rfl
      rw [h.unpending i _ s' hr rfl] at hp
      cases hp
    have hsame := hother (pendingOn_accepts h hp) hs'
    obtain ⟨-, -, -, hdata, -⟩ := Files.rename_eq hren
    rcases hsame.linked with hl | hl
    · exact .inr (by rw [Files.read, Files.read, hl, hdata])
    · exact .inl (by rw [Files.read, hl]; rfl)

/-- Whoever loses the temp file can still finish: nothing is published from it. -/
theorem Inv.remove (h : Inv d srv) {r r' : Request} (hr : srv.requests[i]? = some r)
    (ht : srv'.tokens = srv.tokens) (hs : issueAccepts s = true)
    (hfs : srv'.files = srv.files.remove (d.tmpPath s))
    (hreq : srv'.requests = srv.requests.set i r') (hk : Keeps r r') (hb : r'.busy = none)
    (hf : r'.file = none) (hok : r'.Ok d srv') : Inv d srv' := by
  have hw : ∀ s, r'.writing ≠ some s := fun s hs ↦ by
    rw [Request.busy_of_writing hs] at hb
    cases hb
  refine h.of_files {
      here := hr
      requests := hreq
      keeps := hk
      names := fun _ _ hn ↦ hn.congr ht
      same := fun _ _ s' _ _ _ ↦ hfs ▸ .remove hs s'
      data := fun _ _ _ _ _ _ ↦ by rw [hfs]; rfl
      writing := fun s' hs' ↦ absurd hs' (hw s')
      busy := fun s' hs' ↦ by rw [hb] at hs'; cases hs'
      file := fun f hf' ↦ by rw [hf] at hf'; cases hf' } hok ht (fun s' hs' ↦ absurd hs' (hw s')) ?_
  intro t s' _
  by_cases he : d.tmpPath s' = d.tmpPath s
  · left
    rw [Files.read, he, hfs, Files.remove_links_self]
    rfl
  · right
    rw [hfs, Files.remove_read_of_ne he]

/-- A commit moves its own token's complete upload, or finds nothing to move. -/
theorem Inv.commitRenames (h : Inv d srv) {t n : ℕ} {files : Files (List Char) UInt8}
    (hr : srv.requests[i]? = some (.commit t (.rename s n))) (ht : srv'.tokens = srv.tokens)
    (hren : srv.files.rename (d.tmpPath s) (d.dumpPath s) = some files) (hfs : srv'.files = files)
    (hcare : srv.files.read (d.tmpPath s) = none ∨ (srv.grant t).bind (·.pending) = some n)
    (hreq : srv'.requests = srv.requests.set i (.commit t (.record s n))) : Inv d srv' := by
  have hok : CommitOk d srv t (.rename s n) := h.requests i _ hr
  have hn := hok.names s rfl
  subst hfs
  obtain ⟨f, hf, hlinks, hdata, -⟩ := Files.rename_eq hren
  have hread : srv.files.read (d.tmpPath s) = some (srv.files.data f) := by
    rw [Files.read, hf, Option.map_some]
  obtain ⟨g, hg, hpend⟩ : ∃ g, srv.grant t = some g ∧ g.pending = some n := by
    rcases hcare with hnone | hp
    · rw [hread] at hnone
      cases hnone
    · exact Option.bind_eq_some_iff.mp hp
  have hgs := hn.bound g hg
  have hpending : srv.pendingOn t s = true := Server.pendingOn_iff.mpr ⟨g, n, hg, hgs, hpend⟩
  obtain ⟨bytes, hbody, hbytes⟩ :
      ∃ bytes, srv.Body t n bytes ∧ srv.files.read (d.tmpPath s) = some bytes := by
    rcases h.pending t g n hg hpend with hnone | hb
    · rw [hgs, hread] at hnone
      cases hnone
    · rwa [hgs] at hb
  have hquiet : ∀ (j : ℕ) (q : Request), srv.requests[j]? = some q → q.busy ≠ some s := by
    intro j q hq hb
    cases q with
    | put v pc =>
      rw [h.unpending j _ s hq hb] at hpending
      cases hpending
    | abort => cases hb
    | commit t' pc =>
      cases pc with
      | record s' n' =>
        cases hb
        obtain ⟨_, -, hp⟩ := (h.requests j _ hq).published s n' rfl
        rw [hp.moved] at hf
        cases hf
      | authorize => cases hb
      | read => cases hb
      | rename => cases hb
      | done => cases hb
  have hother : ∀ {s'}, issueAccepts s' = true → s' ≠ s → Same d srv.files srv'.files s' :=
    fun hs' hne ↦ .rename hn.accepted hs' hne hren
  have hkeeps : Keeps (.commit t (.rename s n)) (.commit t (.record s n)) := fun _ _ hv ↦ by cases hv
  refine h.of_files {
      here := hr
      requests := hreq
      keeps := hkeeps
      names := fun _ _ hn ↦ hn.congr ht
      same := fun j q s' _ hq hb ↦ hother (h.accepts hq hb) fun he ↦ hquiet j q hq (he ▸ hb)
      data := fun _ _ _ _ _ _ ↦ by rw [hdata]
      writing := fun _ hs ↦ by cases hs
      busy := ?_
      file := fun _ hf' ↦ by cases hf' } ?_ ht (fun _ hs ↦ by cases hs) ?_
  · intro s' hs'
    cases hs'
    exact .inr (.inr fun j q _ hq hw ↦ hquiet j q hq (Request.busy_of_writing hw))
  · refine ⟨fun s' hs' ↦ ?_, fun s' n' hpc ↦ ?_⟩
    · cases hs'
      exact hn.congr ht
    · cases hpc
      exact ⟨bytes, hbody.set hr hreq hkeeps, .rename hn.accepted hren hbytes⟩
  · intro t' s' hp
    by_cases hs' : s' = s
    · left
      rw [Files.read, hs', (Published.rename hn.accepted hren hbytes).moved]
      rfl
    · have hsame := hother (pendingOn_accepts h hp) hs'
      rcases hsame.linked with hl | hl
      · exact .inr (by rw [Files.read, Files.read, hl, hdata])
      · exact .inl (by rw [Files.read, hl]; rfl)

theorem Server.grant_modGrant (srv : Server) (t t' : ℕ) (f : Grant → Grant) :
    (srv.modGrant t f).grant t' = if t' = t then (srv.grant t).map f else srv.grant t' := by
  by_cases he : t' = t
  · subst he
    simp only [Server.grant, Server.modGrant, List.getElem?_modify_eq, if_pos]
    cases srv.tokens[t']? <;> rfl
  · simp only [Server.grant, Server.modGrant, if_neg he, List.getElem?_modify_ne _ _ (Ne.symm he)]

/-- A change of one grant: it keeps its schema, and becomes pending only with the bytes that the
request which had the temp file to itself received. -/
theorem Inv.modGrant (h : Inv d srv) {r r' : Request} {t : ℕ} {f : Grant → Grant}
    (hr : srv.requests[i]? = some r) (ht : srv'.tokens = (srv.modGrant t f).tokens)
    (hfs : srv'.files = srv.files) (hreq : srv'.requests = srv.requests.set i r') (hk : Keeps r r')
    (hb : r'.busy = none) (hf : r'.file = none) (hok : r'.Ok d srv)
    (hschema : ∀ g, (f g).schema = g.schema)
    (hpend : ∀ g n, srv.grant t = some g → (f g).pending = some n → g.pending = some n ∨
      r.writing = some g.schema ∧ (srv.files.read (d.tmpPath g.schema) = none ∨
        ∃ bytes, srv'.Body t n bytes ∧ srv.files.read (d.tmpPath g.schema) = some bytes)) :
    Inv d srv' := by
  have hgrant : ∀ t', srv'.grant t' = if t' = t then (srv.grant t).map f else srv.grant t' := by
    intro t'
    rw [Server.grant_congr ht, Server.grant_modGrant]
  have hback : ∀ t' g', srv'.grant t' = some g' → ∃ g, srv.grant t' = some g ∧
      g'.schema = g.schema ∧ (g' = g ∨ t' = t ∧ g' = f g) := by
    intro t' g' hg'
    rw [hgrant] at hg'
    split_ifs at hg' with he
    · obtain ⟨g, hg, rfl⟩ := Option.map_eq_some_iff.mp hg'
      exact ⟨g, he ▸ hg, hschema g, .inr ⟨he, rfl⟩⟩
    · exact ⟨g', hg', rfl, .inl rfl⟩
  have hw : ∀ s, r'.writing ≠ some s := fun s hs ↦ by
    rw [Request.busy_of_writing hs] at hb
    cases hb
  have hnames : ∀ t' s, srv.Names t' s → srv'.Names t' s := by
    intro t' s hn
    refine ⟨?_, hn.accepted, fun g' hg' ↦ ?_⟩
    · rw [ht, Server.modGrant, List.length_modify]
      exact hn.known
    · obtain ⟨g, hg, hgs, -⟩ := hback t' g' hg'
      exact hgs.trans (hn.bound g hg)
  have m : Moves d srv srv' i r r' := {
    here := hr
    requests := hreq
    keeps := hk
    names := hnames
    same := fun _ _ s _ _ _ ↦ hfs ▸ .refl _ s
    data := fun _ _ _ _ _ _ ↦ by rw [hfs]
    writing := fun s hs ↦ absurd hs (hw s)
    busy := fun s hs ↦ by rw [hb] at hs; cases hs
    file := fun f hf' ↦ by rw [hf] at hf'; cases hf' }
  have hpending : ∀ t' s, srv'.pendingOn t' s = true →
      srv.pendingOn t' s = true ∨ t' = t ∧ r.writing = some s := by
    intro t' s hp
    obtain ⟨g', n, hg', rfl, hn⟩ := Server.pendingOn_iff.mp hp
    obtain ⟨g, hg, hgs, rfl | ⟨rfl, rfl⟩⟩ := hback t' g' hg'
    · exact .inl (Server.pendingOn_iff.mpr ⟨g', n, hg, rfl, hn⟩)
    · rcases hpend g n hg hn with hold | ⟨hwr, -⟩
      · exact .inl (Server.pendingOn_iff.mpr ⟨g, n, hg, hgs.symm, hold⟩)
      · exact .inr ⟨rfl, hgs ▸ hwr⟩
  have hok' : r'.Ok d srv' := hok.frame (fun s _ ↦ hfs ▸ .refl _ s) (fun f _ ↦ by rw [hfs]) m.names
    fun _ _ _ ↦ m.body
  refine h.of_moves m hok' ?_ ?_ ?_ ?_
  · intro t' g' hg'
    obtain ⟨g, hg, hgs, -⟩ := hback t' g' hg'
    exact hgs ▸ h.accepted t' g hg
  · intro j q s hj hq t'
    rcases m.cases hj with ⟨-, rfl⟩ | ⟨hji, hj⟩
    · exact absurd hq (hw s)
    · by_contra hp
      rcases hpending t' s (by simpa using hp) with hold | ⟨-, hwr⟩
      · rw [h.unpending j q s hj hq] at hold
        cases hold
      · exact hji (h.alone i j r q s hr hj hwr (Request.busy_of_writing hq)).symm
  · intro t₁ t₂ s h₁ h₂
    have hnone : ∀ t', r.writing = some s → srv.pendingOn t' s ≠ true := fun t' hwr hp ↦ by
      rw [h.unpending i r s hr hwr] at hp
      cases hp
    rcases hpending t₁ s h₁ with hold₁ | ⟨rfl, hwr⟩
    · rcases hpending t₂ s h₂ with hold₂ | ⟨-, hwr⟩
      · exact h.single t₁ t₂ s hold₁ hold₂
      · exact absurd hold₁ (hnone t₁ hwr)
    · rcases hpending t₂ s h₂ with hold₂ | ⟨rfl, -⟩
      · exact absurd hold₂ (hnone t₂ hwr)
      · rfl
  · intro t' g' n hg' hn
    rw [hfs]
    obtain ⟨g, hg, hgs, rfl | ⟨rfl, rfl⟩⟩ := hback t' g' hg'
    · rcases h.pending t' g' n hg hn with hnone | ⟨bytes, hbody, hbytes⟩
      · exact .inl hnone
      · exact .inr ⟨bytes, m.body hbody, hbytes⟩
    · rw [hgs]
      rcases hpend g n hg hn with hold | ⟨-, hnew⟩
      · rcases h.pending t' g n hg hold with hnone | ⟨bytes, hbody, hbytes⟩
        · exact .inl hnone
        · exact .inr ⟨bytes, m.body hbody, hbytes⟩
      · exact hnew

theorem PutOk.giveUp {pc : PutPc} (h : PutOk d srv u pc) (hs : pc.schema = some s) :
    PutOk d srv u (.cleanup s) := by
  refine ⟨fun s' hs' ↦ ?_, fun s' f hw hf ↦ ?_, by simp [PutPc.unopened], by simp [PutPc.early],
    by simp [PutPc.late], by simp, by simp⟩
  · cases hs'
    exact h.names s hs
  · cases hf

theorem putOk_done (srv : Server) (u : Upload) : PutOk d srv u .done :=
  ⟨fun _ hs ↦ (by cases hs), fun _ _ hw ↦ (by cases hw), by simp [PutPc.unopened],
    by simp [PutPc.early], by simp [PutPc.late], by simp, by simp⟩

theorem commitOk_done (srv : Server) (t : ℕ) : CommitOk d srv t .done :=
  ⟨fun _ hs ↦ (by cases hs), by simp⟩

theorem keeps_put (u : Upload) (pc pc' : PutPc) : Keeps (.put u pc) (.put u pc') := by
  rintro v q ⟨⟩ _
  exact ⟨pc', rfl⟩

/-- A step that fails gives the upload up and leaves the temp file to `cleanup`. -/
theorem Inv.putFails (h : Inv d srv) {pc : PutPc} (hr : srv.requests[i]? = some (.put u pc))
    (hw : pc.writing = some s) :
    Inv d { srv with requests := srv.requests.set i (.put u (.cleanup s)) } := by
  have hok : PutOk d srv u pc := h.requests i _ hr
  refine h.quiet hr rfl (keeps_put _ _ _) (fun s' hs' ↦ ?_) (fun s' hs' ↦ ?_)
    (fun f hf ↦ by cases hf) (hok.giveUp ?_)
  · cases hs'
    exact hw
  · cases hs'
    exact hw
  · cases pc <;> first | exact hw | cases hw

theorem Inv.putAuthorized (h : Inv d srv) (hr : srv.requests[i]? = some (.put u .authorize))
    (ha : srv.authorize u.token .put = some s) :
    Inv d { srv with requests := srv.requests.set i (.put u (.create s)) } := by
  have hok : PutOk d srv u .authorize := h.requests i _ hr
  refine h.quiet hr rfl (keeps_put _ _ _) (fun _ hs ↦ by cases hs) (fun _ hs ↦ by cases hs)
    (fun _ hf ↦ by cases hf) ⟨fun s hs ↦ ?_, fun _ _ hw ↦ (by cases hw), fun _ ↦ hok.unopened rfl,
      fun _ ↦ hok.early rfl, by simp [PutPc.late], by simp, by simp⟩
  cases hs
  exact Server.authorize_names h ha

/-- The body is at its end: what was declared has come. -/
theorem Inv.putEnds (h : Inv d srv) {f : ℕ} (hr : srv.requests[i]? = some (.put u (.stream s f)))
    (hd : u.declared.all (u.received.length = ·)) :
    Inv d { srv with requests := srv.requests.set i (.put { u with whole := true } (.sync s f)) } := by
  have hok : PutOk d srv u (.stream s f) := h.requests i _ hr
  refine h.quiet hr rfl ?_ (fun _ hs ↦ hs) (fun _ hs ↦ hs) (fun _ hf ↦ hf)
    ⟨fun s hs ↦ hok.names s hs, fun s f hw hf ↦ hok.opened s f hw hf, by simp [PutPc.unopened],
      by simp [PutPc.early], fun _ ↦ ⟨rfl, hd⟩, by simp, by simp⟩
  rintro v q ⟨⟩ hw
  exact absurd (hok.early rfl) (by simp [hw])

theorem PutPc.file_record {f : ℕ} (hd : ¬u.declared.isSome = true) :
    PutPc.file u.declared (.record s f) = some f := by
  rw [PutPc.file, if_neg hd]

theorem Inv.putSyncs (h : Inv d srv) {f : ℕ} (hr : srv.requests[i]? = some (.put u (.sync s f))) :
    Inv d { srv with requests :=
      srv.requests.set i (.put u (if u.declared.isSome then .rename s f else .record s f)) } := by
  have hok : PutOk d srv u (.sync s f) := h.requests i _ hr
  by_cases hd : u.declared.isSome = true
  · simp only [if_pos hd]
    refine h.quiet hr rfl (keeps_put _ _ _) (fun _ hs ↦ hs) (fun _ hs ↦ hs) (fun _ hf ↦ hf)
      ⟨fun s hs ↦ hok.names s hs, fun s f hw hf ↦ hok.opened s f hw hf, by simp [PutPc.unopened],
        by simp [PutPc.early], fun _ ↦ hok.late rfl, fun _ _ _ ↦ hd, by simp⟩
  · simp only [if_neg hd]
    have hfile : ∀ f', PutPc.file u.declared (.record s f) = some f' → f = f' := by
      intro f' hf'
      rw [PutPc.file_record hd, Option.some_inj] at hf'
      exact hf'
    refine h.quiet hr rfl (keeps_put _ _ _) (fun _ hs ↦ hs) (fun _ hs ↦ hs)
      (fun f' hf' ↦ congrArg some (hfile f' hf'))
      ⟨fun s hs ↦ hok.names s hs, fun s f' hw hf' ↦ hok.opened s f' hw (congrArg some (hfile f' hf')),
        by simp [PutPc.unopened], by simp [PutPc.early], fun _ ↦ hok.late rfl, by simp,
        fun _ _ _ hd' ↦ absurd hd' hd⟩

/-- An upload of undeclared length becomes pending with the bytes that were received, if they are still there. -/
theorem Inv.putRecords (h : Inv d srv) {f : ℕ} (hr : srv.requests[i]? = some (.put u (.record s f)))
    (ht : srv'.tokens = (srv.modGrant u.token fun g ↦
      if u.declared.isSome then { g with completed := some u.received.length }
      else { g with pending := some u.received.length }).tokens)
    (hfs : srv'.files = srv.files) (hreq : srv'.requests = srv.requests.set i (.put u .done)) : Inv d srv' := by
  have hok : PutOk d srv u (.record s f) := h.requests i _ hr
  refine h.modGrant hr ht hfs hreq (keeps_put _ _ _) rfl rfl (putOk_done srv u) ?_ ?_
  · intro g
    split_ifs <;> rfl
  · intro g n hg hn
    by_cases hd : u.declared.isSome = true
    · rw [if_pos hd] at hn
      exact .inl hn
    · rw [if_neg hd] at hn
      have hgs := (hok.names s rfl).bound g hg
      have hopen := hok.opened s f rfl (PutPc.file_record hd)
      have hlen := Option.some_inj.mp hn
      refine .inr ⟨congrArg some hgs.symm, ?_⟩
      rw [hgs, Files.read]
      rcases hopen.linked with hl | hl
      · refine .inr ⟨u.received, ⟨u, .done, ?_, rfl, (hok.late rfl).1, ?_, rfl, hlen⟩, ?_⟩
        · rw [hreq]
          exact List.mem_iff_getElem?.mpr ⟨i, List.getElem?_set_self (List.getElem?_eq_some_iff.mp hr).1⟩
        · rw [Option.not_isSome_iff_eq_none.mp hd]
          rfl
        · rw [hl, Option.map_some, hopen.data]
      · exact .inl (by rw [hl]; rfl)

theorem Inv.put (h : Inv d srv) {pc pc' : PutPc} {e : Event} {u' : Upload} {next : Server}
    (hr : srv.requests[i]? = some (.put u pc)) (hcare : Careful d srv (.act i e))
    (hs : putStep d srv u pc e = some (next, u', pc')) :
    Inv d { next with requests := srv.requests.set i (.put u' pc') } := by
  have hok : PutOk d srv u pc := h.requests i _ hr
  replace hcare := hcare _ hr
  cases pc with
  | authorize =>
    cases e with
    | ok =>
      simp only [putStep] at hs
      split at hs
      · rename_i schema ha
        cases hs
        exact h.putAuthorized hr ha
      · cases hs
        exact h.quiet hr rfl (keeps_put _ _ _) (fun _ hs ↦ by cases hs) (fun _ hs ↦ by cases hs)
          (fun _ hf ↦ by cases hf) (putOk_done srv u)
    | fail => cases hs
    | chunk => cases hs
    | ended => cases hs
  | create schema =>
    cases e with
    | ok =>
      cases hs
      exact h.create hr hcare rfl rfl rfl
    | fail =>
      cases hs
      exact h.createFails hr hcare rfl rfl rfl
    | chunk => cases hs
    | ended => cases hs
  | stream schema f =>
    cases e with
    | ok => cases hs
    | fail =>
      cases hs
      exact h.putFails hr rfl
    | chunk bytes =>
      simp only [putStep] at hs
      split_ifs at hs
      · cases hs
        exact h.chunk hr rfl rfl rfl
      · cases hs
        exact h.putFails hr rfl
    | ended =>
      simp only [putStep] at hs
      split_ifs at hs with hd
      cases hs
      exact h.putEnds hr hd
  | sync schema f =>
    cases e with
    | ok =>
      cases hs
      exact h.putSyncs hr
    | fail =>
      cases hs
      exact h.putFails hr rfl
    | chunk => cases hs
    | ended => cases hs
  | rename schema f =>
    cases e with
    | ok =>
      simp only [putStep] at hs
      split at hs
      · rename_i files hren
        cases hs
        exact h.putRenames hr rfl hren rfl rfl
      · cases hs
        exact h.putFails hr rfl
    | fail =>
      cases hs
      exact h.putFails hr rfl
    | chunk => cases hs
    | ended => cases hs
  | record schema f =>
    cases e with
    | ok =>
      cases hs
      exact h.putRecords hr rfl rfl rfl
    | fail => cases hs
    | chunk => cases hs
    | ended => cases hs
  | cleanup schema =>
    cases e with
    | ok =>
      cases hs
      exact h.remove hr rfl (hok.names schema rfl).accepted rfl rfl (keeps_put _ _ _) rfl rfl
        (putOk_done _ u)
    | fail =>
      cases hs
      exact h.quiet hr rfl (keeps_put _ _ _) (fun _ hs ↦ by cases hs) (fun _ hs ↦ by cases hs)
        (fun _ hf ↦ by cases hf) (putOk_done _ u)
    | chunk => cases hs
    | ended => cases hs
  | done => cases e <;> cases hs

theorem keeps_commit (t : ℕ) (pc : CommitPc) (r' : Request) : Keeps (.commit t pc) r' := by
  rintro _ _ ⟨⟩

theorem keeps_abort (t : ℕ) (pc : AbortPc) (r' : Request) : Keeps (.abort t pc) r' := by
  rintro _ _ ⟨⟩

theorem Inv.commit (h : Inv d srv) {t : ℕ} {pc pc' : CommitPc} {e : Event} {next : Server}
    (hr : srv.requests[i]? = some (.commit t pc)) (hcare : Careful d srv (.act i e))
    (hs : commitStep d srv t pc e = some (next, pc')) :
    Inv d { next with requests := srv.requests.set i (.commit t pc') } := by
  have hok : CommitOk d srv t pc := h.requests i _ hr
  replace hcare := hcare _ hr
  have hquiet : next = srv → (∀ s, (Request.commit t pc').busy ≠ some s) → CommitOk d srv t pc' →
      Inv d { next with requests := srv.requests.set i (.commit t pc') } := by
    rintro rfl hb hok'
    exact h.quiet hr rfl (keeps_commit _ _ _) (fun _ hs ↦ by cases hs) (fun s hs ↦ absurd hs (hb s))
      (fun _ hf ↦ by cases hf) hok'
  have hdone : next = srv → pc' = .done →
      Inv d { next with requests := srv.requests.set i (.commit t pc') } := by
    rintro hn rfl
    exact hquiet hn (fun _ hs ↦ by cases hs) (commitOk_done srv t)
  cases e with
  | chunk => cases pc <;> cases hs
  | ended => cases pc <;> cases hs
  | fail =>
    cases pc with
    | rename schema n =>
      cases hs
      exact hdone rfl rfl
    | authorize => cases hs
    | read => cases hs
    | record => cases hs
    | done => cases hs
  | ok =>
    cases pc with
    | authorize =>
      simp only [commitStep] at hs
      split at hs
      · rename_i schema ha
        cases hs
        refine hquiet rfl (fun _ hs ↦ by cases hs) ⟨fun s hs ↦ ?_, by simp⟩
        cases hs
        exact Server.authorize_names h ha
      · cases hs
        exact hdone rfl rfl
    | read schema =>
      simp only [commitStep] at hs
      split at hs
      · cases hs
        exact hquiet rfl (fun _ hs ↦ by cases hs) ⟨fun s hs ↦ hok.names s hs, by simp⟩
      · cases hs
        exact hdone rfl rfl
    | rename schema n =>
      simp only [commitStep] at hs
      split at hs
      · rename_i files hren
        cases hs
        exact h.commitRenames hr rfl hren rfl hcare rfl
      · cases hs
        exact hdone rfl rfl
    | record schema n =>
      cases hs
      refine h.modGrant hr rfl rfl rfl (keeps_commit _ _ _) rfl rfl (commitOk_done srv t)
        (fun _ ↦ rfl) ?_
      intro g n hg hn
      cases hn
    | done => cases hs

theorem Inv.abort (h : Inv d srv) {t : ℕ} {pc pc' : AbortPc} {e : Event} {next : Server}
    (hr : srv.requests[i]? = some (.abort t pc)) (hs : abortStep d srv t pc e = some (next, pc')) :
    Inv d { next with requests := srv.requests.set i (.abort t pc') } := by
  have hok : ∀ s, pc.schema = some s → srv.Names t s := h.requests i _ hr
  have hquiet : next = srv → (∀ s, pc'.schema = some s → srv.Names t s) →
      Inv d { next with requests := srv.requests.set i (.abort t pc') } := by
    rintro rfl hok'
    exact h.quiet hr rfl (keeps_abort _ _ _) (fun _ hs ↦ by cases hs) (fun _ hs ↦ by cases hs)
      (fun _ hf ↦ by cases hf) hok'
  cases e with
  | chunk => cases pc <;> cases hs
  | ended => cases pc <;> cases hs
  | fail =>
    cases pc with
    | remove schema =>
      cases hs
      exact hquiet rfl (fun _ hs ↦ by cases hs)
    | authorize => cases hs
    | clear => cases hs
    | done => cases hs
  | ok =>
    cases pc with
    | authorize =>
      simp only [abortStep] at hs
      split at hs
      · rename_i schema ha
        cases hs
        refine hquiet rfl fun s hs ↦ ?_
        cases hs
        exact Server.authorize_names h ha
      · cases hs
        exact hquiet rfl (fun _ hs ↦ by cases hs)
    | clear schema =>
      cases hs
      refine h.modGrant hr rfl rfl rfl (keeps_abort _ _ _) rfl rfl (fun s hs ↦ hok s hs)
        (fun _ ↦ rfl) ?_
      intro g n hg hn
      cases hn
    | remove schema =>
      cases hs
      exact h.remove hr rfl (hok schema rfl).accepted rfl rfl (keeps_abort _ _ _) rfl rfl
        (fun _ hs ↦ by cases hs)
    | done => cases hs

theorem Same.trans {fs fs' fs'' : Files (List Char) UInt8} (h : Same d fs fs' s)
    (h' : Same d fs' fs'' s) : Same d fs fs'' s where
  only := fun f hf ↦ h'.only f (h.only f hf)
  linked := by
    rcases h'.linked with hl | hl
    · rw [hl]
      exact h.linked
    · exact .inr hl
  dump := h'.dump.trans h.dump

theorem Same.removeAll {paths : List (List Char)}
    (hp : ∀ p ∈ paths, ∃ s, issueAccepts s = true ∧ p = d.tmpPath s)
    (fs : Files (List Char) UInt8) (s' : ClientSchema) :
    Same d fs (paths.foldl Files.remove fs) s' ∧ (paths.foldl Files.remove fs).data = fs.data := by
  induction paths generalizing fs with
  | nil => exact ⟨.refl fs s', rfl⟩
  | cons p paths ih =>
    obtain ⟨s, hs, rfl⟩ := hp p (by simp)
    obtain ⟨hsame, hdata⟩ := ih (fun q hq ↦ hp q (by simp [hq])) (fs.remove (d.tmpPath s))
    exact ⟨(Same.remove hs s').trans hsame, hdata⟩

theorem Inv.expiredTmp (h : Inv d srv) :
    ∀ p ∈ srv.expiredTmp d, ∃ s, issueAccepts s = true ∧ p = d.tmpPath s := by
  intro p hp
  obtain ⟨o, ho, hp⟩ := List.mem_filterMap.mp hp
  obtain ⟨g, rfl, he⟩ := Option.bind_eq_some_iff.mp hp
  split_ifs at he
  cases he
  obtain ⟨t, ht⟩ := List.mem_iff_getElem?.mp ho
  exact ⟨g.schema, h.accepted t g (by rw [Server.grant, ht]; rfl), rfl⟩

theorem Server.grant_issue {schema : ClientSchema} {mode : Mode} {removed : Bool}
    (hs : srv.issue d schema mode removed = some srv') (t : ℕ) {g : Grant}
    (hg : srv'.grant t = some g) :
    srv.grant t = some g ∧ srv.live g = true ∨
      t = srv.tokens.length ∧ issueAccepts schema = true ∧ g = ⟨schema, mode, srv.now, none, none⟩ := by
  rw [Server.issue] at hs
  split_ifs at hs with ha hrm
  all_goals
    cases hs
    rw [Server.grant, Option.join_eq_some_iff] at hg
    rcases getElem?_append_cases hg with ⟨ht, he⟩ | hg
    · exact .inr ⟨by simpa using ht, ha, Option.some_inj.mp he⟩
    · rw [List.getElem?_map] at hg
      obtain ⟨o, ho, hf⟩ := Option.map_eq_some_iff.mp hg
      obtain ⟨rfl, hl⟩ := Option.filter_eq_some_iff.mp hf
      exact .inl ⟨by rw [Server.grant, ho]; rfl, hl⟩

theorem Server.issue_frame {schema : ClientSchema} {mode : Mode} {removed : Bool} (h : Inv d srv)
    (hs : srv.issue d schema mode removed = some srv') :
    srv'.requests = srv.requests ∧ srv.tokens.length ≤ srv'.tokens.length ∧
      (∀ s, Same d srv.files srv'.files s) ∧ srv'.files.data = srv.files.data := by
  rw [Server.issue] at hs
  split_ifs at hs with ha hrm
  · cases hs
    exact ⟨rfl, by simp, fun s ↦ (Same.removeAll h.expiredTmp _ s).1,
      (Same.removeAll h.expiredTmp _ schema).2⟩
  · cases hs
    exact ⟨rfl, by simp, fun s ↦ .refl _ s, rfl⟩

theorem Inv.background (h : Inv d srv) (hreq : srv'.requests = srv.requests)
    (hnames : ∀ t s, srv.Names t s → srv'.Names t s)
    (hsame : ∀ s, Same d srv.files srv'.files s) (hdata : srv'.files.data = srv.files.data)
    (hgrant : ∀ t g, srv'.grant t = some g → srv.grant t = some g ∨
      issueAccepts g.schema = true ∧ g.pending = none) : Inv d srv' := by
  have hbody : ∀ t n bytes, srv.Body t n bytes → srv'.Body t n bytes := fun t n bytes hb ↦ by
    unfold Server.Body at hb ⊢
    rwa [hreq]
  have hpend : ∀ t s, srv'.pendingOn t s = true → srv.pendingOn t s = true := by
    intro t s hp
    obtain ⟨g, n, hg, hgs, hn⟩ := Server.pendingOn_iff.mp hp
    rcases hgrant t g hg with hold | ⟨-, hnone⟩
    · exact Server.pendingOn_iff.mpr ⟨g, n, hold, hgs, hn⟩
    · rw [hnone] at hn
      cases hn
  constructor
  · intro t g hg
    rcases hgrant t g hg with hold | ⟨ha, -⟩
    · exact h.accepted t g hold
    · exact ha
  · intro i r hr
    exact (h.requests i r (hreq ▸ hr)).frame (fun s _ ↦ hsame s) (fun f _ ↦ by rw [hdata]) hnames hbody
  · intro i j r q s hr hq
    exact h.alone i j r q s (hreq ▸ hr) (hreq ▸ hq)
  · intro i j r q f hr hq
    exact h.files i j r q f (hreq ▸ hr) (hreq ▸ hq)
  · intro i r s hr hw t
    by_contra hp
    exact absurd (hpend t s (by simpa using hp)) (by simp [h.unpending i r s (hreq ▸ hr) hw t])
  · intro t t' s hp hp'
    exact h.single t t' s (hpend t s hp) (hpend t' s hp')
  · intro t g n hg hn
    rcases hgrant t g hg with hold | ⟨-, hnone⟩
    · have hread := h.pending t g n hold hn
      rcases (hsame g.schema).linked with hl | hl
      · have he : srv'.files.read (d.tmpPath g.schema) = srv.files.read (d.tmpPath g.schema) := by
          rw [Files.read, Files.read, hl, hdata]
        rcases hread with hr | ⟨bytes, hb, hr⟩
        · exact .inl (he.trans hr)
        · exact .inr ⟨bytes, hbody _ _ _ hb, he.trans hr⟩
      · exact .inl (by rw [Files.read, hl]; rfl)
    · rw [hnone] at hn
      cases hn

theorem Inv.issue (h : Inv d srv) {schema : ClientSchema} {mode : Mode} {removed : Bool}
    (hs : srv.issue d schema mode removed = some srv') : Inv d srv' := by
  obtain ⟨hreq, hlen, hsame, hdata⟩ := Server.issue_frame h hs
  refine h.background hreq ?_ hsame hdata ?_
  · intro t s hn
    refine ⟨hn.known.trans_le hlen, hn.accepted, fun g hg ↦ ?_⟩
    rcases Server.grant_issue hs t hg with ⟨hold, -⟩ | ⟨rfl, -, -⟩
    · exact hn.bound g hold
    · exact absurd hn.known (lt_irrefl _)
  · intro t g hg
    rcases Server.grant_issue hs t hg with ⟨hold, -⟩ | ⟨-, ha, rfl⟩
    · exact .inl hold
    · exact .inr ⟨ha, rfl⟩

theorem Inv.cancel (h : Inv d srv) {r r' : Request} (hr : srv.requests[i]? = some r)
    (hc : r.cancelled = some r') : Inv d { srv with requests := srv.requests.set i r' } := by
  cases r with
  | put u pc =>
    cases hc
    exact h.quiet hr rfl (keeps_put _ _ _) (fun _ hs ↦ by cases hs) (fun _ hs ↦ by cases hs)
      (fun _ hf ↦ by cases hf) (putOk_done srv u)
  | commit t pc =>
    cases hc
    exact h.quiet hr rfl (keeps_commit _ _ _) (fun _ hs ↦ by cases hs) (fun _ hs ↦ by cases hs)
      (fun _ hf ↦ by cases hf) (commitOk_done srv t)
  | abort => cases hc

theorem Request.of_arriving {r : Request} (h : r.arriving = true) (srv : Server) :
    r.busy = none ∧ r.file = none ∧ r.Ok d srv := by
  cases r with
  | put u pc =>
    simp only [Request.arriving, Bool.and_eq_true, decide_eq_true_eq, Bool.not_eq_true'] at h
    obtain ⟨⟨rfl, hu⟩, hw⟩ := h
    exact ⟨rfl, rfl, fun _ hs ↦ (by cases hs), fun _ _ hw ↦ (by cases hw), fun _ ↦ hu, fun _ ↦ hw,
      by simp [PutPc.late], by simp, by simp⟩
  | commit t pc =>
    simp only [Request.arriving, decide_eq_true_eq] at h
    subst h
    exact ⟨rfl, rfl, fun _ hs ↦ (by cases hs), by simp⟩
  | abort t pc =>
    simp only [Request.arriving, decide_eq_true_eq] at h
    subst h
    exact ⟨rfl, rfl, fun _ hs ↦ by cases hs⟩

theorem Inv.arrive (h : Inv d srv) {r : Request} (ha : r.arriving = true)
    (hreq : srv'.requests = srv.requests ++ [r]) (ht : srv'.tokens = srv.tokens)
    (hfs : srv'.files = srv.files) : Inv d srv' := by
  obtain ⟨hb, hf, hok⟩ := Request.of_arriving (d := d) ha srv'
  have hcases : ∀ {j : ℕ} {q : Request}, srv'.requests[j]? = some q →
      q = r ∨ srv.requests[j]? = some q := fun hq ↦
    (getElem?_append_cases (hreq ▸ hq)).imp_left And.right
  have hbusy : ∀ {s}, r.writing ≠ some s := fun hs ↦ by
    rw [Request.busy_of_writing hs] at hb
    cases hb
  have hbody : ∀ t n bytes, srv.Body t n bytes → srv'.Body t n bytes := by
    rintro t n bytes ⟨u, pc, hm, hrest⟩
    exact ⟨u, pc, hreq ▸ List.mem_append_left _ hm, hrest⟩
  constructor
  · intro t g hg
    exact h.accepted t g (by rwa [Server.grant_congr ht] at hg)
  · intro j q hq
    rcases hcases hq with rfl | hq
    · exact hok
    · exact (h.requests j q hq).frame (fun s _ ↦ hfs ▸ .refl _ s) (fun f _ ↦ by rw [hfs])
        (fun _ _ hn ↦ hn.congr ht) hbody
  · intro j k q q' s hq hq' hw hw'
    rcases hcases hq with rfl | hq
    · exact absurd hw hbusy
    · rcases hcases hq' with rfl | hq'
      · rw [hb] at hw'
        cases hw'
      · exact h.alone j k q q' s hq hq' hw hw'
  · intro j k q q' f hq hq' hw hw'
    rcases hcases hq with rfl | hq
    · rw [hf] at hw
      cases hw
    · rcases hcases hq' with rfl | hq'
      · rw [hf] at hw'
        cases hw'
      · exact h.files j k q q' f hq hq' hw hw'
  · intro j q s hq hw t
    rw [Server.pendingOn_congr ht]
    rcases hcases hq with rfl | hq
    · exact absurd hw hbusy
    · exact h.unpending j q s hq hw t
  · intro t t' s hp hp'
    rw [Server.pendingOn_congr ht] at hp hp'
    exact h.single t t' s hp hp'
  · intro t g n hg hn
    rw [Server.grant_congr ht] at hg
    rw [hfs]
    rcases h.pending t g n hg hn with hr | ⟨bytes, hbytes, hr⟩
    · exact .inl hr
    · exact .inr ⟨bytes, hbody _ _ _ hbytes, hr⟩

theorem Inv.step (h : Inv d srv) {l : Action} (hcare : Careful d srv l)
    (hs : dumpStep d l srv = some srv') : Inv d srv' := by
  cases l with
  | tick =>
    cases hs
    exact h.background rfl (fun _ _ hn ↦ ⟨hn.known, hn.accepted, hn.bound⟩) (fun s ↦ .refl _ s) rfl
      fun _ _ hg ↦ .inl hg
  | issue schema mode removed => exact h.issue hs
  | arrive r =>
    simp only [dumpStep] at hs
    split_ifs at hs with ha
    cases hs
    exact h.arrive ha rfl rfl rfl
  | cancel i =>
    obtain ⟨r', hr', rfl⟩ := Option.map_eq_some_iff.mp hs
    obtain ⟨r, hr, hc⟩ := Option.bind_eq_some_iff.mp hr'
    exact h.cancel hr hc
  | act i e =>
    obtain ⟨r, hr, hs⟩ := Option.bind_eq_some_iff.mp hs
    obtain ⟨o, ho, rfl⟩ := Option.map_eq_some_iff.mp hs
    cases r with
    | put u pc =>
      obtain ⟨q, hq, rfl⟩ := Option.map_eq_some_iff.mp ho
      exact h.put hr hcare hq
    | commit t pc =>
      obtain ⟨q, hq, rfl⟩ := Option.map_eq_some_iff.mp ho
      exact h.commit hr hcare hq
    | abort t pc =>
      obtain ⟨q, hq, rfl⟩ := Option.map_eq_some_iff.mp ho
      exact h.abort hr hq

theorem inv_init : Inv d .init := by
  constructor <;> simp [Server.init, Server.grant, Server.pendingOn]

end Steps

end PgVmPool.Dumps
