import PgVmPool.CredentialWrites
import PgVmPool.SchemaPaths

namespace PgVmPool.Dedicated

open HostFiles Transition

abbrev Row := Σ _ : Field, Credential

def utf8 (s : String) : List UInt8 := s.toUTF8.data.toList

def constantTimeEq (a b : List UInt8) : Bool :=
  if a.length ≠ b.length then false
  else (a.zip b).foldl (fun diff p ↦ diff ||| (p.1 ^^^ p.2)) 0 = 0

theorem foldl_diff_eq_zero (ps : List (UInt8 × UInt8)) (diff : UInt8) :
    ps.foldl (fun diff p ↦ diff ||| (p.1 ^^^ p.2)) diff = 0 ↔ diff = 0 ∧ ∀ p ∈ ps, p.1 = p.2 := by
  induction ps generalizing diff with
  | nil => simp
  | cons p ps ih =>
    rw [List.foldl_cons, ih, UInt8.or_eq_zero_iff, UInt8.xor_eq_zero_iff, List.forall_mem_cons, and_assoc]

theorem constantTimeEq_iff {a b : List UInt8} : constantTimeEq a b = true ↔ a = b := by
  unfold constantTimeEq
  split
  · rename_i hlen
    constructor
    · simp
    · rintro rfl
      exact absurd rfl hlen
  · rename_i hlen
    rw [decide_eq_true_eq, foldl_diff_eq_zero, ← List.forall₂_eq_eq_eq, List.forall₂_iff_zip]
    simp only [true_and]
    exact ⟨fun h ↦ ⟨not_not.mp hlen, fun hp ↦ h _ hp⟩, fun h p hp ↦ h.2 hp⟩

/-- The body of a `PasswordMessage` without its terminating zero. -/
def stripNul (body : List UInt8) : List UInt8 :=
  if body.getLast? = some 0 then body.dropLast else body

namespace Creds

/-- `by_role`, with the database of the record. -/
def ofRole (m : Creds) (role : String) : Option Row := m.entries.find? fun r ↦ r.2.role.text = role

def isDedicated (m : Creds) (database : String) : Bool := m.entries.any fun r ↦ r.1.text = database

def challengePassword (m : Creds) (role : String) (shared : Option String) : Option String :=
  match m.ofRole role with
  | some r => some r.2.password.text
  | none => shared

/-- No two records share a role. -/
def Unambiguous (m : Creds) : Prop := ∀ r ∈ m.entries, ∀ r' ∈ m.entries, r.2.role = r'.2.role → r = r'

instance (m : Creds) : Decidable m.Unambiguous :=
  inferInstanceAs (Decidable (∀ r ∈ m.entries, ∀ r' ∈ m.entries, r.2.role = r'.2.role → r = r'))

theorem ofRole_some {m : Creds} {role : String} {r : Row} (h : m.ofRole role = some r) :
    r ∈ m.entries ∧ r.2.role.text = role :=
  ⟨List.mem_of_find?_eq_some h, by simpa using List.find?_some h⟩

theorem ofRole_none {m : Creds} {role : String} (h : m.ofRole role = none) {r : Row}
    (hr : r ∈ m.entries) : r.2.role.text ≠ role := by
  simpa using List.find?_eq_none.mp h r hr

theorem isDedicated_iff {m : Creds} {database : String} :
    m.isDedicated database = true ↔ ∃ r ∈ m.entries, r.1.text = database := by
  simp [isDedicated]

theorem eq_of_key {m : Creds} {r r' : Row} (hr : r ∈ m.entries) (hr' : r' ∈ m.entries)
    (h : r.1 = r'.1) : r = r' := by
  obtain ⟨d, c⟩ := r
  obtain ⟨d', c'⟩ := r'
  obtain rfl : d = d' := h
  have hc := AList.mem_lookup_iff.mpr hr
  rw [AList.mem_lookup_iff.mpr hr'] at hc
  rw [Option.some_inj.mp hc]

theorem Unambiguous.ofRole_eq {m : Creds} (h : m.Unambiguous) {role : String} {r r' : Row}
    (ho : m.ofRole role = some r) (hr : r' ∈ m.entries) (he : r'.2.role.text = role) : r' = r := by
  obtain ⟨hm, hrole⟩ := ofRole_some ho
  refine h r' hr r hm (Field.text_inj ?_)
  rw [he, hrole]

end Creds

inductive ConnPc
  | start
  | prompt (expected : String)
  | authorize (proved : Option (List UInt8))
  | unowned (proved : Option (List UInt8))
  | route (proved : Option (List UInt8))
  | bringUp (proved : Option (List UInt8))
  | spliced (proved : Option (List UInt8))
  | closed
  deriving DecidableEq

/-- A client after its startup packet. -/
structure Conn where
  user : String
  database : String
  pc : ConnPc
  deriving DecidableEq

inductive ConnEvent
  | ok | password (body : List UInt8) | fail

namespace Conn

/-- `handle_conn` on the records `m`, which `authorize` reads twice. -/
def step (m : Creds) (shared : Option String) (x : Conn) : ConnEvent → Option ConnPc
  | .ok =>
    match x.pc with
    | .start =>
      match m.challengePassword x.user shared with
      | some expected => some (.prompt expected)
      | none => some (.authorize none)
    | .authorize proved =>
      match m.ofRole x.user with
      | some r => some (if r.1.text = x.database ∧ isValidSchema x.database then .route proved else .closed)
      | none => some (.unowned proved)
    | .unowned proved =>
      some (if m.isDedicated x.database = false ∧ isValidSchema x.database then .route proved else .closed)
    | .route proved => some (.bringUp proved)
    | .bringUp proved => some (.spliced proved)
    | .spliced _ => some .closed
    | .prompt _ | .closed => none
  | .password body =>
    match x.pc with
    | .prompt expected =>
      some (if constantTimeEq (stripNul body) (utf8 expected) then .authorize (some (stripNul body))
        else .closed)
    | _ => none
  | .fail => some .closed

end Conn

inductive ProvisionPc
  | record | dedicated | done (passed : Bool)
  deriving DecidableEq

/-- A `create_dedicated` before it calls `Credentials::create`. -/
structure Provision where
  database : String
  role : String
  password : String
  pc : ProvisionPc

structure GateState where
  creds : CredState
  recorded : List String
  conns : List Conn
  provisions : List Provision

inductive GateLabel
  | connect (user database : String)
  | conn (i : ℕ) (e : ConnEvent)
  | provision (database role password : String)
  | check (j : ℕ)
  | remove (database : String)
  | act (i : ℕ) (e : Event)
  | stored (recorded : List String)

structure GateConfig where
  path : List Char
  shared : Option String

namespace GateState

def load (path : List Char) (files : Files (List Char) Char) (recorded : List String) : GateState :=
  ⟨.load path files, recorded, [], []⟩

/-- `create_dedicated` goes on to `Credentials::create`. -/
def passes (st : GateState) (j : ℕ) (p : Provision) : GateState :=
  { st with
    creds := { st.creds with
      calls := st.creds.calls ++ [(.create p.database p.role p.password, .start)] }
    provisions := st.provisions.set j { p with pc := .done true } }

def check (st : GateState) (j : ℕ) (p : Provision) : Option GateState :=
  match p.pc with
  | .record =>
    some (if p.database ∈ st.recorded then
      { st with provisions := st.provisions.set j { p with pc := .dedicated } } else st.passes j p)
  | .dedicated =>
    some (if st.creds.map.isDedicated p.database then st.passes j p
      else { st with provisions := st.provisions.set j { p with pc := .done false } })
  | .done _ => none

end GateState

def gateStep (cfg : GateConfig) : GateLabel → GateState → Option GateState
  | .connect user database, st => some { st with conns := st.conns ++ [⟨user, database, .start⟩] }
  | .conn i e, st =>
    (st.conns[i]?).bind fun x ↦ (x.step st.creds.map cfg.shared e).map fun pc ↦ { st with
      conns := st.conns.set i { x with pc }
      recorded := match pc with
        | .spliced _ => x.database :: st.recorded
        | _ => st.recorded }
  | .provision database role password, st =>
    some { st with provisions := st.provisions ++ [⟨database, role, password, .record⟩] }
  | .check j, st => (st.provisions[j]?).bind (st.check j)
  | .remove database, st =>
    some { st with creds := { st.creds with calls := st.creds.calls ++ [(.remove database, .start)] } }
  | .act i e, st => (credStep cfg.path (.act i e) st.creds).map fun creds ↦ { st with creds }
  | .stored recorded, st => some { st with recorded }

/-- Nothing the client has proved or been told to prove conflicts with a record. -/
def Conn.Clear (x : Conn) (r : Row) : Prop :=
  match x.pc with
  | .prompt expected => x.user = r.2.role.text → x.database = r.1.text → expected = r.2.password.text
  | .authorize proved =>
    x.user = r.2.role.text → x.database = r.1.text → proved = some (utf8 r.2.password.text)
  | .unowned _ => x.user = r.2.role.text → x.database = r.1.text
  | .route proved => (x.user = r.2.role.text → x.database = r.1.text) ∧
      (x.database = r.1.text → x.user = r.2.role.text ∧ proved = some (utf8 r.2.password.text))
  | .bringUp proved =>
    x.database = r.1.text → x.user = r.2.role.text ∧ proved = some (utf8 r.2.password.text)
  | .start | .spliced _ | .closed => True

instance (x : Conn) (r : Row) : Decidable (x.Clear r) :=
  match x with
  | ⟨user, database, .prompt expected⟩ => inferInstanceAs (Decidable
      (user = r.2.role.text → database = r.1.text → expected = r.2.password.text))
  | ⟨user, database, .authorize proved⟩ => inferInstanceAs (Decidable
      (user = r.2.role.text → database = r.1.text → proved = some (utf8 r.2.password.text)))
  | ⟨user, database, .unowned _⟩ => inferInstanceAs (Decidable
      (user = r.2.role.text → database = r.1.text))
  | ⟨user, database, .route proved⟩ => inferInstanceAs (Decidable
      ((user = r.2.role.text → database = r.1.text) ∧
        (database = r.1.text → user = r.2.role.text ∧ proved = some (utf8 r.2.password.text))))
  | ⟨user, database, .bringUp proved⟩ => inferInstanceAs (Decidable
      (database = r.1.text → user = r.2.role.text ∧ proved = some (utf8 r.2.password.text)))
  | ⟨_, _, .start⟩ | ⟨_, _, .spliced _⟩ | ⟨_, _, .closed⟩ => isTrue trivial

/-- The record that the next step of a call puts into the map. -/
def CredState.inserts (st : CredState) (i : ℕ) (now : UInt64) : Option Row :=
  (st.calls[i]?).bind fun x ↦
    match x with
    | (.create database role password, .start) =>
      ((Creds.create st.map database role password now).toOption).map fun r ↦ ⟨r.1, r.2⟩
    | _ => none

/-- A record is made only when no client on its way conflicts with it. -/
def Calm (st : GateState) : GateLabel → Prop
  | .act i (.ok now) => ∀ r ∈ st.creds.inserts i now, ∀ x ∈ st.conns, x.Clear r
  | _ => True

instance (st : GateState) : ∀ l : GateLabel, Decidable (Calm st l)
  | .act i (.ok now) => inferInstanceAs (Decidable
      (∀ r ∈ st.creds.inserts i now, ∀ x ∈ st.conns, x.Clear r))
  | .act _ (.wrote _) | .act _ .fail | .connect _ _ | .conn _ _ | .provision _ _ _ | .check _ | .remove _
  | .stored _ => isTrue trivial

/-- What the start of a checkout and of a splice presuppose. -/
structure Gated (st : GateState) (l : GateLabel) : Prop where
  checkout : ∀ (i : ℕ) (x : Conn) proved, l = .conn i .ok → st.conns[i]? = some x → x.pc = .route proved →
    ∀ r ∈ st.creds.map.entries, r.2.role.text = x.user → r.1.text = x.database
  splice : ∀ (i : ℕ) (x : Conn) proved, l = .conn i .ok → st.conns[i]? = some x → x.pc = .bringUp proved →
    ∀ r ∈ st.creds.map.entries, r.1.text = x.database →
      x.user = r.2.role.text ∧ proved = some (utf8 r.2.password.text)

section Records

variable {path : List Char} {st st' : CredState} {l : Action}

theorem start_map (path : List Char) (st : CredState) (i : ℕ) (now : UInt64) (c : Call) :
    (st.start path i now c).1.map = st.map ∨ (∃ d, (st.start path i now c).1.map = st.map.erase d) ∨
      ∃ database role password r, c = .create database role password ∧
        Creds.create st.map database role password now = .ok r ∧
          (st.start path i now c).1.map = st.map.insert r.1 r.2 := by
  cases c with
  | create database role password =>
    simp only [CredState.start]
    cases hc : Creds.create st.map database role password now with
    | error e => exact .inl rfl
    | ok r => exact .inr (.inr ⟨_, _, _, r, rfl, hc, rfl⟩)
  | remove database =>
    simp only [CredState.start]
    cases Field.ofString? database with
    | none => exact .inl rfl
    | some d =>
      dsimp only
      split
      · exact .inr (.inl ⟨d, rfl⟩)
      · exact .inl rfl

/-- A step of a call adds the one record it inserts, or it adds none. -/
theorem credStep_entries {i : ℕ} {e : Event} (hs : credStep path (.act i e) st = some st') :
    (∀ r ∈ st'.map.entries, r ∈ st.map.entries) ∨
      ∃ now r, e = .ok now ∧ st.inserts i now = some r ∧ st'.map.entries = r :: st.map.entries ∧
        ∀ r' ∈ st.map.entries, r'.2.role ≠ r.2.role := by
  obtain ⟨⟨c, pc⟩, hi, hs⟩ := Option.bind_eq_some_iff.mp hs
  obtain ⟨next, hr, rfl⟩ := Option.map_eq_some_iff.mp hs
  have herase : ∀ d, ∀ r ∈ (st.map.erase d).entries, r ∈ st.map.entries :=
    fun d r hr ↦ (List.kerase_sublist d st.map.entries).subset hr
  cases callStep_moved hr with
  | start now =>
    rcases start_map path st i now c with hm | ⟨d, hm⟩ | ⟨database, role, password, r, rfl, hc, hm⟩
    · exact .inl (by simp only [hm]; exact fun _ h ↦ h)
    · exact .inl (by simp only [hm]; exact herase d)
    · obtain ⟨hnew, hrole⟩ := Creds.create_ok hc
      refine .inr ⟨now, ⟨r.1, r.2⟩, rfl, ?_, ?_, fun r' hr' he ↦ ?_⟩
      · simp only [CredState.inserts, hi, Option.bind_some, hc]
        rfl
      · simp only [hm]
        exact AList.entries_insert_of_notMem hnew
      · rw [Creds.byRole, Option.map_eq_none_iff] at hrole
        simpa [he] using List.find?_eq_none.mp hrole r' hr'
  | rolledBack t now => exact .inl (herase _)
  | opens t now => exact .inl fun _ h ↦ h
  | wrote t file rest n => exact .inl fun _ h ↦ h
  | stage t file _ _ pc' ht ht' hf hf' => exact .inl fun _ h ↦ h
  | moved t file now files' hren => exact .inl fun _ h ↦ h
  | missing t file now hren => exact .inl fun _ h ↦ h
  | fails t _ ht hfail => exact .inl fun _ h ↦ h

end Records

structure GateInv (st : GateState) : Prop where
  unambiguous : st.creds.map.Unambiguous
  clear : ∀ (i : ℕ) (x : Conn), st.conns[i]? = some x → ∀ r ∈ st.creds.map.entries, x.Clear r

/-- A connection's own step, on whatever records there are. -/
theorem Conn.step_clear {m : Creds} {shared : Option String} {x : Conn} {e : ConnEvent} {pc : ConnPc}
    (hm : m.Unambiguous) (hx : ∀ r ∈ m.entries, x.Clear r) (hs : x.step m shared e = some pc) :
    ∀ r ∈ m.entries, Conn.Clear { x with pc } r := by
  intro r hr
  obtain ⟨user, database, pc₀⟩ := x
  have hc := hx r hr
  cases e with
  | fail =>
    cases hs
    exact trivial
  | password body =>
    cases pc₀ with
    | prompt expected =>
      simp only [Conn.step, Option.some_inj] at hs
      split at hs
      · rename_i heq
        subst hs
        intro hu hd
        rw [constantTimeEq_iff.mp heq, hc hu hd]
      · subst hs
        exact trivial
    | start => cases hs
    | authorize proved => cases hs
    | unowned proved => cases hs
    | route proved => cases hs
    | bringUp proved => cases hs
    | spliced proved => cases hs
    | closed => cases hs
  | ok =>
    cases pc₀ with
    | start =>
      simp only [Conn.step, Creds.challengePassword] at hs
      cases ho : m.ofRole user with
      | some r₀ =>
        rw [ho] at hs
        cases hs
        intro hu _
        rw [hm.ofRole_eq ho hr hu.symm]
      | none =>
        have hne := Creds.ofRole_none ho hr
        rw [ho] at hs
        cases shared with
        | some s =>
          cases hs
          exact fun hu _ ↦ absurd hu.symm hne
        | none =>
          cases hs
          exact fun hu _ ↦ absurd hu.symm hne
    | authorize proved =>
      simp only [Conn.step] at hs
      cases ho : m.ofRole user with
      | some r₀ =>
        simp only [ho, Option.some_inj] at hs
        split at hs
        · rename_i hd
          subst hs
          obtain ⟨hm₀, hrole⟩ := Creds.ofRole_some ho
          refine ⟨fun hu ↦ ?_, fun hd' ↦ ?_⟩
          · rw [hm.ofRole_eq ho hr hu.symm]
            exact hd.1.symm
          · have hkey : r.1 = r₀.1 := Field.text_inj (hd'.symm.trans hd.1.symm)
            obtain rfl := Creds.eq_of_key hr hm₀ hkey
            exact ⟨hrole.symm, hc hrole.symm hd'⟩
        · subst hs
          exact trivial
      | none =>
        rw [ho] at hs
        cases hs
        exact fun hu ↦ absurd hu.symm (Creds.ofRole_none ho hr)
    | unowned proved =>
      simp only [Conn.step, Option.some_inj] at hs
      split at hs
      · rename_i hd
        subst hs
        have hne : database ≠ r.1.text := by
          rintro rfl
          rw [Creds.isDedicated_iff.mpr ⟨r, hr, rfl⟩] at hd
          exact absurd hd.1 (by simp)
        exact ⟨fun hu ↦ absurd (hc hu) hne, fun he ↦ absurd he hne⟩
      · subst hs
        exact trivial
    | route proved =>
      cases hs
      exact hc.2
    | bringUp proved =>
      cases hs
      exact trivial
    | spliced proved =>
      cases hs
      exact trivial
    | prompt expected => cases hs
    | closed => cases hs

theorem GateInv.step {cfg : GateConfig} {st st' : GateState} {l : GateLabel} (h : GateInv st)
    (hcalm : Calm st l) (hs : gateStep cfg l st = some st') : GateInv st' := by
  cases l with
  | connect user database =>
    cases hs
    exact ⟨h.unambiguous, forall_append (P := fun _ (x : Conn) ↦ ∀ r ∈ st.creds.map.entries, x.Clear r)
      (fun _ _ ↦ trivial) h.clear⟩
  | conn i e =>
    obtain ⟨x, hx, hs⟩ := Option.bind_eq_some_iff.mp hs
    obtain ⟨pc, hpc, rfl⟩ := Option.map_eq_some_iff.mp hs
    exact ⟨h.unambiguous, forall_set (P := fun _ (x : Conn) ↦ ∀ r ∈ st.creds.map.entries, x.Clear r)
      (Conn.step_clear h.unambiguous (h.clear i x hx) hpc) fun j y _ hy ↦ h.clear j y hy⟩
  | provision database role password =>
    cases hs
    exact ⟨h.unambiguous, h.clear⟩
  | check j =>
    obtain ⟨p, -, hs⟩ := Option.bind_eq_some_iff.mp hs
    unfold GateState.check GateState.passes at hs
    split at hs
    · cases hs
      split <;> exact ⟨h.unambiguous, h.clear⟩
    · cases hs
      split <;> exact ⟨h.unambiguous, h.clear⟩
    · cases hs
  | remove database =>
    cases hs
    exact ⟨h.unambiguous, h.clear⟩
  | stored recorded =>
    cases hs
    exact ⟨h.unambiguous, h.clear⟩
  | act i e =>
    obtain ⟨creds, hc, rfl⟩ := Option.map_eq_some_iff.mp hs
    rcases credStep_entries hc with hsub | ⟨now, r, rfl, hins, hentries, hrole⟩
    · exact ⟨fun r hr r' hr' ↦ h.unambiguous r (hsub r hr) r' (hsub r' hr'),
        fun j x hx r hr ↦ h.clear j x hx r (hsub r hr)⟩
    · refine ⟨?_, fun j x hx r' hr' ↦ ?_⟩
      · unfold Creds.Unambiguous
        rw [hentries]
        intro a ha b hb hab
        rcases List.mem_cons.mp ha with rfl | ha'
        · rcases List.mem_cons.mp hb with rfl | hb'
          · rfl
          · exact absurd hab.symm (hrole b hb')
        · rcases List.mem_cons.mp hb with rfl | hb'
          · exact absurd hab (hrole a ha')
          · exact h.unambiguous a ha' b hb' hab
      · rw [hentries] at hr'
        rcases List.mem_cons.mp hr' with rfl | hr'
        · exact hcalm r' hins x (List.mem_of_getElem? hx)
        · exact h.clear j x hx r' hr'

/-- In every run in which records are made only when no client on its way conflicts with them. -/
theorem dedicated_gated (cfg : GateConfig) {files : Files (List Char) Char} {recorded : List String}
    {st : GateState} (hroles : (rowsOf cfg.path files).Unambiguous)
    (h : Run (gateStep cfg) Calm (.load cfg.path files recorded) st) (l : GateLabel) : Gated st l := by
  have hinv : GateInv st := h.invariant ⟨hroles, fun i x hx ↦ by simp [GateState.load] at hx⟩
    fun _ _ _ hI hcalm hs ↦ hI.step hcalm hs
  constructor
  · intro i x proved _ hx hpc r hr hu
    have hc := hinv.clear i x hx r hr
    simp only [Conn.Clear, hpc] at hc
    exact (hc.1 hu.symm).symm
  · intro i x proved _ hx hpc r hr hd
    have hc := hinv.clear i x hx r hr
    simp only [Conn.Clear, hpc] at hc
    exact hc hd.symm

def gateConfig : GateConfig := ⟨credFile, some "shared"⟩

/-- The whole of `create_dedicated` for `app`, as the first call. -/
def provisionApp : List GateLabel :=
  [.provision "app" "app_user" "hunter2hunter2", .check 0, .act 0 (.ok 7), .act 0 (.ok 7),
    .act 0 (.wrote 30), .act 0 (.ok 7), .act 0 (.ok 7), .act 0 (.ok 7), .act 0 (.ok 7)]

/-- A client up to its bring-up. -/
def clientTo (user database password : String) : List GateLabel :=
  [.connect user database, .conn 0 .ok, .conn 0 (.password (utf8 password ++ [0])), .conn 0 .ok,
    .conn 0 .ok]

theorem dedicated_gated_run : ∃ st x, Run (gateStep gateConfig) Calm (.load credFile .empty []) st ∧
    st.conns[0]? = some x ∧ x.pc = .bringUp (some (utf8 "hunter2hunter2")) ∧
      (st.creds.map.entries.map fun r ↦ r.1.text) = [x.database] ∧ Gated st (.conn 0 .ok) := by
  obtain ⟨st, hr, hp⟩ := Run.exists_of_exec (gateStep gateConfig) Calm (.load credFile .empty [])
    (provisionApp ++ clientTo "app_user" "app" "hunter2hunter2")
    (fun st ↦ st.conns[0]?.any fun x : Conn ↦ decide (x.pc = .bringUp (some (utf8 "hunter2hunter2")) ∧
      (st.creds.map.entries.map fun r ↦ r.1.text) = [x.database])) (by decide +kernel) (by decide +kernel)
  obtain ⟨x, hx, hq⟩ := (Option.any_eq_true _ _).mp hp
  obtain ⟨hpc, hentries⟩ := of_decide_eq_true hq
  exact ⟨st, x, hr, hx, hpc, hentries, dedicated_gated gateConfig (by decide +kernel) hr _⟩

/-- A client of the shared password is on its way to `app` when `app` is provisioned. -/
def overtaken : List GateLabel :=
  clientTo "alice" "app" "shared" ++ [.conn 0 .ok] ++ provisionApp

theorem dedicated_reached : ∃ st st' x r,
    Run (gateStep gateConfig) (fun _ _ ↦ True) (.load credFile .empty []) st ∧
      st.conns[0]? = some x ∧ x.user = "alice" ∧ r ∈ st.creds.map.entries ∧ r.1.text = x.database ∧
        gateStep gateConfig (.conn 0 .ok) st = some st' ∧
          (st'.conns.map (·.pc)) = [.spliced (some (utf8 "shared"))] ∧ ¬Gated st (.conn 0 .ok) := by
  obtain ⟨st, hr, hp⟩ := Run.exists_of_exec (gateStep gateConfig) (fun _ _ ↦ True)
    (.load credFile .empty []) overtaken
    (fun st ↦ st.conns[0]?.any (fun x : Conn ↦
        decide (x = ⟨"alice", "app", .bringUp (some (utf8 "shared"))⟩)) &&
      st.creds.map.entries.head?.any (fun r : Row ↦
        decide (r.1.text = "app" ∧ r.2.role.text = "app_user")) &&
        (gateStep gateConfig (.conn 0 .ok) st).any fun st' : GateState ↦
          decide ((st'.conns.map (·.pc)) = [.spliced (some (utf8 "shared"))]))
    (by decide +kernel) (by decide +kernel)
  obtain ⟨hp, hnext⟩ := Bool.and_eq_true_iff.mp hp
  obtain ⟨hconn, hrow⟩ := Bool.and_eq_true_iff.mp hp
  obtain ⟨x, hx, hxe⟩ := (Option.any_eq_true _ _).mp hconn
  obtain rfl := of_decide_eq_true hxe
  obtain ⟨r, hhead, hre⟩ := (Option.any_eq_true _ _).mp hrow
  obtain ⟨hdatabase, hrole⟩ := of_decide_eq_true hre
  obtain ⟨st', hs, hpc⟩ := (Option.any_eq_true _ _).mp hnext
  have hmem : r ∈ st.creds.map.entries := List.mem_of_mem_head? hhead
  refine ⟨st, st', _, r, hr, hx, rfl, hmem, hdatabase, hs, of_decide_eq_true hpc, fun hgated ↦ ?_⟩
  have huser := (hgated.splice 0 _ _ rfl hx rfl r hmem hdatabase).1
  rw [hrole] at huser
  exact absurd huser (by decide)

end PgVmPool.Dedicated
