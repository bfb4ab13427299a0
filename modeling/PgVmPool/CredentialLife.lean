import PgVmPool.CredentialWrites

namespace PgVmPool.Dedicated

open Function HostFiles HostPath Transition

/-- What `create` checks of the records that are already there. -/
structure Creds.Valid (m : Creds) : Prop where
  roles : ∀ d d' c c', m.lookup d = some c → m.lookup d' = some c' → c.role = c'.role → d = d'
  bounded : m.entries.length ≤ maxRecords

section Records

variable {m m' : Creds} {d : Field} {c : Credential}

theorem mem_entries_iff {r : Σ _ : Field, Credential} : r ∈ m.entries ↔ m.lookup r.1 = some r.2 :=
  AList.mem_lookup_iff.symm

theorem notMem_of_byRole (h : m.byRole c.role = none) {d' : Field} {c' : Credential}
    (hd : m.lookup d' = some c') : c'.role ≠ c.role := by
  have hfind := Option.map_eq_none_iff.mp h
  rw [List.find?_eq_none] at hfind
  simpa using hfind ⟨d', c'⟩ (mem_entries_iff.mpr hd)

theorem Creds.Valid.insert (h : m.Valid) (hd : d ∉ m) (hlen : m.entries.length < maxRecords)
    (hrole : m.byRole c.role = none) : Creds.Valid (m.insert d c) := by
  constructor
  · intro d₁ d₂ c₁ c₂ h₁ h₂ heq
    by_cases hd₁ : d₁ = d
    · by_cases hd₂ : d₂ = d
      · exact hd₁.trans hd₂.symm
      · subst hd₁
        rw [AList.lookup_insert, Option.some_inj] at h₁
        rw [AList.lookup_insert_ne hd₂] at h₂
        subst h₁
        exact absurd heq.symm (notMem_of_byRole hrole h₂)
    · rw [AList.lookup_insert_ne hd₁] at h₁
      by_cases hd₂ : d₂ = d
      · subst hd₂
        rw [AList.lookup_insert, Option.some_inj] at h₂
        subst h₂
        exact absurd heq (notMem_of_byRole hrole h₁)
      · rw [AList.lookup_insert_ne hd₂] at h₂
        exact h.roles d₁ d₂ c₁ c₂ h₁ h₂ heq
  · rw [AList.entries_insert_of_notMem hd, List.length_cons]
    exact hlen

theorem Creds.Valid.erase (h : m.Valid) (d : Field) : Creds.Valid (m.erase d) := by
  have hold {d' : Field} {c' : Credential} (hl : (m.erase d).lookup d' = some c') :
      m.lookup d' = some c' := by
    by_cases hd : d' = d
    · rw [hd, AList.lookup_erase] at hl
      cases hl
    · rwa [AList.lookup_erase_ne hd] at hl
  refine ⟨fun d₁ d₂ c₁ c₂ h₁ h₂ ↦ h.roles d₁ d₂ c₁ c₂ (hold h₁) (hold h₂), ?_⟩
  have hsub : (m.erase d).entries.Sublist m.entries := List.kerase_sublist d m.entries
  exact hsub.length_le.trans h.bounded

theorem perm_of_lookup (h : ∀ d, m.lookup d = m'.lookup d) : m.entries.Perm m'.entries := by
  refine List.lookup_ext m.nodupKeys m'.nodupKeys fun d c ↦ ?_
  rw [show List.dlookup d m.entries = List.dlookup d m'.entries from h d]

theorem Creds.Valid.of_lookup (hm : m.Valid) (h : ∀ d, m'.lookup d = m.lookup d) : m'.Valid := by
  constructor
  · intro d₁ d₂ c₁ c₂ h₁ h₂
    rw [h] at h₁ h₂
    exact hm.roles d₁ d₂ c₁ c₂ h₁ h₂
  · rw [(perm_of_lookup h).length_eq]
    exact hm.bounded

theorem Creds.Valid.byRole_eq_some_iff (h : m.Valid) (role : Field) :
    m.byRole role = some d ↔ ∃ c, m.lookup d = some c ∧ c.role = role := by
  constructor
  · intro hb
    obtain ⟨r, hr, rfl⟩ := Option.map_eq_some_iff.mp hb
    refine ⟨r.2, mem_entries_iff.mp (List.mem_of_find?_eq_some hr), ?_⟩
    simpa using List.find?_some hr
  · rintro ⟨c, hc, rfl⟩
    cases hfind : m.entries.find? fun r ↦ r.2.role = c.role with
    | none =>
      have hnone := List.find?_eq_none.mp hfind ⟨d, c⟩ (mem_entries_iff.mpr hc)
      simp at hnone
    | some r =>
      have hrole : r.2.role = c.role := by simpa using List.find?_some hfind
      have hr := mem_entries_iff.mp (List.mem_of_find?_eq_some hfind)
      rw [Creds.byRole, hfind, Option.map_some, h.roles r.1 d r.2 c hr hc hrole]

theorem Creds.Valid.roles_nodup (h : m.Valid) : (m.entries.map fun r ↦ r.2.role).Nodup := by
  refine (List.nodup_map_iff_inj_on (List.NodupKeys.nodup m.nodupKeys)).mpr fun r hr r' hr' heq ↦ ?_
  have hl := mem_entries_iff.mp hr
  have hl' := mem_entries_iff.mp hr'
  have hkey := h.roles r.1 r'.1 r.2 r'.2 hl hl' heq
  obtain ⟨d, c⟩ := r
  obtain ⟨d', c'⟩ := r'
  obtain rfl : d = d' := hkey
  rw [hl, Option.some_inj] at hl'
  rw [show c = c' from hl']

end Records

section Validation

theorem eq_ok_iff_text {f g : Field} : (Except.ok f : Except CredError Field) = .ok g ↔ g.text = f.text :=
  ⟨fun h ↦ by cases h; rfl, fun h ↦ congrArg Except.ok (Field.text_inj h).symm⟩

/-- A password is accepted exactly when it passes the checks, and stored as it is. -/
theorem validatePassword_eq_ok_iff {p : String} {f : Field} :
    validatePassword p = .ok f ↔ minPasswordLen ≤ p.utf8ByteSize ∧ p.utf8ByteSize ≤ maxPasswordLen ∧
      p.toList.all (fun c ↦ '!' ≤ c && c ≤ '~') = true ∧ f.text = p := by
  unfold validatePassword
  split
  · rename_i hshort
    exact iff_of_false (by simp) fun h ↦ absurd h.1 (Nat.not_le.mpr hshort)
  · rename_i hshort
    split
    · rename_i hlong
      exact iff_of_false (by simp) fun h ↦ absurd h.2.1 (Nat.not_le.mpr hlong)
    · rename_i hlong
      split
      · rename_i hchars
        exact iff_of_false (by simp) fun h ↦ hchars h.2.2.1
      · rename_i hchars
        have hall := not_not.mp hchars
        rw [eq_ok_iff_text]
        simp only [hall, Nat.not_lt.mp hshort, Nat.not_lt.mp hlong, true_and]

/-- A name is accepted exactly when, trimmed, it passes the checks, and stored trimmed. -/
theorem validateIdentifier_eq_ok_iff {raw : String} {f : Field} :
    validateIdentifier raw = .ok f ↔ trim raw.toList ≠ [] ∧
      (String.ofList (trim raw.toList)).utf8ByteSize ≤ 63 ∧
      (trim raw.toList).head?.all isAsciiLower = true ∧
      (trim raw.toList).all (fun c ↦ isAsciiLower c || c.isDigit || c = '_') = true ∧
      ("pg_".toList.isPrefixOf (trim raw.toList) || "spare".toList.isPrefixOf (trim raw.toList)) = false ∧
      f.text = String.ofList (trim raw.toList) := by
  unfold validateIdentifier
  dsimp only
  split
  · rename_i hnil
    exact iff_of_false (by simp) fun h ↦ h.1 hnil
  · rename_i hnil
    split
    · rename_i hlong
      exact iff_of_false (by simp) fun h ↦ absurd h.2.1 (Nat.not_le.mpr hlong)
    · rename_i hlong
      split
      · rename_i hstart
        exact iff_of_false (by simp) fun h ↦ by simp [h.2.2.1] at hstart
      · rename_i hstart
        split
        · rename_i hchars
          exact iff_of_false (by simp) fun h ↦ hchars h.2.2.2.1
        · rename_i hchars
          split
          · rename_i hreserved
            exact iff_of_false (by simp) fun h ↦ Bool.false_ne_true (h.2.2.2.2.1.symm.trans hreserved)
          · rename_i hreserved
            have hall := not_not.mp hchars
            have hhead : (trim raw.toList).head?.all isAsciiLower = true := by simpa using hstart
            rw [eq_ok_iff_text]
            simp only [hall, hhead, Nat.not_lt.mp hlong, Bool.not_eq_true _ ▸ hreserved, true_and, ne_eq, hnil,
              not_false_eq_true]

end Validation

variable {path : List Char} {st st' : CredState} {i : ℕ} {c : Call} {pc : Pc}

/-- Calls follow each other and no write fails. -/
def OneAtATime (st : CredState) : Action → Prop
  | .call _ => ∀ x ∈ st.calls, x.2.ended = true
  | .act _ .fail => False
  | .act _ _ => True

instance (st : CredState) : ∀ l : Action, Decidable (OneAtATime st l)
  | .call _ => inferInstanceAs (Decidable (∀ x ∈ st.calls, x.2.ended = true))
  | .act _ .fail => isFalse id
  | .act _ (.ok _) | .act _ (.wrote _) => isTrue trivial

/-- The histories of a credential set: it starts without a file, and is loaded again at a restart. -/
inductive Lives (path : List Char) : CredState → Prop
  | fresh : Lives path (.load path .empty)
  | step {st st' : CredState} {l : Action} :
      Lives path st → OneAtATime st l → credStep path l st = some st' → Lives path st'
  | restart {st : CredState} :
      Lives path st → (∀ x ∈ st.calls, x.2.ended = true) → Lives path (.load path st.files)

structure CredState.Sound (path : List Char) (st : CredState) : Prop where
  databases : (st.map.entries.map Sigma.fst).Nodup
  roles : (st.map.entries.map fun r ↦ r.2.role).Nodup
  clean : ∀ r ∈ st.map.entries, ∀ f ∈ [r.1, r.2.role, r.2.password],
    ∀ ch ∈ f.text.toList, ch ≠ '\t' ∧ ch ≠ '\n'
  bounded : st.map.entries.length ≤ maxRecords
  restart : (∀ x ∈ st.calls, x.2.ended = true) →
    (∀ d, (CredState.load path st.files).map.lookup d = st.map.lookup d) ∧
      ∀ role, (CredState.load path st.files).map.byRole role = st.map.byRole role

/-- Between its locked section and its rename the only call in flight has the map's text in hand, and
in its temp file what it has written of it. -/
structure Steady (path : List Char) (st : CredState) : Prop where
  valid : st.map.Valid
  last : ∀ i x, st.calls[i]? = some x → x.2.ended = false → i + 1 = st.calls.length
  settled : st.Settled
  idle : (∀ x ∈ st.calls, x.2.ticket = none) → st.Agrees path
  busy : ∀ x ∈ st.calls, ∀ t, x.2.ticket = some t → t.snapshot = serialize st.map
  temp : ∀ x ∈ st.calls, ∀ t file rest, x.2.ticket = some t → x.2.file = some (file, rest) →
    st.files.links (tmpOf path) = some file ∧ st.files.data file ++ rest = t.snapshot

theorem Pc.ticket_of_ended (h : pc.ended = true) : pc.ticket = none := by
  cases pc <;> first | rfl | cases h

theorem Pc.ended_false_of_ticket {t : Ticket} (h : pc.ticket = some t) : pc.ended = false := by
  cases pc <;> first | rfl | cases h

theorem Steady.others (h : Steady path st) (hi : st.calls[i]? = some (c, pc)) (hpc : pc.ended = false)
    {j : ℕ} {x : Call × Pc} (hj : j ≠ i) (hx : st.calls[j]? = some x) : x.2.ended = true := by
  by_contra hend
  have hjl := h.last j x hx (by simpa using hend)
  have hil := h.last i _ hi hpc
  omega

theorem Steady.forall_calls_set (h : Steady path st) (hi : st.calls[i]? = some (c, pc))
    (hpc : pc.ended = false) {P : Call × Pc → Prop} {pc' : Pc} (hnew : P (c, pc'))
    (hended : ∀ x, x.2.ended = true → P x) : ∀ x ∈ st.calls.set i (c, pc'), P x := by
  intro x hx
  obtain ⟨j, hj⟩ := List.mem_iff_getElem?.mp hx
  rcases getElem?_set_cases hj with ⟨-, rfl⟩ | ⟨hne, hj⟩
  · exact hnew
  · exact hended x (h.others hi hpc hne hj)

/-- The call in flight moves on with the map's text in hand. -/
theorem Steady.carries (h : Steady path st) {t : Ticket} {pc' : Pc} {files : Files (List Char) Char}
    (hi : st.calls[i]? = some (c, pc)) (hpc : pc.ticket = some t) (ht' : pc'.ticket = some t)
    (hroll : pc'.isRollback = false)
    (htemp : ∀ file rest, pc'.file = some (file, rest) →
      files.links (tmpOf path) = some file ∧ files.data file ++ rest = t.snapshot) :
    Steady path { st with files, calls := st.calls.set i (c, pc') } := by
  have hend := Pc.ended_false_of_ticket hpc
  have hlt := (List.getElem?_eq_some_iff.mp hi).1
  refine ⟨h.valid, fun j x hj hx ↦ ?_, ?_, fun hnone ↦ ?_, ?_, ?_⟩
  · rw [List.length_set]
    rcases getElem?_set_cases hj with ⟨rfl, -⟩ | ⟨hne, hj⟩
    · exact h.last _ _ hi hend
    · exact h.last j x hj hx
  · refine h.forall_calls_set hi hend hroll fun x hx ↦ ?_
    cases hx' : x.2 <;> rw [hx'] at hx <;> first | rfl | cases hx
  · have hnone := hnone (c, pc') (List.mem_set hlt _)
    rw [ht'] at hnone
    cases hnone
  · refine h.forall_calls_set hi hend (fun t' he ↦ ?_) fun x hx t' he ↦ ?_
    · rw [ht'] at he
      cases he
      exact h.busy _ (List.mem_of_getElem? hi) t hpc
    · rw [Pc.ticket_of_ended hx] at he
      cases he
  · refine h.forall_calls_set hi hend (fun t' file rest he hf ↦ ?_) fun x hx t' _ _ he ↦ ?_
    · rw [ht'] at he
      cases he
      exact htemp file rest hf
    · rw [Pc.ticket_of_ended hx] at he
      cases he

theorem Steady.ends (h : Steady path st) {o : Outcome} {files : Files (List Char) Char} {written : ℕ}
    (hi : st.calls[i]? = some (c, pc)) (hpc : pc.ended = false)
    (hagrees : ∀ d, (rowsOf path files).lookup d = st.map.lookup d) :
    Steady path { st with files, written, calls := st.calls.set i (c, .done o) } := by
  refine ⟨h.valid, fun j x hj hx ↦ ?_, ?_, fun _ ↦ hagrees, ?_, ?_⟩
  · rcases getElem?_set_cases hj with ⟨-, rfl⟩ | ⟨hne, hj⟩
    · cases hx
    · rw [h.others hi hpc hne hj] at hx
      cases hx
  · refine h.forall_calls_set hi hpc rfl fun x hx ↦ ?_
    cases hx' : x.2 <;> rw [hx'] at hx <;> first | rfl | cases hx
  · refine h.forall_calls_set hi hpc (fun t' he ↦ (by cases he)) fun x hx t' he ↦ ?_
    rw [Pc.ticket_of_ended hx] at he
    cases he
  · refine h.forall_calls_set hi hpc (fun t' _ _ he ↦ (by cases he)) fun x hx t' _ _ he ↦ ?_
    rw [Pc.ticket_of_ended hx] at he
    cases he

theorem Creds.create_room {m : Creds} {database role password : String} {now : UInt64}
    {r : Field × Credential} (h : create m database role password now = .ok r) :
    m.entries.length < maxRecords := by
  simp only [create, bind, Except.bind, pure, Except.pure, throw, throwThe, MonadExceptOf.throw] at h
  repeat' split at h
  all_goals cases h
  exact Nat.lt_of_not_le ‹_›

theorem start_valid (h : st.map.Valid) (i : ℕ) (now : UInt64) (c : Call) :
    (st.start path i now c).1.map.Valid := by
  cases c with
  | create database role password =>
    simp only [CredState.start]
    cases hc : Creds.create st.map database role password now with
    | error e => exact h
    | ok r =>
      obtain ⟨hd, hrole⟩ := Creds.create_ok hc
      exact h.insert hd (Creds.create_room hc) hrole
  | remove database =>
    simp only [CredState.start]
    split
    · exact h
    · split
      · exact h.erase _
      · exact h

theorem Steady.locks (h : Steady path st) (hi : st.calls[i]? = some (c, .start)) {change : Change}
    (hvalid : (st.locked path i change).1.map.Valid) :
    Steady path { (st.locked path i change).1 with
      calls := st.calls.set i (c, (st.locked path i change).2) } := by
  have hlt := (List.getElem?_eq_some_iff.mp hi).1
  refine ⟨hvalid, fun j x hj hx ↦ ?_, ?_, fun hnone ↦ ?_, ?_, ?_⟩
  · rw [List.length_set]
    rcases getElem?_set_cases hj with ⟨rfl, -⟩ | ⟨hne, hj⟩
    · exact h.last _ _ hi rfl
    · exact h.last j x hj hx
  · refine h.forall_calls_set hi rfl rfl fun x hx ↦ ?_
    cases hx' : x.2 <;> rw [hx'] at hx <;> first | rfl | cases hx
  · have hnone := hnone _ (List.mem_set hlt _)
    cases hnone
  · refine h.forall_calls_set hi rfl (fun t' he ↦ ?_) fun x hx t' he ↦ ?_
    · cases he
      rfl
    · rw [Pc.ticket_of_ended hx] at he
      cases he
  · refine h.forall_calls_set hi rfl (fun t' file rest _ hf ↦ (by cases hf)) fun x hx t' _ _ he ↦ ?_
    rw [Pc.ticket_of_ended hx] at he
    cases he

theorem Steady.step (h : Steady path st) {l : Action} (hok : OneAtATime st l)
    (hs : credStep path l st = some st') : Steady path st' := by
  cases l with
  | call c =>
    cases hs
    refine ⟨h.valid, fun j x hj hx ↦ ?_, ?_, fun hnone ↦ h.idle fun x hx ↦ hnone x (by simp [hx]), ?_, ?_⟩
    · rw [List.length_append, List.length_singleton]
      rcases getElem?_append_cases hj with ⟨rfl, -⟩ | hj
      · rfl
      · rw [hok x (List.mem_of_getElem? hj)] at hx
        cases hx
    · exact List.forall_mem_append.mpr ⟨h.settled, by simp [Pc.isRollback]⟩
    · exact List.forall_mem_append.mpr ⟨h.busy, by simp [Pc.ticket]⟩
    · exact List.forall_mem_append.mpr ⟨h.temp, by simp [Pc.ticket]⟩
  | act i e =>
    obtain ⟨⟨c, pc⟩, hi, hs⟩ := Option.bind_eq_some_iff.mp hs
    obtain ⟨r, hr, rfl⟩ := Option.map_eq_some_iff.mp hs
    have hmem := List.mem_of_getElem? hi
    cases callStep_moved hr with
    | start now =>
      rcases start_cases path st i now c with ⟨o, -, heq⟩ | ⟨change, heq, -, -⟩
      · rw [heq]
        refine h.ends hi rfl (h.idle fun x hx ↦ ?_)
        obtain ⟨j, hj⟩ := List.mem_iff_getElem?.mp hx
        by_cases hji : j = i
        · subst hji
          obtain rfl := Option.some_inj.mp (hi.symm.trans hj)
          rfl
        · exact Pc.ticket_of_ended (h.others hi rfl hji hj)
      · have hvalid : (st.start path i now c).1.map.Valid := start_valid h.valid i now c
        rw [heq] at hvalid ⊢
        exact h.locks hi hvalid
    | opens t now =>
      refine h.carries hi rfl rfl rfl fun file rest hf ↦ ?_
      cases hf
      exact ⟨Files.create_links_self .., by rw [Files.create_data_self, List.nil_append]⟩
    | wrote t file rest n =>
      obtain ⟨hlink, hdata⟩ := h.temp _ hmem t file rest rfl rfl
      refine h.carries hi rfl rfl rfl fun file' rest' hf ↦ ?_
      cases hf
      have hlen : t.snapshot.length - rest.length = (st.files.data file).length := by
        have := congrArg List.length hdata
        simp only [List.length_append] at this
        omega
      refine ⟨hlink, ?_⟩
      rw [Files.write_data_self, hlen, splice_length, List.append_assoc, List.take_append_drop, hdata]
    | stage t file _ _ pc' ht ht' hf hf' =>
      refine h.carries hi ht ht' ?_ fun file' rest' he ↦ ?_
      · cases hp : pc' <;> rw [hp] at hf' <;> first | rfl | cases hf'
      · rw [hf'] at he
        cases he
        exact h.temp _ hmem t file [] ht hf
    | moved t file now files' hren =>
      obtain ⟨hlink, hdata⟩ := h.temp _ hmem t file [] rfl rfl
      obtain ⟨ino, hino, hlinks, hdata', -⟩ := Files.rename_eq hren
      obtain rfl : ino = file := Option.some_inj.mp (hino.symm.trans hlink)
      have hread : files'.read path = some (serialize st.map) := by
        rw [Files.read, hlinks, update_self, hdata', Option.map_some, ← h.busy _ hmem t rfl, ← hdata,
          List.append_nil]
      have hagrees : ∀ d, (rowsOf path files').lookup d = st.map.lookup d := by
        intro d
        rw [rowsOf, hread]
        exact lookup_parse_serialize st.map d
      have hdone : ∃ o, CredState.succeeded t = .done o := by
        unfold CredState.succeeded
        cases t.change <;> exact ⟨_, rfl⟩
      obtain ⟨o, ho⟩ := hdone
      rw [ho]
      exact h.ends hi rfl hagrees
    | missing t file now hren =>
      have hlink := (h.temp _ hmem t file [] rfl rfl).1
      rw [Files.rename_none_iff.mp hren] at hlink
      cases hlink
    | fails t _ ht hfail => exact absurd hok id
    | rolledBack t now =>
      have hroll := h.settled _ hmem
      cases hroll

theorem Steady.load {files : Files (List Char) Char} (h : (rowsOf path files).Valid) :
    Steady path (.load path files) where
  valid := h
  last _ _ hi := by simp [CredState.load] at hi
  settled := by simp [CredState.Settled, CredState.load]
  idle _ := fun _ ↦ rfl
  busy := by simp [CredState.load]
  temp := by simp [CredState.load]

theorem Lives.steady (h : Lives path st) : Steady path st := by
  induction h with
  | fresh =>
    refine Steady.load ⟨fun _ _ _ _ hl ↦ ?_, ?_⟩
    · simp [rowsOf, Files.read, Files.empty] at hl
    · simp [rowsOf, Files.read, Files.empty]
  | step _ hok hs ih => exact ih.step hok hs
  | restart _ hended ih =>
    exact Steady.load (ih.valid.of_lookup (ih.idle fun x hx ↦ Pc.ticket_of_ended (hended x hx)))

/-- Whatever calls are made, one at a time, databases and roles stay unique and storable, and at every
moment between two calls a restart finds the same credentials. -/
theorem credentials_sound (h : Lives path st) : st.Sound path := by
  have hsteady := h.steady
  refine ⟨st.map.nodupKeys, hsteady.valid.roles_nodup, fun r _ f _ ch hch ↦ f.ne_of_mem hch,
    hsteady.valid.bounded, fun hended ↦ ?_⟩
  have hagrees : st.Agrees path := hsteady.idle fun x hx ↦ Pc.ticket_of_ended (hended x hx)
  refine ⟨hagrees, fun role ↦ Option.ext fun d ↦ ?_⟩
  have hloaded : (CredState.load path st.files).map.Valid := hsteady.valid.of_lookup hagrees
  rw [hloaded.byRole_eq_some_iff, hsteady.valid.byRole_eq_some_iff]
  exact exists_congr fun c ↦ and_congr_left fun _ ↦ by rw [← hagrees d]; rfl

theorem Lives.of_run (h : Lives path st) (hr : Run (credStep path) OneAtATime st st') : Lives path st' := by
  induction hr with
  | refl => exact h
  | tail _ hok hs ih => exact ih.step hok hs

/-- Two credentials are provisioned, the first is revoked, the pooler restarts. -/
theorem credentials_sound_run : ∃ st, Lives credFile (.load credFile st) ∧
    (rowsOf credFile st).lookup shop = some shopRow ∧ (rowsOf credFile st).entries.length = 1 ∧
      (CredState.load credFile st).Sound credFile := by
  obtain ⟨st, hr, hp⟩ := Run.exists_of_exec (credStep credFile) OneAtATime (.load credFile .empty)
    ([.call createApp, locks 0] ++ writes 0 30 ++ [.call createShop, locks 1] ++ writes 1 62 ++
      [.call (.remove "app"), locks 2] ++ writes 2 32)
    (fun st ↦ decide ((∀ x ∈ st.calls, x.2.ended = true) ∧
      (rowsOf credFile st.files).lookup shop = some shopRow ∧
        (rowsOf credFile st.files).entries.length = 1))
    (by decide +kernel) (by decide +kernel)
  obtain ⟨hended, hshop, hone⟩ := of_decide_eq_true hp
  have hlives : Lives credFile (.load credFile st.files) :=
    (Lives.of_run .fresh hr).restart hended
  exact ⟨st.files, hlives, hshop, hone, credentials_sound hlives⟩

end PgVmPool.Dedicated
