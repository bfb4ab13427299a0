import PgVmPool.Credentials

namespace PgVmPool.Dedicated

open Function HostFiles HostPath Transition

variable {path : List Char} {st st' : CredState} {i : ℕ} {c : Call}

namespace Change

def act : Change → (Field → Option Credential) → Field → Option Credential
  | .put database c, f => update f database (some c)
  | .del database, f => update f database none

theorem lookup_apply (ch : Change) (m : Creds) (k : Field) :
    (ch.apply m).lookup k = ch.act (fun k ↦ m.lookup k) k := by
  cases ch with
  | put database c =>
    by_cases h : k = database
    · subst h
      simp [apply, act]
    · simp [apply, act, h]
  | del database =>
    by_cases h : k = database
    · subst h
      simp [apply, act]
    · simp [apply, act, h]

theorem act_of_ne {ch : Change} {k : Field} (h : k ≠ ch.database) (f : Field → Option Credential) :
    ch.act f k = f k := by
  cases ch <;> exact update_of_ne h ..

end Change

/-- What a map that was loaded as `f` has become after the logged changes. -/
def replay (f : Field → Option Credential) (log : List (ℕ × Change)) : Field → Option Credential :=
  log.foldl (fun f e ↦ e.2.act f) f

variable {f : Field → Option Credential}

theorem replay_append (f : Field → Option Credential) (log : List (ℕ × Change)) (e : ℕ × Change) :
    replay f (log ++ [e]) = e.2.act (replay f log) := by
  rw [replay, List.foldl_concat]
  rfl

theorem replay_of_ne {log log' : List (ℕ × Change)} {database : Field}
    (h : ∀ e ∈ log', e.2.database ≠ database) :
    replay f (log ++ log') database = replay f log database := by
  induction log' using List.reverseRecOn with
  | nil => rw [List.append_nil]
  | append_singleton log' e ih =>
    rw [← List.append_assoc, replay_append, Change.act_of_ne (Ne.symm (h e (by simp)))]
    exact ih fun e' he ↦ h e' (by simp [he])

/-- Every `put` found no record to replace. -/
def Fresh (f : Field → Option Credential) (log : List (ℕ × Change)) : Prop :=
  ∀ before i database c after, log = before ++ (i, .put database c) :: after →
    replay f before database = none

/-- A record that was put stays until it is deleted. -/
theorem replay_keeps {before after : List (ℕ × Change)} {database : Field} {c : Credential}
    (hfresh : Fresh f (before ++ (i, .put database c) :: after))
    (hdel : ∀ e ∈ after, e.2 ≠ .del database) :
    replay f (before ++ (i, .put database c) :: after) database = some c := by
  induction after using List.reverseRecOn with
  | nil =>
    rw [replay_append]
    exact update_self ..
  | append_singleton after e ih =>
    have hsplit : before ++ (i, Change.put database c) :: (after ++ [e]) =
        (before ++ (i, Change.put database c) :: after) ++ [e] := by simp
    have hprev : replay f (before ++ (i, .put database c) :: after) database = some c := by
      refine ih (fun b j k c' a he ↦ hfresh b j k c' (a ++ [e]) ?_) fun e' he' ↦ hdel e' (by simp [he'])
      rw [hsplit, he]
      simp
    rw [hsplit, replay_append]
    by_cases hk : database = e.2.database
    · obtain ⟨j, ch⟩ := e
      cases ch with
      | del k =>
        obtain rfl : database = k := hk
        exact absurd rfl (hdel (j, .del database) (by simp))
      | put k c' =>
        obtain rfl : database = k := hk
        have := hfresh _ j database c' [] (by rw [hsplit])
        rw [hprev] at this
        cases this
    · rw [Change.act_of_ne hk, hprev]

theorem Fresh.append {log : List (ℕ × Change)} (h : Fresh f log) {e : ℕ × Change}
    (he : ∀ database c, e.2 = .put database c → replay f log database = none) :
    Fresh f (log ++ [e]) := by
  intro before j database c after heq
  rcases List.eq_nil_or_concat after with rfl | ⟨after, x, rfl⟩
  · obtain ⟨rfl, hlast⟩ := List.append_inj' heq rfl
    obtain rfl := List.singleton_inj.mp hlast
    exact he database c rfl
  · have hsplit : log ++ [e] = (before ++ (j, .put database c) :: after) ++ [x] := by
      rw [heq]
      simp
    obtain ⟨rfl, -⟩ := List.append_inj' hsplit rfl
    exact h before j database c after rfl

theorem Fresh.of_append {log log' : List (ℕ × Change)} (h : Fresh f (log ++ log')) : Fresh f log := by
  intro before j database c after heq
  exact h before j database c (after ++ log') (by rw [heq]; simp)

section Calls

variable (path : List Char) (f : Field → Option Credential) (log : List (ℕ × Change)) (written : ℕ)
  (files : Files (List Char) Char) (i : ℕ)

/-- The place of a change in the log, and what its snapshot says. -/
structure Logged (t : Ticket) (k : ℕ) : Prop where
  waiting : written ≤ k
  entry : log[k]? = some (i, t.change)
  snapshot : ∀ d, (parse t.snapshot).lookup d = replay f (log.take (k + 1)) d
  before : ∀ database c, t.change = .put database c → t.before.1 = none

/-- The temp file of the call whose turn it is. -/
structure Writes (t : Ticket) (file : ℕ) (rest : List Char) : Prop where
  turn : log[written]? = some (i, t.change)
  linked : files.links (tmpOf path) = some file
  data : files.data file ++ rest = t.snapshot

structure CallOk (pc : Pc) : Prop where
  logged : ∀ t, pc.ticket = some t → ∃ k, Logged f log written i t k
  writes : ∀ t file rest, pc.ticket = some t → pc.file = some (file, rest) →
    Writes path log written files i t file rest
  rollback : ∀ t, pc = .rollback t → t.before.2 = none ∧ ∃ database c earlier,
    t.change = .put database c ∧ log.drop written = earlier ++ [(i, t.change)] ∧
      ∀ e ∈ earlier, e.2.database ≠ database
  created : ∀ database c, pc = .done (.created database c) →
    ∃ k < written, log[k]? = some (i, .put database c)

end Calls

structure Inv (path : List Char) (f : Field → Option Credential) (st : CredState) : Prop where
  written : st.written ≤ st.log.length
  map : ∀ d, st.map.lookup d = replay f st.log d
  file : ∀ d, (rowsOf path st.files).lookup d = replay f (st.log.take st.written) d
  nodup : (st.log.map (·.1)).Nodup
  fresh : Fresh f st.log
  calls : ∀ (i : ℕ) (x : Call × Pc), st.calls[i]? = some x →
    CallOk path f st.log st.written st.files i x.2
  opened : ∀ (k i : ℕ) (ch : Change), st.log[k]? = some (i, ch) →
    ∃ x, st.calls[i]? = some x ∧ x.2 ≠ .start ∧ (st.written ≤ k → x.2.ended = false)

theorem Inv.log_inj (h : Inv path f st) {k k' : ℕ} {ch ch' : Change} (hk : st.log[k]? = some (i, ch))
    (hk' : st.log[k']? = some (i, ch')) : k = k' := by
  refine (List.getElem?_inj (l := st.log.map (·.1)) ?_ h.nodup).mp ?_
  · rw [List.length_map]
    exact (List.getElem?_eq_some_iff.mp hk).1
  · rw [List.getElem?_map, List.getElem?_map, hk, hk']
    rfl

/-- Only the call whose turn it is has the temp file open. -/
theorem Inv.file_none (h : Inv path f st) {x : Call × Pc} {ch : Change} {j : ℕ}
    (hx : st.calls[j]? = some x) (hn : st.log[st.written]? = some (i, ch)) (hj : j ≠ i) :
    x.2.file = none := by
  cases hf : x.2.file with
  | none => rfl
  | some r =>
    obtain ⟨t, ht⟩ : ∃ t, x.2.ticket = some t := by
      cases hp : x.2 <;> rw [hp] at hf <;> first | exact ⟨_, rfl⟩ | cases hf
    have hw := ((h.calls j x hx).writes t r.1 r.2 ht hf).turn
    rw [hn, Option.some_inj] at hw
    exact absurd (congrArg Prod.fst hw).symm hj

theorem durable_of_inv (h : Inv path f st) : st.Durable path := by
  constructor
  · intro i call database c hi
    obtain ⟨k, hk, hlog⟩ := (h.calls i _ hi).created database c rfl
    have hlen := (List.getElem?_eq_some_iff.mp hlog).1
    have hsplit : st.log = st.log.take k ++ (i, .put database c) :: st.log.drop (k + 1) := by
      rw [← (List.getElem?_eq_some_iff.mp hlog).2, ← List.drop_eq_getElem_cons hlen, List.take_append_drop]
    refine ⟨_, _, hsplit, fun hdel ↦ ⟨?_, ?_⟩⟩
    · rw [h.map, hsplit]
      exact replay_keeps (hsplit ▸ h.fresh) hdel
    · have htake : st.log.take st.written = st.log.take k ++ (i, .put database c) ::
          (st.log.drop (k + 1)).take (st.written - (k + 1)) := by
        conv_lhs => rw [hsplit]
        rw [List.take_append, List.take_of_length_le (by simp; omega), List.length_take,
          min_eq_left hlen.le, show st.written - k = (st.written - (k + 1)) + 1 by omega,
          List.take_succ_cons]
      rw [h.file, htake]
      refine replay_keeps ?_ fun e he ↦ hdel e (List.mem_of_mem_take he)
      have hfresh : Fresh f (st.log.take st.written ++ st.log.drop st.written) := by
        rw [List.take_append_drop]
        exact h.fresh
      exact htake ▸ hfresh.of_append
  · intro hidle database
    have hall : st.written = st.log.length := by
      by_contra hne
      have hlt : st.written < st.log.length := lt_of_le_of_ne h.written hne
      obtain ⟨x, hx, -, hend⟩ := h.opened st.written _ _ (List.getElem?_eq_getElem hlt)
      rw [hidle x (List.mem_of_getElem? hx)] at hend
      exact absurd (hend le_rfl) (by simp)
    rw [h.file, h.map, hall, List.take_length]

section Steps

variable {pc pc' : Pc} {files' : Files (List Char) Char}

theorem CallOk.of_file_none (h : CallOk path f st.log st.written st.files i pc) (hf : pc.file = none) :
    CallOk path f st.log st.written files' i pc := by
  refine ⟨h.logged, fun t file rest _ he ↦ ?_, h.rollback, h.created⟩
  rw [hf] at he
  cases he

/-- A call moves on without a change of the map or of the credential file. -/
theorem Inv.advance (h : Inv path f st) (hi : st.calls[i]? = some (c, pc))
    (hread : files'.read path = st.files.read path)
    (hok : CallOk path f st.log st.written files' i pc')
    (hrest : ∀ (j : ℕ) (x : Call × Pc), j ≠ i → st.calls[j]? = some x →
      x.2.file = none ∨ files' = st.files)
    (hend : (∃ t, pc'.ticket = some t) ∨ pc = .start) :
    Inv path f { st with files := files', calls := st.calls.set i (c, pc') } := by
  have hlt := (List.getElem?_eq_some_iff.mp hi).1
  refine ⟨h.written, h.map, fun d ↦ ?_, h.nodup, h.fresh, ?_, ?_⟩
  · have := h.file d
    rwa [rowsOf, ← hread] at this
  · refine forall_set (P := fun j (x : Call × Pc) ↦ CallOk path f st.log st.written files' j x.2) hok
      fun j x hj hx ↦ ?_
    rcases hrest j x hj hx with hf | rfl
    · exact (h.calls j x hx).of_file_none hf
    · exact h.calls j x hx
  · intro k j ch hk
    obtain ⟨x, hx, hs, hw⟩ := h.opened k j ch hk
    by_cases hj : j = i
    · subst hj
      obtain rfl := Option.some_inj.mp (hi.symm.trans hx)
      rcases hend with ⟨t, ht⟩ | rfl
      · refine ⟨_, List.getElem?_set_self hlt, ?_, fun _ ↦ ?_⟩
        · rintro rfl
          cases ht
        · cases pc' <;> first | rfl | cases ht
      · exact absurd rfl hs
    · exact ⟨x, by rwa [List.getElem?_set_ne (Ne.symm hj)], hs, hw⟩

theorem Inv.call (h : Inv path f st) (c : Call) :
    Inv path f { st with calls := st.calls ++ [(c, .start)] } := by
  refine ⟨h.written, h.map, h.file, h.nodup, h.fresh, ?_, ?_⟩
  · refine forall_append (P := fun j (x : Call × Pc) ↦ CallOk path f st.log st.written st.files j x.2) ?_
      h.calls
    exact ⟨fun _ ht ↦ (by cases ht), fun _ _ _ ht ↦ (by cases ht), fun _ ht ↦ (by cases ht),
      fun _ _ ht ↦ (by cases ht)⟩
  · intro k j ch hk
    obtain ⟨x, hx, hs, hw⟩ := h.opened k j ch hk
    exact ⟨x, by rw [List.getElem?_append_left (List.getElem?_eq_some_iff.mp hx).1]; exact hx, hs, hw⟩

theorem Inv.notMem_log (h : Inv path f st) (hi : st.calls[i]? = some (c, .start)) :
    i ∉ st.log.map (·.1) := by
  intro hm
  obtain ⟨⟨j, ch⟩, he, rfl⟩ := List.mem_map.mp hm
  obtain ⟨k, hk⟩ := List.mem_iff_getElem?.mp he
  obtain ⟨x, hx, hs, -⟩ := h.opened k j ch hk
  obtain rfl := Option.some_inj.mp (hi.symm.trans hx)
  exact hs rfl

theorem Inv.locked (h : Inv path f st) {change : Change} (hi : st.calls[i]? = some (c, .start))
    (hsettled : st.Settled) (hput : ∀ database r, change = .put database r → st.map.lookup database = none) :
    Inv path f { (st.locked path i change).1 with
      calls := st.calls.set i (c, (st.locked path i change).2) } := by
  have hlt := (List.getElem?_eq_some_iff.mp hi).1
  have hreplay : ∀ d, (change.apply st.map).lookup d = replay f (st.log ++ [(i, change)]) d := by
    intro d
    rw [Change.lookup_apply, replay_append, funext h.map]
  have hget : ∀ {k e}, st.log[k]? = some e → (st.log ++ [(i, change)])[k]? = some e :=
    fun hk ↦ (List.getElem?_append_left (List.getElem?_eq_some_iff.mp hk).1).trans hk
  refine ⟨?_, hreplay, ?_, ?_, ?_, ?_, ?_⟩
  · simp only [CredState.locked, List.length_append, List.length_singleton]
    exact h.written.trans (Nat.le_succ _)
  · intro d
    simp only [CredState.locked]
    rw [List.take_append_of_le_length h.written, h.file]
  · simp only [CredState.locked, List.map_append, List.map_cons, List.map_nil]
    exact h.nodup.append (List.nodup_singleton i) (by simpa using h.notMem_log hi)
  · refine h.fresh.append fun database r hr ↦ ?_
    rw [← h.map]
    exact hput database r hr
  · refine forall_set
      (P := fun j (x : Call × Pc) ↦ CallOk path f (st.log ++ [(i, change)]) st.written st.files j x.2)
      ?_ fun j x hj hx ↦ ?_
    · refine ⟨fun t ht ↦ ⟨st.log.length, ?_⟩, fun _ _ _ _ hf ↦ (by cases hf), fun _ ht ↦ (by cases ht),
        fun _ _ ht ↦ (by cases ht)⟩
      cases ht
      refine ⟨h.written, by simp, fun d ↦ ?_, fun database r hr ↦ ?_⟩
      · rw [lookup_parse_serialize, hreplay, List.take_of_length_le (by simp)]
      · obtain rfl : change = .put database r := hr
        exact hput database r rfl
    · have hx' := h.calls j x hx
      refine ⟨fun t ht ↦ ?_, fun t file rest ht hf ↦ ?_, fun t ht ↦ ?_, fun database r hr ↦ ?_⟩
      · obtain ⟨k, hk⟩ := hx'.logged t ht
        have hlen := (List.getElem?_eq_some_iff.mp hk.entry).1
        refine ⟨k, hk.waiting, hget hk.entry, fun d ↦ ?_, hk.before⟩
        rw [List.take_append_of_le_length hlen]
        exact hk.snapshot d
      · obtain ⟨hturn, hl, hd⟩ := hx'.writes t file rest ht hf
        exact ⟨hget hturn, hl, hd⟩
      · have := hsettled x (List.mem_of_getElem? hx)
        rw [ht] at this
        cases this
      · obtain ⟨k, hk, he⟩ := hx'.created database r hr
        exact ⟨k, hk, hget he⟩
  · intro k j ch hk
    rcases getElem?_append_cases hk with ⟨rfl, he⟩ | hk
    · cases he
      exact ⟨_, List.getElem?_set_self hlt, by simp [CredState.locked], fun _ ↦ rfl⟩
    · obtain ⟨x, hx, hs, hw⟩ := h.opened k j ch hk
      have hj : j ≠ i := by
        rintro rfl
        obtain rfl := Option.some_inj.mp (hi.symm.trans hx)
        exact hs rfl
      exact ⟨x, by rwa [List.getElem?_set_ne (Ne.symm hj)], hs, hw⟩

/-- The first step of a call: its checks fail, it has nothing to do, or it changes the map. -/
theorem start_cases (path : List Char) (st : CredState) (i : ℕ) (now : UInt64) (c : Call) :
    (∃ o, (∀ database r, o ≠ .created database r) ∧ st.start path i now c = (st, .done o)) ∨
      ∃ change, st.start path i now c = st.locked path i change ∧
        (st.LockOk now c → st.Settled) ∧
        ∀ database r, change = .put database r → st.map.lookup database = none := by
  cases c with
  | create database role password =>
    simp only [CredState.start, CredState.LockOk]
    cases hc : Creds.create st.map database role password now with
    | error e => exact .inl ⟨.err e, (by simp), rfl⟩
    | ok r =>
      refine .inr ⟨.put r.1 r.2, rfl, fun hok ↦ hok rfl, fun database' r' he ↦ ?_⟩
      cases he
      exact AList.lookup_eq_none.mpr (Creds.create_ok hc).1
  | remove database =>
    simp only [CredState.start, CredState.LockOk]
    cases hd : Field.ofString? database with
    | none => exact .inl ⟨.removed false, (by simp), rfl⟩
    | some database =>
      dsimp only
      split
      · rename_i hm
        exact .inr ⟨.del database, rfl, fun hok ↦ hok (by simpa using hm), by simp⟩
      · exact .inl ⟨.removed false, (by simp), rfl⟩

theorem Inv.opens (h : Inv path f st) {t : Ticket} (hpath : tmpOf path ≠ path)
    (hi : st.calls[i]? = some (c, .opening t)) (hn : st.next = some (i, t.change)) :
    Inv path f { st with
      files := (st.files.create (tmpOf path)).2
      calls := st.calls.set i (c, .writing t (st.files.create (tmpOf path)).1 t.snapshot) } := by
  refine h.advance hi (Files.create_read_of_ne hpath.symm) ?_ (fun j x hj hx ↦ .inl (h.file_none hx hn hj))
    (.inl ⟨t, rfl⟩)
  refine ⟨(h.calls i _ hi).logged, fun t' file rest ht hf ↦ ?_, fun _ ht ↦ (by cases ht),
    fun _ _ ht ↦ (by cases ht)⟩
  cases ht
  cases hf
  refine ⟨hn, Files.create_links_self .., ?_⟩
  rw [Files.create_data_self, List.nil_append]

theorem Inv.wrote (h : Inv path f st) {t : Ticket} {file n : ℕ} {rest : List Char}
    (hpath : tmpOf path ≠ path) (hi : st.calls[i]? = some (c, .writing t file rest)) :
    Inv path f { st with
      files := st.files.write file (t.snapshot.length - rest.length) (rest.take n)
      calls := st.calls.set i (c, .writing t file (rest.drop n)) } := by
  have hw := (h.calls i _ hi).writes t file rest rfl rfl
  have honly : st.files.Only (tmpOf path) file := ⟨st.files.below _ _ hw.linked, fun q hq ↦
    st.files.distinct q _ file hq hw.linked⟩
  have hlen : t.snapshot.length - rest.length = (st.files.data file).length := by
    have := congrArg List.length hw.data
    simp only [List.length_append] at this
    omega
  refine h.advance hi (Files.write_read_of_only honly hpath.symm) ?_
    (fun j x hj hx ↦ .inl (h.file_none hx hw.turn hj)) (.inl ⟨t, rfl⟩)
  refine ⟨(h.calls i _ hi).logged, fun t' file' rest' ht hf ↦ ?_, fun _ ht ↦ (by cases ht),
    fun _ _ ht ↦ (by cases ht)⟩
  cases ht
  cases hf
  refine ⟨hw.turn, hw.linked, ?_⟩
  rw [Files.write_data_self, hlen, splice_length, List.append_assoc, List.take_append_drop, hw.data]

theorem Inv.stage (h : Inv path f st) {t : Ticket} {file : ℕ} (hi : st.calls[i]? = some (c, pc))
    (ht : pc.ticket = some t) (ht' : pc'.ticket = some t) (hf : pc.file = some (file, []))
    (hf' : pc'.file = some (file, [])) : Inv path f { st with calls := st.calls.set i (c, pc') } := by
  refine h.advance hi rfl ?_ (fun _ _ _ _ ↦ .inr rfl) (.inl ⟨t, ht'⟩)
  have hok := h.calls i _ hi
  refine ⟨fun t' he ↦ hok.logged t' ?_, fun t' file' rest he hfe ↦ hok.writes t' file' rest ?_ ?_,
    fun t' he ↦ ?_, fun _ _ he ↦ ?_⟩
  · rw [ht, ← ht', he]
  · rw [ht, ← ht', he]
  · rw [hf, ← hf', hfe]
  · rw [he] at hf'
    cases hf'
  · rw [he] at ht'
    cases ht'

theorem Inv.fails (h : Inv path f st) {t : Ticket} (hi : st.calls[i]? = some (c, pc))
    (ht : pc.ticket = some t) (hfail : st.FailOk i t) :
    CredState.failed t = .rollback t ∧ Inv path f { st with calls := st.calls.set i (c, .rollback t) } := by
  obtain ⟨hput, hbefore, hlast, hothers⟩ := hfail
  have hrolls : CredState.failed t = .rollback t := by
    unfold CredState.failed
    cases hch : t.change with
    | put database r => rfl
    | del database => rw [hch] at hput; cases hput
  refine ⟨hrolls, h.advance hi rfl ?_ (fun _ _ _ _ ↦ .inr rfl) (.inl ⟨t, rfl⟩)⟩
  refine ⟨fun t' he ↦ ?_, fun _ _ _ _ hf ↦ (by cases hf), fun t' he ↦ ?_, fun _ _ he ↦ (by cases he)⟩
  · cases he
    exact (h.calls i _ hi).logged t ht
  · cases he
    cases hch : t.change with
    | del database =>
      rw [hch] at hput
      cases hput
    | put database r =>
      obtain ⟨earlier, hsplit⟩ := List.getLast?_eq_some_iff.mp hlast
      refine ⟨hbefore, database, r, earlier, rfl, hch ▸ hsplit, fun e he ↦ ?_⟩
      have := hothers e (by rw [hsplit, List.dropLast_concat]; exact he)
      rwa [hch] at this

/-- The rename puts the snapshot of the oldest change that was not in the file there. -/
theorem Inv.renames (h : Inv path f st) {t : Ticket} {file : ℕ}
    (hi : st.calls[i]? = some (c, .moving t file))
    (hr : st.files.rename (tmpOf path) path = some files') :
    Inv path f { st with
      files := files', written := st.written + 1
      calls := st.calls.set i (c, CredState.succeeded t) } := by
  have hok := h.calls i _ hi
  have hw := hok.writes t file [] rfl rfl
  obtain ⟨k, hk⟩ := hok.logged t rfl
  obtain rfl : k = st.written := h.log_inj hk.entry hw.turn
  have hlt := (List.getElem?_eq_some_iff.mp hi).1
  have hwlt := (List.getElem?_eq_some_iff.mp hw.turn).1
  obtain ⟨ino, hino, hlinks, hdata, -⟩ := Files.rename_eq hr
  obtain rfl : ino = file := Option.some_inj.mp (hino.symm.trans hw.linked)
  have hread : files'.read path = some t.snapshot := by
    rw [Files.read, hlinks, update_self, hdata, Option.map_some, ← hw.data, List.append_nil]
  have hmoved : ∀ {j k ch}, j ≠ i → st.log[k]? = some (j, ch) → st.written ≤ k → st.written + 1 ≤ k := by
    intro j k ch hj hk' hle
    rcases Nat.lt_or_eq_of_le hle with hlt | rfl
    · exact hlt
    · rw [hw.turn] at hk'
      cases hk'
      exact absurd rfl hj
  refine ⟨hwlt, h.map, fun d ↦ ?_, h.nodup, h.fresh, ?_, ?_⟩
  · rw [rowsOf, hread]
    exact hk.snapshot d
  · refine forall_set
      (P := fun j (x : Call × Pc) ↦ CallOk path f st.log (st.written + 1) files' j x.2)
      ?_ fun j x hj hx ↦ ?_
    · unfold CredState.succeeded
      cases hch : t.change with
      | put database r =>
        refine ⟨fun _ he ↦ (by cases he), fun _ _ _ he ↦ (by cases he), fun _ he ↦ (by cases he),
          fun database' r' he ↦ ⟨st.written, Nat.lt_succ_self _, ?_⟩⟩
        cases he
        rw [← hch]
        exact hw.turn
      | del database =>
        exact ⟨fun _ he ↦ (by cases he), fun _ _ _ he ↦ (by cases he), fun _ he ↦ (by cases he),
          fun _ _ he ↦ (by cases he)⟩
    · have hx' := h.calls j x hx
      refine ⟨fun t' ht ↦ ?_, fun t' file' rest ht hf ↦ ?_, fun t' ht ↦ ?_, fun database r hr ↦ ?_⟩
      · obtain ⟨k', hk'⟩ := hx'.logged t' ht
        exact ⟨k', hmoved hj hk'.entry hk'.waiting, hk'.entry, hk'.snapshot, hk'.before⟩
      · rw [h.file_none hx hw.turn hj] at hf
        cases hf
      · obtain ⟨hb, database, r, earlier, hch, hsplit, hne⟩ := hx'.rollback t' ht
        have hdrop := List.drop_eq_getElem_cons hwlt
        cases earlier with
        | nil =>
          rw [hdrop, List.nil_append, List.cons.injEq] at hsplit
          have := (List.getElem?_eq_some_iff.mp hw.turn).2.symm.trans hsplit.1
          exact absurd (congrArg Prod.fst this).symm hj
        | cons e earlier =>
          rw [hdrop, List.cons_append, List.cons.injEq] at hsplit
          exact ⟨hb, database, r, earlier, hch, hsplit.2, fun e' he ↦ hne e' (List.mem_cons_of_mem _ he)⟩
      · obtain ⟨k', hk', he⟩ := hx'.created database r hr
        exact ⟨k', Nat.lt_succ_of_lt hk', he⟩
  · intro k j ch hk'
    obtain ⟨x, hx, hs, hw'⟩ := h.opened k j ch hk'
    by_cases hj : j = i
    · subst hj
      refine ⟨_, List.getElem?_set_self hlt, ?_, fun hle ↦ ?_⟩
      · unfold CredState.succeeded
        cases t.change <;> simp
      · obtain rfl := h.log_inj hk' hw.turn
        exact absurd hle (Nat.not_succ_le_self _)
    · exact ⟨x, by rwa [List.getElem?_set_ne (Ne.symm hj)], hs, fun hle ↦ hw' (Nat.le_of_succ_le hle)⟩

/-- The failed change is the last one of the log. -/
theorem Inv.rollback_split (h : Inv path f st) {t : Ticket} (hi : st.calls[i]? = some (c, .rollback t)) :
    ∃ log database r, t.change = .put database r ∧ st.log = log ++ [(i, t.change)] ∧
      st.written ≤ log.length ∧ st.log.filter (fun e ↦ decide (e.1 ≠ i)) = log ∧
        (∀ e ∈ log.drop st.written, e.2.database ≠ database) ∧ replay f log database = none := by
  obtain ⟨-, database, r, earlier, hch, hsplit, hne⟩ := (h.calls i _ hi).rollback t rfl
  have hlog : st.log = (st.log.take st.written ++ earlier) ++ [(i, t.change)] := by
    rw [List.append_assoc, ← hsplit, List.take_append_drop]
  have htake : (st.log.take st.written).length = st.written := List.length_take_of_le h.written
  set log := st.log.take st.written ++ earlier with hdef
  have hnodup := h.nodup
  rw [hlog, List.map_append, List.nodup_append] at hnodup
  refine ⟨log, database, r, hch, hlog, ?_, ?_, ?_, ?_⟩
  · rw [hdef, List.length_append, htake]
    exact Nat.le_add_right _ _
  · rw [hlog, List.filter_append]
    have hkeep : log.filter (fun e ↦ decide (e.1 ≠ i)) = log := by
      refine List.filter_eq_self.mpr fun e he ↦ ?_
      exact decide_eq_true (hnodup.2.2 _ (List.mem_map_of_mem he) i (by simp))
    rw [hkeep]
    simp
  · rw [hdef, List.drop_left' htake]
    exact hne
  · exact h.fresh log i database r [] (by rw [hlog, hch])

/-- The rollback takes the failed change out of the map and of the log. -/
theorem Inv.rolls_back (h : Inv path f st) {t : Ticket} (hi : st.calls[i]? = some (c, .rollback t)) :
    Inv path f { st with
      map := st.map.erase t.change.database
      log := st.log.filter (fun e ↦ decide (e.1 ≠ i))
      calls := st.calls.set i (c, .done (.err .persist)) } := by
  obtain ⟨log, database, r, hch, hlog, hlen, hfilter, -, hnone⟩ := h.rollback_split hi
  have hlt := (List.getElem?_eq_some_iff.mp hi).1
  have hnodup := h.nodup
  rw [hlog, List.map_append, List.nodup_append] at hnodup
  have hmap : ∀ d, (st.map.erase database).lookup d = replay f log d := by
    intro d
    by_cases hd : d = database
    · rw [hd, AList.lookup_erase, hnone]
    · rw [AList.lookup_erase_ne hd, h.map, hlog, replay_append]
      refine Change.act_of_ne ?_ _
      rw [hch]
      exact hd
  have hback : ∀ {j k : ℕ} {ch : Change}, j ≠ i → st.log[k]? = some (j, ch) → log[k]? = some (j, ch) := by
    intro j k ch hj hk
    rw [hlog] at hk
    rcases getElem?_append_cases hk with ⟨-, he⟩ | hk
    · exact absurd (congrArg Prod.fst he) hj
    · exact hk
  have htake : ∀ {n}, n ≤ log.length → st.log.take n = log.take n := by
    intro n hn
    rw [hlog, List.take_append_of_le_length hn]
  rw [hfilter]
  refine ⟨hlen, ?_, fun d ↦ ?_, hnodup.1, ?_, ?_, ?_⟩
  · rw [hch]
    exact hmap
  · rw [h.file, htake hlen]
  · exact (hlog ▸ h.fresh).of_append
  · refine forall_set (P := fun j (x : Call × Pc) ↦ CallOk path f log st.written st.files j x.2)
      ⟨fun _ he ↦ (by cases he), fun _ _ _ he ↦ (by cases he), fun _ he ↦ (by cases he),
        fun _ _ he ↦ (by cases he)⟩ fun j x hj hx ↦ ?_
    have hx' := h.calls j x hx
    refine ⟨fun t' ht ↦ ?_, fun t' file' rest ht hf ↦ ?_, fun t' ht ↦ ?_, fun database' r' hr ↦ ?_⟩
    · obtain ⟨k, hk⟩ := hx'.logged t' ht
      have hk' := hback hj hk.entry
      refine ⟨k, hk.waiting, hk', fun d ↦ ?_, hk.before⟩
      rw [← htake (List.getElem?_eq_some_iff.mp hk').1]
      exact hk.snapshot d
    · obtain ⟨hturn, hl, hd⟩ := hx'.writes t' file' rest ht hf
      exact ⟨hback hj hturn, hl, hd⟩
    · obtain ⟨-, _, _, earlier, -, hsplit, -⟩ := hx'.rollback t' ht
      rw [hlog, List.drop_append_of_le_length hlen] at hsplit
      have := (List.append_inj' hsplit rfl).2
      exact absurd (congrArg Prod.fst (List.singleton_inj.mp this)).symm hj
    · obtain ⟨k, hk, he⟩ := hx'.created database' r' hr
      exact ⟨k, hk, hback hj he⟩
  · intro k j ch hk
    have hk' : st.log[k]? = some (j, ch) := by
      rw [hlog, List.getElem?_append_left (List.getElem?_eq_some_iff.mp hk).1]
      exact hk
    obtain ⟨x, hx, hs, hw⟩ := h.opened k j ch hk'
    have hj : j ≠ i := by
      rintro rfl
      have hlast : st.log[log.length]? = some (j, t.change) := by
        rw [hlog]
        simp
      have hkl := (List.getElem?_eq_some_iff.mp hk).1
      rw [h.log_inj hk' hlast] at hkl
      exact absurd hkl (lt_irrefl _)
    exact ⟨x, by rwa [List.getElem?_set_ne (Ne.symm hj)], hs, hw⟩

theorem undone_of (hi : st.calls[i]? = some (c, pc)) (hcalls : st'.calls = st.calls.set i (c, pc'))
    (hdone : ∀ e, pc' = .done (.err e) → pc.ticket = none ∧ st'.map = st.map ∧ st'.files = st.files ∨
      ∃ t, pc.ticket = some t ∧ st'.map.lookup t.change.database = t.before.1 ∧
        (rowsOf path st'.files).lookup t.change.database = t.before.2) : Undone path st st' := by
  intro j call pc₀ e hj hrun hj'
  rw [hcalls] at hj'
  rcases getElem?_set_cases hj' with ⟨rfl, he⟩ | ⟨-, hj'⟩
  · cases he
    obtain rfl : pc₀ = pc := congrArg Prod.snd (Option.some_inj.mp (hj.symm.trans hi))
    exact hdone e rfl
  · rw [hj, Option.some_inj, Prod.mk.injEq] at hj'
    rw [hj'.2] at hrun
    cases hrun

theorem undone_of_ticket {t : Ticket} (hi : st.calls[i]? = some (c, pc))
    (hcalls : st'.calls = st.calls.set i (c, pc')) (ht : pc'.ticket = some t) : Undone path st st' := by
  refine undone_of hi hcalls fun e he ↦ ?_
  rw [he] at ht
  cases ht

/-- A call that could not write its snapshot leaves no trace. -/
theorem Inv.undone (h : Inv path f st) {t : Ticket} (hi : st.calls[i]? = some (c, .rollback t)) :
    (st.map.erase t.change.database).lookup t.change.database = t.before.1 ∧
      (rowsOf path st.files).lookup t.change.database = t.before.2 := by
  have hok := h.calls i _ hi
  obtain ⟨log, database, r, hch, hlog, hlen, -, hne, hnone⟩ := h.rollback_split hi
  obtain ⟨k, hk⟩ := hok.logged t rfl
  have hd : t.change.database = database := by
    rw [hch]
    rfl
  refine ⟨?_, ?_⟩
  · rw [AList.lookup_erase, hk.before database r hch]
  · rw [(hok.rollback t rfl).1, hd, h.file, hlog, List.take_append_of_le_length hlen, ← hnone]
    conv_rhs => rw [← List.take_append_drop st.written log]
    exact (replay_of_ne hne).symm

/-- What a step of a call in flight does. -/
inductive Moved (path : List Char) (st : CredState) (i : ℕ) (c : Call) : Pc → Event → CredState × Pc → Prop
  | start (now : UInt64) : Moved path st i c .start (.ok now) (st.start path i now c)
  | opens (t : Ticket) (now : UInt64) : Moved path st i c (.opening t) (.ok now)
      ({ st with files := (st.files.create (tmpOf path)).2 },
        .writing t (st.files.create (tmpOf path)).1 t.snapshot)
  | wrote (t : Ticket) (file : ℕ) (rest : List Char) (n : ℕ) :
      Moved path st i c (.writing t file rest) (.wrote n)
        ({ st with files := st.files.write file (t.snapshot.length - rest.length) (rest.take n) },
          .writing t file (rest.drop n))
  | stage (t : Ticket) (file : ℕ) (e : Event) (pc pc' : Pc) (ht : pc.ticket = some t)
      (ht' : pc'.ticket = some t) (hf : pc.file = some (file, [])) (hf' : pc'.file = some (file, [])) :
      Moved path st i c pc e (st, pc')
  | moved (t : Ticket) (file : ℕ) (now : UInt64) (files' : Files (List Char) Char)
      (hr : st.files.rename (tmpOf path) path = some files') :
      Moved path st i c (.moving t file) (.ok now)
        ({ st with files := files', written := st.written + 1 }, CredState.succeeded t)
  | missing (t : Ticket) (file : ℕ) (now : UInt64) (hr : st.files.rename (tmpOf path) path = none) :
      Moved path st i c (.moving t file) (.ok now) (st, CredState.failed t)
  | fails (t : Ticket) (pc : Pc) (ht : pc.ticket = some t) (hok : st.StepOk i c pc .fail → st.FailOk i t) :
      Moved path st i c pc .fail (st, CredState.failed t)
  | rolledBack (t : Ticket) (now : UInt64) : Moved path st i c (.rollback t) (.ok now)
      ({ st with
        map := st.map.erase t.change.database
        log := st.log.filter (fun x ↦ decide (x.1 ≠ i)) }, .done (.err .persist))

theorem callStep_moved {e : Event} {r : CredState × Pc} (hs : st.callStep path i c pc e = some r) :
    Moved path st i c pc e r := by
  cases pc with
  | start =>
    cases e with
    | ok now =>
      cases hs
      exact .start now
    | wrote n => cases hs
    | fail => cases hs
  | opening t =>
    cases e with
    | ok now =>
      cases hs
      exact .opens t now
    | wrote n => cases hs
    | fail =>
      cases hs
      exact .fails t _ rfl id
  | writing t file rest =>
    cases e with
    | ok now =>
      simp only [CredState.callStep, Option.ite_none_right_eq_some, Option.some_inj] at hs
      obtain ⟨rfl, rfl⟩ := hs
      exact .stage t file _ _ _ rfl rfl rfl rfl
    | wrote n =>
      simp only [CredState.callStep, Option.ite_none_right_eq_some, Option.some_inj] at hs
      obtain ⟨-, rfl⟩ := hs
      exact .wrote t file rest n
    | fail =>
      cases hs
      exact .fails t _ rfl id
  | syncing t file =>
    cases e with
    | ok now =>
      cases hs
      exact .stage t file _ _ _ rfl rfl rfl rfl
    | wrote n => cases hs
    | fail =>
      cases hs
      exact .fails t _ rfl id
  | chmodding t file =>
    cases e with
    | ok now =>
      cases hs
      exact .stage t file _ _ _ rfl rfl rfl rfl
    | wrote n => cases hs
    | fail =>
      cases hs
      exact .fails t _ rfl id
  | moving t file =>
    cases e with
    | ok now =>
      simp only [CredState.callStep] at hs
      cases hr : st.files.rename (tmpOf path) path with
      | some files' =>
        rw [hr] at hs
        cases hs
        exact .moved t file now files' hr
      | none =>
        rw [hr] at hs
        cases hs
        exact .missing t file now hr
    | wrote n => cases hs
    | fail =>
      cases hs
      exact .fails t _ rfl id
  | rollback t =>
    cases e with
    | ok now =>
      cases hs
      exact .rolledBack t now
    | wrote n => cases hs
    | fail => cases hs
  | done o => cases e <;> cases hs

theorem Inv.step (hpath : tmpOf path ≠ path) (h : Inv path f st) {l : Action} (hok : Orderly st l)
    (hs : credStep path l st = some st') : Inv path f st' ∧ Undone path st st' := by
  cases l with
  | call c =>
    cases hs
    refine ⟨h.call c, fun j call pc e hj hrun hj' ↦ ?_⟩
    rcases getElem?_append_cases hj' with ⟨-, he⟩ | hj'
    · cases he
    · rw [hj, Option.some_inj, Prod.mk.injEq] at hj'
      rw [hj'.2] at hrun
      cases hrun
  | act i e =>
    obtain ⟨⟨c, pc⟩, hi, hs⟩ := Option.bind_eq_some_iff.mp hs
    obtain ⟨r, hr, rfl⟩ := Option.map_eq_some_iff.mp hs
    have hok' : st.StepOk i c pc e := hok (c, pc) hi
    cases callStep_moved hr with
    | start now =>
      rcases start_cases path st i now c with ⟨o, ho, heq⟩ | ⟨change, heq, hsettled, hput⟩
      · rw [heq]
        refine ⟨h.advance hi rfl ?_ (fun _ _ _ _ ↦ .inr rfl) (.inr rfl), ?_⟩
        · refine ⟨fun _ ht ↦ (by cases ht), fun _ _ _ ht ↦ (by cases ht), fun _ ht ↦ (by cases ht),
            fun database r he ↦ ?_⟩
          cases he
          exact absurd rfl (ho database r)
        · exact undone_of hi rfl fun _ _ ↦ .inl ⟨rfl, rfl, rfl⟩
      · rw [heq]
        exact ⟨h.locked hi (hsettled hok') hput, undone_of_ticket hi rfl rfl⟩
    | opens t now => exact ⟨h.opens hpath hi hok', undone_of_ticket hi rfl rfl⟩
    | wrote t file rest n => exact ⟨h.wrote hpath hi, undone_of_ticket hi rfl rfl⟩
    | stage t file _ _ pc' ht ht' hf hf' => exact ⟨h.stage hi ht ht' hf hf', undone_of_ticket hi rfl ht'⟩
    | moved t file now files' hren =>
      refine ⟨h.renames hi hren, undone_of hi rfl fun e he ↦ ?_⟩
      unfold CredState.succeeded at he
      cases hch : t.change <;> rw [hch] at he <;> cases he
    | missing t file now hren =>
      have hl := ((h.calls i _ hi).writes t file [] rfl rfl).linked
      rw [Files.rename_none_iff.mp hren] at hl
      cases hl
    | fails t _ ht hfail =>
      obtain ⟨heq, hinv⟩ := h.fails hi ht (hfail hok')
      rw [heq]
      exact ⟨hinv, undone_of_ticket hi rfl rfl⟩
    | rolledBack t now => exact ⟨h.rolls_back hi, undone_of hi rfl fun _ _ ↦ .inr ⟨t, rfl, h.undone hi⟩⟩

theorem Inv.load (path : List Char) (files : Files (List Char) Char) :
    Inv path (fun d ↦ (rowsOf path files).lookup d) (.load path files) := by
  refine ⟨le_rfl, fun _ ↦ rfl, fun _ ↦ rfl, List.nodup_nil, ?_, fun _ _ hx ↦ ?_, fun _ _ _ hk ↦ ?_⟩
  · intro before i database r after heq
    cases before <;> cases heq
  · simp [CredState.load] at hx
  · simp [CredState.load] at hk

end Steps

/-- In every orderly run, from whatever the file holds at the start. -/
theorem credentials_durable (hpath : tmpOf path ≠ path) (files : Files (List Char) Char)
    (h : Run (credStep path) Orderly (.load path files) st) :
    st.Durable path ∧
      ∀ l st', Orderly st l → credStep path l st = some st' → Undone path st st' := by
  have hinv : Inv path (fun d ↦ (rowsOf path files).lookup d) st :=
    h.invariant (Inv.load path files) fun _ _ _ hI hok hs ↦ (hI.step hpath hok hs).1
  exact ⟨durable_of_inv hinv, fun l st' hok hs ↦ (hinv.step hpath hok hs).2⟩

def credFile : List Char := "dedicated.tsv".toList

def createApp : Call := .create "app" "app_user" "hunter2hunter2"

def createShop : Call := .create "shop" "shop_user" "hunter3hunter3"

def shop : Field := ⟨"shop", by decide, by decide⟩

def shopRow : Credential :=
  ⟨⟨"shop_user", by decide, by decide⟩, ⟨"hunter3hunter3", by decide, by decide⟩, 7⟩

/-- The locked section of call `i`. -/
def locks (i : ℕ) : Action := .act i (.ok 7)

/-- The `write_atomic` of call `i`, its snapshot of `n` characters written at once. -/
def writes (i n : ℕ) : List Action :=
  [.act i (.ok 7), .act i (.wrote n), .act i (.ok 7), .act i (.ok 7), .act i (.ok 7), .act i (.ok 7)]

/-- One `create` succeeds, the next one cannot open the temp file. -/
def oneFails : List Action :=
  [.call createApp, .call createShop, locks 0] ++ writes 0 30 ++ [locks 1, .act 1 .fail]

theorem credentials_durable_run : ∃ st st', Run (credStep credFile) Orderly (.load credFile .empty) st ∧
    credStep credFile (.act 1 (.ok 7)) st = some st' ∧
      st'.calls.map (·.2.ended) = [true, true] ∧ st'.map.entries.length = 1 ∧
        st.Durable credFile ∧ Undone credFile st st' := by
  obtain ⟨st, hr, hp⟩ := Run.exists_of_exec (credStep credFile) Orderly (.load credFile .empty) oneFails
    (fun st ↦ decide (Orderly st (.act 1 (.ok 7))) &&
      (credStep credFile (.act 1 (.ok 7)) st).any fun st' : CredState ↦
        st'.calls.map (·.2.ended) = [true, true] && st'.map.entries.length = 1)
    (by decide +kernel) (by decide +kernel)
  obtain ⟨hok, hp⟩ := Bool.and_eq_true_iff.mp hp
  obtain ⟨st', hs, hq⟩ := (Option.any_eq_true _ _).mp hp
  obtain ⟨hended, hone⟩ := Bool.and_eq_true_iff.mp hq
  obtain ⟨hdurable, hundone⟩ := credentials_durable (by decide) .empty hr
  exact ⟨st, st', hr, hs, of_decide_eq_true hended, of_decide_eq_true hone, hdurable,
    hundone _ _ (of_decide_eq_true hok) hs⟩

/-- Two `create`s, the older snapshot renamed last. -/
def stale : List Action :=
  [.call createApp, .call createShop, locks 0, locks 1] ++ writes 1 62 ++ writes 0 30

theorem credentials_lost : ∃ st,
    Run (credStep credFile) (fun _ _ ↦ True) (.load credFile .empty) st ∧
      st.calls[1]? = some (createShop, Pc.done (.created shop shopRow)) ∧
        (∀ x ∈ st.calls, x.2.ended = true) ∧ (∀ e ∈ st.log, e.2 ≠ .del shop) ∧
          st.map.lookup shop = some shopRow ∧ (rowsOf credFile st.files).lookup shop = none ∧
            ¬st.Durable credFile := by
  obtain ⟨st, hr, hp⟩ := Run.exists_of_exec (credStep credFile) (fun _ _ ↦ True) (.load credFile .empty)
    stale (fun st ↦ decide (st.calls[1]? = some (createShop, Pc.done (.created shop shopRow)) ∧
      (∀ x ∈ st.calls, x.2.ended = true) ∧ (∀ e ∈ st.log, e.2 ≠ .del shop) ∧
        st.map.lookup shop = some shopRow ∧ (rowsOf credFile st.files).lookup shop = none))
    (by decide +kernel) (by decide +kernel)
  obtain ⟨hcall, hended, hdel, hmap, hfile⟩ := of_decide_eq_true hp
  refine ⟨st, hr, hcall, hended, hdel, hmap, hfile, fun hdurable ↦ ?_⟩
  have hagrees := hdurable.idle hended shop
  rw [hmap, hfile] at hagrees
  cases hagrees

end PgVmPool.Dedicated
