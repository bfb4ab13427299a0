import PgVmPool.AlertRules

namespace PgVmPool.Alerts

open Function HostFiles HostPath Transition
open Dedicated (trim tmpOf)

variable {path : Text} {st st' : AlertState} {i : ℕ} {c : Call} {pc pc' : Pc}

section Calls

variable (path : Text) (rules : List Rule) (files : Files Text Char) (taken ended : ℕ)

/-- A snapshot waits for its turn; the last one that was taken is the rules as they stand. -/
structure Waits (t : Ticket) : Prop where
  waiting : ended ≤ t.turn
  before : t.turn < taken
  latest : t.turn + 1 = taken → t.snapshot = serialize rules

/-- The temp file of the call whose turn it is. -/
structure Writes (t : Ticket) (file : ℕ) (rest : Text) : Prop where
  turn : t.turn = ended
  linked : files.links (tmpOf path) = some file
  data : files.data file ++ rest = t.snapshot

structure CallOk (pc : Pc) : Prop where
  waits : ∀ t, pc.ticket = some t → Waits rules taken ended t
  writes : ∀ t file rest, pc.ticket = some t → pc.file = some (file, rest) →
    Writes path files ended t file rest

end Calls

structure Inv (path : Text) (st : AlertState) : Prop where
  order : st.ended ≤ st.taken
  clean : ∀ r ∈ st.rules, r.Clean
  calls : ∀ (j : ℕ) (x : Call × Pc), st.calls[j]? = some x →
    CallOk path st.rules st.files st.taken st.ended x.2
  distinct : ∀ (j k : ℕ) (x y : Call × Pc) (t u : Ticket), st.calls[j]? = some x → st.calls[k]? = some y →
    x.2.ticket = some t → y.2.ticket = some u → t.turn = u.turn → j = k
  covered : ∀ k, st.ended ≤ k → k < st.taken → ∃ (j : ℕ) (x : Call × Pc) (t : Ticket),
    st.calls[j]? = some x ∧ x.2.ticket = some t ∧ t.turn = k
  file : st.ended = st.taken → st.lastOk = true → loaded path st.files = st.rules.map Rule.clear

theorem Inv.agrees (h : Inv path st) : st.Agrees path := by
  intro hidle hok
  refine h.file ?_ hok
  by_contra hne
  obtain ⟨j, x, t, hx, ht, -⟩ := h.covered st.ended le_rfl (lt_of_le_of_ne h.order hne)
  have hend := hidle x (List.mem_of_getElem? hx)
  cases hp : x.2 <;> rw [hp] at hend ht <;> first | cases ht; done | cases hend

/-- Only the call whose turn it is has the temp file open. -/
theorem Inv.file_none (h : Inv path st) {j : ℕ} {x : Call × Pc} {t : Ticket}
    (hi : st.calls[i]? = some (c, pc))
    (ht : pc.ticket = some t) (hturn : t.turn = st.ended) (hj : j ≠ i) (hx : st.calls[j]? = some x) :
    x.2.file = none := by
  cases hf : x.2.file with
  | none => rfl
  | some r =>
    obtain ⟨u, hu⟩ : ∃ u, x.2.ticket = some u := by
      cases hp : x.2 <;> rw [hp] at hf <;> first | exact ⟨_, rfl⟩ | cases hf
    have hw := (h.calls j x hx).writes u r.1 r.2 hu hf
    exact absurd (h.distinct j i x (c, pc) u t hx hi hu ht (hw.turn.trans hturn.symm)) hj

theorem CallOk.of_idle {rules : List Rule} {files : Files Text Char} {taken ended : ℕ}
    (h : pc.ticket = none) : CallOk path rules files taken ended pc := by
  refine ⟨fun t ht ↦ ?_, fun t _ _ ht ↦ ?_⟩ <;> rw [h] at ht <;> cases ht

theorem Inv.call (h : Inv path st) (c : Call) : Inv path { st with calls := st.calls ++ [(c, .start)] } := by
  refine ⟨h.order, h.clean, ?_, ?_, fun k hle hlt ↦ ?_, h.file⟩
  · exact forall_append (P := fun _ (x : Call × Pc) ↦ CallOk path st.rules st.files st.taken st.ended x.2)
      (.of_idle rfl) h.calls
  · intro j k x y t u hx hy ht hu hturn
    obtain ⟨-, rfl⟩ | hx := getElem?_append_cases hx
    · cases ht
    obtain ⟨-, rfl⟩ | hy := getElem?_append_cases hy
    · cases hu
    exact h.distinct j k x y t u hx hy ht hu hturn
  · obtain ⟨j, x, t, hx, ht⟩ := h.covered k hle hlt
    exact ⟨j, x, t, (List.getElem?_append_left (List.getElem?_eq_some_iff.mp hx).1).trans hx, ht⟩

theorem Rule.evaluate_eq (value : Metric → Option ℚ) (r : Rule) :
    ∃ firing, r.evaluate value = { r with firing } := by
  unfold Rule.evaluate
  split
  · exact ⟨r.firing, rfl⟩
  · split
    · exact ⟨r.firing, rfl⟩
    · exact ⟨_, rfl⟩

theorem row_evaluate (value : Metric → Option ℚ) (r : Rule) : row (r.evaluate value) = row r := by
  obtain ⟨firing, h⟩ := r.evaluate_eq value
  rw [h]
  rfl

theorem serialize_evaluate (value : Metric → Option ℚ) (rules : List Rule) :
    serialize (rules.map (·.evaluate value)) = serialize rules := by
  rw [serialize, List.flatMap_map, serialize]
  simp only [row_evaluate]

theorem clear_evaluate (value : Metric → Option ℚ) (r : Rule) : (r.evaluate value).clear = r.clear := by
  obtain ⟨firing, h⟩ := r.evaluate_eq value
  rw [h]
  rfl

theorem Inv.evaluate (h : Inv path st) (value : Metric → Option ℚ) :
    Inv path { st with rules := st.rules.map (·.evaluate value) } := by
  refine ⟨h.order, List.forall_mem_map.mpr fun r hr ↦ ?_,
    fun j x hx ↦ ⟨fun t ht ↦ ?_, (h.calls j x hx).writes⟩,
    h.distinct, h.covered, fun hend hok ↦ ?_⟩
  · obtain ⟨firing, heq⟩ := r.evaluate_eq value
    have hr := h.clean r hr
    rw [heq]
    exact ⟨hr.id, hr.url, hr.threshold⟩
  · have hw := (h.calls j x hx).waits t ht
    exact ⟨hw.waiting, hw.before, fun he ↦ (hw.latest he).trans (serialize_evaluate value st.rules).symm⟩
  · have hfile := h.file hend hok
    rw [List.map_map]
    exact hfile.trans (List.map_congr_left fun r _ ↦ (clear_evaluate value r).symm)

/-- A call moves on without a change of the rules or of the file. -/
theorem Inv.advance (h : Inv path st) (pc' : Pc) (hi : st.calls[i]? = some (c, pc))
    (hticket : pc'.ticket = pc.ticket)
    {files' : Files Text Char} (hread : files'.read path = st.files.read path)
    (hwrites : ∀ t file rest, pc'.ticket = some t → pc'.file = some (file, rest) →
      Writes path files' st.ended t file rest)
    (hrest : ∀ (j : ℕ) (x : Call × Pc), j ≠ i → st.calls[j]? = some x →
      x.2.file = none ∨ files' = st.files) :
    Inv path { st with files := files', calls := st.calls.set i (c, pc') } := by
  have hlt := (List.getElem?_eq_some_iff.mp hi).1
  have hold : ∀ {j : ℕ} {x : Call × Pc}, (st.calls.set i (c, pc'))[j]? = some x →
      ∃ y, st.calls[j]? = some y ∧ y.2.ticket = x.2.ticket := by
    intro j x hx
    obtain ⟨rfl, rfl⟩ | ⟨-, hx⟩ := getElem?_set_cases hx
    · exact ⟨_, hi, hticket.symm⟩
    · exact ⟨x, hx, rfl⟩
  refine ⟨h.order, h.clean, ?_, ?_, fun k hle hlt' ↦ ?_, fun hend hok ↦ ?_⟩
  · refine forall_set (P := fun _ (x : Call × Pc) ↦ CallOk path st.rules files' st.taken st.ended x.2)
      ⟨fun t ht ↦ (h.calls i _ hi).waits t (hticket ▸ ht), hwrites⟩ fun j x hj hx ↦ ?_
    refine ⟨(h.calls j x hx).waits, fun t file rest ht hf ↦ ?_⟩
    obtain hnone | rfl := hrest j x hj hx
    · rw [hnone] at hf
      cases hf
    · exact (h.calls j x hx).writes t file rest ht hf
  · intro j k x y t u hx hy ht hu hturn
    obtain ⟨x', hx', htx⟩ := hold hx
    obtain ⟨y', hy', hty⟩ := hold hy
    exact h.distinct j k x' y' t u hx' hy' (htx.trans ht) (hty.trans hu) hturn
  · obtain ⟨j, x, t, hx, ht, hk⟩ := h.covered k hle hlt'
    by_cases hj : j = i
    · subst hj
      obtain rfl := Option.some_inj.mp (hi.symm.trans hx)
      exact ⟨j, _, t, List.getElem?_set_self hlt, hticket.trans ht, hk⟩
    · exact ⟨j, x, t, (List.getElem?_set_ne (Ne.symm hj)).trans hx, ht, hk⟩
  · rw [loaded, hread]
    exact h.file hend hok

theorem Inv.locked (h : Inv path st) (hi : st.calls[i]? = some (c, .start)) {rules : List Rule}
    (hclean : ∀ r ∈ rules, r.Clean) :
    Inv path { st with
      rules, taken := st.taken + 1, calls := st.calls.set i (c, .opening ⟨serialize rules, st.taken⟩) } := by
  have hlt := (List.getElem?_eq_some_iff.mp hi).1
  have hbefore : ∀ {j : ℕ} {x : Call × Pc} {t : Ticket}, st.calls[j]? = some x → x.2.ticket = some t →
      t.turn < st.taken := fun hx ht ↦ ((h.calls _ _ hx).waits _ ht).before
  refine ⟨h.order.trans (Nat.le_succ _), hclean, ?_, ?_, fun k hle hlt' ↦ ?_, fun hend _ ↦ ?_⟩
  · refine forall_set (P := fun _ (x : Call × Pc) ↦ CallOk path rules st.files (st.taken + 1) st.ended x.2)
      ⟨fun t ht ↦ ?_, fun _ _ _ _ hf ↦ by cases hf⟩ fun j x _ hx ↦ ?_
    · cases ht
      exact ⟨h.order, Nat.lt_succ_self _, fun _ ↦ rfl⟩
    · refine ⟨fun t ht ↦ ?_, (h.calls j x hx).writes⟩
      have hw := (h.calls j x hx).waits t ht
      exact ⟨hw.waiting, hw.before.trans (Nat.lt_succ_self _), fun heq ↦ by have := hw.before; omega⟩
  · intro j k x y t u hx hy ht hu hturn
    obtain ⟨hj, rfl⟩ | ⟨-, hx⟩ := getElem?_set_cases hx
    · obtain ⟨hk, rfl⟩ | ⟨-, hy⟩ := getElem?_set_cases hy
      · exact hj.trans hk.symm
      · cases ht
        have := hbefore hy hu
        simp only at hturn
        omega
    · obtain ⟨-, rfl⟩ | ⟨-, hy⟩ := getElem?_set_cases hy
      · cases hu
        have := hbefore hx ht
        simp only at hturn
        omega
      · exact h.distinct j k x y t u hx hy ht hu hturn
  · obtain rfl | hlt' := Nat.eq_or_lt_of_le (Nat.le_of_lt_succ hlt')
    · exact ⟨i, _, _, List.getElem?_set_self hlt, rfl, rfl⟩
    · obtain ⟨j, x, t, hx, ht, hk⟩ := h.covered k hle hlt'
      have hj : j ≠ i := by
        rintro rfl
        obtain rfl := Option.some_inj.mp (hi.symm.trans hx)
        cases ht
      exact ⟨j, x, t, (List.getElem?_set_ne (Ne.symm hj)).trans hx, ht, hk⟩
  · have := h.order
    simp only at hend
    omega

theorem Inv.ends (h : Inv path st) (hi : st.calls[i]? = some (c, pc)) {t : Ticket} (ht : pc.ticket = some t)
    (hturn : t.turn = st.ended) (hpc' : pc'.ticket = none) {files' : Files Text Char} {ok : Bool}
    (hread : ok = true → files'.read path = some t.snapshot) :
    Inv path { ({ st with files := files' }.writeEnds ok) with calls := st.calls.set i (c, pc') } := by
  have hw := (h.calls i _ hi).waits t ht
  refine ⟨?_, h.clean, ?_, ?_, fun k hle hlt ↦ ?_, fun hend hok ↦ ?_⟩
  · have := hw.before
    simp only [AlertState.writeEnds]
    omega
  · refine forall_set (P := fun _ (x : Call × Pc) ↦ CallOk path st.rules files' st.taken (st.ended + 1) x.2)
      (.of_idle hpc') fun j x hj hx ↦ ?_
    refine ⟨fun u hu ↦ ?_, fun u file rest _ hf ↦ ?_⟩
    · have hwx := (h.calls j x hx).waits u hu
      have hne : u.turn ≠ st.ended := fun he ↦
        hj (h.distinct j i x (c, pc) u t hx hi hu ht (he.trans hturn.symm))
      exact ⟨by have := hwx.waiting; omega, hwx.before, hwx.latest⟩
    · rw [h.file_none hi ht hturn hj hx] at hf
      cases hf
  · intro j k x y u v hx hy hu hv huv
    obtain ⟨rfl, rfl⟩ | ⟨-, hx⟩ := getElem?_set_cases hx
    · rw [hpc'] at hu
      cases hu
    obtain ⟨rfl, rfl⟩ | ⟨-, hy⟩ := getElem?_set_cases hy
    · rw [hpc'] at hv
      cases hv
    exact h.distinct j k x y u v hx hy hu hv huv
  · simp only [AlertState.writeEnds] at hle hlt
    obtain ⟨j, x, u, hx, hu, hk⟩ := h.covered k (by omega) hlt
    have hj : j ≠ i := by
      rintro rfl
      obtain rfl := Option.some_inj.mp (hi.symm.trans hx)
      obtain rfl := Option.some_inj.mp (ht.symm.trans hu)
      omega
    exact ⟨j, x, u, (List.getElem?_set_ne (Ne.symm hj)).trans hx, hu, hk⟩
  · simp only [AlertState.writeEnds] at hend hok ⊢
    rw [loaded, hread hok, Option.map_some, Option.getD_some, hw.latest (by omega), parse_serialize h.clean]

variable {t : Ticket} {file : ℕ} {rest : Text}

theorem Inv.opens (h : Inv path st) (hpath : tmpOf path ≠ path) (hi : st.calls[i]? = some (c, .opening t))
    (hturn : t.turn = st.ended) :
    Inv path { st with
      files := (st.files.create (tmpOf path)).2
      calls := st.calls.set i (c, .writing t (st.files.create (tmpOf path)).1 t.snapshot) } := by
  refine h.advance (.writing t (st.files.create (tmpOf path)).1 t.snapshot) hi rfl
    (Files.create_read_of_ne hpath.symm) (fun u file rest hu hf ↦ ?_) fun j x hj hx ↦ ?_
  · cases hu
    cases hf
    refine ⟨hturn, Files.create_links_self _ _, ?_⟩
    rw [Files.create_data_self, List.nil_append]
  · exact .inl (h.file_none hi rfl hturn hj hx)

theorem Inv.wrote (h : Inv path st) (hpath : tmpOf path ≠ path)
    (hi : st.calls[i]? = some (c, .writing t file rest)) (n : ℕ) :
    Inv path { st with
      files := st.files.write file (t.snapshot.length - rest.length) (rest.take n)
      calls := st.calls.set i (c, .writing t file (rest.drop n)) } := by
  obtain ⟨hturn, hlink, hdata⟩ := (h.calls i _ hi).writes t file rest rfl rfl
  have honly : st.files.Only (tmpOf path) file :=
    ⟨st.files.below _ _ hlink, fun q hq ↦ st.files.distinct q _ _ hq hlink⟩
  have hoff : t.snapshot.length - rest.length = (st.files.data file).length := by
    rw [← hdata, List.length_append]
    omega
  refine h.advance (.writing t file (rest.drop n)) hi rfl
    (Files.write_read_of_only honly hpath.symm) (fun u g r hu hf ↦ ?_) fun j x hj hx ↦ ?_
  · cases hu
    cases hf
    refine ⟨hturn, hlink, ?_⟩
    rw [Files.write_data_self, hoff, splice_length, List.append_assoc, List.take_append_drop, hdata]
  · exact .inl (h.file_none hi rfl hturn hj hx)

theorem Inv.stage (h : Inv path st) (hi : st.calls[i]? = some (c, pc)) (ht : pc'.ticket = pc.ticket)
    (hf : pc'.file = pc.file) : Inv path { st with calls := st.calls.set i (c, pc') } := by
  refine h.advance pc' hi ht rfl (fun u g r hu hg ↦ ?_) fun _ _ _ _ ↦ .inr rfl
  exact (h.calls i _ hi).writes u g r (ht ▸ hu) (hf ▸ hg)

/-- The renamed temp file is the snapshot. -/
theorem Inv.read_renamed (h : Inv path st) (hi : st.calls[i]? = some (c, .moving t file))
    {files' : Files Text Char} (hren : st.files.rename (tmpOf path) path = some files') :
    files'.read path = some t.snapshot := by
  obtain ⟨-, hlink, hdata⟩ := (h.calls i _ hi).writes t file [] rfl rfl
  obtain ⟨k, hk, hlinks, hfiles, -⟩ := Files.rename_eq hren
  obtain rfl := Option.some_inj.mp (hlink.symm.trans hk)
  rw [Files.read, hlinks, hfiles, update_self, Option.map_some, ← hdata, List.append_nil]

theorem untouched_of (hi : st.calls[i]? = some (c, pc)) (hcalls : st'.calls = st.calls.set i (c, pc'))
    (hdone : ∀ e, pc' = .done (.err e) → pc = .start ∧ st'.rules = st.rules) : Untouched st st' := by
  intro j d pc₀ e hj hrun hj'
  rw [hcalls] at hj'
  obtain ⟨rfl, he⟩ | ⟨-, hj'⟩ := getElem?_set_cases hj'
  · cases he
    obtain rfl : pc₀ = pc := congrArg Prod.snd (Option.some_inj.mp (hj.symm.trans hi))
    exact hdone e rfl
  · rw [hj, Option.some_inj, Prod.mk.injEq] at hj'
    rw [hj'.2] at hrun
    cases hrun

/-- What a step of a call in flight does: it takes the lock, works on the temp file, or ends its write. -/
inductive Moved (path : Text) (st : AlertState) (c : Call) : Pc → Event → AlertState × Pc → Prop
  | start (nanos : ℕ) : Moved path st c .start (.ok nanos) (st.start nanos c)
  | opens (t : Ticket) (nanos : ℕ) : Moved path st c (.opening t) (.ok nanos)
      ({ st with files := (st.files.create (tmpOf path)).2 },
        .writing t (st.files.create (tmpOf path)).1 t.snapshot)
  | wrote (t : Ticket) (file : ℕ) (rest : Text) (n : ℕ) : Moved path st c (.writing t file rest) (.wrote n)
      ({ st with files := st.files.write file (t.snapshot.length - rest.length) (rest.take n) },
        .writing t file (rest.drop n))
  | stage {t : Ticket} {pc pc' : Pc} (e : Event) (ht : pc.ticket = some t)
      (ht' : pc'.ticket = some t) (hf : pc'.file = pc.file) :
      Moved path st c pc e (st, pc')
  | moved {t : Ticket} {file : ℕ} {files' : Files Text Char} (nanos : ℕ)
      (hren : st.files.rename (tmpOf path) path = some files') :
      Moved path st c (.moving t file) (.ok nanos)
        ({ st with files := files' }.writeEnds true, .done c.succeeded)
  | missing {t : Ticket} {file : ℕ} (nanos : ℕ) (hren : st.files.rename (tmpOf path) path = none) :
      Moved path st c (.moving t file) (.ok nanos) (st.writeEnds false, .done (c.failed path))
  | fails (t : Ticket) {pc : Pc} (ht : pc.ticket = some t) (hok : st.StepOk c pc .fail → c.reports = false)
      (hturn : st.StepOk c pc .fail → pc.file = none → t.turn = st.ended) :
      Moved path st c pc .fail (st.writeEnds false, .done (c.failed path))

theorem callStep_moved {e : Event} {r : AlertState × Pc} (hs : st.callStep path c pc e = some r) :
    Moved path st c pc e r := by
  cases pc with
  | start =>
    cases e with
    | ok nanos =>
      cases hs
      exact .start nanos
    | wrote n => cases hs
    | fail => cases hs
  | opening t =>
    cases e with
    | ok nanos =>
      cases hs
      exact .opens t nanos
    | wrote n => cases hs
    | fail =>
      cases hs
      exact .fails _ rfl (·.2) fun h _ ↦ h.1
  | writing t file rest =>
    cases e with
    | ok nanos =>
      simp only [AlertState.callStep, Option.ite_none_right_eq_some, Option.some_inj] at hs
      obtain ⟨rfl, rfl⟩ := hs
      exact .stage _ rfl rfl rfl
    | wrote n =>
      simp only [AlertState.callStep, Option.ite_none_right_eq_some, Option.some_inj] at hs
      obtain ⟨-, rfl⟩ := hs
      exact .wrote t file rest n
    | fail =>
      cases hs
      exact .fails _ rfl id fun _ hf ↦ by cases hf
  | syncing t file =>
    cases e with
    | ok nanos =>
      cases hs
      exact .stage _ rfl rfl rfl
    | wrote n => cases hs
    | fail =>
      cases hs
      exact .fails _ rfl id fun _ hf ↦ by cases hf
  | moving t file =>
    cases e with
    | ok nanos =>
      simp only [AlertState.callStep] at hs
      cases hr : st.files.rename (tmpOf path) path with
      | some files' =>
        rw [hr] at hs
        cases hs
        exact .moved nanos hr
      | none =>
        rw [hr] at hs
        cases hs
        exact .missing nanos hr
    | wrote n => cases hs
    | fail =>
      cases hs
      exact .fails _ rfl id fun _ hf ↦ by cases hf
  | done o => cases e <;> cases hs

theorem Inv.step (hpath : tmpOf path ≠ path) (h : Inv path st) {l : Action} (hok : Orderly st l)
    (hs : alertStep path l st = some st') : Inv path st' ∧ Untouched st st' := by
  cases l with
  | call c =>
    cases hs
    refine ⟨h.call c, fun j d pc e hj hrun hj' ↦ ?_⟩
    obtain ⟨-, he⟩ | hj' := getElem?_append_cases hj'
    · cases he
    · rw [hj, Option.some_inj, Prod.mk.injEq] at hj'
      rw [hj'.2] at hrun
      cases hrun
  | evaluate value =>
    cases hs
    refine ⟨h.evaluate value, fun j d pc e hj hrun hj' ↦ ?_⟩
    rw [hj, Option.some_inj, Prod.mk.injEq] at hj'
    rw [hj'.2] at hrun
    cases hrun
  | act i e =>
    obtain ⟨⟨c, pc⟩, hi, hs⟩ := Option.bind_eq_some_iff.mp hs
    obtain ⟨r, hr, rfl⟩ := Option.map_eq_some_iff.mp hs
    have hok' : st.StepOk c pc e := hok (c, pc) hi
    cases callStep_moved hr with
    | start nanos =>
      unfold AlertState.start
      cases happly : c.apply nanos st.rules with
      | error o =>
        exact ⟨h.advance (.done o) hi rfl rfl (fun _ _ _ ht ↦ by cases ht) fun _ _ _ _ ↦ .inr rfl,
          untouched_of hi rfl fun _ _ ↦ ⟨rfl, rfl⟩⟩
      | ok rules =>
        have hv : ∀ v ∈ c.threshold, OneDecimal v := hok' (by rw [happly]; rfl)
        exact ⟨h.locked hi (Call.apply_clean happly hv h.clean),
          untouched_of hi rfl fun _ he ↦ by cases he⟩
    | opens t nanos => exact ⟨h.opens hpath hi hok', untouched_of hi rfl fun _ he ↦ by cases he⟩
    | wrote t file rest n => exact ⟨h.wrote hpath hi n, untouched_of hi rfl fun _ he ↦ by cases he⟩
    | stage _ ht ht' hf =>
      refine ⟨h.stage hi (ht'.trans ht.symm) hf, untouched_of hi rfl fun _ he ↦ ?_⟩
      have hnone := (congrArg Pc.ticket he).symm.trans ht'
      cases hnone
    | moved nanos hren =>
      have hturn := ((h.calls i _ hi).writes _ _ _ rfl rfl).turn
      refine ⟨h.ends hi rfl hturn rfl fun _ ↦ h.read_renamed hi hren, untouched_of hi rfl fun _ he ↦ ?_⟩
      unfold Call.succeeded at he
      split at he <;> cases he
    | missing nanos hren =>
      have hlink := ((h.calls i _ hi).writes _ _ _ rfl rfl).linked
      rw [Files.rename_none_iff.mp hren] at hlink
      cases hlink
    | fails t ht hreports hfirst =>
      have hturn : t.turn = st.ended := by
        cases hf : pc.file with
        | none => exact hfirst hok' hf
        | some g => exact ((h.calls i _ hi).writes _ g.1 g.2 ht hf).turn
      refine ⟨h.ends hi ht hturn rfl nofun, untouched_of hi rfl fun _ he ↦ ?_⟩
      rw [Call.failed, if_neg (by simp [hreports hok'])] at he
      cases he

theorem clear_of_loaded {files : Files Text Char} {r : Rule} (h : r ∈ loaded path files) : r.clear = r := by
  unfold loaded at h
  cases hread : files.read path with
  | none =>
    rw [hread] at h
    cases h
  | some text =>
    rw [hread] at h
    obtain ⟨line, -, hline⟩ := List.mem_filterMap.mp h
    unfold parseLine at hline
    split at hline
    · split at hline
      · split_ifs at hline
        cases hline
        rfl
      · cases hline
    · cases hline

theorem Inv.load {files : Files Text Char} (h : ∀ r ∈ loaded path files, OneDecimal r.threshold) :
    Inv path (.load path files) := by
  refine ⟨le_rfl, ?_, fun _ _ hx ↦ ?_, fun _ _ _ _ _ _ hx ↦ ?_, fun k hle hlt ↦ ?_, fun _ _ ↦ ?_⟩
  · unfold loaded at h
    simp only [AlertState.load, loaded]
    cases hread : files.read path with
    | none => simp
    | some text =>
      rw [hread] at h
      exact parse_clean h
  · simp [AlertState.load] at hx
  · simp [AlertState.load] at hx
  · simp only [AlertState.load] at hlt
    omega
  · refine ((List.map_congr_left fun r hr ↦ ?_).trans (List.map_id _)).symm
    exact clear_of_loaded hr

/-- In every orderly run, from whatever the file holds at the start that has a place in it. -/
theorem alerts_on_disk (hpath : tmpOf path ≠ path) {files : Files Text Char}
    (hfile : ∀ r ∈ loaded path files, OneDecimal r.threshold)
    (h : Run (alertStep path) Orderly (.load path files) st) :
    st.Agrees path ∧ ∀ l st', Orderly st l → alertStep path l st = some st' → Untouched st st' := by
  have hinv : Inv path st := h.invariant (.load hfile) fun _ _ _ hI hok hs ↦ (hI.step hpath hok hs).1
  exact ⟨hinv.agrees, fun l st' hok hs ↦ (hinv.step hpath hok hs).2⟩

def alertFile : Text := "alerts.tsv".toList

def addCpu (threshold : ℚ) : Call := .add "host-cpu".toList threshold "https://ok".toList

def addDisk : Call := .add "disk".toList 85 "https://ok".toList

/-- The `write_atomic` of call `i`, its snapshot of `n` characters written at once. -/
def writes (i n : ℕ) : List Action :=
  [.act i (.ok 0), .act i (.wrote n), .act i (.ok 0), .act i (.ok 0), .act i (.ok 0)]

/-- A rule is added and another one after it; the pause that follows is not written. -/
def addedInTurn : List Action :=
  [.call (addCpu 90), .call addDisk, .act 0 (.ok 7), .act 1 (.ok 8)] ++ writes 0 34 ++ writes 1 64 ++
    [.call (.setPaused "7".toList true), .act 2 (.ok 0), .act 2 .fail]

theorem alerts_on_disk_run : ∃ st, Run (alertStep alertFile) Orderly (.load alertFile .empty) st ∧
    st.rules.length = 2 ∧ st.Agrees alertFile := by
  obtain ⟨st, hr, hp⟩ := Run.exists_of_exec (alertStep alertFile) Orderly (.load alertFile .empty)
    addedInTurn (fun st ↦ decide (st.rules.length = 2)) (by decide +kernel) (by decide +kernel)
  exact ⟨st, hr, of_decide_eq_true hp,
    (alerts_on_disk (by decide) (by simp [loaded, Files.read, Files.empty]) hr).1⟩

def addedFirst : Call := addCpu (617 / 50)

/-- One rule of two decimals, added alone. -/
def rounded : List Action := [.call addedFirst, .act 0 (.ok 7)] ++ writes 0 34

/-- Two rules, the older snapshot renamed last. -/
def stale : List Action :=
  [.call (addCpu 90), .call addDisk, .act 0 (.ok 7), .act 1 (.ok 8)] ++ writes 1 64 ++ writes 0 34

/-- A rule that could not be written. -/
def unwritten : List Action := [.call (addCpu 90), .act 0 (.ok 7)]

def persistError : String := "persisting alerts to alerts.tsv"

theorem alerts_differ :
    (∃ st, Run (alertStep alertFile) (fun _ _ ↦ True) (.load alertFile .empty) st ∧
      st.calls = [(addedFirst, Pc.done .ok)] ∧ ¬st.Agrees alertFile) ∧
    (∃ st, Run (alertStep alertFile) (fun _ _ ↦ True) (.load alertFile .empty) st ∧
      st.calls = [(addCpu 90, Pc.done .ok), (addDisk, Pc.done .ok)] ∧ ¬st.Agrees alertFile) ∧
    ∃ st st', Run (alertStep alertFile) (fun _ _ ↦ True) (.load alertFile .empty) st ∧
      alertStep alertFile (.act 0 .fail) st = some st' ∧
        st'.calls = [(addCpu 90, Pc.done (.err persistError))] ∧ st'.rules.length = 1 ∧ ¬Untouched st st' := by
  have hdiffers : ∀ (ls : List Action) (calls : List (Call × Pc)),
      ((exec (alertStep alertFile) ls (.load alertFile .empty)).any fun st ↦
        decide (st.calls = calls ∧ (∀ x ∈ st.calls, x.2.ended = true) ∧ st.lastOk = true ∧
          loaded alertFile st.files ≠ st.rules.map Rule.clear)) = true →
      ∃ st, Run (alertStep alertFile) (fun _ _ ↦ True) (.load alertFile .empty) st ∧
        st.calls = calls ∧ ¬st.Agrees alertFile := by
    intro ls calls h
    obtain ⟨st, hst, hp⟩ := (Option.any_eq_true _ _).mp h
    obtain ⟨hcalls, hended, hok, hne⟩ := of_decide_eq_true hp
    exact ⟨st, .of_exec_true hst fun _ _ ↦ trivial, hcalls, fun hagrees ↦ hne (hagrees hended hok)⟩
  refine ⟨hdiffers rounded _ (by decide +kernel), hdiffers stale _ (by decide +kernel), ?_⟩
  obtain ⟨st, hr, hp⟩ := Run.exists_of_exec (alertStep alertFile) (fun _ _ ↦ True) (.load alertFile .empty)
    unwritten (fun st ↦ decide (st.calls = [(addCpu 90, Pc.opening ⟨serialize st.rules, 0⟩)]) &&
      (alertStep alertFile (.act 0 .fail) st).any fun st' : AlertState ↦
        decide (st'.calls = [(addCpu 90, Pc.done (.err persistError))] ∧ st'.rules.length = 1))
    (by decide +kernel) (by decide +kernel)
  obtain ⟨hrun, hp⟩ := Bool.and_eq_true_iff.mp hp
  obtain ⟨st', hs, hp⟩ := (Option.any_eq_true _ _).mp hp
  obtain ⟨hcalls, hlen⟩ := of_decide_eq_true hp
  refine ⟨st, st', hr, hs, hcalls, hlen, fun huntouched ↦ ?_⟩
  obtain ⟨hstart, -⟩ := huntouched 0 (addCpu 90) _ persistError
    (by rw [of_decide_eq_true hrun]; rfl) rfl (by rw [hcalls]; rfl)
  cases hstart

end PgVmPool.Alerts
