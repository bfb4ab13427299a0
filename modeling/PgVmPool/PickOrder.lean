import PgVmPool.OffloadPicker

namespace FirstBest

variable {α κ : Type} [LinearOrder κ] (key : α → κ)

/-- Keep the best so far unless the next one is strictly better. -/
def improve (best : Option α) (a : α) : Option α :=
  if best.all fun b ↦ key a < key b then some a else best

/-- The least key, and of those with the least key the first. -/
def IsFirstBest (xs : List α) (m : α) : Prop :=
  ∃ pre post, xs = pre ++ m :: post ∧ (∀ a ∈ pre, key m < key a) ∧ ∀ a ∈ post, key m ≤ key a

variable {key}

theorem IsFirstBest.concat_better {xs : List α} {m a : α} (h : IsFirstBest key xs m) (ha : key a < key m) :
    IsFirstBest key (xs ++ [a]) a := by
  obtain ⟨pre, post, rfl, hpre, hpost⟩ := h
  refine ⟨pre ++ m :: post, [], rfl, fun b hb ↦ ?_, by simp⟩
  rcases List.mem_append.mp hb with hb | hb
  · exact ha.trans (hpre b hb)
  · rcases List.mem_cons.mp hb with rfl | hb
    · exact ha
    · exact ha.trans_le (hpost b hb)

theorem IsFirstBest.concat_worse {xs : List α} {m a : α} (h : IsFirstBest key xs m) (ha : key m ≤ key a) :
    IsFirstBest key (xs ++ [a]) m := by
  obtain ⟨pre, post, rfl, hpre, hpost⟩ := h
  refine ⟨pre, post ++ [a], by simp, hpre, fun b hb ↦ ?_⟩
  rcases List.mem_append.mp hb with hb | hb
  · exact hpost b hb
  · exact List.mem_singleton.mp hb ▸ ha

theorem IsFirstBest.le {xs : List α} {m a : α} (h : IsFirstBest key xs m) (ha : a ∈ xs) : key m ≤ key a := by
  obtain ⟨pre, post, rfl, hpre, hpost⟩ := h
  rcases List.mem_append.mp ha with ha | ha
  · exact (hpre a ha).le
  · rcases List.mem_cons.mp ha with rfl | ha
    · exact le_rfl
    · exact hpost a ha

theorem foldl_improve_isSome (xs : List α) (best : Option α) :
    (xs.foldl (improve key) best).isSome = true ↔ best.isSome = true ∨ xs ≠ [] := by
  induction xs generalizing best with
  | nil => simp
  | cons a xs ih =>
    have hstep : (improve key best a).isSome = true := by
      unfold improve
      split
      · rfl
      · rename_i h
        cases best with
        | none => exact absurd rfl h
        | some b => rfl
    rw [List.foldl_cons, ih]
    exact iff_of_true (.inl hstep) (.inr (List.cons_ne_nil _ _))

theorem isFirstBest_foldl (xs : List α) {m : α} (h : xs.foldl (improve key) none = some m) :
    IsFirstBest key xs m := by
  induction xs using List.reverseRecOn generalizing m with
  | nil => cases h
  | append_singleton xs a ih =>
    rw [List.foldl_append, List.foldl_cons, List.foldl_nil] at h
    cases hb : xs.foldl (improve key) none with
    | none =>
      have hnil : xs = [] := by
        by_contra hne
        have hsome : (xs.foldl (improve key) none).isSome = true :=
          (foldl_improve_isSome xs none).mpr (.inr hne)
        rw [hb] at hsome
        cases hsome
      subst hnil
      obtain rfl : a = m := by simpa [improve] using h
      exact ⟨[], [], rfl, by simp, by simp⟩
    | some b =>
      rw [hb, improve] at h
      split at h
      · rename_i hlt
        obtain rfl := Option.some.inj h
        exact (ih hb).concat_better (by simpa using hlt)
      · rename_i hlt
        obtain rfl := Option.some.inj h
        exact (ih hb).concat_worse (by simpa using hlt)

theorem IsFirstBest.mem {xs : List α} {m : α} (h : IsFirstBest key xs m) : m ∈ xs := by
  obtain ⟨pre, post, rfl, -, -⟩ := h
  simp

theorem foldl_improve_of_le {xs : List α} {m : α} (h : ∀ a ∈ xs, key m ≤ key a) :
    xs.foldl (improve key) (some m) = some m := by
  induction xs with
  | nil => rfl
  | cons a xs ih =>
    obtain ⟨ha, hxs⟩ := List.forall_mem_cons.mp h
    have hkeep : improve key (some m) a = some m := by
      unfold improve
      rw [if_neg (by simpa using ha)]
    rw [List.foldl_cons, hkeep, ih hxs]

theorem foldl_improve_eq_some_iff (xs : List α) (m : α) :
    xs.foldl (improve key) none = some m ↔ IsFirstBest key xs m := by
  refine ⟨isFirstBest_foldl xs, ?_⟩
  rintro ⟨pre, post, rfl, hpre, hpost⟩
  have htake : improve key (pre.foldl (improve key) none) m = some m := by
    cases hb : pre.foldl (improve key) none with
    | none => rfl
    | some b =>
      have hlt := hpre b (isFirstBest_foldl pre hb).mem
      exact if_pos (by simpa using hlt)
  rw [List.foldl_append, List.foldl_cons, htake, foldl_improve_of_le hpost]

end FirstBest

namespace PgVmPool

open FirstBest

namespace OffloadPolicy

variable (t : OffloadPolicy) (warm : WarmEntry) (rec : StoreRecord) (now : UInt64)

/-- No session is open and the in-memory clock has not been reset since. -/
def ColdFor (warm : WarmEntry) (after : ℕ) : Prop := ∀ a ∈ warm, a.1 = 0 ∧ after ≤ a.2

/-- What the policy asks of a row before it takes a step of this kind on it. -/
def Admits : JobKind → Prop
  | .promote => (rec.tier = .frozen ∨ rec.tier = .compacted) ∧ ∃ after ∈ t.archiveAfter, after ≤ rec.idle now
  | .compact => rec.tier = .live ∧ warm = none ∧ ∃ after ∈ t.compactAfter, after ≤ rec.idle now
  | .imageArchive => rec.tier = .live ∧ t.imageArchive = true ∧ t.mode = .pressure ∧ warm = none ∧
      ∃ after ∈ t.archiveAfter, after ≤ rec.idle now
  | .archive => rec.tier = .live ∧ t.noBoot = false ∧
      ∃ after ∈ t.archiveAfter, after ≤ rec.idle now ∧ ColdFor warm after
  | .freeze => rec.tier = .live ∧ t.noBoot = false ∧
      ∃ after ∈ t.freezeAfter, after ≤ rec.idle now ∧ ColdFor warm after

end OffloadPolicy

/-- The order in which the kinds are tried on a row. -/
def JobKind.turn : JobKind → ℕ
  | .promote => 0
  | .compact => 1
  | .imageArchive => 2
  | .archive => 3
  | .freeze => 4

namespace OffloadPolicy

variable {t : OffloadPolicy} {warm : WarmEntry} {rec : StoreRecord} {now : UInt64}

theorem classifyCandidate_eq_archive (after : ℕ) :
    classifyCandidate rec false now after warm = .archive ↔
      rec.tier = .live ∧ after ≤ rec.idle now ∧ ColdFor warm after := by
  unfold classifyCandidate ColdFor
  cases ht : rec.tier <;> cases warm <;> simp [StoreRecord.offloaded, ht]
  grind

theorem eligible_iff (after : Option ℕ) (htier : rec.tier = .live) :
    eligible rec now after warm = true ↔ ∃ a ∈ after, a ≤ rec.idle now ∧ ColdFor warm a := by
  simp [eligible, Option.any_eq_true, classifyCandidate_eq_archive, htier]

theorem eligible_none_iff (after : Option ℕ) (htier : rec.tier = .live) :
    eligible rec now after none = true ↔ ∃ a ∈ after, a ≤ rec.idle now := by
  simp [eligible_iff after htier, ColdFor]

/-- The offer is the first kind, in the order they are tried, that the row admits. -/
def IsOffer (t : OffloadPolicy) (warm : WarmEntry) (rec : StoreRecord) (now : UInt64)
    (kind : JobKind) : Prop :=
  t.Admits warm rec now kind ∧ ∀ k, k.turn < kind.turn → ¬ t.Admits warm rec now k

theorem IsOffer.eq {k k' : JobKind} (h : t.IsOffer warm rec now k) (h' : t.IsOffer warm rec now k') :
    k = k' := by
  rcases lt_trichotomy k.turn k'.turn with hlt | heq | hlt
  · exact absurd h.1 (h'.2 k hlt)
  · cases k <;> cases k' <;> first | rfl | cases heq
  · exact absurd h'.1 (h.2 k' hlt)

theorem admits_local (hlocal : rec.tier = .frozen ∨ rec.tier = .compacted) :
    t.archiveAfter.any (· ≤ rec.idle now) = true ↔ t.Admits warm rec now .promote := by
  simp [Admits, hlocal, Option.any_eq_true]

theorem not_admits_of_ne_live {k : JobKind} (htier : rec.tier ≠ .live) (hk : k ≠ .promote) :
    ¬ t.Admits warm rec now k := by
  cases k with
  | promote => exact absurd rfl hk
  | compact | imageArchive | archive | freeze => exact fun h ↦ htier h.1

theorem offer_local (hlocal : rec.tier = .frozen ∨ rec.tier = .compacted) :
    t.offer warm rec now = if t.archiveAfter.any (· ≤ rec.idle now) then some .promote else none := by
  unfold offer
  rcases hlocal with htier | htier <;> rw [htier]

/-- A kind is offered when it is the first that is admitted, and nothing when none is. -/
def Decided (t : OffloadPolicy) (warm : WarmEntry) (rec : StoreRecord) (now : UInt64)
    (offer : Option JobKind) : Prop :=
  (∃ kind, offer = some kind ∧ t.IsOffer warm rec now kind) ∨
    offer = none ∧ ∀ k, ¬ t.Admits warm rec now k

theorem offer_local_decided (hlocal : rec.tier = .frozen ∨ rec.tier = .compacted) :
    t.Decided warm rec now (t.offer warm rec now) := by
  have htier : rec.tier ≠ .live := by rcases hlocal with h | h <;> simp [h]
  rw [offer_local hlocal]
  split
  · rename_i hold
    exact .inl ⟨.promote, rfl, (admits_local hlocal).mp hold, fun k hlt ↦ absurd hlt (Nat.not_lt_zero _)⟩
  · rename_i hyoung
    refine .inr ⟨rfl, fun k hk ↦ ?_⟩
    by_cases hpro : k = .promote
    · exact hyoung ((admits_local hlocal).mpr (hpro ▸ hk))
    · exact not_admits_of_ne_live htier hpro hk

theorem offer_live_decided (htier : rec.tier = .live) :
    t.Decided warm rec now (t.offer warm rec now) := by
  have hpro : ¬ t.Admits warm rec now .promote := by simp [Admits, htier]
  have hc : (warm.isNone && eligible rec now t.compactAfter none) = true ↔
      t.Admits warm rec now .compact := by
    simp [Admits, htier, eligible_none_iff]
  have hi : (t.imageArchive && t.mode = .pressure && warm.isNone &&
      eligible rec now t.archiveAfter none) = true ↔ t.Admits warm rec now .imageArchive := by
    simp [Admits, htier, eligible_none_iff, and_assoc]
  have ha : (!t.noBoot && eligible rec now t.archiveAfter warm) = true ↔
      t.Admits warm rec now .archive := by
    simp [Admits, htier, eligible_iff]
  have hf : (!t.noBoot && eligible rec now t.freezeAfter warm) = true ↔
      t.Admits warm rec now .freeze := by
    simp [Admits, htier, eligible_iff]
  simp only [offer, htier]
  split
  · rename_i h1
    refine .inl ⟨.compact, rfl, hc.mp h1, fun k hlt ↦ ?_⟩
    cases k <;> first | assumption | simp [JobKind.turn] at hlt
  · rename_i h1
    have hnc : ¬ t.Admits warm rec now .compact := fun h ↦ h1 (hc.mpr h)
    split
    · rename_i h2
      refine .inl ⟨.imageArchive, rfl, hi.mp h2, fun k hlt ↦ ?_⟩
      cases k <;> first | assumption | simp [JobKind.turn] at hlt
    · rename_i h2
      have hni : ¬ t.Admits warm rec now .imageArchive := fun h ↦ h2 (hi.mpr h)
      split
      · rename_i h3
        refine .inl ⟨.archive, rfl, ha.mp h3, fun k hlt ↦ ?_⟩
        cases k <;> first | assumption | simp [JobKind.turn] at hlt
      · rename_i h3
        have hna : ¬ t.Admits warm rec now .archive := fun h ↦ h3 (ha.mpr h)
        split
        · rename_i h4
          refine .inl ⟨.freeze, rfl, hf.mp h4, fun k hlt ↦ ?_⟩
          cases k <;> first | assumption | simp [JobKind.turn] at hlt
        · rename_i h4
          have hnf : ¬ t.Admits warm rec now .freeze := fun h ↦ h4 (hf.mpr h)
          refine .inr ⟨rfl, fun k hk ↦ ?_⟩
          cases k <;> contradiction

theorem offer_decided (t : OffloadPolicy) (warm : WarmEntry) (rec : StoreRecord) (now : UInt64) :
    t.Decided warm rec now (t.offer warm rec now) := by
  cases htier : rec.tier with
  | live => exact offer_live_decided htier
  | frozen => exact offer_local_decided (.inl htier)
  | compacted => exact offer_local_decided (.inr htier)
  | archived =>
    refine .inr ⟨by simp [offer, htier], fun k hk ↦ ?_⟩
    cases k <;> simp [Admits, htier] at hk

theorem offer_eq_some_iff {kind : JobKind} :
    t.offer warm rec now = some kind ↔ t.IsOffer warm rec now kind := by
  rcases offer_decided t warm rec now with ⟨k, hk, hoffer⟩ | ⟨hnone, hno⟩
  · rw [hk, Option.some_inj]
    exact ⟨fun h ↦ h ▸ hoffer, fun h ↦ hoffer.eq h⟩
  · rw [hnone]
    exact iff_of_false (by simp) fun h ↦ hno kind h.1

/-- Sessions on a row rule out every kind but a promotion. -/
theorem promote_of_sessions {kind : JobKind} (h : t.offer warm rec now = some kind)
    (hw : warm.any (0 < ·.1) = true) : kind = .promote := by
  obtain ⟨w, rfl, hw⟩ := (Option.any_eq_true _ _).mp hw
  have hopen : ¬ ColdFor (some w) 0 := fun hc ↦ by simp [(hc w rfl).1] at hw
  cases kind with
  | promote => rfl
  | compact => exact absurd (offer_eq_some_iff.mp h).1.2.1 (by simp)
  | imageArchive => exact absurd (offer_eq_some_iff.mp h).1.2.2.2.1 (by simp)
  | archive | freeze =>
    obtain ⟨-, -, after, -, -, hcold⟩ := (offer_eq_some_iff.mp h).1
    exact absurd (fun a ha ↦ ⟨(hcold a ha).1, Nat.zero_le _⟩) hopen

end OffloadPolicy

/-- A job on offer: its rank, how long its schema is idle, the job. -/
abbrev Offer := ℕ × ℕ × OffloadJob

/-- Lower ranks first, and of one rank the coldest first. -/
def Offer.key (o : Offer) : ℕ ×ₗ ℕᵒᵈ := toLex (o.1, OrderDual.toDual o.2.1)

theorem Offer.key_lt {o o' : Offer} : o.key < o'.key ↔ o.1 < o'.1 ∨ o.1 = o'.1 ∧ o'.2.1 < o.2.1 := by
  simp [Offer.key, Prod.Lex.toLex_lt_toLex]

section Picker

variable (live : Schema → WarmEntry) (t : OffloadPolicy) (keepalive backingOff : Schema → Bool)
  (now : UInt64)

def offerOf (row : Schema × StoreRecord) : Option Offer :=
  if keepalive row.1 || backingOff row.1 then none
  else (t.offer (live row.1) row.2 now).map fun kind ↦ (kind.rank t.mode, row.2.idle now, ⟨row.1, kind⟩)

variable {live t keepalive backingOff now} {records : List (Schema × StoreRecord)}

theorem improve_eq (best : Best) (o : Offer) :
    Best.improve best o.1 o.2.1 o.2.2 = FirstBest.improve Offer.key best o := by
  have hall : (best.all fun b ↦ decide (o.1 < b.1) || (decide (o.1 = b.1) && decide (b.2.1 < o.2.1))) =
      best.all fun b ↦ decide (o.key < Offer.key b) := by
    cases best with
    | none => rfl
    | some b => simp [Offer.key_lt]
  simp only [Best.improve, FirstBest.improve, hall]

theorem pickRow_fst (acc : Best × List Schema) (row : Schema × StoreRecord) :
    (pickRow live t keepalive backingOff now acc row).1 =
      (offerOf live t keepalive backingOff now row).elim acc.1 (FirstBest.improve Offer.key acc.1) := by
  unfold pickRow offerOf
  split
  · rfl
  · cases t.offer (live row.1) row.2 now with
    | some kind => exact improve_eq acc.1 (kind.rank t.mode, row.2.idle now, ⟨row.1, kind⟩)
    | none => simp only [Option.map_none, Option.elim_none]; split <;> rfl

theorem foldl_pickRow_fst (rows : List (Schema × StoreRecord)) (acc : Best × List Schema) :
    (rows.foldl (pickRow live t keepalive backingOff now) acc).1 =
      (rows.filterMap (offerOf live t keepalive backingOff now)).foldl (FirstBest.improve Offer.key) acc.1 := by
  induction rows generalizing acc with
  | nil => rfl
  | cons row rows ih =>
    rw [List.foldl_cons, ih, pickRow_fst, List.filterMap_cons]
    cases offerOf live t keepalive backingOff now row <;> rfl

/-- The picker returns the first best of the jobs on offer. -/
theorem pick_eq_some_iff {job : OffloadJob} :
    (pickOffloadJob live t keepalive backingOff now records).1 = some job ↔
      ∃ o : Offer, o.2.2 = job ∧
        IsFirstBest Offer.key (records.filterMap (offerOf live t keepalive backingOff now)) o := by
  simp only [pickOffloadJob, foldl_pickRow_fst, Option.map_eq_some_iff, foldl_improve_eq_some_iff]
  exact exists_congr fun o ↦ and_comm

theorem pick_isSome_iff :
    (pickOffloadJob live t keepalive backingOff now records).1.isSome = true ↔
      records.filterMap (offerOf live t keepalive backingOff now) ≠ [] := by
  simp only [pickOffloadJob, foldl_pickRow_fst, Option.isSome_map, foldl_improve_isSome]
  simp

theorem offerOf_eq_some_iff {row : Schema × StoreRecord} {o : Offer} :
    offerOf live t keepalive backingOff now row = some o ↔
      keepalive row.1 = false ∧ backingOff row.1 = false ∧ ∃ kind, t.IsOffer (live row.1) row.2 now kind ∧
        (kind.rank t.mode, row.2.idle now, ⟨row.1, kind⟩) = o := by
  unfold offerOf
  split
  · rename_i hheld
    refine iff_of_false (by simp) fun h ↦ ?_
    simp [h.1, h.2.1] at hheld
  · rename_i hheld
    simp only [Bool.or_eq_true, not_or, Bool.not_eq_true] at hheld
    simp only [Option.map_eq_some_iff, OffloadPolicy.offer_eq_some_iff, hheld, true_and]

variable (live t keepalive backingOff now records)

/-- A row that nothing holds back admits a step of this kind. -/
def Eligible (row : Schema × StoreRecord) (kind : JobKind) : Prop :=
  keepalive row.1 = false ∧ backingOff row.1 = false ∧ t.Admits (live row.1) row.2 now kind

structure OptimalPick (picked : Option OffloadJob) : Prop where
  some_iff : picked.isSome = true ↔
    ∃ row ∈ records, ∃ kind, Eligible live t keepalive backingOff now row kind
  job : ∀ job ∈ picked, ∃ rec, (job.schema, rec) ∈ records ∧
    keepalive job.schema = false ∧ backingOff job.schema = false ∧ rec.tier ≠ .archived ∧
    t.IsOffer (live job.schema) rec now job.kind ∧
    ∀ row ∈ records, ∀ kind, keepalive row.1 = false → backingOff row.1 = false →
      t.IsOffer (live row.1) row.2 now kind →
      ¬ (kind.rank t.mode < job.kind.rank t.mode ∨
        kind.rank t.mode = job.kind.rank t.mode ∧ rec.idle now < row.2.idle now)
  boots_last : t.mode = .pressure → ∀ job ∈ picked, job.kind = .archive ∨ job.kind = .freeze →
    ∀ row ∈ records, ∀ kind ∈ [JobKind.promote, .compact, .imageArchive],
      ¬ Eligible live t keepalive backingOff now row kind

variable {live t keepalive backingOff now records}

theorem OffloadPolicy.exists_isOffer {warm : WarmEntry} {rec : StoreRecord} {kind : JobKind}
    (h : t.Admits warm rec now kind) : ∃ k, t.IsOffer warm rec now k ∧ k.turn ≤ kind.turn := by
  rcases t.offer_decided warm rec now with ⟨k, -, hk⟩ | ⟨-, hno⟩
  · exact ⟨k, hk, not_lt.mp fun hlt ↦ hk.2 kind hlt h⟩
  · exact absurd h (hno kind)

theorem OffloadPolicy.IsOffer.tier_ne {warm : WarmEntry} {rec : StoreRecord} {kind : JobKind}
    (h : t.IsOffer warm rec now kind) : rec.tier ≠ .archived := by
  intro htier
  have hk := h.1
  cases kind <;> simp [OffloadPolicy.Admits, htier] at hk

theorem pick_optimal :
    OptimalPick live t keepalive backingOff now records
      (pickOffloadJob live t keepalive backingOff now records).1 := by
  have hbest (job) (hjob : (pickOffloadJob live t keepalive backingOff now records).1 = some job) :
      ∃ rec, (job.schema, rec) ∈ records ∧ keepalive job.schema = false ∧ backingOff job.schema = false ∧
        t.IsOffer (live job.schema) rec now job.kind ∧
        ∀ row ∈ records, ∀ kind, keepalive row.1 = false → backingOff row.1 = false →
          t.IsOffer (live row.1) row.2 now kind →
          ¬ (kind.rank t.mode < job.kind.rank t.mode ∨
            kind.rank t.mode = job.kind.rank t.mode ∧ rec.idle now < row.2.idle now) := by
    obtain ⟨o, rfl, hfirst⟩ := pick_eq_some_iff.mp hjob
    obtain ⟨row, hrow, ho⟩ := List.mem_filterMap.mp hfirst.mem
    obtain ⟨hkeep, hback, kind, hoffer, rfl⟩ := offerOf_eq_some_iff.mp ho
    refine ⟨row.2, hrow, hkeep, hback, hoffer, fun row' hrow' kind' hkeep' hback' hoffer' hlt ↦ ?_⟩
    have hmem := List.mem_filterMap.mpr
      ⟨row', hrow', offerOf_eq_some_iff.mpr ⟨hkeep', hback', kind', hoffer', rfl⟩⟩
    exact absurd (Offer.key_lt.mpr hlt) (not_lt.mpr (hfirst.le hmem))
  refine ⟨?_, fun job hjob ↦ ?_, fun hmode job hjob hboots row hrow kind hkind helig ↦ ?_⟩
  · rw [pick_isSome_iff]
    constructor
    · intro hne
      obtain ⟨o, ho⟩ := List.exists_mem_of_ne_nil _ hne
      obtain ⟨row, hrow, ho⟩ := List.mem_filterMap.mp ho
      obtain ⟨hkeep, hback, kind, hoffer, -⟩ := offerOf_eq_some_iff.mp ho
      exact ⟨row, hrow, kind, hkeep, hback, hoffer.1⟩
    · rintro ⟨row, hrow, kind, hkeep, hback, hadmits⟩
      obtain ⟨k, hk, -⟩ := OffloadPolicy.exists_isOffer hadmits
      exact List.ne_nil_of_mem
        (List.mem_filterMap.mpr ⟨row, hrow, offerOf_eq_some_iff.mpr ⟨hkeep, hback, k, hk, rfl⟩⟩)
  · obtain ⟨rec, hrec, hkeep, hback, hoffer, hmin⟩ := hbest job hjob
    exact ⟨rec, hrec, hkeep, hback, hoffer.tier_ne, hoffer, hmin⟩
  · obtain ⟨hkeep, hback, hadmits⟩ := helig
    obtain ⟨k, hk, hturn⟩ := OffloadPolicy.exists_isOffer hadmits
    obtain ⟨rec, -, -, -, -, hmin⟩ := hbest job hjob
    refine hmin row hrow k hkeep hback hk (.inl ?_)
    have hk2 : k.turn ≤ 2 := hturn.trans (by fin_cases hkind <;> decide)
    rw [hmode]
    rcases hboots with hboots | hboots <;> rw [hboots] <;>
      cases k <;> first | decide | simp [JobKind.turn] at hk2

variable (live t keepalive backingOff now records)

def SparesSessions (picked : Option OffloadJob) : Prop :=
  ∀ s, (live s).any (0 < ·.1) = true → ∀ job ∈ picked, job.schema ≠ s

/-- A frozen or compacted row with sessions that a promotion is offered on is not the first best: an
earlier row is offered something no worse, or a later one something better. -/
def PromotionsOutdone : Prop :=
  ∀ pre s rec post, records = pre ++ (s, rec) :: post → (live s).any (0 < ·.1) = true →
    (rec.tier = .frozen ∨ rec.tier = .compacted) → (∃ after ∈ t.archiveAfter, after ≤ rec.idle now) →
    keepalive s = false → backingOff s = false →
    (∃ row ∈ pre, ∃ o ∈ offerOf live t keepalive backingOff now row,
        Offer.key o ≤ Offer.key (JobKind.promote.rank t.mode, rec.idle now, ⟨s, .promote⟩)) ∨
      ∃ row ∈ post, ∃ o ∈ offerOf live t keepalive backingOff now row,
        Offer.key o < Offer.key (JobKind.promote.rank t.mode, rec.idle now, ⟨s, .promote⟩)

variable {live t keepalive backingOff now records}

theorem offerOf_promote {s : Schema} {rec : StoreRecord}
    (hlocal : rec.tier = .frozen ∨ rec.tier = .compacted)
    (hold : ∃ after ∈ t.archiveAfter, after ≤ rec.idle now) (hkeep : keepalive s = false)
    (hback : backingOff s = false) :
    offerOf live t keepalive backingOff now (s, rec) =
      some (JobKind.promote.rank t.mode, rec.idle now, ⟨s, .promote⟩) :=
  offerOf_eq_some_iff.mpr
    ⟨hkeep, hback, .promote, ⟨⟨hlocal, hold⟩, fun _ hlt ↦ absurd hlt (Nat.not_lt_zero _)⟩, rfl⟩

theorem mem_offers_of_row {rows : List (Schema × StoreRecord)} {o : Offer} :
    o ∈ rows.filterMap (offerOf live t keepalive backingOff now) ↔
      ∃ row ∈ rows, o ∈ offerOf live t keepalive backingOff now row := by
  simp [List.mem_filterMap]

/-- The picker leaves every schema with sessions alone exactly when no promotion of one comes first. -/
theorem pick_spares_sessions_iff :
    SparesSessions live (pickOffloadJob live t keepalive backingOff now records).1 ↔
      PromotionsOutdone live t keepalive backingOff now records := by
  constructor
  · intro hspares pre s rec post hrecords hsess hlocal hold hkeep hback
    have ho : offerOf live t keepalive backingOff now (s, rec) = _ := offerOf_promote hlocal hold hkeep hback
    by_contra hout
    simp only [not_or, not_exists, not_and, not_le, not_lt] at hout
    refine hspares s hsess ⟨s, .promote⟩ (pick_eq_some_iff.mpr
      ⟨(JobKind.promote.rank t.mode, rec.idle now, ⟨s, .promote⟩), rfl, ?_⟩) rfl
    refine ⟨pre.filterMap (offerOf live t keepalive backingOff now),
      post.filterMap (offerOf live t keepalive backingOff now), ?_, fun o' ho' ↦ ?_, fun o' ho' ↦ ?_⟩
    · rw [hrecords, List.filterMap_append, List.filterMap_cons_some ho]
    · obtain ⟨row, hrow, ho'⟩ := mem_offers_of_row.mp ho'
      exact hout.1 row hrow o' ho'
    · obtain ⟨row, hrow, ho'⟩ := mem_offers_of_row.mp ho'
      exact hout.2 row hrow o' ho'
  · intro hout s hsess job hjob hs
    obtain ⟨o, rfl, pre, post, hoffers, hpre, hpost⟩ := pick_eq_some_iff.mp hjob
    obtain ⟨before, after, hrecords, hbefore, hafter⟩ := List.filterMap_eq_append_iff.mp hoffers
    obtain ⟨skipped, row, rest, rfl, hskipped, ho, hrest⟩ := List.filterMap_eq_cons_iff.mp hafter
    obtain ⟨hkeep, hback, kind, hoffer, rfl⟩ := offerOf_eq_some_iff.mp ho
    obtain rfl : row.1 = s := hs
    obtain rfl := OffloadPolicy.promote_of_sessions (OffloadPolicy.offer_eq_some_iff.mpr hoffer) hsess
    have hsplit : records = (before ++ skipped) ++ (row.1, row.2) :: rest := by
      rw [hrecords, List.append_assoc]
    rcases hout _ row.1 row.2 rest hsplit hsess hoffer.1.1 hoffer.1.2 hkeep hback with
      ⟨r, hr, o', ho', hle⟩ | ⟨r, hr, o', ho', hlt⟩
    · rcases List.mem_append.mp hr with hr | hr
      · exact absurd (hpre o' (hbefore ▸ mem_offers_of_row.mpr ⟨r, hr, ho'⟩)) (not_lt.mpr hle)
      · rw [hskipped r hr] at ho'
        cases ho'
    · exact absurd (hpost o' (hrest ▸ mem_offers_of_row.mpr ⟨r, hr, ho'⟩)) (not_le.mpr hlt)

end Picker

/-- Under pressure a frozen schema that a client has just thawed is picked for promotion, the row
being still frozen while the session is already open. -/
theorem pick_takes_a_schema_in_use :
    ∃ live t records, ¬ SparesSessions live
      (pickOffloadJob live t (fun _ ↦ false) (fun _ ↦ false) 100 records).1 := by
  refine ⟨fun _ ↦ some (1, 0), ⟨some 0, some 0, some 0, false, false, .pressure⟩,
    [(default, ⟨default, 40, .frozen⟩)], fun h ↦ ?_⟩
  exact h default rfl ⟨default, .promote⟩ (by decide +kernel) rfl

end PgVmPool
