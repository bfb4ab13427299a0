import PgVmPool.AlertRules
import PgVmPool.EdgeDetector

namespace PgVmPool.Alerts

open EdgeDetector Transition

inductive Reading
  | nan | negInf | inf
  | num (v : ℚ)
  deriving DecidableEq

namespace Reading

/-- `value >= threshold`: no comparison with NaN holds. -/
def reaches (threshold : ℚ) : Reading → Bool
  | .nan | .negInf => false
  | .inf => true
  | .num v => threshold ≤ v

/-- `{:.1}`. -/
def text : Reading → Text
  | .nan => "NaN".toList
  | .negInf => "-inf".toList
  | .inf => "inf".toList
  | .num v => Alerts.num v

end Reading

structure Sample where
  hostCpuPct : Option Reading
  hostMemPct : Option Reading
  maxDiskPct : Option Reading
  worstMount : Option Text
  heyvmdFailCount : Option Reading
  heyvmdError : Option Text

namespace Sample

def value (s : Sample) : Metric → Option Reading
  | .hostCpu => s.hostCpuPct
  | .hostMemory => s.hostMemPct
  | .disk => s.maxDiskPct
  | .heyvmdHealth => s.heyvmdFailCount

def detail (s : Sample) : Metric → Option Text
  | .hostCpu | .hostMemory => none
  | .disk => s.worstMount
  | .heyvmdHealth => s.heyvmdError

end Sample

def stateText : Edge → String
  | .rising => "triggered"
  | .falling => "resolved"

def hexDigits : Text := "0123456789abcdef".toList

def jsonChar (c : Char) : Text :=
  if c = '"' then ['\\', '"']
  else if c = '\\' then ['\\', '\\']
  else if c = '\n' then ['\\', 'n']
  else if c = '\r' then ['\\', 'r']
  else if c = '\t' then ['\\', 't']
  else if c.toNat < 0x20 then
    "\\u00".toList ++ [hexDigits.getD (c.toNat / 16) '0', hexDigits.getD (c.toNat % 16) '0']
  else [c]

def jsonStr (s : Text) : Text := '"' :: (s.flatMap jsonChar ++ ['"'])

/-- `host` is the environment's `HOSTNAME`. -/
def payload (host : Text) (r : Rule) (state : Edge) (value : Reading) (detail : Option Text) : Text :=
  "\x7b\"source\":\"pg-vm-pool\",\"host\":".toList ++ jsonStr host ++ ",\"rule_id\":".toList ++ jsonStr r.id ++
    ",\"metric\":\"".toList ++ r.metric.slug.toList ++ "\",\"state\":\"".toList ++ (stateText state).toList ++
    "\",\"threshold_pct\":".toList ++ num r.threshold ++ ",\"value_pct\":".toList ++ value.text ++
    (match detail with
      | some d => ",\"detail\":".toList ++ jsonStr d
      | none => []) ++ ['}']

structure Delivery where
  url : Text
  body : Text
  deriving DecidableEq

/-- One turn of the loop of `evaluate`: the rule, and the edge that it crossed at the value read. -/
def Rule.compare (s : Sample) (r : Rule) : Rule × Option (Edge × Reading) :=
  if r.paused then (r, none)
  else match s.value r.metric with
    | none => (r, none)
    | some value =>
      let high := value.reaches r.threshold
      if high && !r.firing then ({ r with firing := true }, some (.rising, value))
      else if !high && r.firing then ({ r with firing := false }, some (.falling, value))
      else (r, none)

def Rule.deliver (host : Text) (s : Sample) (r : Rule) (e : Edge × Reading) : Delivery :=
  ⟨r.webhookUrl, payload host r e.1 e.2 (s.detail r.metric)⟩

/-- `AlertStore::evaluate` under its lock: the rules, and the webhooks to send. -/
def evaluate (host : Text) (s : Sample) (rules : List Rule) : List Rule × List Delivery :=
  (rules.map fun r ↦ (r.compare s).1, rules.filterMap fun r ↦ (r.compare s).2.map (r.deliver host s))

/-- A rule with its history since it was made, changed or paused last: the states delivered for it, and
whether it was over its threshold at the last tick that read it. -/
structure Watched where
  rule : Rule
  sent : List Edge
  high : Bool

namespace Watched

def fresh (r : Rule) : Watched := ⟨r, [], false⟩

def tick (s : Sample) (w : Watched) : Watched where
  rule := (w.rule.compare s).1
  sent := w.sent ++ ((w.rule.compare s).2.map Prod.fst).toList
  high :=
    if w.rule.paused then w.high
    else match s.value w.rule.metric with
      | none => w.high
      | some value => value.reaches w.rule.threshold

end Watched

/-- The histories of the rules after one of them, the first of this id, was changed: it begins anew where
the change is of its configuration. -/
def refit (id : Text) (anew : Bool) : List Rule → List Watched → List Watched
  | r :: rules, w :: ws =>
    if w.rule.id = id then (if anew then .fresh r else { w with rule := r }) :: ws
    else w :: refit id anew rules ws
  | _, ws => ws

def watchCall (nanos : ℕ) (c : Call) (ws : List Watched) : List Watched :=
  match c.apply nanos (ws.map Watched.rule) with
  | .error _ => ws
  | .ok rules =>
    match c with
    | .add .. => ws ++ (rules.drop ws.length).map Watched.fresh
    | .update id .. => refit id true rules ws
    | .setPaused id paused => refit id paused rules ws
    | .remove id => ws.filter fun w ↦ w.rule.id ≠ id

inductive WatchAction
  | call (nanos : ℕ) (c : Call)
  | evaluate (s : Sample)

def watchStep : WatchAction → List Watched → Option (List Watched)
  | .call nanos c, ws => some (watchCall nanos c ws)
  | .evaluate s, ws => some (ws.map (·.tick s))

/-- A store as it is loaded: whatever the rules are, none of them is firing. -/
def watchLoaded (rules : List Rule) : List Watched := rules.map fun r ↦ .fresh r.clear

/-- What a tick has to deliver for a rule: where the value has moved to the other side of the threshold
since the last tick that read it. -/
def Watched.due (s : Sample) (w : Watched) : Option (Edge × Reading) :=
  if w.rule.paused then none
  else (s.value w.rule.metric).bind fun v ↦
    if v.reaches w.rule.threshold = w.high then none
    else some (if v.reaches w.rule.threshold then .rising else .falling, v)

/-- What a receiver of webhooks knows the two edges by. -/
def edgeWord : Edge → Text
  | .rising => "triggered".toList
  | .falling => "resolved".toList

def Delivery.Names (d : Delivery) (host : Text) (r : Rule) (e : Edge) : Prop :=
  d.url = r.webhookUrl ∧ ∃ rest,
    d.body = "\x7b\"source\":\"pg-vm-pool\",\"host\":".toList ++ jsonStr host ++ ",\"rule_id\":".toList ++
      jsonStr r.id ++ ",\"metric\":\"".toList ++ r.metric.slug.toList ++ "\",\"state\":\"".toList ++
        edgeWord e ++ rest ∧ rest.head? = some '"'

structure Watched.Fits (w : Watched) : Prop where
  alternates : Alternates w.sent
  level : levelAfter w.sent = w.rule.firing
  high : w.high = w.rule.firing

theorem Watched.fits_fresh {r : Rule} (h : r.firing = false) : (Watched.fresh r).Fits :=
  ⟨alternates_nil, h.symm, h.symm⟩

theorem Rule.compare_paused {r : Rule} (h : r.paused = true) (s : Sample) : r.compare s = (r, none) := by
  rw [Rule.compare, if_pos h]

theorem Rule.compare_missing {r : Rule} {s : Sample} (h : s.value r.metric = none) :
    r.compare s = (r, none) := by
  unfold Rule.compare
  rw [h, ite_self]

/-- A rule that is read moves to where the value is, and its edge is the one in between. -/
theorem Rule.compare_read {r : Rule} {s : Sample} {v : Reading} (hp : r.paused = false)
    (hv : s.value r.metric = some v) : r.compare s =
      ({ r with firing := v.reaches r.threshold }, (edge r.firing (v.reaches r.threshold)).map (·, v)) := by
  obtain ⟨id, metric, threshold, url, firing, paused⟩ := r
  cases hp
  simp only [Rule.compare, hv]
  cases firing <;> cases v.reaches threshold <;> rfl

theorem Watched.Fits.tick {w : Watched} (h : w.Fits) (s : Sample) : (w.tick s).Fits := by
  cases hp : w.rule.paused with
  | true =>
    have hcompare := Rule.compare_paused hp s
    constructor <;> simp [Watched.tick, hcompare, hp, h.alternates, h.level, h.high]
  | false =>
    cases hv : s.value w.rule.metric with
    | none =>
      have hcompare := Rule.compare_missing hv
      constructor <;> simp [Watched.tick, hcompare, hp, hv, h.alternates, h.level, h.high]
    | some v =>
      have hcompare := Rule.compare_read hp hv
      obtain ⟨halternates, hlevel⟩ := h.alternates.detect (v.reaches w.rule.threshold)
      rw [h.level] at halternates hlevel
      constructor
      · simpa [Watched.tick, hcompare, Option.map_map, Function.comp_def] using halternates
      · simpa [Watched.tick, hcompare, Option.map_map, Function.comp_def] using hlevel
      · simp [Watched.tick, hcompare, hp, hv]

theorem rules_tick (host : Text) (s : Sample) (ws : List Watched) :
    (ws.map (·.tick s)).map Watched.rule = (evaluate host s (ws.map Watched.rule)).1 := by
  simp only [evaluate, List.map_map]
  rfl

section Calls

variable {id : Text} {anew : Bool} {f : Rule → Rule} {rules : List Rule} {ws : List Watched}

theorem rules_refit (h : modifyFirst id f (ws.map Watched.rule) = some rules) :
    (refit id anew rules ws).map Watched.rule = rules := by
  induction ws generalizing rules with
  | nil => cases h
  | cons w ws ih =>
    rw [List.map_cons, modifyFirst] at h
    split_ifs at h with hid
    · cases h
      cases anew <;> simp [refit, hid, Watched.fresh]
    · obtain ⟨rest, hrest, rfl⟩ := Option.map_eq_some_iff.mp h
      rw [refit, if_neg hid, List.map_cons, ih hrest]

theorem fits_refit (h : modifyFirst id f (ws.map Watched.rule) = some rules)
    (hf : ∀ r : Rule, (f r).firing = (!anew && r.firing)) (hws : ∀ w ∈ ws, w.Fits) :
    ∀ w ∈ refit id anew rules ws, w.Fits := by
  induction ws generalizing rules with
  | nil => cases h
  | cons w ws ih =>
    obtain ⟨hw, hws⟩ := List.forall_mem_cons.mp hws
    rw [List.map_cons, modifyFirst] at h
    split_ifs at h with hid
    · cases h
      rw [refit, if_pos hid]
      refine List.forall_mem_cons.mpr ⟨?_, hws⟩
      have hfiring := hf w.rule
      cases anew with
      | true => exact Watched.fits_fresh hfiring
      | false => exact ⟨hw.alternates, hw.level.trans hfiring.symm, hw.high.trans hfiring.symm⟩
    · obtain ⟨rest, hrest, rfl⟩ := Option.map_eq_some_iff.mp h
      rw [refit, if_neg hid]
      exact List.forall_mem_cons.mpr ⟨hw, ih hrest hws⟩

theorem Call.apply_ok {nanos : ℕ} {c : Call} {rules rules' : List Rule} (h : c.apply nanos rules = .ok rules') :
    match c with
    | .add .. => ∃ r : Rule, rules' = rules ++ [r] ∧ r.firing = false
    | .update id .. => ∃ f, modifyFirst id f rules = some rules' ∧ ∀ r : Rule, (f r).firing = false
    | .setPaused id paused =>
      modifyFirst id (fun r ↦ { r with paused, firing := !paused && r.firing }) rules = some rules'
    | .remove id => rules' = rules.filter (·.id ≠ id) := by
  cases c with
  | add metric threshold webhookUrl =>
    simp only [Call.apply] at h
    cases hval : validate metric threshold webhookUrl with
    | error e =>
      rw [hval] at h
      cases h
    | ok x =>
      simp only [hval] at h
      split_ifs at h
      cases h
      exact ⟨_, rfl, rfl⟩
  | update id metric threshold webhookUrl =>
    simp only [Call.apply] at h
    cases hval : validate metric threshold webhookUrl with
    | error e =>
      rw [hval] at h
      cases h
    | ok x =>
      simp only [hval] at h
      split at h
      · cases h
      · rename_i hmod
        cases h
        exact ⟨_, hmod, fun r ↦ rfl⟩
  | setPaused id paused =>
    simp only [Call.apply] at h
    split at h
    · cases h
    · rename_i hmod
      cases h
      exact hmod
  | remove id =>
    simp only [Call.apply] at h
    split_ifs at h
    cases h
    rfl

theorem rules_watchCall (nanos : ℕ) (c : Call) (ws : List Watched) :
    (watchCall nanos c ws).map Watched.rule =
      match c.apply nanos (ws.map Watched.rule) with
      | .error _ => ws.map Watched.rule
      | .ok rules => rules := by
  unfold watchCall
  cases happly : c.apply nanos (ws.map Watched.rule) with
  | error o => rfl
  | ok rules =>
    cases c with
    | add metric threshold webhookUrl =>
      obtain ⟨r, rfl, -⟩ := Call.apply_ok happly
      have hnew : (ws.map Watched.rule ++ [r]).drop ws.length = [r] := List.drop_left' (List.length_map _)
      simp only [hnew, List.map_append]
      rfl
    | update id metric threshold webhookUrl =>
      obtain ⟨f, hmod, -⟩ := Call.apply_ok happly
      exact rules_refit hmod
    | setPaused id paused => exact rules_refit (Call.apply_ok happly)
    | remove id =>
      rw [Call.apply_ok happly, List.filter_map]
      rfl

theorem fits_watchCall (nanos : ℕ) (c : Call) (hws : ∀ w ∈ ws, w.Fits) :
    ∀ w ∈ watchCall nanos c ws, w.Fits := by
  unfold watchCall
  cases happly : c.apply nanos (ws.map Watched.rule) with
  | error o => exact hws
  | ok rules =>
    cases c with
    | add metric threshold webhookUrl =>
      obtain ⟨r, rfl, hr⟩ := Call.apply_ok happly
      have hnew : (ws.map Watched.rule ++ [r]).drop ws.length = [r] := List.drop_left' (List.length_map _)
      simp only [hnew]
      exact List.forall_mem_append.mpr ⟨hws, List.forall_mem_singleton.mpr (Watched.fits_fresh hr)⟩
    | update id metric threshold webhookUrl =>
      obtain ⟨f, hmod, hf⟩ := Call.apply_ok happly
      exact fits_refit hmod hf hws
    | setPaused id paused => exact fits_refit (Call.apply_ok happly) (fun r ↦ rfl) hws
    | remove id => exact fun w hw ↦ hws w (List.mem_of_mem_filter hw)

end Calls

theorem Watched.Fits.compare {w : Watched} (h : w.Fits) (s : Sample) : (w.rule.compare s).2 = w.due s := by
  unfold Watched.due
  cases hp : w.rule.paused with
  | true => rw [Rule.compare_paused hp, if_pos rfl]
  | false =>
    cases hv : s.value w.rule.metric with
    | none => rw [Rule.compare_missing hv]; rfl
    | some v =>
      rw [Rule.compare_read hp hv, ← h.high]
      cases w.high <;> cases hr : v.reaches w.rule.threshold <;> simp [edge, hr]

theorem Rule.compare_twice (s : Sample) (r : Rule) : ((r.compare s).1.compare s).2 = none := by
  cases hp : r.paused with
  | true => rw [Rule.compare_paused hp, Rule.compare_paused hp]
  | false =>
    cases hv : s.value r.metric with
    | none => rw [Rule.compare_missing hv, Rule.compare_missing hv]
    | some v =>
      have hread := Rule.compare_read hp hv
      have hagain := Rule.compare_read (r := { r with firing := v.reaches r.threshold }) hp hv
      rw [hread, hagain, edge_self]
      rfl

theorem edgeWord_eq (e : Edge) : edgeWord e = (stateText e).toList := by
  cases e <;> rfl

theorem names_deliver (host : Text) (s : Sample) (r : Rule) (e : Edge) (v : Reading) :
    (r.deliver host s (e, v)).Names host r e := by
  refine ⟨rfl, "\",\"threshold_pct\":".toList ++ (num r.threshold ++ (",\"value_pct\":".toList ++ (v.text ++
    ((match s.detail r.metric with
      | some d => ",\"detail\":".toList ++ jsonStr d
      | none => []) ++ ['}'])))), ?_, rfl⟩
  rw [edgeWord_eq, Rule.deliver]
  unfold payload
  ac_rfl

/-- The histories are those of the rules that `evaluate` and the calls leave. Each rule has delivered `triggered`,
`resolved`, and so on in turn since its last change; a tick delivers for a rule where it is read on the other side
of its threshold than before, and nothing when the same sample comes again. -/
structure AlertsAlternate (ws : List Watched) : Prop where
  sent : ∀ w ∈ ws, Alternates w.sent
  evaluated : ∀ host s, evaluate host s (ws.map Watched.rule) = ((ws.map (·.tick s)).map Watched.rule,
    ws.filterMap fun w ↦ (w.due s).map (w.rule.deliver host s))
  ticked : ∀ s, ∀ w ∈ ws, (w.tick s).sent = w.sent ++ ((w.due s).map Prod.fst).toList
  named : ∀ host s, ∀ w ∈ ws, ∀ e v, w.due s = some (e, v) →
    (w.rule.deliver host s (e, v)).Names host w.rule e
  called : ∀ nanos c, (watchCall nanos c ws).map Watched.rule =
    match c.apply nanos (ws.map Watched.rule) with
    | .error _ => ws.map Watched.rule
    | .ok rules => rules
  twice : ∀ host s, (evaluate host s (evaluate host s (ws.map Watched.rule)).1).2 = []

theorem alerts_alternate {rules : List Rule} {ws : List Watched}
    (h : Run watchStep (fun _ _ ↦ True) (watchLoaded rules) ws) : AlertsAlternate ws := by
  have hfits : ∀ w ∈ ws, w.Fits := by
    refine h.invariant (I := fun ws ↦ ∀ w ∈ ws, w.Fits) ?_ fun ws l ws' hI _ hs ↦ ?_
    · intro w hw
      obtain ⟨r, -, rfl⟩ := List.mem_map.mp hw
      exact Watched.fits_fresh rfl
    · cases l with
      | call nanos c =>
        obtain rfl := Option.some_inj.mp hs
        exact fits_watchCall nanos c hI
      | evaluate s =>
        obtain rfl := Option.some_inj.mp hs
        intro w hw
        obtain ⟨v, hv, rfl⟩ := List.mem_map.mp hw
        exact (hI v hv).tick s
  refine ⟨fun w hw ↦ (hfits w hw).alternates, fun host s ↦ ?_, fun s w hw ↦ ?_,
    fun host s w _ e v _ ↦ names_deliver host s w.rule e v, fun nanos c ↦ rules_watchCall nanos c ws,
    fun host s ↦ ?_⟩
  · refine Prod.ext (rules_tick host s ws).symm ?_
    simp only [evaluate, List.filterMap_map]
    refine List.filterMap_congr fun w hw ↦ ?_
    rw [Function.comp_apply, (hfits w hw).compare]
  · rw [← (hfits w hw).compare, Watched.tick]
  · simp only [evaluate, List.filterMap_map, List.filterMap_eq_nil_iff]
    intro w hw
    simp only [Function.comp_apply]
    rw [Rule.compare_twice, Option.map_none]

def cpuSample (value : Option Reading) : Sample := ⟨value, none, none, none, none, none⟩

/-- The rule goes over, stays over through a reading that is missing, and comes back twice. -/
theorem alerts_alternate_run : ∃ ws,
    Run watchStep (fun _ _ ↦ True) (watchLoaded [⟨['a'], .hostCpu, 80, ['h'], true, false⟩]) ws ∧
      ws.map Watched.sent = [[.rising, .falling, .rising, .falling]] ∧ AlertsAlternate ws := by
  obtain ⟨ws, h, hsent⟩ := Run.exists_of_exec watchStep (fun _ _ ↦ True)
    (watchLoaded [⟨['a'], .hostCpu, 80, ['h'], true, false⟩])
    [.evaluate (cpuSample (some (.num 90))), .evaluate (cpuSample none), .evaluate (cpuSample (some .inf)),
      .evaluate (cpuSample (some .nan)), .call 0 (.setPaused ['a'] false),
      .evaluate (cpuSample (some (.num 80))), .evaluate (cpuSample (some (.num 79)))]
    (fun ws ↦ ws.map Watched.sent = [[.rising, .falling, .rising, .falling]])
    (by decide +kernel) (by decide +kernel)
  exact ⟨ws, h, of_decide_eq_true hsent, alerts_alternate h⟩

end PgVmPool.Alerts
