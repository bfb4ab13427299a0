import Mathlib

namespace PgVmPool.Reclaim

variable {Disk : Type}

/-- One turn of the main loop: whether the stop file is there before the disk, and what
`run_locked` returns for it. -/
structure Turn where
  stopFile : Bool
  rc : ℕ
  deriving DecidableEq

def Turn.yields (t : Turn) : Bool := t.stopFile || t.rc == 3

/-- The disks processed, in order, and whether the loop stopped early. -/
def mainLoop (turns : ℕ → Turn) : ℕ → List Disk → List Disk × Bool
  | _, [] => ([], false)
  | k, disk :: rest =>
    if (turns k).stopFile then ([], true)
    else if (turns k).rc = 3 then ([], true)
    else
      let r := mainLoop turns (k + 1) rest
      (disk :: r.1, r.2)

theorem mainLoop_isInitial (turns : ℕ → Turn) (k : ℕ) (disks : List Disk) :
    (mainLoop turns k disks).1 <+: disks := by
  induction disks generalizing k with
  | nil => exact List.prefix_rfl
  | cons d rest ih =>
    unfold mainLoop
    split
    · exact List.nil_prefix
    · split
      · exact List.nil_prefix
      · exact (List.prefix_cons_inj d).mpr (ih (k + 1))

theorem mainLoop_stopped (turns : ℕ → Turn) (k : ℕ) (disks : List Disk) :
    (mainLoop turns k disks).2 = false → (mainLoop turns k disks).1 = disks := by
  induction disks generalizing k with
  | nil => exact fun _ ↦ rfl
  | cons d rest ih =>
    unfold mainLoop
    split
    · rintro ⟨⟩
    · split
      · rintro ⟨⟩
      · exact fun h ↦ congrArg (d :: ·) (ih (k + 1) h)

theorem mainLoop_eq_nil (turns : ℕ → Turn) (d : Disk) (rest : List Disk) :
    (mainLoop turns 0 (d :: rest)).1 = [] ↔ (turns 0).yields = true := by
  unfold mainLoop Turn.yields
  split
  · simp_all
  · split <;> simp_all

variable [DecidableEq Disk]

/-- Where the list is cut: after the disk the cursor names, if it is still listed. -/
def startAt (disks : List Disk) (resumeFrom : Option Disk) : ℕ :=
  match resumeFrom.bind fun d ↦ disks.idxOf? d with
  | some i => (i + 1) % disks.length
  | none => 0

def rotated (disks : List Disk) (start : ℕ) : List Disk := disks.drop start ++ disks.take start

def cursorAfter (lastDone : Option Disk) (stoppedEarly : Bool) : Option Disk :=
  if stoppedEarly then lastDone else none

/-- What a pass finds and leaves: where it starts, what it processes, the cursor file. -/
structure Pass (Disk : Type) where
  turns : ℕ → Turn
  start : ℕ
  done : List Disk
  stoppedEarly : Bool
  cursor : Option Disk

/-- The script gives up without touching the cursor when there are no disks. -/
def pass (disks : List Disk) (cursor : Option Disk) (turns : ℕ → Turn) : Pass Disk :=
  if disks = [] then ⟨turns, 0, [], false, cursor⟩
  else
    let start := startAt disks cursor
    let r := mainLoop turns 0 (rotated disks start)
    ⟨turns, start, r.1, r.2, cursorAfter r.1.getLast? r.2⟩

def passes (disks : List Disk) : Option Disk → List (ℕ → Turn) → List (Pass Disk)
  | _, [] => []
  | cursor, turns :: more =>
    let p := pass disks cursor turns
    p :: passes disks p.cursor more

def Pass.next (disks : List Disk) (p : Pass Disk) : ℕ := startAt disks p.cursor

/-- A disk comes up again only after every disk has come up. -/
def FairOrder (disks xs : List Disk) : Prop :=
  ∀ i j d, i < j → xs[i]? = some d → xs[j]? = some d → ∀ e ∈ disks, e ∈ xs.take j

structure Progresses (disks : List Disk) (ps : List (Pass Disk)) : Prop where
  resumes : ∀ p ∈ ps, p.stoppedEarly = true → ∀ last, p.done.getLast? = some last →
    ∀ i, disks[i]? = some last → p.next disks = (i + 1) % disks.length
  stays : ∀ p ∈ ps, p.stoppedEarly = true → p.done = [] → p.next disks = p.start
  fair : ∀ k, (∀ p ∈ ps.take k, p.stoppedEarly = true) →
    FairOrder disks ((ps.take (k + 1)).flatMap Pass.done)

/-- No pass that starts past the head of the list yields before it has processed a disk. -/
def GetsSomewhere (ps : List (Pass Disk)) : Prop := ∀ p ∈ ps, (p.turns 0).yields = true → p.start = 0

section Around

variable {Disk : Type} {disks : List Disk}

/-- The `m` disks from position `s` on, going round. -/
def around (disks : List Disk) (s m : ℕ) : List (Option Disk) :=
  (List.range m).map fun k ↦ disks[(s + k) % disks.length]?

theorem around_append (s m j : ℕ) :
    around disks s m ++ around disks (s + m) j = around disks s (m + j) := by
  simp [around, List.range_add, List.map_map, Function.comp_def, Nat.add_assoc]

theorem around_mod (s m : ℕ) : around disks (s % disks.length) m = around disks s m := by
  simp [around, Nat.mod_add_mod]

theorem getElem?_around (disks : List Disk) (s : ℕ) {m i : ℕ} (hi : i < m) :
    (around disks s m)[i]? = some disks[(s + i) % disks.length]? := by
  simp [around, hi]

theorem rotated_ne_nil (hn : disks ≠ []) (start : ℕ) : rotated disks start ≠ [] := by
  intro h
  obtain ⟨hdrop, htake⟩ := List.append_eq_nil_iff.mp h
  exact hn ((List.take_append_drop start disks).symm.trans (by rw [hdrop, htake]; rfl))

theorem rotated_map_some {start : ℕ} (hs : start < disks.length) :
    (rotated disks start).map some = around disks start disks.length := by
  refine List.ext_getElem? fun i ↦ ?_
  by_cases hi : i < disks.length
  · rw [getElem?_around disks _ hi]
    by_cases hd : i < disks.length - start
    · have hmod : (start + i) % disks.length = start + i := Nat.mod_eq_of_lt (by omega)
      have hlt : start + i < disks.length := by omega
      simp [rotated, List.getElem?_append, hd, hmod, hlt]
    · have hmod : (start + i) % disks.length = start + i - disks.length := by
        rw [Nat.mod_eq_sub_mod (by omega), Nat.mod_eq_of_lt (by omega)]
      have hlt : i - (disks.length - start) < start := by omega
      have heq : i - (disks.length - start) = start + i - disks.length := by omega
      have hlt' : start + i - disks.length < disks.length := by omega
      simp [rotated, List.getElem?_append, hd, hmod, List.getElem?_take, heq, hlt']
      omega
  · have hlen : (rotated disks start).length ≤ i := by
      simp [rotated]
      omega
    simp [around, hi, hlen]

/-- Going round in order is fair: position `j` repeats an earlier one only past a whole lap. -/
theorem fairOrder_around {xs : List Disk} (hd : disks.Nodup) {m : ℕ}
    (hxs : xs.map some = around disks 0 m) : FairOrder disks xs := by
  have hget (i : ℕ) (d : Disk) (h : xs[i]? = some d) : i < m ∧ disks[i % disks.length]? = some d := by
    have hmap : (xs.map some)[i]? = some (some d) := by simp [h]
    rw [hxs] at hmap
    have hi : i < m := by
      have hlt := (List.getElem?_eq_some_iff.mp hmap).1
      simpa [around] using hlt
    rw [getElem?_around disks _ hi, Nat.zero_add] at hmap
    exact ⟨hi, Option.some_inj.mp hmap⟩
  intro i j d hij hi hj e he
  obtain ⟨-, hi⟩ := hget i d hi
  obtain ⟨hjm, hj⟩ := hget j d hj
  have hpos : 0 < disks.length := List.length_pos_of_mem he
  have hlap : disks.length ≤ j := by
    by_contra hlt
    have hjlt : j < disks.length := by omega
    have hilt : i < disks.length := by omega
    rw [Nat.mod_eq_of_lt hilt] at hi
    rw [Nat.mod_eq_of_lt hjlt] at hj
    have heq := (List.getElem?_inj hilt hd).mp (hi.trans hj.symm)
    omega
  obtain ⟨k, hk, rfl⟩ := List.getElem_of_mem he
  have hkm : k < m := by omega
  have hmap : (xs.map some)[k]? = some (some disks[k]) := by
    rw [hxs, getElem?_around disks _ hkm, Nat.zero_add, Nat.mod_eq_of_lt hk, List.getElem?_eq_getElem hk]
  have hxk : xs[k]? = some disks[k] := by
    simpa using hmap
  have htake : (xs.take j)[k]? = some disks[k] := by
    rw [List.getElem?_take_of_lt (by omega), hxk]
  exact List.mem_of_getElem? htake

end Around

/-- What the glob lists: every disk once. -/
structure Listing (Disk : Type) where
  disks : List Disk
  nodup : disks.Nodup

section Resume

variable {disks : List Disk}

theorem startAt_lt (hn : disks ≠ []) (cursor : Option Disk) : startAt disks cursor < disks.length := by
  have hpos := List.length_pos_iff.mpr hn
  unfold startAt
  split
  · exact Nat.mod_lt _ hpos
  · exact hpos

theorem startAt_some (hd : disks.Nodup) {i : ℕ} {d : Disk} (h : disks[i]? = some d) :
    startAt disks (some d) = (i + 1) % disks.length := by
  obtain ⟨hi, rfl⟩ := List.getElem?_eq_some_iff.mp h
  have hidx : disks.idxOf? disks[i] = some i := by
    refine List.idxOf?_eq_some_iff.mpr ⟨hi, rfl, fun j hj heq ↦ ?_⟩
    have hji := (hd.getElem_inj_iff).mp heq
    omega
  simp [startAt, hidx]

theorem pass_of_ne (hn : disks ≠ []) (cursor : Option Disk) (turns : ℕ → Turn) :
    pass disks cursor turns =
      ⟨turns, startAt disks cursor, (mainLoop turns 0 (rotated disks (startAt disks cursor))).1,
        (mainLoop turns 0 (rotated disks (startAt disks cursor))).2,
        cursorAfter (mainLoop turns 0 (rotated disks (startAt disks cursor))).1.getLast?
          (mainLoop turns 0 (rotated disks (startAt disks cursor))).2⟩ :=
  if_neg hn

theorem pass_done (hn : disks ≠ []) (cursor : Option Disk) (turns : ℕ → Turn) :
    (pass disks cursor turns).done.map some =
      around disks (startAt disks cursor) (pass disks cursor turns).done.length := by
  have hs := startAt_lt hn cursor
  obtain ⟨rest, hrest⟩ := mainLoop_isInitial turns 0 (rotated disks (startAt disks cursor))
  have hmap := rotated_map_some hs
  rw [pass_of_ne hn]
  dsimp only
  generalize (mainLoop turns 0 (rotated disks (startAt disks cursor))).1 = done at hrest
  rw [← hrest, List.map_append] at hmap
  have hlen : done.length ≤ disks.length := by
    have h := congrArg List.length hmap
    simp only [List.length_append, List.length_map, around, List.length_range] at h
    omega
  have htake := congrArg (List.take done.length) hmap
  rw [List.take_left' (List.length_map ..)] at htake
  rw [htake, around, ← List.map_take, List.take_range, Nat.min_eq_left hlen, around]

theorem pass_done_eq_nil (hn : disks ≠ []) {cursor : Option Disk} {turns : ℕ → Turn} :
    (pass disks cursor turns).done = [] ↔ (turns 0).yields = true := by
  rw [pass_of_ne hn]
  obtain ⟨d, rest, hr⟩ := List.exists_cons_of_ne_nil (rotated_ne_nil hn (startAt disks cursor))
  rw [hr]
  exact mainLoop_eq_nil turns d rest

theorem pass_cursor (hn : disks ≠ []) {cursor : Option Disk} {turns : ℕ → Turn}
    (hs : (pass disks cursor turns).stoppedEarly = true) :
    (pass disks cursor turns).cursor = (pass disks cursor turns).done.getLast? := by
  rw [pass_of_ne hn] at hs ⊢
  exact if_pos hs

/-- A stopped pass that has processed a disk is resumed right after the last one. -/
theorem pass_next (hd : disks.Nodup) (hn : disks ≠ []) {cursor : Option Disk} {turns : ℕ → Turn}
    (hs : (pass disks cursor turns).stoppedEarly = true)
    (hdone : (pass disks cursor turns).done ≠ []) :
    (pass disks cursor turns).next disks =
      (startAt disks cursor + (pass disks cursor turns).done.length) % disks.length := by
  have hmap := pass_done hn cursor turns
  have hcursor := pass_cursor hn hs
  generalize (pass disks cursor turns).done = done at hdone hmap hcursor
  have hpos := List.length_pos_iff.mpr hdone
  have hlast : done.getLast? = some (done.getLast hdone) := List.getLast?_eq_some_getLast hdone
  have hget := getElem?_around disks (startAt disks cursor) (Nat.sub_one_lt_of_lt hpos)
  rw [← hmap, List.getElem?_map, ← List.getLast?_eq_getElem?, hlast, Option.map_some,
    Option.some_inj] at hget
  rw [Pass.next, hcursor, hlast, startAt_some hd hget.symm, Nat.mod_add_mod, Nat.add_assoc,
    Nat.sub_add_cancel hpos]

theorem pass_next_of_nil (hn : disks ≠ []) {cursor : Option Disk} {turns : ℕ → Turn}
    (hs : (pass disks cursor turns).stoppedEarly = true)
    (hdone : (pass disks cursor turns).done = []) : (pass disks cursor turns).next disks = 0 := by
  have hcursor := pass_cursor hn hs
  rw [Pass.next, hcursor, hdone]
  rfl

theorem pass_stops_of_nil (hn : disks ≠ []) {cursor : Option Disk} {turns : ℕ → Turn}
    (hdone : (pass disks cursor turns).done = []) : (pass disks cursor turns).stoppedEarly = true := by
  rw [pass_of_ne hn] at hdone ⊢
  by_contra hstop
  have hall := mainLoop_stopped turns 0 (rotated disks (startAt disks cursor)) (by simpa using hstop)
  exact rotated_ne_nil hn _ (hall.symm.trans hdone)

theorem mem_passes {p : Pass Disk} {cursor : Option Disk} {runs : List (ℕ → Turn)}
    (h : p ∈ passes disks cursor runs) : ∃ c, p = pass disks c p.turns := by
  induction runs generalizing cursor with
  | nil => cases h
  | cons turns runs ih =>
    rcases List.mem_cons.mp h with rfl | h
    · refine ⟨cursor, ?_⟩
      unfold pass
      split <;> rfl
    · exact ih h

theorem passes_around (hd : disks.Nodup) (hn : disks ≠ []) {cursor : Option Disk}
    {runs : List (ℕ → Turn)} (hok : GetsSomewhere (passes disks cursor runs)) {m : ℕ} {xs : List Disk}
    (hm : startAt disks cursor = m % disks.length) (hxs : xs.map some = around disks 0 m) {k : ℕ}
    (hs : ∀ p ∈ (passes disks cursor runs).take k, p.stoppedEarly = true) :
    ∃ m', (xs ++ ((passes disks cursor runs).take (k + 1)).flatMap Pass.done).map some =
      around disks 0 m' := by
  induction runs generalizing cursor m xs k with
  | nil => exact ⟨m, by simpa [passes] using hxs⟩
  | cons turns runs ih =>
    have hdone := pass_done hn cursor turns
    rw [hm, around_mod] at hdone
    have happ : (xs ++ (pass disks cursor turns).done).map some =
        around disks 0 (m + (pass disks cursor turns).done.length) := by
      rw [List.map_append, hxs, hdone, ← around_append, Nat.zero_add]
    cases k with
    | zero => exact ⟨_, by simpa [passes] using happ⟩
    | succ k =>
      have hstop : (pass disks cursor turns).stoppedEarly = true := hs _ (by simp [passes])
      have hnext : startAt disks (pass disks cursor turns).cursor =
          (m + (pass disks cursor turns).done.length) % disks.length := by
        by_cases hnil : (pass disks cursor turns).done = []
        · have hyield := (pass_done_eq_nil hn).mp hnil
          have hstart : startAt disks cursor = 0 := by
            have h0 := hok (pass disks cursor turns) (by simp [passes])
            rw [pass_of_ne hn] at h0
            exact h0 hyield
          have h := pass_next_of_nil hn hstop hnil
          rw [Pass.next] at h
          rw [h, hnil, List.length_nil, Nat.add_zero, ← hm, hstart]
        · have h := pass_next hd hn hstop hnil
          rw [Pass.next] at h
          rw [h, hm, Nat.mod_add_mod]
      obtain ⟨m', hm'⟩ := ih (fun p hp ↦ hok p (List.mem_cons_of_mem _ hp)) hnext happ
        (fun p hp ↦ hs p (List.mem_cons_of_mem _ hp))
      exact ⟨m', by simpa [passes, List.append_assoc] using hm'⟩

end Resume

theorem passes_progress_iff (fleet : Listing Disk) (runs : List (ℕ → Turn)) :
    Progresses fleet.disks (passes fleet.disks none runs) ↔
      GetsSomewhere (passes fleet.disks none runs) := by
  obtain ⟨disks, hd⟩ := fleet
  dsimp only
  by_cases hn : disks = []
  · subst hn
    have hdead (p : Pass Disk) (hp : p ∈ passes [] none runs) :
        p.start = 0 ∧ p.done = [] ∧ p.stoppedEarly = false := by
      obtain ⟨c, hpc⟩ := mem_passes hp
      rw [hpc]
      exact ⟨rfl, rfl, rfl⟩
    refine iff_of_true ⟨fun p hp hs ↦ ?_, fun p hp hs ↦ ?_, fun k _ ↦ ?_⟩ fun p hp _ ↦ (hdead p hp).1
    · simp [(hdead p hp).2.2] at hs
    · simp [(hdead p hp).2.2] at hs
    · exact fun i j d _ _ _ e he ↦ absurd he List.not_mem_nil
  constructor
  · intro h p hp hyield
    obtain ⟨c, hpc⟩ := mem_passes hp
    have hnil : p.done = [] := by
      rw [hpc]
      exact (pass_done_eq_nil hn).mpr hyield
    have hstop : p.stoppedEarly = true := by
      rw [hpc] at hnil ⊢
      exact pass_stops_of_nil hn hnil
    have hnext : p.next disks = 0 := by
      rw [hpc] at hnil hstop ⊢
      exact pass_next_of_nil hn hstop hnil
    exact (h.stays p hp hstop hnil).symm.trans hnext
  · intro hok
    refine ⟨fun p hp hstop last hlast i hi ↦ ?_, fun p hp hstop hnil ↦ ?_, fun k hk ↦ ?_⟩
    · obtain ⟨c, hpc⟩ := mem_passes hp
      rw [Pass.next, hpc, pass_cursor hn (hpc ▸ hstop), ← hpc, hlast]
      exact startAt_some hd hi
    · obtain ⟨c, hpc⟩ := mem_passes hp
      have hstart : p.start = 0 := by
        refine hok p hp ?_
        rw [hpc] at hnil
        exact (pass_done_eq_nil hn).mp hnil
      rw [hstart]
      rw [hpc] at hnil hstop ⊢
      exact pass_next_of_nil hn hstop hnil
    · have hxs : ([] : List Disk).map some = around disks 0 0 := rfl
      obtain ⟨m, hm⟩ := passes_around hd hn hok (Nat.zero_mod _).symm hxs hk
      exact fairOrder_around hd hm

def stopsAfter (n k : ℕ) : Turn := ⟨decide (k = n), 0⟩

def threeDisks : Listing String where
  disks := ["run/sb-a/data.ext4", "run/sb-b/data.ext4", "run/sb-c/data.ext4"]
  nodup := by decide

theorem progress_lost :
    ¬Progresses threeDisks.disks
      (passes threeDisks.disks none [stopsAfter 1, stopsAfter 0, stopsAfter 1]) := by
  intro h
  have hstop : ∀ p ∈ (passes threeDisks.disks none
      [stopsAfter 1, stopsAfter 0, stopsAfter 1]).take 2, p.stoppedEarly = true := by
    decide
  have hfair := h.fair 2 hstop 0 1 "run/sb-a/data.ext4" (by decide) (by decide) (by decide)
  have hmem := hfair "run/sb-b/data.ext4" (by decide)
  revert hmem
  decide

end PgVmPool.Reclaim
