import Mathlib

namespace PgVmPool.Upload

variable {ε : Type}

abbrev Bytes := List UInt8

/-- What the file and S3 answer, call by call. A read asks for as much as the buffer has room for and
gets at least one byte of what is left, so any number stands for some short read. -/
structure Host (ε : Type) where
  contents : Bytes
  readsAll : Except ε Unit
  puts : Except ε Unit
  initiates : Except ε String
  opens : Except ε Unit
  reads : ℕ → Except ε ℕ
  uploads : ℕ → Except ε String
  completes : Except ε Unit
  aborts : Except ε Unit

inductive Failure (ε : Type)
  | step (e : ε)
  | emptied
  deriving DecidableEq

inductive Event (ε : Type)
  | readAll (r : Except ε Unit)
  | put (body : Bytes) (r : Except ε Unit)
  | initiate (r : Except ε String)
  | openFile (r : Except ε Unit)
  | read (r : Except ε ℕ)
  | uploadPart (uploadId : String) (number : UInt32) (body : Bytes) (r : Except ε String)
  | complete (uploadId xml : String) (r : Except ε Unit)
  | abort (uploadId : String) (r : Except ε Unit)

def taken (n room : ℕ) (rest : Bytes) : ℕ := min (max n 1) (min room rest.length)

/-- The inner loop: read until the buffer is full or the file ends. It returns what is in the buffer,
what is left of the file and how many reads there have been. -/
def fill (h : Host ε) (room : ℕ) (rest : Bytes) (k : ℕ) :
    List (Event ε) × Except ε (Bytes × Bytes × ℕ) :=
  if room = 0 then ([], .ok ([], rest, k))
  else match h.reads k with
    | .error e => ([.read (.error e)], .error e)
    | .ok n =>
      match taken n room rest with
      | 0 => ([.read (.ok 0)], .ok ([], rest, k + 1))
      | m + 1 =>
        let r := fill h (room - (m + 1)) (rest.drop (m + 1)) (k + 1)
        (.read (.ok (m + 1)) :: r.1, r.2.map fun x ↦ (rest.take (m + 1) ++ x.1, x.2))
  termination_by room

theorem taken_le (n room : ℕ) (rest : Bytes) :
    taken n room rest ≤ room ∧ taken n room rest ≤ rest.length := by
  unfold taken
  omega

theorem taken_eq_zero {n room : ℕ} {rest : Bytes} (hroom : room ≠ 0) :
    taken n room rest = 0 ↔ rest = [] := by
  rw [← List.length_eq_zero_iff]
  unfold taken
  omega

/-- The buffer takes the next piece of the file, and is short only at the end of it. -/
theorem fill_ok {h : Host ε} {room k k' : ℕ} {rest body rest' : Bytes}
    (hf : (fill h room rest k).2 = .ok (body, rest', k')) :
    body ++ rest' = rest ∧ body.length ≤ room ∧ (body.length < room → rest' = []) := by
  induction room, rest, k using fill.induct h generalizing body rest' k' with
  | case1 rest k =>
    rw [fill, if_pos rfl] at hf
    cases hf
    simp
  | case2 room rest k hroom e he =>
    rw [fill, if_neg hroom, he] at hf
    cases hf
  | case3 room rest k hroom n hn hzero =>
    rw [fill, if_neg hroom, hn] at hf
    simp only [hzero] at hf
    cases hf
    exact ⟨rfl, Nat.zero_le _, fun _ ↦ (taken_eq_zero hroom).mp hzero⟩
  | case4 room rest k hroom n hn m htaken ih =>
    rw [fill, if_neg hroom, hn] at hf
    simp only [htaken] at hf
    have hm := htaken ▸ taken_le n room rest
    cases hr : (fill h (room - (m + 1)) (rest.drop (m + 1)) (k + 1)).2 with
    | error e =>
      rw [hr] at hf
      cases hf
    | ok x =>
      obtain ⟨body₂, rest₂, k₂⟩ := x
      rw [hr] at hf
      cases hf
      obtain ⟨hcat, hle, hshort⟩ := ih hr
      refine ⟨?_, ?_, fun hlt ↦ hshort ?_⟩
      · rw [List.append_assoc, hcat, List.take_append_drop]
      · simp only [List.length_append, List.length_take_of_le hm.2]
        omega
      · simp only [List.length_append, List.length_take_of_le hm.2] at hlt
        omega

/-- A part's number and the ETag that came back for it. -/
abbrev Parts := List (UInt32 × String)

/-- The outer loop of `upload_parts`, from what is left of the file on. -/
def partLoop (h : Host ε) (uploadId : String) (size : ℕ) (rest : Bytes) (k : ℕ) (parts : Parts) :
    List (Event ε) × Except ε Parts :=
  match _hf : fill h size rest k with
  | (read, .error e) => (read, .error e)
  | (read, .ok (body, rest', k')) =>
    if _hb : body = [] then (read, .ok parts)
    else
      let number := UInt32.ofNat parts.length + 1
      let sent := Event.uploadPart uploadId number body (h.uploads parts.length)
      match h.uploads parts.length with
      | .error e => (read ++ [sent], .error e)
      | .ok etag =>
        if body.length < size then (read ++ [sent], .ok (parts ++ [(number, etag)]))
        else
          let r := partLoop h uploadId size rest' k' (parts ++ [(number, etag)])
          (read ++ sent :: r.1, r.2)
  termination_by rest.length
  decreasing_by
    have hcat := (fill_ok (by rw [_hf])).1
    have hpos : 0 < body.length := List.length_pos_iff.mpr _hb
    rw [← hcat, List.length_append]
    omega

def completionBody (parts : Parts) : String :=
  "<CompleteMultipartUpload>" ++ String.join (parts.map fun p ↦
    "<Part><PartNumber>" ++ toString p.1.toNat ++ "</PartNumber><ETag>" ++ p.2 ++ "</ETag></Part>") ++
      "</CompleteMultipartUpload>"

def uploadParts (h : Host ε) (uploadId : String) (size : ℕ) : List (Event ε) × Except (Failure ε) Unit :=
  match h.opens with
  | .error e => ([.openFile (.error e)], .error (.step e))
  | .ok () =>
    let r := partLoop h uploadId size h.contents 0 []
    match r.2 with
    | .error e => (.openFile (.ok ()) :: r.1, .error (.step e))
    | .ok parts =>
      if parts = [] then (.openFile (.ok ()) :: r.1, .error .emptied)
      else (.openFile (.ok ()) :: r.1 ++ [.complete uploadId (completionBody parts) h.completes],
        h.completes.mapError .step)

/-- One PUT for a small file, otherwise a multipart upload that is aborted when it fails. -/
def uploadFile (h : Host ε) (len size singlePutMax : ℕ) : List (Event ε) × Except (Failure ε) Unit :=
  if len ≤ singlePutMax then
    match h.readsAll with
    | .error e => ([.readAll (.error e)], .error (.step e))
    | .ok () => ([.readAll (.ok ()), .put h.contents h.puts], h.puts.mapError .step)
  else
    match h.initiates with
    | .error e => ([.initiate (.error e)], .error (.step e))
    | .ok uploadId =>
      let r := uploadParts h uploadId size
      match r.2 with
      | .ok () => (.initiate (.ok uploadId) :: r.1, .ok ())
      | .error e => (.initiate (.ok uploadId) :: r.1 ++ [.abort uploadId h.aborts], .error e)

def errorOf {α : Type} : Except ε α → Option ε
  | .error e => some e
  | .ok _ => none

namespace Event

/-- What went wrong at a step. The outcome of an abort is only logged. -/
def error? : Event ε → Option ε
  | .readAll r | .put _ r | .openFile r | .complete _ _ r => errorOf r
  | .initiate r | .uploadPart _ _ _ r => errorOf r
  | .read r => errorOf r
  | .abort _ _ => none

def part? : Event ε → Option (UInt32 × Bytes)
  | .uploadPart _ number body _ => some (number, body)
  | _ => none

def etag? : Event ε → Option (UInt32 × String)
  | .uploadPart _ number _ (.ok etag) => some (number, etag)
  | _ => none

def completion? : Event ε → Option String
  | .complete _ xml _ => some xml
  | _ => none

end Event

section Runs

variable {h : Host ε} {uploadId : String} {size room k : ℕ} {rest : Bytes} {parts : Parts}

theorem fill_reads (h : Host ε) (room : ℕ) (rest : Bytes) (k : ℕ) :
    ∀ ev ∈ (fill h room rest k).1, ∃ r, ev = .read r := by
  induction room, rest, k using fill.induct h with
  | case1 rest k => simp [fill]
  | case2 room rest k hroom e he =>
    rw [fill, if_neg hroom, he]
    simp
  | case3 room rest k hroom n hn hzero =>
    rw [fill, if_neg hroom, hn]
    simp [hzero]
  | case4 room rest k hroom n hn m htaken ih =>
    rw [fill, if_neg hroom, hn]
    simp only [htaken]
    exact List.forall_mem_cons.mpr ⟨⟨_, rfl⟩, ih⟩

theorem fill_reports (h : Host ε) (room : ℕ) (rest : Bytes) (k : ℕ) :
    ∀ ev ∈ (fill h room rest k).1, ∀ e, ev.error? = some e → (fill h room rest k).2 = .error e := by
  induction room, rest, k using fill.induct h with
  | case1 rest k => simp [fill]
  | case2 room rest k hroom e he =>
    rw [fill, if_neg hroom, he]
    simp [Event.error?, errorOf]
  | case3 room rest k hroom n hn hzero =>
    rw [fill, if_neg hroom, hn]
    simp [hzero, Event.error?, errorOf]
  | case4 room rest k hroom n hn m htaken ih =>
    rw [fill, if_neg hroom, hn]
    simp only [htaken]
    refine List.forall_mem_cons.mpr ⟨fun e he ↦ (by cases he), fun ev hev e he ↦ ?_⟩
    rw [ih ev hev e he]
    rfl

theorem fill_succeeds (hreads : ∀ k, ∃ n, h.reads k = .ok n) (room : ℕ) (rest : Bytes) (k : ℕ) :
    ∃ x, (fill h room rest k).2 = .ok x := by
  induction room, rest, k using fill.induct h with
  | case1 rest k => exact ⟨_, by rw [fill, if_pos rfl]⟩
  | case2 room rest k hroom e he =>
    obtain ⟨n, hn⟩ := hreads k
    rw [he] at hn
    cases hn
  | case3 room rest k hroom n hn hzero => exact ⟨_, by rw [fill, if_neg hroom, hn]; simp only [hzero]; rfl⟩
  | case4 room rest k hroom n hn m htaken ih =>
    obtain ⟨x, hx⟩ := ih
    rw [fill, if_neg hroom, hn]
    simp only [htaken, hx]
    exact ⟨_, rfl⟩

theorem filterMap_fill {α : Type} {f : Event ε → Option α} (hf : ∀ r, f (.read r) = none) :
    (fill h room rest k).1.filterMap f = [] := by
  rw [List.filterMap_eq_nil_iff]
  intro ev hev
  obtain ⟨r, rfl⟩ := fill_reads h room rest k ev hev
  exact hf r

/-- The pieces of a file: full ones, and a last one that is not empty. -/
structure Pieces (size : ℕ) (file : Bytes) (bodies : List Bytes) : Prop where
  whole : bodies.flatten = file
  full : ∀ b ∈ bodies.dropLast, b.length = size
  nonempty : ∀ b ∈ bodies, b ≠ []
  le : ∀ b ∈ bodies, b.length ≤ size

theorem Pieces.cons {body : Bytes} {bodies : List Bytes} (hb : Pieces size rest bodies)
    (hfull : body.length = size) (hne : body ≠ []) : Pieces size (body ++ rest) (body :: bodies) where
  whole := by rw [List.flatten_cons, hb.whole]
  full b hmem := by
    cases bodies with
    | nil => simp at hmem
    | cons b' bs =>
      rw [List.dropLast_cons_cons] at hmem
      rcases List.mem_cons.mp hmem with rfl | hmem
      · exact hfull
      · exact hb.full b hmem
  nonempty := List.forall_mem_cons.mpr ⟨hne, hb.nonempty⟩
  le := List.forall_mem_cons.mpr ⟨hfull.le, hb.le⟩

/-- Parts numbered from `start` on, with what was sent as each. -/
def numbered (start : ℕ) (bodies : List Bytes) : List (UInt32 × Bytes) :=
  (bodies.zipIdx start).map fun b ↦ (UInt32.ofNat b.2 + 1, b.1)

def tagged (tags : ℕ → String) (start n : ℕ) : Parts :=
  (List.range' start n).map fun i ↦ (UInt32.ofNat i + 1, tags i)

theorem partLoop_of_error {e : ε} (hf : (fill h size rest k).2 = .error e) :
    partLoop h uploadId size rest k parts = ((fill h size rest k).1, .error e) := by
  rw [partLoop]
  split
  · rename_i read e' heq
    rw [heq] at hf ⊢
    cases hf
    rfl
  · rename_i heq
    rw [heq] at hf
    cases hf

theorem partLoop_of_ok {body rest' : Bytes} {k' : ℕ} (hf : (fill h size rest k).2 = .ok (body, rest', k')) :
    partLoop h uploadId size rest k parts =
      if body = [] then ((fill h size rest k).1, .ok parts)
      else match h.uploads parts.length with
        | .error e => ((fill h size rest k).1 ++
            [.uploadPart uploadId (UInt32.ofNat parts.length + 1) body (.error e)], .error e)
        | .ok etag =>
          if body.length < size then ((fill h size rest k).1 ++
            [.uploadPart uploadId (UInt32.ofNat parts.length + 1) body (.ok etag)],
              .ok (parts ++ [(UInt32.ofNat parts.length + 1, etag)]))
          else
            let r := partLoop h uploadId size rest' k' (parts ++ [(UInt32.ofNat parts.length + 1, etag)])
            ((fill h size rest k).1 ++
              .uploadPart uploadId (UInt32.ofNat parts.length + 1) body (.ok etag) :: r.1, r.2) := by
  rw [partLoop]
  split
  · rename_i heq
    rw [heq] at hf
    cases hf
  · rename_i heq
    rw [heq] at hf ⊢
    cases hf
    split
    · rfl
    · cases hu : h.uploads parts.length <;> simp only

/-- Without a failing read or upload the loop sends the pieces of the file, and keeps their ETags. -/
theorem partLoop_sends (uploadId : String) (hreads : ∀ k, ∃ n, h.reads k = .ok n) {tags : ℕ → String}
    (htags : ∀ i, h.uploads i = .ok (tags i)) (hsize : 0 < size) (rest : Bytes) (k : ℕ) (parts : Parts) :
    ∃ bodies, Pieces size rest bodies ∧
      (partLoop h uploadId size rest k parts).1.filterMap Event.part? = numbered parts.length bodies ∧
      (partLoop h uploadId size rest k parts).1.filterMap Event.etag? =
        tagged tags parts.length bodies.length ∧
      (partLoop h uploadId size rest k parts).1.filterMap Event.completion? = [] ∧
      (partLoop h uploadId size rest k parts).2 = .ok (parts ++ tagged tags parts.length bodies.length) := by
  induction rest, k, parts using partLoop.induct h uploadId size with
  | case1 rest k parts read e hf =>
    obtain ⟨x, hx⟩ := fill_succeeds hreads size rest k
    rw [hf] at hx
    cases hx
  | case2 rest k parts read rest' k' hf =>
    have hok : (fill h size rest k).2 = .ok ([], rest', k') := by rw [hf]
    obtain ⟨hcat, -, hshort⟩ := fill_ok hok
    obtain rfl : rest = [] := by rw [← hcat, hshort hsize, List.append_nil]
    refine ⟨[], ⟨rfl, by simp, by simp, by simp⟩, ?_⟩
    rw [partLoop_of_ok hok, if_pos rfl]
    exact ⟨filterMap_fill fun _ ↦ rfl, filterMap_fill fun _ ↦ rfl, filterMap_fill fun _ ↦ rfl,
      by simp [tagged]⟩
  | case3 rest k parts read body rest' k' hf hne e he =>
    rw [htags] at he
    cases he
  | case4 rest k parts read body rest' k' hf hne etag htag hlt =>
    have hok : (fill h size rest k).2 = .ok (body, rest', k') := by rw [hf]
    obtain ⟨hcat, hle, hshort⟩ := fill_ok hok
    obtain rfl : rest = body := by rw [← hcat, hshort hlt, List.append_nil]
    obtain rfl : tags parts.length = etag := Except.ok.inj ((htags _).symm.trans htag)
    refine ⟨[rest], ⟨by simp, by simp, by simpa using hne, by simpa using hle⟩, ?_⟩
    rw [partLoop_of_ok hok, if_neg hne, htag]
    simp only [if_pos hlt, List.filterMap_append]
    rw [filterMap_fill fun _ ↦ rfl, filterMap_fill fun _ ↦ rfl, filterMap_fill fun _ ↦ rfl]
    exact ⟨rfl, rfl, rfl, rfl⟩
  | case5 rest k parts read body rest' k' hf hne number etag htag hlt ih =>
    have hok : (fill h size rest k).2 = .ok (body, rest', k') := by rw [hf]
    obtain ⟨hcat, hle, -⟩ := fill_ok hok
    obtain rfl : tags parts.length = etag := Except.ok.inj ((htags _).symm.trans htag)
    obtain ⟨bodies, hpieces, hnumbered, htagged, hcomplete, hres⟩ := ih
    rw [List.length_append, List.length_singleton] at hnumbered htagged hres
    refine ⟨body :: bodies, hcat ▸ hpieces.cons (by omega) hne, ?_⟩
    rw [partLoop_of_ok hok, if_neg hne, htag]
    simp only [if_neg hlt, List.filterMap_append]
    rw [filterMap_fill fun _ ↦ rfl, filterMap_fill fun _ ↦ rfl, filterMap_fill fun _ ↦ rfl]
    refine ⟨?_, ?_, hcomplete, ?_⟩
    · exact congrArg (List.cons _) hnumbered
    · exact congrArg (List.cons _) htagged
    · rw [hres, List.append_assoc]
      rfl

theorem fill_clean {x : Bytes × Bytes × ℕ} (hok : (fill h size rest k).2 = .ok x) :
    ∀ ev ∈ (fill h size rest k).1, ev.error? = none := by
  intro ev hev
  cases he : ev.error? with
  | none => rfl
  | some e =>
    rw [fill_reports h size rest k ev hev e he] at hok
    cases hok

theorem partLoop_reports (h : Host ε) (uploadId : String) (size : ℕ) (rest : Bytes) (k : ℕ) (parts : Parts) :
    ∀ ev ∈ (partLoop h uploadId size rest k parts).1, ∀ e, ev.error? = some e →
      (partLoop h uploadId size rest k parts).2 = .error e := by
  induction rest, k, parts using partLoop.induct h uploadId size with
  | case1 rest k parts read e hf =>
    have herr : (fill h size rest k).2 = .error e := by rw [hf]
    rw [partLoop_of_error herr]
    intro ev hev e' he
    have hread := fill_reports h size rest k ev hev e' he
    rw [herr] at hread
    rw [Except.error.inj hread]
  | case2 rest k parts read rest' k' hf =>
    have hok : (fill h size rest k).2 = .ok ([], rest', k') := by rw [hf]
    rw [partLoop_of_ok hok, if_pos rfl]
    intro ev hev e he
    rw [fill_clean hok ev hev] at he
    cases he
  | case3 rest k parts read body rest' k' hf hne e he =>
    have hok : (fill h size rest k).2 = .ok (body, rest', k') := by rw [hf]
    rw [partLoop_of_ok hok, if_neg hne, he]
    intro ev hev e' he'
    rcases List.mem_append.mp hev with hev | hev
    · rw [fill_clean hok ev hev] at he'
      cases he'
    · obtain rfl := List.mem_singleton.mp hev
      cases he'
      rfl
  | case4 rest k parts read body rest' k' hf hne etag htag hlt =>
    have hok : (fill h size rest k).2 = .ok (body, rest', k') := by rw [hf]
    rw [partLoop_of_ok hok, if_neg hne, htag]
    simp only [if_pos hlt]
    intro ev hev e he
    rcases List.mem_append.mp hev with hev | hev
    · rw [fill_clean hok ev hev] at he
      cases he
    · obtain rfl := List.mem_singleton.mp hev
      cases he
  | case5 rest k parts read body rest' k' hf hne number etag htag hlt ih =>
    have hok : (fill h size rest k).2 = .ok (body, rest', k') := by rw [hf]
    rw [partLoop_of_ok hok, if_neg hne, htag]
    simp only [if_neg hlt]
    intro ev hev e he
    rcases List.mem_append.mp hev with hev | hev
    · rw [fill_clean hok ev hev] at he
      cases he
    · rcases List.mem_cons.mp hev with rfl | hev
      · cases he
      · exact ih ev hev e he

theorem uploadParts_reports (h : Host ε) (uploadId : String) (size : ℕ) :
    ∀ ev ∈ (uploadParts h uploadId size).1, ∀ e, ev.error? = some e →
      (uploadParts h uploadId size).2 = .error (.step e) := by
  intro ev hev e he
  have hloop := partLoop_reports h uploadId size h.contents 0 []
  unfold uploadParts at hev ⊢
  cases hopen : h.opens with
  | error e' =>
    rw [hopen] at hev
    obtain rfl := List.mem_singleton.mp hev
    cases he
    rfl
  | ok u =>
    rw [hopen] at hev
    cases hres : (partLoop h uploadId size h.contents 0 []).2 with
    | error e' =>
      simp only [hres] at hev ⊢
      rcases List.mem_cons.mp hev with rfl | hev
      · cases he
      · rw [hres] at hloop
        rw [Except.error.inj (hloop ev hev e he)]
    | ok parts =>
      have hclean : ∀ ev ∈ (partLoop h uploadId size h.contents 0 []).1, ev.error? ≠ some e := by
        intro ev hev he
        rw [hloop ev hev e he] at hres
        cases hres
      simp only [hres] at hev ⊢
      split at hev
      · rcases List.mem_cons.mp hev with rfl | hev
        · cases he
        · exact absurd he (hclean ev hev)
      · rename_i hne
        rw [if_neg hne]
        rcases List.mem_append.mp hev with hev | hev
        · rcases List.mem_cons.mp hev with rfl | hev
          · cases he
          · exact absurd he (hclean ev hev)
        · obtain rfl := List.mem_singleton.mp hev
          cases hc : h.completes with
          | error e' =>
            simp only [Event.error?, hc, errorOf, Option.some_inj] at he
            rw [he]
            rfl
          | ok u' =>
            simp only [Event.error?, hc, errorOf] at he
            cases he

end Runs

/-- What is sent is the file: its pieces in order, numbered from one, and a manifest of exactly these
numbers with the ETags that came back. -/
structure SendsFile (size : ℕ) (file : Bytes) (events : List (Event ε)) : Prop where
  pieces : Pieces size file ((events.filterMap Event.part?).map Prod.snd)
  numbers : (events.filterMap Event.part?).map (fun p ↦ p.1.toNat) =
    List.range' 1 (events.filterMap Event.part?).length
  answered : (events.filterMap Event.etag?).map Prod.fst = (events.filterMap Event.part?).map Prod.fst
  manifest : events.filterMap Event.completion? =
    if file = [] then [] else [completionBody (events.filterMap Event.etag?)]

/-- A step that fails is what is returned, and once an upload is open an error comes after an abort. -/
structure Aborts (h : Host ε) (opened : Option String) (r : List (Event ε) × Except (Failure ε) Unit) :
    Prop where
  reports : ∀ ev ∈ r.1, ∀ e, ev.error? = some e → r.2 = .error (.step e)
  aborts : ∀ uploadId ∈ opened, ∀ f, r.2 = .error f → r.1.getLast? = some (.abort uploadId h.aborts)

/-- Every read and every part goes through. -/
structure Host.Serves (h : Host ε) : Prop where
  opens : h.opens = .ok ()
  reads : ∀ k, ∃ n, h.reads k = .ok n
  uploads : ∀ i, ∃ etag, h.uploads i = .ok etag

/-- The upload that `upload_file` opens, if it opens one. -/
def Host.opened (h : Host ε) (len singlePutMax : ℕ) : Option String :=
  if len ≤ singlePutMax then none else h.initiates.toOption

section Files

variable {h : Host ε} {uploadId : String} {len size singlePutMax : ℕ} {file : Bytes} {bodies : List Bytes}

theorem Pieces.length_lt (hp : Pieces size file bodies) (hne : bodies ≠ []) :
    (bodies.length - 1) * size < file.length := by
  have hsplit := List.dropLast_append_getLast hne
  have hconst : bodies.dropLast.map List.length = List.replicate (bodies.length - 1) size := by
    refine List.eq_replicate_iff.mpr ⟨by simp, fun n hn ↦ ?_⟩
    obtain ⟨b, hb, rfl⟩ := List.mem_map.mp hn
    exact hp.full b hb
  have hlast : 0 < (bodies.getLast hne).length :=
    List.length_pos_iff.mpr (hp.nonempty _ (List.getLast_mem hne))
  have hlen : file.length = (bodies.length - 1) * size + (bodies.getLast hne).length := by
    rw [← hp.whole]
    conv_lhs => rw [← hsplit]
    rw [List.flatten_append, List.length_append, List.length_flatten, hconst, List.sum_replicate]
    simp
  omega

theorem Pieces.length_of_one (hp : Pieces 1 file bodies) : bodies.length = file.length := by
  have hconst : bodies.map List.length = List.replicate bodies.length 1 := by
    refine List.eq_replicate_iff.mpr ⟨List.length_map _, fun n hn ↦ ?_⟩
    obtain ⟨b, hb, rfl⟩ := List.mem_map.mp hn
    have hpos := List.length_pos_iff.mpr (hp.nonempty b hb)
    have hle := hp.le b hb
    omega
  rw [← hp.whole, List.length_flatten, hconst, List.sum_replicate]
  simp

theorem length_numbered (start : ℕ) (bodies : List Bytes) :
    (numbered start bodies).length = bodies.length := by
  simp [numbered]

theorem numbered_snd (start : ℕ) (bodies : List Bytes) : (numbered start bodies).map Prod.snd = bodies := by
  simp [numbered, List.map_map, Function.comp_def]

theorem numbered_toNat (hlt : bodies.length < 2 ^ 32) :
    (numbered 0 bodies).map (fun p ↦ p.1.toNat) = List.range' 1 bodies.length := by
  have hnum : (numbered 0 bodies).map (fun p ↦ p.1.toNat) = (bodies.zipIdx 0).map fun b ↦ 1 + b.2 := by
    rw [numbered, List.map_map]
    refine List.map_congr_left fun b hb ↦ ?_
    have hb2 := List.snd_lt_of_mem_zipIdx hb
    simp only [Function.comp_apply, UInt32.toNat_add, UInt32.toNat_ofNat', UInt32.toNat_one]
    omega
  rw [hnum]
  have hcomp : (bodies.zipIdx 0).map (fun b ↦ 1 + b.2) = ((bodies.zipIdx 0).map Prod.snd).map (1 + ·) := by
    rw [List.map_map]
    rfl
  rw [hcomp, List.zipIdx_map_snd, List.map_add_range']

theorem tagged_fst (tags : ℕ → String) (start : ℕ) (bodies : List Bytes) :
    (tagged tags start bodies.length).map Prod.fst = (numbered start bodies).map Prod.fst := by
  have hl : (tagged tags start bodies.length).map Prod.fst =
      (List.range' start bodies.length).map fun i ↦ UInt32.ofNat i + 1 := by
    simp [tagged, List.map_map, Function.comp_def]
  rw [hl, ← List.zipIdx_map_snd start bodies, numbered, List.map_map, List.map_map]
  rfl

/-- What an upload sends when every read and every part goes through. -/
theorem uploadParts_sends (uploadId : String) (hserves : h.Serves) (hsize : 0 < size) :
    ∃ bodies, Pieces size h.contents bodies ∧
      (uploadParts h uploadId size).1.filterMap Event.part? = numbered 0 bodies ∧
      ∃ tags, (uploadParts h uploadId size).1.filterMap Event.etag? = tagged tags 0 bodies.length ∧
        (uploadParts h uploadId size).1.filterMap Event.completion? =
          if h.contents = [] then [] else [completionBody (tagged tags 0 bodies.length)] := by
  obtain ⟨tags, htags⟩ := Classical.axiomOfChoice hserves.uploads
  obtain ⟨bodies, hpieces, hparts, hetags, hcomplete, hres⟩ :=
    partLoop_sends uploadId hserves.reads htags hsize h.contents 0 []
  have hempty : tagged tags 0 bodies.length = [] ↔ h.contents = [] := by
    rw [tagged, List.map_eq_nil_iff, List.range'_eq_nil_iff, List.length_eq_zero_iff]
    constructor
    · rintro rfl
      exact hpieces.whole.symm
    · intro hnil
      by_contra hne
      have hlt := hpieces.length_lt hne
      rw [hnil] at hlt
      exact absurd hlt (Nat.not_lt_zero _)
  refine ⟨bodies, hpieces, ?_⟩
  have hunfold : uploadParts h uploadId size =
      if h.contents = [] then
        (.openFile (.ok ()) :: (partLoop h uploadId size h.contents 0 []).1, .error .emptied)
      else (.openFile (.ok ()) :: (partLoop h uploadId size h.contents 0 []).1 ++
        [.complete uploadId (completionBody (tagged tags 0 bodies.length)) h.completes],
          h.completes.mapError .step) := by
    simp only [uploadParts, hserves.opens, hres, List.nil_append, List.length_nil, hempty]
  rw [hunfold]
  split
  · exact ⟨hparts, tags, hetags, hcomplete⟩
  · refine ⟨?_, tags, ?_, ?_⟩
    · rw [List.filterMap_append]
      exact (List.append_nil _).trans hparts
    · rw [List.filterMap_append]
      exact (List.append_nil _).trans hetags
    · rw [List.filterMap_append]
      exact congrArg (· ++ _) hcomplete

theorem uploadFile_aborts (h : Host ε) (len size singlePutMax : ℕ) :
    Aborts h (h.opened len singlePutMax) (uploadFile h len size singlePutMax) := by
  unfold uploadFile Host.opened
  split
  · refine ⟨?_, by simp⟩
    cases hread : h.readsAll with
    | error e => simp [Event.error?, errorOf]
    | ok u => cases hput : h.puts <;> simp [Event.error?, errorOf, Except.mapError]
  · cases hinit : h.initiates with
    | error e => exact ⟨by simp [Event.error?, errorOf], by simp [Except.toOption]⟩
    | ok uploadId =>
      have hparts := uploadParts_reports h uploadId size
      cases hres : (uploadParts h uploadId size).2 with
      | ok u =>
        simp only [hres]
        refine ⟨fun ev hev e he ↦ ?_, by simp⟩
        rcases List.mem_cons.mp hev with rfl | hev
        · cases he
        · rw [hparts ev hev e he] at hres
          cases hres
      | error f =>
        simp only [hres]
        refine ⟨fun ev hev e he ↦ ?_, fun uploadId' hopened _ _ ↦ ?_⟩
        · rcases List.mem_append.mp hev with hev | hev
          · rcases List.mem_cons.mp hev with rfl | hev
            · cases he
            · rw [← hres]
              exact hparts ev hev e he
          · obtain rfl := List.mem_singleton.mp hev
            cases he
        · obtain rfl : uploadId = uploadId' := by simpa [Except.toOption] using hopened
          rw [List.getLast?_concat]

/-- As long as the part numbers fit in 32 bits, `upload_parts` sends exactly the file; and whatever
fails, `upload_file` returns it, after aborting the upload if it had opened one. -/
theorem upload_exact_or_aborted (h : Host ε) (uploadId : String) (len size singlePutMax : ℕ) :
    (h.Serves → 0 < size → h.contents.length ≤ (2 ^ 32 - 1) * size →
      SendsFile size h.contents (uploadParts h uploadId size).1) ∧
    Aborts h (h.opened len singlePutMax) (uploadFile h len size singlePutMax) := by
  refine ⟨fun hserves hsize hfit ↦ ?_, uploadFile_aborts h len size singlePutMax⟩
  obtain ⟨bodies, hpieces, hparts, tags, hetags, hcomplete⟩ :=
    uploadParts_sends uploadId hserves hsize
  have hlt : bodies.length < 2 ^ 32 := by
    by_cases hne : bodies = []
    · rw [hne]
      decide
    · have hmul := (hpieces.length_lt hne).trans_le hfit
      have := Nat.lt_of_mul_lt_mul_right hmul
      omega
  constructor
  · rw [hparts, numbered_snd]
    exact hpieces
  · rw [hparts, length_numbered]
    exact numbered_toNat hlt
  · rw [hetags, hparts, tagged_fst]
  · rw [hcomplete, hetags]

end Files

def goodHost (contents : Bytes) : Host Unit where
  contents
  readsAll := .ok ()
  puts := .ok ()
  initiates := .ok "UP123"
  opens := .ok ()
  reads _ := .ok 3
  uploads _ := .ok "etag"
  completes := .ok ()
  aborts := .ok ()

theorem goodHost_serves (contents : Bytes) : (goodHost contents).Serves :=
  ⟨rfl, fun _ ↦ ⟨3, rfl⟩, fun _ ↦ ⟨"etag", rfl⟩⟩

/-- Ten bytes in parts of four, read three at a time. -/
theorem upload_exact_or_aborted_short_reads :
    SendsFile 4 [1, 2, 3, 4, 5, 6, 7, 8, 9, 10]
      (uploadParts (goodHost [1, 2, 3, 4, 5, 6, 7, 8, 9, 10]) "UP123" 4).1 :=
  (upload_exact_or_aborted (goodHost [1, 2, 3, 4, 5, 6, 7, 8, 9, 10]) "UP123" 10 4 64).1 (goodHost_serves _)
    (by decide) (by decide)

theorem numbered_wraps {bodies : List Bytes} (hlen : bodies.length = 2 ^ 32) :
    (numbered 0 bodies).map (fun p ↦ p.1.toNat) ≠ List.range' 1 bodies.length := by
  intro h
  obtain ⟨k, hk⟩ : ∃ k, k + 1 = 2 ^ 32 := ⟨2 ^ 32 - 1, rfl⟩
  have hlt : k < bodies.length := by omega
  have hlast := congrArg (fun l : List ℕ ↦ l[k]?) h
  simp only [numbered, List.map_map, List.getElem?_map, List.getElem?_zipIdx,
    List.getElem?_eq_getElem hlt, List.getElem?_range' hlt, Option.map_some, Function.comp_apply,
    UInt32.toNat_add, UInt32.toNat_ofNat', UInt32.toNat_one, Option.some_inj] at hlast
  omega

theorem part_numbers_wrap {contents : Bytes} (hlen : contents.length = 2 ^ 32) :
    ¬ SendsFile 1 contents (uploadParts (goodHost contents) "UP123" 1).1 := by
  intro hsends
  obtain ⟨bodies, hpieces, hparts, -⟩ :=
    uploadParts_sends "UP123" (goodHost_serves contents) Nat.one_pos
  have hnumbers := hsends.numbers
  rw [hparts, length_numbered] at hnumbers
  exact numbered_wraps (hpieces.length_of_one.trans hlen) hnumbers

theorem exists_bytes (n : ℕ) : ∃ contents : Bytes, contents.length = n :=
  ⟨List.replicate n 0, List.length_replicate⟩

/-- Where the multipart upload cannot even be initiated nothing is aborted; and the number of the
2³²-th part is 0. -/
theorem upload_without_abort :
    (∃ (h : Host Unit) (len size singlePutMax : ℕ),
      (uploadFile h len size singlePutMax).2 = .error (.step ()) ∧
        ∀ ev ∈ (uploadFile h len size singlePutMax).1, ∀ id r, ev ≠ .abort id r) ∧
    ∃ h : Host Unit, h.Serves ∧ ¬ SendsFile 1 h.contents (uploadParts h "UP123" 1).1 := by
  refine ⟨⟨{ goodHost [] with initiates := .error () }, 5, 1, 4, by decide, ?_⟩, ?_⟩
  · simp [uploadFile]
  · obtain ⟨contents, hlen⟩ := exists_bytes (2 ^ 32)
    exact ⟨goodHost contents, goodHost_serves contents, part_numbers_wrap hlen⟩

end PgVmPool.Upload
