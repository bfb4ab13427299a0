import PgVmPool.HostPath

namespace PgVmPool

open HostPath

/-- `char::is_control`: Unicode's category `Cc`. -/
def isControl (c : Char) : Bool := c.val ≤ 0x1f || (0x7f ≤ c.val && c.val ≤ 0x9f)

def isValidSchema (s : String) : Bool :=
  s ≠ "" && s.utf8ByteSize ≤ 63 && s.toList.all (fun c ↦ !isControl c)

structure ClientSchema where
  text : String
  valid : isValidSchema text = true
  deriving DecidableEq

/-- A configured directory: an empty setting falls back to its default. -/
structure HostDir where
  path : List Char
  nonempty : path ≠ []

structure HostDirs where
  compactDir : HostDir
  spoolDir : HostDir
  runDir : HostDir
  dumpDir : HostDir

namespace HostDirs

variable (d : HostDirs) (schema : ClientSchema)

def compactPath : List Char := join d.compactDir.path (schema.text ++ ".img.zst").toList

def compactTmp : List Char := join d.compactDir.path (schema.text ++ ".img.zst.tmp").toList

def spool : List Char := join d.spoolDir.path (schema.text ++ ".img.zst").toList

def scratch : List Char := join d.runDir.path ".pg-vm-pool-restore".toList

def scratchZst : List Char := join d.scratch (schema.text ++ ".img.zst").toList

def scratchRaw : List Char := join d.scratch (schema.text ++ ".ext4").toList

def dumpPath : List Char := join d.dumpDir.path (schema.text ++ ".dump").toList

def tmpPath : List Char := withExtension (d.dumpPath schema) "dump.tmp".toList

end HostDirs

/-- The path gate of `DumpServer::issue`: no upload token, so no temp file, without it. -/
def issueAccepts (schema : ClientSchema) : Bool :=
  !schema.text.toList.any (fun c ↦ c = '/' || c = '\\')

/-- Each path with the directory it is meant for. Restore and promotion read the dump's path
before any token is issued. -/
def hostPaths (d : HostDirs) (schema : ClientSchema) : List (List Char × List Char) :=
  [(d.compactDir.path, d.compactPath schema), (d.compactDir.path, d.compactTmp schema),
    (d.spoolDir.path, d.spool schema), (d.scratch, d.scratchZst schema),
    (d.scratch, d.scratchRaw schema), (d.dumpDir.path, d.dumpPath schema)] ++
  if issueAccepts schema then [(d.dumpDir.path, d.tmpPath schema)] else []

/-- What the offload and restore code may assume of the schemas `S` that clients name. -/
structure Confined (d : HostDirs) (S : Set ClientSchema) : Prop where
  child : ∀ s ∈ S, ∀ p ∈ hostPaths d s, DirectChild p.1 p.2
  apart : ∀ s ∈ S, ∀ t ∈ S, s ≠ t → ∀ p ∈ hostPaths d s, ∀ q ∈ hostPaths d t,
    components p.2 ≠ components q.2

def suffixes : List (List Char) :=
  [".img.zst".toList, ".img.zst.tmp".toList, ".ext4".toList, ".dump".toList, ".dump.tmp".toList]

/-- What precedes the last separator of the name leads nowhere from `dir`: it is nothing but
`.` segments, or the absolute path of `dir` itself. -/
def StaysIn (dir : List Char) (schema : ClientSchema) : Prop :=
  if schema.text.toList.head? = some '/' then
    .rootDir :: (folder schema.text.toList).filterMap segment = components dir
  else (folder schema.text.toList).filterMap segment = []

def HostDirs.all (d : HostDirs) : List (List Char) :=
  [d.compactDir.path, d.spoolDir.path, d.scratch, d.dumpDir.path]

namespace ClientSchema

theorem toList_ne_nil (s : ClientSchema) : s.text.toList ≠ [] := by
  have h := s.valid
  simp only [isValidSchema, Bool.and_eq_true, decide_eq_true_eq] at h
  simpa using h.1.1

def name (s : ClientSchema) : List Char := leaf s.text.toList

end ClientSchema

theorem suffix_noSlash {suf : List Char} (h : suf ∈ suffixes) : '/' ∉ suf := by
  revert suf
  decide

theorem suffix_length {suf : List Char} (h : suf ∈ suffixes) : 2 < suf.length := by
  revert suf
  decide

theorem suffix_eq_of_suffix : ∀ x ∈ suffixes, ∀ y ∈ suffixes, x <:+ y → x = y := by decide

/-- No file name of one kind is a file name of another kind. -/
theorem suffix_inj {a b x y : List Char} (hx : x ∈ suffixes) (hy : y ∈ suffixes)
    (h : a ++ x = b ++ y) : x = y ∧ a = b := by
  have hxs : x <:+ b ++ y := ⟨a, h⟩
  have hxy : x = y := by
    rcases List.suffix_or_suffix_of_suffix hxs (List.suffix_append b y) with hle | hle
    · exact suffix_eq_of_suffix x hx y hy hle
    · exact (suffix_eq_of_suffix y hy x hx hle).symm
  subst hxy
  exact ⟨rfl, List.append_cancel_right h⟩

theorem components_site {dir : List Char} (hd : dir ≠ []) (s : ClientSchema) {suf : List Char}
    (hs : suf ∈ suffixes) :
    components (join dir (s.text.toList ++ suf)) =
      (if s.text.toList.head? = some '/' then [.rootDir] else components dir) ++
        (folder s.text.toList).filterMap segment ++ [.normal (s.name ++ suf)] := by
  have hseg : segment (s.name ++ suf) = some (.normal (s.name ++ suf)) :=
    segment_of_length (by have := suffix_length hs; simp only [List.length_append]; omega)
  have hhead : (s.text.toList ++ suf).head? = s.text.toList.head? :=
    List.head?_append_of_ne_nil _ s.toList_ne_nil
  have hmap : ((s.text.toList ++ suf).splitOn '/').filterMap segment =
      (folder s.text.toList).filterMap segment ++ [.normal (s.name ++ suf)] := by
    rw [splitOn_append (suffix_noSlash hs), List.filterMap_append]
    exact congrArg _ (List.filterMap_cons_some hseg)
  by_cases ha : s.text.toList.head? = some '/'
  · rw [join, if_pos (hhead.trans ha), components_absolute (hhead.trans ha), if_pos ha, hmap]
    rfl
  · rw [components_join hd (by rwa [hhead]), if_neg ha, hmap, List.append_assoc]

theorem directChild_site {dir : List Char} (hd : dir ≠ []) (s : ClientSchema) {suf : List Char}
    (hs : suf ∈ suffixes) :
    DirectChild dir (join dir (s.text.toList ++ suf)) ↔ StaysIn dir s := by
  rw [DirectChild, components_site hd s hs, StaysIn]
  by_cases ha : s.text.toList.head? = some '/'
  · simp only [if_pos ha]
    constructor
    · rintro ⟨name, h⟩
      exact (List.append_inj' h rfl).1
    · intro h
      exact ⟨_, congrArg (· ++ _) h⟩
  · simp only [if_neg ha]
    constructor
    · rintro ⟨name, h⟩
      exact List.append_right_eq_self.mp (List.append_inj' h rfl).1
    · intro h
      exact ⟨s.name ++ suf, by rw [h, List.append_nil]⟩

theorem components_of_staysIn {dir : List Char} (hd : dir ≠ []) {s : ClientSchema}
    (h : StaysIn dir s) {suf : List Char} (hs : suf ∈ suffixes) :
    components (join dir (s.text.toList ++ suf)) = components dir ++ [.normal (s.name ++ suf)] := by
  rw [components_site hd s hs]
  rw [StaysIn] at h
  split_ifs at h ⊢ with ha
  · exact congrArg (· ++ _) h
  · rw [h, List.append_nil]

theorem noSlash_of_issueAccepts {s : ClientSchema} (h : issueAccepts s = true) :
    '/' ∉ s.text.toList := by
  intro hm
  simp only [issueAccepts, Bool.not_eq_true', List.any_eq_false] at h
  exact h '/' hm (by decide)

theorem tmpPath_eq (d : HostDirs) {s : ClientSchema} (h : issueAccepts s = true) :
    d.tmpPath s = join d.dumpDir.path (s.text.toList ++ ".dump.tmp".toList) := by
  have hs := s.toList_ne_nil
  have hlast : (join d.dumpDir.path s.text.toList).getLast? ≠ some '/' := by
    rw [getLast?_join hs]
    exact fun hl ↦ noSlash_of_issueAccepts h (List.mem_of_getLast? hl)
  rw [HostDirs.tmpPath, HostDirs.dumpPath, String.toList_append, join_append hs, join_append hs]
  exact withExtension_append (join_ne_nil hs) hlast (by decide) (by decide) (by decide) (by decide)
    (by decide)

theorem scratch_ne_nil (d : HostDirs) : d.scratch ≠ [] := join_ne_nil (by decide)

theorem HostDirs.ne_nil (d : HostDirs) {dir : List Char} (h : dir ∈ d.all) : dir ≠ [] := by
  simp only [HostDirs.all, List.mem_cons, List.not_mem_nil, or_false] at h
  rcases h with rfl | rfl | rfl | rfl
  · exact d.compactDir.nonempty
  · exact d.spoolDir.nonempty
  · exact scratch_ne_nil d
  · exact d.dumpDir.nonempty

theorem mem_hostPaths {d : HostDirs} {s : ClientSchema} {p : List Char × List Char}
    (h : p ∈ hostPaths d s) :
    p.1 ∈ d.all ∧ ∃ suf ∈ suffixes, p.2 = join p.1 (s.text.toList ++ suf) := by
  have site : ∀ dir ∈ d.all, ∀ suf : String, suf.toList ∈ suffixes → dir ∈ d.all ∧
      ∃ x ∈ suffixes, join dir (s.text ++ suf).toList = join dir (s.text.toList ++ x) :=
    fun dir hdir suf hsuf ↦ ⟨hdir, suf.toList, hsuf, congrArg _ String.toList_append⟩
  simp only [hostPaths, List.mem_append, List.mem_cons, List.not_mem_nil, or_false] at h
  rcases h with (rfl | rfl | rfl | rfl | rfl | rfl) | h
  · exact site _ (by simp [HostDirs.all]) ".img.zst" (by simp [suffixes])
  · exact site _ (by simp [HostDirs.all]) ".img.zst.tmp" (by simp [suffixes])
  · exact site _ (by simp [HostDirs.all]) ".img.zst" (by simp [suffixes])
  · exact site _ (by simp [HostDirs.all]) ".img.zst" (by simp [suffixes])
  · exact site _ (by simp [HostDirs.all]) ".ext4" (by simp [suffixes])
  · exact site _ (by simp [HostDirs.all]) ".dump" (by simp [suffixes])
  · split_ifs at h with hi
    · obtain rfl := List.mem_singleton.mp h
      exact ⟨by simp [HostDirs.all], _, by simp [suffixes], tmpPath_eq d hi⟩
    · cases h

theorem exists_hostPath (d : HostDirs) (s : ClientSchema) {dir : List Char} (h : dir ∈ d.all) :
    ∃ suf ∈ suffixes, (dir, join dir (s.text.toList ++ suf)) ∈ hostPaths d s := by
  simp only [HostDirs.all, List.mem_cons, List.not_mem_nil, or_false] at h
  rcases h with rfl | rfl | rfl | rfl
  · exact ⟨".img.zst".toList, by simp [suffixes],
      by simp [hostPaths, HostDirs.compactPath, String.toList_append]⟩
  · exact ⟨".img.zst".toList, by simp [suffixes],
      by simp [hostPaths, HostDirs.spool, String.toList_append]⟩
  · exact ⟨".ext4".toList, by simp [suffixes],
      by simp [hostPaths, HostDirs.scratchRaw, String.toList_append]⟩
  · exact ⟨".dump".toList, by simp [suffixes],
      by simp [hostPaths, HostDirs.dumpPath, String.toList_append]⟩

theorem children_iff (d : HostDirs) (s : ClientSchema) :
    (∀ p ∈ hostPaths d s, DirectChild p.1 p.2) ↔ ∀ dir ∈ d.all, StaysIn dir s := by
  constructor
  · intro h dir hdir
    obtain ⟨suf, hsuf, hp⟩ := exists_hostPath d s hdir
    exact (directChild_site (d.ne_nil hdir) s hsuf).mp (h _ hp)
  · intro h p hp
    obtain ⟨hdir, suf, hsuf, he⟩ := mem_hostPaths hp
    rw [he]
    exact (directChild_site (d.ne_nil hdir) s hsuf).mpr (h _ hdir)

/-- Names that stay in the directories share a path exactly when they share their last segment. -/
theorem apart_iff {d : HostDirs} {s t : ClientSchema} (hs : ∀ dir ∈ d.all, StaysIn dir s)
    (ht : ∀ dir ∈ d.all, StaysIn dir t) :
    (∀ p ∈ hostPaths d s, ∀ q ∈ hostPaths d t, components p.2 ≠ components q.2) ↔
      s.name ≠ t.name := by
  constructor
  · intro h hn
    have hdir : d.compactDir.path ∈ d.all := by simp [HostDirs.all]
    have hsuf : ".img.zst".toList ∈ suffixes := by simp [suffixes]
    refine h (d.compactDir.path, d.compactPath s) (by simp [hostPaths])
      (d.compactDir.path, d.compactPath t) (by simp [hostPaths]) ?_
    simp only [HostDirs.compactPath, String.toList_append]
    rw [components_of_staysIn (d.ne_nil hdir) (hs _ hdir) hsuf,
      components_of_staysIn (d.ne_nil hdir) (ht _ hdir) hsuf, hn]
  · intro hn p hp q hq he
    obtain ⟨hpd, x, hx, hpe⟩ := mem_hostPaths hp
    obtain ⟨hqd, y, hy, hqe⟩ := mem_hostPaths hq
    rw [hpe, hqe, components_of_staysIn (d.ne_nil hpd) (hs _ hpd) hx,
      components_of_staysIn (d.ne_nil hqd) (ht _ hqd) hy] at he
    have hlast := (List.append_inj' he rfl).2
    simp only [List.cons.injEq, Component.normal.injEq, and_true] at hlast
    exact hn (suffix_inj hx hy hlast).2

/-- The schemas in use are confined and kept apart on the host exactly when none of their names
leads out of a configured directory and no two of them end alike. -/
theorem schema_paths_confined (d : HostDirs) (S : Set ClientSchema) :
    Confined d S ↔ (∀ s ∈ S, ∀ dir ∈ d.all, StaysIn dir s) ∧
      ∀ s ∈ S, ∀ t ∈ S, s ≠ t → s.name ≠ t.name := by
  constructor
  · intro h
    have hstay : ∀ s ∈ S, ∀ dir ∈ d.all, StaysIn dir s :=
      fun s hs ↦ (children_iff d s).mp (h.child s hs)
    exact ⟨hstay, fun s hs t ht hne ↦
      (apart_iff (hstay s hs) (hstay t ht)).mp (h.apart s hs t ht hne)⟩
  · rintro ⟨hstay, hname⟩
    exact ⟨fun s hs ↦ (children_iff d s).mpr (hstay s hs), fun s hs t ht hne ↦
      (apart_iff (hstay s hs) (hstay t ht)).mpr (hname s hs t ht hne)⟩

theorem staysIn_of_noSlash {s : ClientSchema} (h : '/' ∉ s.text.toList) (dir : List Char) :
    StaysIn dir s := by
  have hhead : s.text.toList.head? ≠ some '/' := fun hh ↦ h (List.mem_of_mem_head? hh)
  rw [StaysIn, if_neg hhead, folder_of_notMem h]
  rfl

/-- Behind the gate of `issue` the names are confined. -/
theorem confined_of_noSlash (d : HostDirs) {S : Set ClientSchema}
    (h : ∀ s ∈ S, '/' ∉ s.text.toList) : Confined d S := by
  refine (schema_paths_confined d S).mpr ⟨fun s hs dir _ ↦ staysIn_of_noSlash (h s hs) dir, ?_⟩
  intro s hs t ht hne hn
  rw [ClientSchema.name, ClientSchema.name, leaf_of_notMem (h s hs), leaf_of_notMem (h t ht)] at hn
  cases s
  cases t
  obtain rfl := String.toList_inj.mp hn
  exact hne rfl

def dirs : HostDirs where
  compactDir := ⟨"/pool/compact".toList, by decide⟩
  spoolDir := ⟨"/pool/spool".toList, by decide⟩
  runDir := ⟨"/run/heyvm".toList, by decide⟩
  dumpDir := ⟨"/pool/dumps".toList, by decide⟩

def climbing : ClientSchema := ⟨"../spool/x", by decide⟩
def absolute : ClientSchema := ⟨"/etc/x", by decide⟩
def plainX : ClientSchema := ⟨"x", by decide⟩
def dottedX : ClientSchema := ⟨"./x", by decide⟩

/-- A name that climbs from the compact directory into the spool, an absolute one that ignores
the scratch directory, and two names with one image. -/
theorem schema_paths_escape :
    ¬DirectChild dirs.compactDir.path (dirs.compactPath climbing) ∧
      dirs.scratchRaw absolute = "/etc/x.ext4".toList ∧
      components (dirs.compactPath dottedX) = components (dirs.compactPath plainX) ∧
      ¬Confined dirs Set.univ := by
  have hout : ¬DirectChild dirs.compactDir.path (dirs.compactPath climbing) := by
    intro h
    have hstay : StaysIn dirs.compactDir.path climbing := by
      have hsuf : ".img.zst".toList ∈ suffixes := by simp [suffixes]
      exact (directChild_site (by decide) climbing hsuf).mp h
    revert hstay
    unfold StaysIn
    decide
  refine ⟨hout, by decide, by decide, fun h ↦ hout ?_⟩
  exact h.child climbing trivial (dirs.compactDir.path, dirs.compactPath climbing)
    (by simp [hostPaths])

end PgVmPool
