import Mathlib

namespace HostPath

inductive Component
  | rootDir | curDir | parentDir
  | normal (name : List Char)
  deriving DecidableEq

def segment (seg : List Char) : Option Component :=
  if seg = [] ∨ seg = ['.'] then none
  else if seg = ['.', '.'] then some .parentDir
  else some (.normal seg)

/-- What the first of several segments says about the whole path. -/
def anchor (segs : List (List Char)) : List Component :=
  if segs.head? = some ['.'] then [.curDir]
  else if segs.head? = some [] ∧ 1 < segs.length then [.rootDir]
  else []

/-- `Path::components`: repeated separators and inner `.` segments are dropped, `..` is kept. -/
def components (path : List Char) : List Component :=
  let segs := path.splitOn '/'
  anchor segs ++ segs.filterMap segment

/-- `Path::join`: an absolute path replaces what it is joined to. -/
def join (dir path : List Char) : List Char :=
  if path.head? = some '/' then path
  else if dir = [] ∨ dir.getLast? = some '/' then dir ++ path
  else dir ++ '/' :: path

def DirectChild (dir path : List Char) : Prop :=
  ∃ name, components path = components dir ++ [.normal name]

/-- `Path::file_stem` of a file name: all of it when its only dot comes first. -/
def fileStem (name : List Char) : List Char :=
  match name.reverse.dropWhile (· ≠ '.') with
  | _ :: c :: stem => (c :: stem).reverse
  | _ => name

/-- `Path::with_extension`. -/
def withExtension (path ext : List Char) : List Char :=
  match (path.splitOn '/').reverse.dropWhile (fun seg ↦ seg = [] ∨ seg = ['.']) with
  | [] => path
  | name :: dirs =>
    if name = ['.', '.'] then path
    else
      let name := fileStem name ++ if ext = [] then [] else '.' :: ext
      ['/'].intercalate (name :: dirs).reverse

def folder (path : List Char) : List (List Char) := (path.splitOn '/').dropLast

def leaf (path : List Char) : List Char :=
  (path.splitOn '/').getLast (List.splitOn_ne_nil '/' path)

theorem last_slash (path : List Char) :
    '/' ∉ path ∨ ∃ pre post, path = pre ++ '/' :: post ∧ '/' ∉ post := by
  by_cases h : '/' ∈ path
  · right
    obtain ⟨post, pre, he, hn⟩ := List.eq_append_cons_of_mem (List.mem_reverse.mpr h)
    refine ⟨pre.reverse, post.reverse, ?_, by simpa using hn⟩
    rw [← List.reverse_reverse path, he]
    simp
  · exact .inl h

theorem folder_of_notMem {path : List Char} (h : '/' ∉ path) : folder path = [] := by
  rw [folder, List.splitOn_eq_singleton h]
  rfl

theorem leaf_of_notMem {path : List Char} (h : '/' ∉ path) : leaf path = path := by
  simp only [leaf, List.splitOn_eq_singleton h, List.getLast_singleton]

theorem folder_append_slash {pre post : List Char} (h : '/' ∉ post) :
    folder (pre ++ '/' :: post) = pre.splitOn '/' := by
  rw [folder, List.splitOn_append_cons_self, List.splitOn_eq_singleton h, List.dropLast_concat]

theorem leaf_append_slash {pre post : List Char} (h : '/' ∉ post) :
    leaf (pre ++ '/' :: post) = post := by
  simp only [leaf, List.splitOn_append_cons_self, List.splitOn_eq_singleton h,
    List.getLast_append_singleton]

theorem splitOn_append {path tail : List Char} (ht : '/' ∉ tail) :
    (path ++ tail).splitOn '/' = folder path ++ [leaf path ++ tail] := by
  obtain h | ⟨pre, post, rfl, h⟩ := last_slash path
  · rw [folder_of_notMem h, leaf_of_notMem h, List.splitOn_eq_singleton (by simp [h, ht])]
    rfl
  · have hp : '/' ∉ post ++ tail := by simp [h, ht]
    rw [folder_append_slash h, leaf_append_slash h, List.append_assoc, List.cons_append,
      List.splitOn_append_cons_self, List.splitOn_eq_singleton hp]

theorem anchor_append {segs : List (List Char)} (h : segs ≠ []) (x y : List Char)
    (xs ys : List (List Char)) : anchor (segs ++ x :: xs) = anchor (segs ++ y :: ys) := by
  obtain ⟨seg, rest, rfl⟩ := List.exists_cons_of_ne_nil h
  have hlen : ∀ z zs, 1 < (seg :: rest ++ z :: zs).length := by
    intro z zs
    simp only [List.length_append, List.length_cons]
    omega
  simp only [anchor, List.cons_append, List.head?_cons]
  have h1 := hlen x xs
  have h2 := hlen y ys
  simp only [List.cons_append] at h1 h2
  simp only [h1, h2]

theorem anchor_append_of_ne {segs : List (List Char)} (h : segs ≠ []) (h' : segs ≠ [[]])
    (xs : List (List Char)) : anchor (segs ++ xs) = anchor segs := by
  obtain ⟨seg, rest, rfl⟩ := List.exists_cons_of_ne_nil h
  have hroot : seg = [] → 1 < (seg :: rest).length := by
    rintro rfl
    cases rest with
    | nil => exact absurd rfl h'
    | cons => simp
  have hmore : seg = [] → 1 < (seg :: rest ++ xs).length := by
    intro hs
    have := hroot hs
    simp only [List.length_append]
    omega
  have he : (seg = [] ∧ 1 < (seg :: (rest ++ xs)).length) ↔ (seg = [] ∧ 1 < (seg :: rest).length) :=
    and_congr_right fun hs ↦ iff_of_true (hmore hs) (hroot hs)
  simp only [anchor, List.cons_append, List.head?_cons, Option.some_inj, he]

theorem splitOn_ne_singleton_nil {path : List Char} (h : path ≠ []) :
    path.splitOn '/' ≠ [[]] := by
  intro hs
  apply h
  have hpath : ['/'].intercalate (path.splitOn '/') = path := List.intercalate_splitOn '/'
  rw [← hpath, hs]
  rfl

theorem components_join {dir path : List Char} (hd : dir ≠ []) (hp : path.head? ≠ some '/') :
    components (join dir path) = components dir ++ (path.splitOn '/').filterMap segment := by
  simp only [join, if_neg hp]
  obtain ⟨seg, segs, hs⟩ := List.exists_cons_of_ne_nil (List.splitOn_ne_nil '/' path)
  by_cases hl : dir.getLast? = some '/'
  · obtain ⟨pre, rfl⟩ := List.getLast?_eq_some_iff.mp hl
    rw [if_pos (.inr hl), List.append_assoc, List.singleton_append]
    simp only [components, List.splitOn_append_cons_self, List.splitOn_nil, hs,
      List.filterMap_append, List.append_assoc]
    rw [anchor_append (List.splitOn_ne_nil '/' pre) seg [] segs []]
    rfl
  · rw [if_neg (by simp [hd, hl])]
    simp only [components, List.splitOn_append_cons_self, List.filterMap_append,
      List.append_assoc,
      anchor_append_of_ne (List.splitOn_ne_nil '/' dir) (splitOn_ne_singleton_nil hd)]

theorem join_append {dir path : List Char} (hp : path ≠ []) (tail : List Char) :
    join dir (path ++ tail) = join dir path ++ tail := by
  have hhead : (path ++ tail).head? = path.head? := List.head?_append_of_ne_nil _ hp
  simp only [join, hhead]
  split_ifs
  · rfl
  · rw [List.append_assoc]
  · rw [List.append_assoc, List.cons_append]

theorem join_ne_nil {dir path : List Char} (hp : path ≠ []) : join dir path ≠ [] := by
  simp only [join]
  split_ifs <;> simp [hp]

theorem getLast?_join {dir path : List Char} (hp : path ≠ []) :
    (join dir path).getLast? = path.getLast? := by
  obtain ⟨c, cs, rfl⟩ := List.exists_cons_of_ne_nil hp
  simp only [join]
  split_ifs
  · rfl
  · rw [List.getLast?_append_of_ne_nil _ hp]
  · rw [List.getLast?_append_of_ne_nil _ (by simp), List.getLast?_cons_cons]

theorem components_absolute {path : List Char} (h : path.head? = some '/') :
    components path = .rootDir :: (path.splitOn '/').filterMap segment := by
  obtain ⟨rest, rfl⟩ : ∃ rest, path = '/' :: rest := List.head?_eq_some_iff.mp h
  have hs := List.splitOn_append_cons_self (a := '/') [] rest
  rw [List.nil_append, List.splitOn_nil] at hs
  obtain ⟨seg, segs, hr⟩ := List.exists_cons_of_ne_nil (List.splitOn_ne_nil '/' rest)
  simp only [components, hs, hr, List.singleton_append]
  simp [anchor, segment]

theorem segment_of_length {seg : List Char} (h : 2 < seg.length) :
    segment seg = some (.normal seg) := by
  have h1 : ¬(seg = [] ∨ seg = ['.']) := by rintro (rfl | rfl) <;> simp at h
  have h2 : seg ≠ ['.', '.'] := by rintro rfl; simp at h
  rw [segment, if_neg h1, if_neg h2]

theorem fileStem_append_dot {stem ext : List Char} (hs : stem ≠ []) (he : '.' ∉ ext) :
    fileStem (stem ++ '.' :: ext) = stem := by
  have hd : (stem ++ '.' :: ext).reverse.dropWhile (· ≠ '.') = '.' :: stem.reverse := by
    rw [List.reverse_append, List.reverse_cons, List.append_assoc, List.singleton_append,
      List.dropWhile_append_of_pos]
    · rfl
    · intro c hc
      have hne : c ≠ '.' := by
        rintro rfl
        exact he (List.mem_reverse.mp hc)
      simpa using hne
  obtain ⟨c, cs, hc⟩ := List.exists_cons_of_ne_nil (mt List.reverse_eq_nil_iff.mp hs)
  rw [fileStem, hd, hc]
  exact List.reverse_eq_iff.mpr hc.symm

/-- A path that ends in a named extension only has that extension replaced. -/
theorem withExtension_append {path old new : List Char} (hp : path ≠ [])
    (hl : path.getLast? ≠ some '/') (hold : old ≠ []) (hd : '.' ∉ old) (hs : '/' ∉ old)
    (hnew : new ≠ []) (hsn : '/' ∉ new) :
    withExtension (path ++ '.' :: old) new = path ++ '.' :: new := by
  have ht : '/' ∉ '.' :: old := by simp [hs]
  have hleaf : leaf path ≠ [] := by
    obtain h | ⟨pre, post, rfl, h⟩ := last_slash path
    · rwa [leaf_of_notMem h]
    · rw [leaf_append_slash h]
      rintro rfl
      simp at hl
  have hlong : 2 < (leaf path ++ '.' :: old).length := by
    have h1 := List.length_pos_iff.mpr hleaf
    have h2 := List.length_pos_iff.mpr hold
    simp only [List.length_append, List.length_cons]
    omega
  have hkeep : ¬(leaf path ++ '.' :: old = [] ∨ leaf path ++ '.' :: old = ['.']) := by
    rintro (h | h) <;> simp [h] at hlong
  have hdots : leaf path ++ '.' :: old ≠ ['.', '.'] := by
    intro h
    simp [h] at hlong
  have hdrop : ((path ++ '.' :: old).splitOn '/').reverse.dropWhile
      (fun seg ↦ seg = [] ∨ seg = ['.']) = (leaf path ++ '.' :: old) :: (folder path).reverse := by
    rw [splitOn_append ht, List.reverse_append, List.reverse_singleton, List.singleton_append,
      List.dropWhile_cons_of_neg (by simpa using hkeep)]
  rw [withExtension, hdrop]
  have hn : '/' ∉ '.' :: new := by simp [hsn]
  simp only [if_neg hdots, fileStem_append_dot hleaf hd, if_neg hnew, List.reverse_cons,
    List.reverse_reverse]
  rw [← splitOn_append hn, List.intercalate_splitOn]

end HostPath
