import Ips.SpecFile
import Ips.TreeWalk
import Ips.Workspace

/-!
# Where packaging reads

The entries of the list are read relative to the proto area.  Only one leading
slash is taken off an entry, so an entry with two of them is read from the
root, and nothing is done about parent directories.  Here the paths are
resolved lexically, and compared with the proto area.
-/

namespace Ips

open TreeWalk

/-- The parts of a path as moves: empty parts and single dots stay where they
are. -/
def moves (path : Text) : List (Move Text) :=
  (splitAt '/' path).filterMap fun part =>
    if part = [] ∨ part = ".".toList then none
    else if part = "..".toList then some .up
    else some (.down part)

/-- What a path names, seen from a directory. -/
def resolve (dir : List Text) (path : Text) : List Text :=
  walk (if path.head? = some '/' then [] else dir) (moves path)

/-- The path lies inside the directory, and it is the rest of an entry that
has no parent directories behind its slashes. -/
structure ReadsInside (dir : List Text) (entry path : Text) : Prop where
  inside : dir <+: resolve dir path
  joined : ∀ n rel, 0 < n → entry = List.replicate n '/' ++ rel →
    rel.head? ≠ some '/' → Move.up ∉ moves rel →
      resolve dir path = resolve dir rel

/-- An entry with one leading slash or none may climb out of the directory only
to spell its names again; one with more is right only by accident. -/
def StaysInside (dir : List Text) (entry : Text) : Prop :=
  if "//".toList <+: entry then
    dir = [] ∨ (Move.up ∈ moves entry ∧ dir <+: (trace (moves entry)).names)
  else
    dir.drop (dir.length - (trace (moves entry)).climbed) <+:
      (trace (moves entry)).names

/-! ## One entry -/

theorem moves_slash (path : Text) : moves ('/' :: path) = moves path := by
  have hsplit : splitAt '/' ('/' :: path) = [] :: splitAt '/' path :=
    splitAt_append_cons List.not_mem_nil path
  unfold moves
  rw [hsplit, List.filterMap_cons]
  simp

theorem moves_entryPath (entry : Text) :
    moves (entryPath entry) = moves entry := by
  unfold entryPath
  split_ifs with h
  · obtain ⟨rest, rfl⟩ := List.head?_eq_some_iff.mp h
    exact (moves_slash rest).symm
  · rfl

theorem moves_replicate (n : ℕ) (rel : Text) :
    moves (List.replicate n '/' ++ rel) = moves rel := by
  induction n with
  | zero => rfl
  | succ n ih =>
      rw [List.replicate_succ, List.cons_append, moves_slash, ih]

theorem head?_entryPath (entry : Text) :
    (entryPath entry).head? = some '/' ↔ "//".toList <+: entry := by
  have hslashes : "//".toList = ['/', '/'] := by decide
  unfold entryPath
  rw [hslashes]
  split_ifs with h
  · obtain ⟨rest, rfl⟩ := List.head?_eq_some_iff.mp h
    rw [List.tail_cons, List.cons_prefix_cons, List.head?_eq_some_iff]
    cases rest with
    | nil => simp
    | cons c rest => simp [eq_comm]
  · refine iff_of_false h ?_
    rintro ⟨rest, rfl⟩
    exact h rfl

theorem exists_slashes (entry : Text) :
    ∃ n rel, entry = List.replicate n '/' ++ rel ∧ rel.head? ≠ some '/' := by
  induction entry with
  | nil => exact ⟨0, [], rfl, by simp⟩
  | cons c entry ih =>
      by_cases hc : c = '/'
      · obtain ⟨n, rel, rfl, hrel⟩ := ih
        refine ⟨n + 1, rel, ?_, hrel⟩
        rw [hc, List.replicate_succ, List.cons_append]
      · exact ⟨0, c :: entry, rfl, by simpa using hc⟩

theorem resolve_relative (dir : List Text) {path : Text}
    (h : path.head? ≠ some '/') : resolve dir path = walk dir (moves path) := by
  rw [resolve, if_neg h]

theorem resolve_absolute (dir : List Text) {path : Text}
    (h : path.head? = some '/') :
    resolve dir path = (trace (moves path)).names := by
  rw [resolve, if_pos h, walk_root]

/-- Behind two slashes an entry is resolved from the root. -/
theorem readsInside_iff_of_absolute (dir : List Text) {entry : Text}
    (h : "//".toList <+: entry) :
    ReadsInside dir entry (entryPath entry) ↔
      dir = [] ∨
        (Move.up ∈ moves entry ∧ dir <+: (trace (moves entry)).names) := by
  have hresolve : resolve dir (entryPath entry) =
      (trace (moves entry)).names := by
    rw [resolve_absolute dir ((head?_entryPath entry).mpr h), moves_entryPath]
  constructor
  · rintro ⟨hinside, hjoined⟩
    rw [hresolve] at hinside
    by_cases hup : Move.up ∈ moves entry
    · exact .inr ⟨hup, hinside⟩
    · left
      obtain ⟨n, rel, hentry, hrel⟩ := exists_slashes entry
      have hn : 0 < n := by
        rcases Nat.eq_zero_or_pos n with rfl | hn
        · obtain ⟨rest, rfl⟩ := h
          rw [List.replicate_zero, List.nil_append] at hentry
          rw [← hentry] at hrel
          exact absurd rfl hrel
        · exact hn
      have hmoves : moves entry = moves rel := by
        rw [hentry, moves_replicate]
      rw [hmoves] at hup
      have hsame := hjoined n rel hn hentry hrel hup
      rw [hresolve, resolve_relative dir hrel, walk_of_no_up hup,
        hmoves] at hsame
      exact List.self_eq_append_left.mp hsame
  · intro hdir
    refine ⟨?_, ?_⟩
    · rw [hresolve]
      rcases hdir with rfl | ⟨-, hinside⟩
      · exact List.nil_prefix
      · exact hinside
    · intro n rel _ hentry hrel hup
      have hmoves : moves entry = moves rel := by
        rw [hentry, moves_replicate]
      rcases hdir with rfl | ⟨hmem, -⟩
      · rw [hresolve, resolve_relative [] hrel, walk_root, hmoves]
      · exact absurd (hmoves ▸ hmem) hup

theorem readsInside_iff_of_relative (dir : List Text) {entry : Text}
    (h : ¬"//".toList <+: entry) :
    ReadsInside dir entry (entryPath entry) ↔
      dir.drop (dir.length - (trace (moves entry)).climbed) <+:
        (trace (moves entry)).names := by
  have hresolve : resolve dir (entryPath entry) = walk dir (moves entry) := by
    rw [resolve_relative dir (mt (head?_entryPath entry).mp h),
      moves_entryPath]
  rw [← prefix_walk_iff, ← hresolve]
  constructor
  · intro hreads
    exact hreads.inside
  · intro hinside
    refine ⟨hinside, ?_⟩
    intro n rel _ hentry hrel _
    rw [hresolve, resolve_relative dir hrel, hentry, moves_replicate]

theorem readsInside_iff (dir : List Text) (entry : Text) :
    ReadsInside dir entry (entryPath entry) ↔ StaysInside dir entry := by
  unfold StaysInside
  split_ifs with h
  · exact readsInside_iff_of_absolute dir h
  · exact readsInside_iff_of_relative dir h

/-! ## Whole runs -/

theorem Disk.reached_prefix (disk : Disk) (dir : Path) (files : List Text) :
    disk.reached dir files <+: files := by
  induction files with
  | nil => exact List.nil_prefix
  | cons f files ih =>
      unfold Disk.reached
      rw [List.cons_prefix_cons]
      refine ⟨rfl, ?_⟩
      split_ifs
      · exact ih
      · exact List.nil_prefix

section Runs

variable (crates : Crates) (disk : Disk) (ws : Workspace)
  (fileList : List Text) {cwd dir : Path}

/-- The reads of a run are those of the entries it gets to, in their order. -/
theorem reads_package (h : disk.IsCurrent cwd)
    (hdir : disk.enter cwd ws.protoDir = some dir) :
    (exec (ws.package crates disk fileList) { cwd := cwd }).2.reads =
      (disk.reached dir fileList).map
        fun f => (dir, .text (entryPath f)) := by
  obtain ⟨result, hexec⟩ := exec_package_of_entered crates disk ws fileList
    (s := { cwd := cwd }) h hdir
  rw [hexec]
  exact List.nil_append _

/-- Every path that a run started in one directory reads from another one lies
inside the latter, and is what the entry at its place says. -/
def Workspace.PackagesInside (cwd dir : Path) : Prop :=
  ∀ (i : ℕ) (entry : Text) (read : Path × OsPath),
    fileList[i]? = some entry →
    (exec (ws.package crates disk fileList)
      { cwd := cwd }).2.reads[i]? = some read →
    ∃ path, read = (dir, .text path) ∧ ReadsInside dir.components entry path

/-- A run reads inside the proto area exactly when every entry that it gets to
stays inside. -/
theorem package_inside_iff (h : disk.IsCurrent cwd)
    (hdir : disk.enter cwd ws.protoDir = some dir) :
    ws.PackagesInside crates disk fileList cwd dir ↔
      ∀ entry ∈ disk.reached dir fileList,
        StaysInside dir.components entry := by
  obtain ⟨rest, hrest⟩ := disk.reached_prefix dir fileList
  have hsame : ∀ (i : ℕ) entry,
      (disk.reached dir fileList)[i]? = some entry →
        fileList[i]? = some entry := by
    intro i entry hentry
    obtain ⟨hlt, -⟩ := List.getElem?_eq_some_iff.mp hentry
    rw [← hrest, List.getElem?_append_left hlt, hentry]
  unfold Workspace.PackagesInside
  rw [reads_package crates disk ws fileList h hdir]
  constructor
  · intro hreads entry hentry
    obtain ⟨i, hi⟩ := List.mem_iff_getElem?.mp hentry
    obtain ⟨path, hpath, hinside⟩ := hreads i entry _ (hsame i entry hi)
      (by rw [List.getElem?_map, hi]; rfl)
    cases hpath
    exact (readsInside_iff dir.components entry).mp hinside
  · intro hstays i entry read hentry hread
    rw [List.getElem?_map, Option.map_eq_some_iff] at hread
    obtain ⟨f, hf, rfl⟩ := hread
    have heq : f = entry :=
      Option.some.inj ((hsame i f hf).symm.trans hentry)
    subst heq
    refine ⟨_, rfl, ?_⟩
    exact (readsInside_iff dir.components f).mpr
      (hstays f (List.mem_of_getElem? hf))

end Runs

theorem package_inside_motd :
    wks.PackagesInside emptyCrates motdDisk ["/etc/motd".toList] home
      wks.protoDir := by
  apply (package_inside_iff emptyCrates motdDisk wks _ (by decide +kernel)
    (by decide +kernel)).mpr
  intro entry hentry
  have hreached : motdDisk.reached wks.protoDir ["/etc/motd".toList] =
      ["/etc/motd".toList] := by
    decide +kernel
  rw [hreached, List.mem_singleton] at hentry
  rw [hentry]
  unfold StaysInside
  decide +kernel

/-- One slash too many leads to the root, and so do enough parent
directories. -/
theorem package_outside :
    SpecFile.parse true
        "%files\n//etc/passwd\n../../../etc/shadow\n".toList =
      .ok { files :=
              ["//etc/passwd".toList, "../../../etc/shadow".toList] } ∧
    (exec (wks.package emptyCrates motdDisk ["//etc/passwd".toList])
      { cwd := home }).2.reads =
        [(wks.protoDir, .text "/etc/passwd".toList)] ∧
    resolve wks.protoDir.components "/etc/passwd".toList =
      ["etc".toList, "passwd".toList] ∧
    resolve wks.protoDir.components "../../../etc/shadow".toList =
      ["etc".toList, "shadow".toList] ∧
    ¬∀ fileList : List Text, wks.PackagesInside emptyCrates motdDisk fileList
      home wks.protoDir := by
  have hreads : (exec (wks.package emptyCrates motdDisk
      ["//etc/passwd".toList]) { cwd := home }).2.reads =
        [(wks.protoDir, .text "/etc/passwd".toList)] := by
    decide +kernel
  refine ⟨by decide +kernel, hreads, by decide +kernel, by decide +kernel, ?_⟩
  intro h
  obtain ⟨path, hpath, hinside⟩ := h ["//etc/passwd".toList] 0
    "//etc/passwd".toList (wks.protoDir, .text "/etc/passwd".toList) rfl
    (by rw [hreads]; rfl)
  cases hpath
  exact absurd hinside.inside (by decide +kernel)

end Ips
