/-
  LdPreload.System.Kernel

  The process as the kernel sees it, in a file system without symbolic links:
  a current directory and open directories, each the list of names that leads
  to it from the root, and lookups that follow a path name by name.

  `Reports` says that a C library tells the truth about such a process when it
  answers; `Serves` says that it also answers whenever the answer fits.
  `Kernel.libc` is a library that does.
-/

import LdPreload.Rtld.Arguments
import LdPreload.Rtld.CleanLimits

namespace LdPreload

open CMem Lexical

/-! ## Directories -/

/-- A real directory: the names that lead to it. -/
structure Dir where
  names : List Segment
  isName : ∀ s ∈ names, IsName s
  noNul : ∀ s ∈ names, nul ∉ s

namespace Dir

@[ext] theorem ext_names {d d' : Dir} (h : d.names = d'.names) : d = d' := by
  obtain ⟨names, _, _⟩ := d
  obtain ⟨names', _, _⟩ := d'
  obtain rfl : names = names' := h
  rfl

instance : DecidableEq Dir := fun _ _ => decidable_of_iff _ ⟨ext_names, congrArg names⟩

def root : Dir := ⟨[], by simp, by simp⟩

theorem nul_not_mem_pathText {dirs : List Segment} (h : ∀ s ∈ dirs, nul ∉ s) (atSlash : Bool) :
    nul ∉ pathText dirs atSlash := by
  intro hmem
  rcases List.mem_append.mp hmem with hmem | hmem
  · obtain ⟨s, hs, hb⟩ := List.mem_flatMap.mp hmem
    rcases List.mem_cons.mp hb with hb | hb
    · exact absurd hb (by decide)
    · exact h s hs hb
  · cases atSlash with
    | true => exact absurd (List.mem_singleton.mp hmem) (by decide)
    | false => exact absurd hmem List.not_mem_nil

/-- The path of a directory in normal form. -/
def text (d : Dir) : CString :=
  ⟨pathText d.names (decide (d.names = [])), nul_not_mem_pathText d.noNul _⟩

@[simp] theorem chars_text (d : Dir) :
    d.text.chars = pathText d.names (decide (d.names = [])) := rfl

@[simp] theorem resolve_text (d : Dir) : resolve d.text.chars = d.names :=
  resolve_pathText d.isName _

theorem isAbsolute_text (d : Dir) : isAbsolute d.text = true :=
  (pathText_of_names d.isName d.chars_text).1

/-- What is read into an array with room to spare, has not been cut. -/
theorem take_text {d : Dir} {n : Nat} (h : d.text.length < n) : d.text.take n = d.text :=
  CString.ext (List.take_of_length_le (by rw [← CString.length_def]; omega))

/-- A path in normal form is clean. -/
theorem cleaned_text {d : Dir} (h : d.text.length < pathMax) : cleaned d.text = some d.text :=
  cleaned_of_names d.isName d.chars_text h

theorem nul_not_mem_of_mem_walk {dir segs : List Segment} (hdir : ∀ s ∈ dir, nul ∉ s)
    (hsegs : ∀ s ∈ segs, nul ∉ s) : ∀ s ∈ walk dir segs, nul ∉ s := by
  induction segs generalizing dir with
  | nil => exact hdir
  | cons seg segs ih =>
    refine ih ?_ fun s hs => hsegs s (List.mem_cons_of_mem _ hs)
    intro s hs
    -- a step stays, goes up, or goes down by the segment
    rw [walkStep] at hs
    split at hs
    · exact hdir s hs
    · split at hs
      · exact hdir s (List.dropLast_subset _ hs)
      · rcases List.mem_append.mp hs with hs | hs
        · exact hdir s hs
        · rw [List.mem_singleton.mp hs]
          exact hsegs seg (List.mem_cons_self ..)

theorem nul_not_mem_resolve (path : CString) : ∀ s ∈ resolve path.chars, nul ∉ s :=
  nul_not_mem_of_mem_walk (by simp) fun _ hs hnul =>
    path.noNul (subset_of_mem_segments hs hnul)

/-- The directory that segments lead to. -/
def walkFrom (d : Dir) (path : CString) : Dir where
  names := walk d.names (segments slash path.chars)
  isName := isName_of_mem_walk d.isName fun _ hs => isSegment_of_mem_segments hs
  noNul := nul_not_mem_of_mem_walk d.noNul fun _ hs hnul =>
    path.noNul (subset_of_mem_segments hs hnul)

/-- The directory that a path leads to. -/
def follow (d : Dir) (path : CString) : Dir :=
  if isAbsolute path then root.walkFrom path else d.walkFrom path

theorem follow_of_absolute (d : Dir) {path : CString} (h : isAbsolute path = true) :
    (d.follow path).names = resolve path.chars := by
  rw [follow, if_pos h]
  rfl

theorem follow_of_relative (d : Dir) {path : CString} (h : ¬ isAbsolute path = true) :
    (d.follow path).names = walk d.names (segments slash path.chars) := by
  rw [follow, if_neg h]
  rfl

/-- The normal form of a path is no longer than the path. -/
theorem length_text_follow_le (d : Dir) {path : CString} (h : isAbsolute path = true) :
    (d.follow path).text.length ≤ path.length := by
  rw [CString.length_def, chars_text, length_pathText, d.follow_of_absolute h]
  by_cases hroot : resolve path.chars = []
  · -- the root is one byte, and so is the separator that an absolute path has
    obtain ⟨rest, hrest⟩ := isAbsolute_iff.mp h
    rw [hroot, CString.length_def, hrest]
    simp
  · rw [decide_eq_false hroot]
    exact sum_resolve_le h

/-- What a relative path is joined to leads where the path does. -/
theorem resolve_joinText_text (d : Dir) {path : CString} (h : ¬ isAbsolute path = true) :
    resolve (joinText d.text path).chars = (d.follow path).names := by
  rw [resolve_joinText, resolve_text, d.follow_of_relative h]

end Dir

/-! ## Confined lookups -/

namespace OpenHow

/-- `how->resolve & RESOLVE_BENEATH` -/
def beneath (how : OpenHow) : Bool := how.resolve &&& 0x08 != 0

/-- `how->resolve & RESOLVE_IN_ROOT` -/
def inRoot (how : OpenHow) : Bool := how.resolve &&& 0x10 != 0

/-- The lookup does not leave the directory of the descriptor. -/
def Confines (how : OpenHow) : Prop := how.beneath = true ∨ how.inRoot = true

instance (how : OpenHow) : Decidable how.Confines := inferInstanceAs (Decidable (_ ∨ _))

/-- What a confined lookup leads to below the directory of the descriptor,
    unless it is refused, as that of the empty path is.  The two flags exclude
    each other; the first one refuses what starts or climbs outside, the second
    one makes the directory the root. -/
def below (how : OpenHow) (path : CString) : Option (List Segment) :=
  if path.length = 0 ∨
      how.beneath = true ∧ (how.inRoot = true ∨ isAbsolute path = true ∨ 0 < climbs path) then none
  else some (LdPreload.resolve path.chars)

end OpenHow

/-! ## The process -/

/-- The directories of a process. -/
structure Kernel where
  cwd : Dir
  fds : List (Int32 × Dir)

namespace Kernel

/-- The directory that paths given with `dirfd` start from. -/
def dirOf (k : Kernel) (dirfd : Int32) : Option Dir :=
  if dirfd = atFdcwd then some k.cwd else k.fds.lookup dirfd

/-- The lookup of a path. -/
def lookup (k : Kernel) (dirfd : Int32) (path : CString) : Option Dir :=
  if isAbsolute path then some (Dir.root.follow path)
  else (k.dirOf dirfd).map fun dir => dir.follow path

/-- Where an argument leads, if nothing confines its lookup. -/
def leads (k : Kernel) (a : PathArg) : Option Dir := a.path.bind (k.lookup a.dirfd)

/-- The library answers truthfully where it answers. -/
structure Reports (k : Kernel) (libc : Libc) : Prop where
  getcwd_eq : ∀ {n s}, libc.getcwd n = some s → s = k.cwd.text
  readlink_eq : ∀ {fd dir n s}, k.fds.lookup fd = some dir →
    libc.readlink (fdPath fd) n = some s → s = dir.text.take n

/-- The library also answers where the answer fits. -/
structure Serves (k : Kernel) (libc : Libc) : Prop extends Reports k libc where
  resolves_getcwd : libc.resolves .getcwd = true
  resolves_readlink : libc.resolves .readlink = true
  getcwd_of_lt : ∀ {n}, k.cwd.text.length < n → libc.getcwd n = some k.cwd.text
  readlink_of_lookup : ∀ {fd dir}, k.fds.lookup fd = some dir → dir.text.length < pathMax - 1 →
    libc.readlink (fdPath fd) (pathMax - 1) = some dir.text

/-- A library over the process. -/
def libc (k : Kernel) : Libc where
  resolves _ := true
  getcwd n := if k.cwd.text.length < n then some k.cwd.text else none
  getcwdAlloc n := if n = 0 ∨ k.cwd.text.length < n then some k.cwd.text else none
  readlink path n := (k.fds.find? fun e => fdPath e.1 == path).map fun e => e.2.text.take n
  getcwd_lt := by
    intro n s h
    split at h
    · rw [← Option.some.inj h]
      assumption
    · exact absurd h (by simp)
  readlink_le := by
    intro path n s h
    obtain ⟨e, -, rfl⟩ := Option.map_eq_some_iff.mp h
    exact List.length_take_le ..

theorem fdPath_injective : Function.Injective fdPath := by
  intro d d' h
  have hchars : (CString.ofDecimal d.toInt).chars = (CString.ofDecimal d'.toInt).chars :=
    List.append_cancel_left (congrArg CString.chars h)
  exact Int32.toInt_inj.mp (CString.ofDecimal_injective (CString.ext hchars))

theorem find?_fdPath (fds : List (Int32 × Dir)) (fd : Int32) :
    (fds.find? fun e => fdPath e.1 == fdPath fd).map Prod.snd = fds.lookup fd := by
  induction fds with
  | nil => rfl
  | cons e fds ih =>
    obtain ⟨fd', dir⟩ := e
    by_cases h : fd = fd'
    · subst h
      simp
    · -- another descriptor has another path
      have hne : (fdPath fd' == fdPath fd) = false := by
        rw [beq_eq_false_iff_ne]
        exact fun heq => h (fdPath_injective heq).symm
      have hne' : (fd == fd') = false := by rwa [beq_eq_false_iff_ne]
      rw [List.find?_cons, List.lookup_cons, hne, hne']
      exact ih

theorem serves_libc (k : Kernel) : k.Serves k.libc where
  getcwd_eq := by
    intro n s h
    simp only [libc] at h
    split at h
    · exact (Option.some.inj h).symm
    · exact absurd h (by simp)
  readlink_eq := by
    intro fd dir n s hfd h
    simp only [libc] at h
    obtain ⟨e, he, rfl⟩ := Option.map_eq_some_iff.mp h
    have hfind := find?_fdPath k.fds fd
    rw [he, hfd] at hfind
    rw [← Option.some.inj hfind]
  resolves_getcwd := rfl
  resolves_readlink := rfl
  getcwd_of_lt h := if_pos h
  readlink_of_lookup := by
    intro fd dir hfd hlen
    have hfind := find?_fdPath k.fds fd
    rw [hfd] at hfind
    obtain ⟨e, he, rfl⟩ := Option.map_eq_some_iff.mp hfind
    simp only [libc, he, Option.map_some, Dir.take_text hlen]

/-! ## What the interposer finds -/

variable {k : Kernel} {libc : Libc}

/-- The base of a relative path is the directory that it starts from. -/
theorem Reports.base_eq (h : k.Reports libc) {dirfd : Int32} {dir : Dir} {base : CString}
    (hdir : k.dirOf dirfd = some dir) (hbase : libc.base dirfd = some base) : base = dir.text := by
  unfold dirOf at hdir
  unfold Libc.base at hbase
  split at hdir
  · next hcwd =>
    rw [if_pos hcwd] at hbase
    rw [← Option.some.inj hdir]
    split at hbase
    · exact h.getcwd_eq hbase
    · exact absurd hbase (by simp)
  · next hcwd =>
    rw [if_neg hcwd] at hbase
    split at hbase
    · split at hbase
      · next link hlink =>
        split at hbase
        · next hcond =>
          obtain rfl := h.readlink_eq hdir hlink
          -- a link that is short of the buffer has not been cut
          have hlen : dir.text.length < pathMax - 1 := by
            have hshort := hcond.1
            rw [CString.length_def, CString.chars_take, List.length_take] at hshort
            rw [CString.length_def]
            omega
          rw [Dir.take_text hlen, Dir.cleaned_text (by omega)] at hbase
          exact (Option.some.inj hbase).symm
        · exact absurd hbase (by simp)
      · exact absurd hbase (by simp)
    · exact absurd hbase (by simp)

/-- A library that serves finds every base that leaves room for more. -/
theorem Serves.base_eq (h : k.Serves libc) {dirfd : Int32} {dir : Dir}
    (hdir : k.dirOf dirfd = some dir) (hlen : dir.text.length < pathMax - 1) :
    libc.base dirfd = some dir.text := by
  unfold dirOf at hdir
  unfold Libc.base
  split at hdir
  · next hcwd =>
    rw [if_pos hcwd, if_pos h.resolves_getcwd, ← Option.some.inj hdir]
    apply h.getcwd_of_lt
    rw [Option.some.inj hdir]
    omega
  · next hcwd =>
    -- the link is read whole, passes the test and is clean already
    rw [if_neg hcwd, if_pos h.resolves_readlink, h.readlink_of_lookup hdir hlen]
    simp only
    rw [if_pos ⟨hlen, dir.isAbsolute_text⟩, Dir.cleaned_text (by omega)]

/-- A source leads where its argument does, unless it was cut. -/
theorem Reports.source_cases (h : k.Reports libc) {a : PathArg} {s : CString} {dir : Dir}
    (hs : libc.source a = some s) (hleads : k.leads a = some dir) :
    resolve s.chars = dir.names ∨
      ∃ path base, a.path = some path ∧ isAbsolute path = false ∧
        k.dirOf a.dirfd = some base ∧ intMax < (joinText base.text path).length ∧
        s = (joinText base.text path).take (pathMax - 1) := by
  obtain ⟨path, hpath, hsource⟩ := Option.bind_eq_some_iff.mp hs
  rw [leads, hpath, Option.bind_some, lookup] at hleads
  by_cases habs : isAbsolute path = true
  · -- an absolute path is its own source
    rw [if_pos habs] at hsource hleads
    obtain rfl := Option.some.inj hsource
    rw [← Option.some.inj hleads, Dir.follow_of_absolute _ habs]
    exact Or.inl rfl
  · rw [if_neg habs] at hsource hleads
    obtain ⟨base, hbase, rfl⟩ := Option.map_eq_some_iff.mp hleads
    split at hsource
    · -- a relative one is joined to the directory that it starts from
      obtain ⟨b, hb, hjoined⟩ := Option.bind_eq_some_iff.mp hsource
      obtain rfl := h.base_eq hbase hb
      rcases joined_eq_some_iff.mp hjoined with ⟨-, rfl⟩ | ⟨hlong, rfl⟩
      · exact Or.inl (base.resolve_joinText_text habs)
      · exact Or.inr ⟨path, base, hpath, by simpa using habs, hbase, hlong, rfl⟩
    · exact absurd hsource (by simp)

end Kernel

/-! ## A small process -/

/-- The directory `/a`. -/
def Dir.a : Dir := ⟨[[97]], by decide, by decide⟩

/-- The directory `/c`. -/
def Dir.c : Dir := Dir.root.follow (.ofAscii ['/', 'c'])

/-- `/a` is to appear as what `/b` is. -/
def Environ.aToB : Environ := ⟨some (.ofAscii ['/', 'a']), some (.ofAscii ['/', 'b'])⟩

def RewritePolicy.aToB : RewritePolicy where
  enabled := true
  fromLen := 2
  toLen := 2
  fromPath := .ofAscii ['/', 'a']
  toPath := .ofAscii ['/', 'b']

theorem init_aToB : initRewritePolicy .aToB = .ok .aToB := by rfl

end LdPreload
