/-
  LdPreload.System.FileSystem

  Calls carried out on a file system.  The kernel resolves the path arguments
  of a call to places (`Kernel.targets`), under `open_how` where there is one;
  what happens there is up to the file system, which may be any, and so are the
  answer and what becomes of the directories of the process (`Effect`): a call
  may change or open a directory, and a rename moves the directories of the
  process that are below the place that it renames (`Kernel.after`).

  Not modelled: symbolic links, mounts, other processes, directories of the
  process that are removed or replaced, and an `execve` that succeeds, which
  ends the program.
-/

import LdPreload.Rtld.Statics
import LdPreload.System.Process

namespace LdPreload

open CMem Lexical Once

/-! ## Directories that move -/

namespace Dir

/-- The directory `d`, after what is at `old` has been moved to `new`. -/
def moved (old new d : Dir) : Dir where
  names := relocate old.names new.names d.names
  isName := by
    unfold relocate
    split
    · intro s hs
      rcases List.mem_append.mp hs with hs | hs
      · exact new.isName s hs
      · exact d.isName s (List.mem_of_mem_drop hs)
    · exact d.isName
  noNul := by
    unfold relocate
    split
    · intro s hs
      rcases List.mem_append.mp hs with hs | hs
      · exact new.noNul s hs
      · exact d.noNul s (List.mem_of_mem_drop hs)
    · exact d.noNul

@[simp] theorem names_moved (old new d : Dir) :
    (moved old new d).names = relocate old.names new.names d.names := rfl

/-- The directory `d`, after what is at `old` and at `new` has been exchanged. -/
def exchanged (old new d : Dir) : Dir :=
  if old.names <+: d.names then moved old new d else moved new old d

@[simp] theorem names_exchanged (old new d : Dir) :
    (exchanged old new d).names = exchange old.names new.names d.names := by
  unfold exchanged exchange
  split <;> rfl

/-- The place that a path names when `d` is the root. -/
def descend (d : Dir) (path : CString) : Dir where
  names := d.names ++ resolve path.chars
  isName s hs := (List.mem_append.mp hs).elim (d.isName s) (isName_of_mem_resolve s)
  noNul s hs := (List.mem_append.mp hs).elim (d.noNul s) (nul_not_mem_resolve path s)

end Dir

namespace Kernel

/-- The directories of a process, changed by `g`. -/
def map (g : Dir → Dir) (k : Kernel) : Kernel where
  cwd := g k.cwd
  fds := k.fds.map fun e => (e.1, g e.2)

variable {k : Kernel} (g : Dir → Dir)

theorem mem_dirs_map {dir : Dir} : dir ∈ (k.map g).dirs ↔ ∃ d ∈ k.dirs, g d = dir := by
  rw [← List.mem_map]
  simp [dirs, map, Function.comp_def]

theorem dirOf_map (fd : Int32) : (k.map g).dirOf fd = (k.dirOf fd).map g := by
  have hlookup : ∀ fds : List (Int32 × Dir),
      (fds.map fun e => (e.1, g e.2)).lookup fd = (fds.lookup fd).map g := by
    intro fds
    induction fds with
    | nil => rfl
    | cons e fds ih =>
      rw [List.map_cons, List.lookup_cons, List.lookup_cons]
      split
      · rfl
      · exact ih
  unfold dirOf
  split
  · rfl
  · exact hlookup k.fds

end Kernel

/-! ## What the file system is asked -/

/-- What is left of a path argument once the kernel has resolved it. -/
inductive Target where
  | null
  /-- The path is relative to something that is no open descriptor. -/
  | nowhere
  /-- `open_how` does not let the path lead anywhere. -/
  | refused
  /-- The empty path, which names what it is relative to, or nothing. -/
  | empty (dir : Dir)
  /-- The path ends in the name of an entry. -/
  | entry (place : Dir)
  /-- It ends in a separator, `.` or `..`, and so names a directory. -/
  | inside (place : Dir)
deriving DecidableEq

namespace Target

def map (g : Dir → Dir) : Target → Target
  | null => null
  | nowhere => nowhere
  | refused => refused
  | empty dir => empty (g dir)
  | entry place => entry (g place)
  | inside place => inside (g place)

def place : Target → Option Dir
  | empty dir | entry dir | inside dir => some dir
  | null | nowhere | refused => none

@[simp] theorem place_map (g : Dir → Dir) (t : Target) : (t.map g).place = t.place.map g := by
  cases t <;> rfl

end Target

/-- The path ends in the name of an entry. -/
def namesEntry (path : CString) : Bool :=
  !endsInSlash path && (segments slash path.chars).getLast?.any fun s => s ≠ [dot] ∧ s ≠ [dot, dot]

/-- A path that leads to a place. -/
def Target.of (path : CString) (place : Dir) : Target :=
  if path.length = 0 then .empty place
  else if namesEntry path then .entry place
  else .inside place

@[simp] theorem Target.map_of (g : Dir → Dir) (path : CString) (place : Dir) :
    (Target.of path place).map g = Target.of path (g place) := by
  unfold Target.of
  split
  · rfl
  · split <;> rfl

@[simp] theorem Target.place_of (path : CString) (place : Dir) :
    (Target.of path place).place = some place := by
  unfold Target.of
  split
  · rfl
  · split <;> rfl

namespace Kernel

/-- A path argument, resolved. -/
def target (k : Kernel) (a : PathArg) : Target :=
  match a.path with
  | none => .null
  | some path =>
    match k.lookup a.dirfd path with
    | none => .nowhere
    | some place => .of path place

theorem target_of_none {k : Kernel} {a : PathArg} (h : a.path = none) : k.target a = .null := by
  rw [target, h]

theorem target_of_lookup {k : Kernel} {a : PathArg} {path : CString} {place : Dir}
    (hpath : a.path = some path) (h : k.lookup a.dirfd path = some place) :
    k.target a = .of path place := by
  rw [target, hpath]
  simp only [h]

theorem target_of_closed {k : Kernel} {a : PathArg} {path : CString} (hpath : a.path = some path)
    (h : k.lookup a.dirfd path = none) : k.target a = .nowhere := by
  rw [target, hpath]
  simp only [h]

/-- An argument is resolved alike where it starts from the same directory. -/
theorem target_congr {k k' : Kernel} {a : PathArg}
    (h : a.path.any isAbsolute = false → k.dirOf a.dirfd = k'.dirOf a.dirfd) :
    k.target a = k'.target a := by
  cases hpath : a.path with
  | none => rw [target_of_none hpath, target_of_none hpath]
  | some path =>
    have hlookup : k.lookup a.dirfd path = k'.lookup a.dirfd path := by
      unfold lookup
      by_cases habs : isAbsolute path = true
      · rw [if_pos habs, if_pos habs]
      · rw [if_neg habs, if_neg habs, h (by simpa [hpath] using habs)]
    simp only [target, hpath, hlookup]

/-- The place of a target is where the argument leads. -/
theorem place_target (k : Kernel) (a : PathArg) : (k.target a).place = k.leads a := by
  obtain ⟨relative, dirfd, path⟩ := a
  cases path with
  | none => rfl
  | some path =>
    show (k.target _).place = k.lookup dirfd path
    cases h : k.lookup dirfd path with
    | none => rw [target_of_closed rfl h, Target.place]
    | some place => rw [target_of_lookup rfl h, Target.place_of]

end Kernel

/-- `how->resolve & (RESOLVE_NO_XDEV | RESOLVE_BENEATH | RESOLVE_IN_ROOT)`: what
    the lookup finds depends on the directory that it starts from. -/
def OpenHow.ties (how : OpenHow) : Bool := how.resolve &&& 0x19 != 0

namespace Call

/-- A call without its paths: what else it asks for. -/
def shape (c : Call) : Call := c.mapArgs fun a => ⟨a.relative, atFdcwd, none⟩

theorem shape_mapArgs (f : PathArg → PathArg) (c : Call) : (c.mapArgs f).shape = c.shape := by
  cases c <;> rfl

def how : Call → Option OpenHow
  | .openat2 _ _ how _ => how
  | _ => none

/-- The call is an `openat2` whose lookup is tied to where it starts. -/
def tied (c : Call) : Bool := c.how.any OpenHow.ties

@[simp] theorem tied_mapArgs (f : PathArg → PathArg) (c : Call) :
    (c.mapArgs f).tied = c.tied := by
  cases c <;> rfl

@[simp] theorem tied_effective (c : Call) : c.effective.tied = c.tied := by
  cases c <;> rfl

def renames : Call → Bool
  | .rename .. | .renameat .. | .renameat2 .. => true
  | _ => false

@[simp] theorem renames_mapArgs (f : PathArg → PathArg) (c : Call) :
    (c.mapArgs f).renames = c.renames := by
  cases c <;> rfl

@[simp] theorem renames_effective (c : Call) : c.effective.renames = c.renames := by
  cases c <;> rfl

end Call

namespace Kernel

/-- A path argument, resolved without leaving the directory of the descriptor. -/
def confinedTarget (k : Kernel) (how : OpenHow) (a : PathArg) : Target :=
  match a.path with
  | none => .null
  | some path =>
    if how.below path = none then .refused
    else (k.dirOf a.dirfd).elim .nowhere fun dir => .of path (dir.descend path)

/-- The path arguments of a call, resolved.  A call whose lookup is tied to
    where it starts, counts by the directory of the descriptor as well. -/
def targets (k : Kernel) (c : Call) : List Target :=
  match c.how.filter OpenHow.ties with
  | none => c.args.map k.target
  | some how =>
    (c.args.map fun a => if how.Confines then k.confinedTarget how a else k.target a) ++
      c.args.map fun a => (k.dirOf a.dirfd).elim .nowhere .inside

theorem targets_of_untied (k : Kernel) {c : Call} (h : c.tied = false) :
    k.targets c = c.args.map k.target := by
  have hnone : c.how.filter OpenHow.ties = none := by
    rw [Option.filter_eq_none_iff]
    intro how hhow hties
    rw [Call.tied, hhow] at h
    exact absurd (h.symm.trans hties) (by decide)
  rw [targets, hnone]

/-- The paths of a call, resolved as they are handed on. -/
theorem targets_handed_on (k : Kernel) {f : PathArg → PathArg} (hf : Call.KeepsCwd f) {c : Call}
    (h : c.tied = false) :
    k.targets (c.effective.mapArgs f) = c.args.map fun a => k.target (f a) := by
  have huntied : (c.effective.mapArgs f).tied = false := by
    rwa [Call.tied_mapArgs, Call.tied_effective]
  rw [targets_of_untied _ huntied, Call.args_mapArgs hf, Call.args_effective, List.map_map]
  rfl

end Kernel

/-! ## What becomes of the directories of the process -/

inductive Effect where
  | keep
  /-- The current directory becomes the place of the first path. -/
  | enter
  /-- That place is opened, as the descriptor `fd`. -/
  | install (fd : Int32)
  | remove (fd : Int32)
  /-- What is at the first place is moved to the second. -/
  | move
  /-- The two places exchange what they hold. -/
  | exchange
deriving DecidableEq

namespace Effect

/-- Which calls have the effect. -/
def Of : Effect → Call → Prop
  | keep, _ => True
  | enter, c => c.symbol = .chdir
  | install _, c => c.symbol ∈ [.creat, .open, .openat, .openat2]
  | remove fd, c => c = .close fd
  | move, c => c.renames = true
  | exchange, c => c.symbol = .renameat2

instance (effect : Effect) (c : Call) : Decidable (effect.Of c) :=
  match effect with
  | keep => inferInstanceAs (Decidable True)
  | enter => inferInstanceAs (Decidable (c.symbol = _))
  | install _ => inferInstanceAs (Decidable (c.symbol ∈ _))
  | remove _ => inferInstanceAs (Decidable (c = _))
  | move => inferInstanceAs (Decidable (c.renames = _))
  | exchange => inferInstanceAs (Decidable (c.symbol = _))

/-- Directories move. -/
def Moves (effect : Effect) : Prop := effect = move ∨ effect = exchange

theorem Moves.renames {effect : Effect} (h : effect.Moves) {c : Call} (hof : effect.Of c) :
    c.renames = true := by
  rcases h with rfl | rfl
  · exact hof
  · cases c with
    | renameat2 => rfl
    | _ => exact absurd hof (by simp [Of, Call.symbol])

end Effect

/-- The places of the first two targets. -/
def Target.ends : List Target → Option (Dir × Dir)
  | t :: t' :: _ => t.place.bind fun old => t'.place.map fun new => (old, new)
  | _ => none

/-- The directories of a process behind a call. -/
def Kernel.after (k : Kernel) (targets : List Target) : Effect → Kernel
  | .keep => k
  | .enter =>
    match targets.head?.bind Target.place with
    | some dir => { k with cwd := dir }
    | none => k
  | .install fd =>
    match targets.head?.bind Target.place with
    | some dir => { k with fds := (fd, dir) :: k.fds }
    | none => k
  | .remove fd => { k with fds := k.fds.filter (·.1 ≠ fd) }
  | .move =>
    match Target.ends targets with
    | some (old, new) => k.map (Dir.moved old new)
    | none => k
  | .exchange =>
    match Target.ends targets with
    | some (old, new) => k.map (Dir.exchanged old new)
    | none => k

/-- A file system with states `σ` and answers `ρ`: what a call does, given what
    its paths lead to.  What a descriptor was opened on is part of the state. -/
structure FileSystem (σ ρ : Type) where
  act : σ → Call → List Target → σ × Effect × ρ
  actFd : σ → FdCall → σ × ρ
  effect_of : ∀ s c targets, (act s c targets).2.1.Of c

theorem Target.mem_of_ends {targets : List Target} {old new : Dir}
    (h : Target.ends targets = some (old, new)) :
    (∃ t ∈ targets, t.place = some old) ∧ ∃ t ∈ targets, t.place = some new := by
  cases targets with
  | nil => exact absurd h (by simp [ends])
  | cons t targets =>
    cases targets with
    | nil => exact absurd h (by simp [ends])
    | cons t' targets =>
      obtain ⟨old', hold, hmap⟩ := Option.bind_eq_some_iff.mp h
      obtain ⟨new', hnew, heq⟩ := Option.map_eq_some_iff.mp hmap
      obtain ⟨rfl, rfl⟩ := Prod.mk.inj heq
      exact ⟨⟨t, by simp, hold⟩, t', by simp, hnew⟩

/-- Behind a call, all directories of the process have what all of them had
    before and the places of its paths have, if moving to one of these places
    keeps it. -/
theorem Kernel.forall_dirs_after {k : Kernel} {targets : List Target} {effect : Effect}
    {P : Dir → Prop} (hold : ∀ d ∈ k.dirs, P d)
    (hplaces : ∀ t ∈ targets, ∀ d, t.place = some d → P d)
    (hmoves : effect.Moves → ∀ t ∈ targets, ∀ new, t.place = some new →
      ∀ old d, P d → P (Dir.moved old new d)) :
    ∀ d ∈ (k.after targets effect).dirs, P d := by
  have hhead : ∀ d, targets.head?.bind Target.place = some d → P d := by
    intro d hd
    obtain ⟨t, ht, hplace⟩ := Option.bind_eq_some_iff.mp hd
    exact hplaces t (List.mem_of_mem_head? ht) d hplace
  obtain ⟨hcwd, hfds⟩ : P k.cwd ∧ ∀ d ∈ k.fds.map Prod.snd, P d := List.forall_mem_cons.mp hold
  cases effect with
  | keep => exact hold
  | enter =>
    simp only [after]
    split
    · next dir hdir => exact List.forall_mem_cons.mpr ⟨hhead dir hdir, hfds⟩
    · exact hold
  | install fd =>
    simp only [after]
    split
    · next dir hdir =>
      exact List.forall_mem_cons.mpr ⟨hcwd, List.forall_mem_cons.mpr ⟨hhead dir hdir, hfds⟩⟩
    · exact hold
  | remove fd =>
    refine List.forall_mem_cons.mpr ⟨hcwd, fun d hd => ?_⟩
    obtain ⟨e, he, rfl⟩ := List.mem_map.mp hd
    exact hfds e.2 (List.mem_map_of_mem (List.mem_of_mem_filter he))
  | move =>
    simp only [after]
    split
    · next old new hends =>
      obtain ⟨-, t, ht, hnew⟩ := Target.mem_of_ends hends
      intro dir hdir
      obtain ⟨d, hd, rfl⟩ := (mem_dirs_map _).mp hdir
      exact hmoves (Or.inl rfl) t ht new hnew old d (hold d hd)
    · exact hold
  | exchange =>
    simp only [after]
    split
    · next old new hends =>
      obtain ⟨⟨t, ht, hold'⟩, t', ht', hnew⟩ := Target.mem_of_ends hends
      intro dir hdir
      obtain ⟨d, hd, rfl⟩ := (mem_dirs_map _).mp hdir
      unfold Dir.exchanged
      split
      · exact hmoves (Or.inr rfl) t' ht' new hnew old d (hold d hd)
      · exact hmoves (Or.inr rfl) t ht old hold' new d (hold d hd)
    · exact hold

/-! ## The library in front of the kernel -/

/-- The library tells the truth about the process where it allocates memory as
    well, and shows no directory behind a descriptor that is not open. -/
structure Kernel.Backs (k : Kernel) (libc : Libc) : Prop extends k.Serves libc where
  getcwdAlloc_eq : ∀ n, libc.getcwdAlloc n =
    if n = 0 ∨ k.cwd.text.length < n then some k.cwd.text else none
  readlink_closed : ∀ {fd link}, k.fds.lookup fd = none →
    libc.readlink (fdPath fd) (pathMax - 1) = some link → isAbsolute link = false

theorem Kernel.backs_libc (k : Kernel) : k.Backs k.libc where
  toServes := k.serves_libc
  getcwdAlloc_eq _ := rfl
  readlink_closed := by
    intro fd link hfd hlink
    have hfind := Kernel.find?_fdPath k.fds fd
    rw [hfd, Option.map_eq_none_iff] at hfind
    simp only [Kernel.libc, hfind, Option.map_none] at hlink
    exact absurd hlink (by simp)

end LdPreload
