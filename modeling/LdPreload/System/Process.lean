/-
  LdPreload.System.Process

  Calls carried out.  The interposer hands a call on to the kernel, which may
  refuse it or change the directories of the process.  Whatever it does, every
  directory of the process afterwards is one that it had before, or one that
  an argument of the call leads to (`Executes.mem_dirs`).
-/

import LdPreload.System.Relocation

namespace LdPreload

open CMem Lexical Once

namespace Kernel

variable {k k' : Kernel} {c : Call} {dir : Dir}

/-- The directories of a process, the current one first. -/
def dirs (k : Kernel) : List Dir := k.cwd :: k.fds.map Prod.snd

/-- A `chdir` that succeeds. -/
def chdir (k : Kernel) (path : CString) : Option Kernel :=
  (k.lookup atFdcwd path).map fun dir => { k with cwd := dir }

/-- A descriptor that the kernel may give out. -/
def Free (k : Kernel) (fd : Int32) : Prop := 0 ≤ fd ∧ k.fds.lookup fd = none

/-- A call of `chdir`, `open`, `openat` or `close`, carried out; each of them
    may also be refused.  Of other calls it is only said that they may be
    refused, of `creat`, `openat2` and the renames as well, which change
    directories, too: `Kernel.after` is about all calls. -/
inductive Executes (k : Kernel) : Call → Kernel → Prop where
  | refused (c : Call) : Executes k c k
  | chdir {path : CString} {k' : Kernel} (h : k.chdir path = some k') :
    Executes k (.chdir (some path)) k'
  | open {path : CString} {flags : Int32} {mode : UInt32} {dir : Dir} {fd : Int32}
      (h : k.lookup atFdcwd path = some dir) (hfd : k.Free fd) :
    Executes k (.open (some path) flags mode) { k with fds := (fd, dir) :: k.fds }
  | openat {dirfd : Int32} {path : CString} {flags : Int32} {mode : UInt32} {dir : Dir} {fd : Int32}
      (h : k.lookup dirfd path = some dir) (hfd : k.Free fd) :
    Executes k (.openat dirfd (some path) flags mode) { k with fds := (fd, dir) :: k.fds }
  | close (fd : Int32) : Executes k (.close fd) { k with fds := k.fds.filter (·.1 ≠ fd) }

theorem leads_some (relative : Bool) (dirfd : Int32) (path : CString) :
    k.leads ⟨relative, dirfd, some path⟩ = k.lookup dirfd path := rfl

/-- A call adds no directory but those that its arguments lead to. -/
theorem Executes.mem_dirs (h : k.Executes c k') (hdir : dir ∈ k'.dirs) :
    dir ∈ k.dirs ∨ ∃ a ∈ c.args, k.leads a = some dir := by
  -- one case for each way in which the kernel can carry a call out
  cases h with
  | refused => exact Or.inl hdir
  | chdir h =>
    obtain ⟨cwd, hcwd, rfl⟩ := Option.map_eq_some_iff.mp h
    rcases List.mem_cons.mp hdir with rfl | hdir
    · exact Or.inr ⟨_, List.mem_singleton_self _, hcwd⟩
    · exact Or.inl (List.mem_cons_of_mem _ hdir)
  | «open» h hfd | openat h hfd =>
    rcases List.mem_cons.mp hdir with rfl | hdir
    · exact Or.inl (List.mem_cons_self ..)
    · rcases List.mem_cons.mp hdir with rfl | hdir
      · exact Or.inr ⟨_, List.mem_singleton_self _, h⟩
      · exact Or.inl (List.mem_cons_of_mem _ hdir)
  | close fd =>
    rcases List.mem_cons.mp hdir with rfl | hdir
    · exact Or.inl (List.mem_cons_self ..)
    · obtain ⟨e, he, rfl⟩ := List.mem_map.mp hdir
      have hmem := List.mem_map_of_mem (f := Prod.snd) (List.mem_of_mem_filter he)
      exact Or.inl (List.mem_cons_of_mem _ hmem)

end Kernel

variable {libc : Libc} {rp : RewritePolicy} {f : PathArg → PathArg} {k : Kernel} {dir : Dir}

/-- An interposed `chdir` goes to where its argument leads after it was handed
    on. -/
theorem Follows.chdir_forwarded (hf : Follows libc rp f) (hc : libc.resolves .chdir = true)
    {path : CString} (hleads : k.leads (f ⟨true, atFdcwd, some path⟩) = some dir) :
    ∃ u, eval libc rp (interpose (.chdir (some path))) = .ok (.forwarded (.chdir (some u))) ∧
      k.chdir u = some { k with cwd := dir } := by
  obtain ⟨u, hu, hlookup⟩ := Option.bind_eq_some_iff.mp hleads
  have hforwarded := hf.forwarded_of_resolves (c := .chdir (some path)) hc
  have hcall : ((Call.chdir (some path)).effective.mapArgs f) = .chdir (some u) := by
    rw [← hu]
    rfl
  rw [hcall] at hforwarded
  rw [(hf.keepsCwd _).2 rfl] at hlookup
  exact ⟨u, hforwarded, by rw [Kernel.chdir, hlookup, Option.map_some]⟩

end LdPreload
