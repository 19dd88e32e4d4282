/-
  LdPreload.Contract.Processes

  A process that asks its C library for one thing after the other, as it is
  (`Process.plain`) or with the interposer in between (`Process.interposed`).
  The interposer runs what its exported functions run in `Threads`, with the
  statics filled; what it hands on is carried out by a kernel and a file
  system, and what they leave is what the next call finds.
-/

import LdPreload.Contract.Threads
import LdPreload.System.FileSystem

namespace LdPreload

open CMem Lexical Once

/-! ## Asking -/

/-- What a program asks for. -/
inductive Ask where
  | call (c : Call)
  | onFd (c : FdCall)
  /-- `getcwd (buf, size)`, with the array at `buf` unless that is `NULL`. -/
  | getcwd (buf : Option CharArray) (size : Nat)

/-- The exported function that it calls. -/
def Ask.entry : Ask → Entry
  | .call c => .request (.call c)
  | .onFd c => .onFd c
  | .getcwd buf size => .request (.getcwd buf size)

/-- What it is told. -/
inductive Told (ρ : Type) where
  | done (r : ρ)
  | enosys
  | cwd (path : Option CString)
  /-- The call has run out of an array. -/
  | fault
deriving DecidableEq

/-- What is found at the pointer that `getcwd` returns. -/
def CwdReply.told {ρ : Type} : CwdReply → Told ρ
  | .null => .cwd none
  | .caller buf =>
    match buf.string with
    | .ok path => .cwd (some path)
    | .error _ => .fault
  | .allocated path => .cwd (some path)

section

variable (table : RealTable) (rp : RewritePolicy) (w : World)

/-- What a wrapper of paths answers, while the library stays as it is. -/
theorem eval_call_job (c : Call) :
    (Entry.request (.call c)).job.eval (Static.pick table rp) w =
      (eval (w.libc table) rp (interpose c) >>= fun o => .ok (.reply (.call o))) := by
  show (Interp.toJob _).eval _ _ = _
  rw [eval_toJob, eval_bind, Request.serve, eval_bind, bind_assoc]
  rfl

theorem eval_getcwd_job (buf : Option CharArray) (size : Nat) :
    (Entry.request (.getcwd buf size)).job.eval (Static.pick table rp) w =
      (eval (w.libc table) rp (LdPreload.getcwd buf size) >>= fun reply =>
        .ok (.reply (.getcwd reply))) := by
  show (Interp.toJob _).eval _ _ = _
  rw [eval_toJob, eval_bind, Request.serve, eval_bind, bind_assoc]
  rfl

theorem eval_onFd_job (c : FdCall) :
    (Entry.onFd c).job.eval (Static.pick table rp) w =
      .ok (.onFd (if (table (.fd c.symbol)).isSome then .forwarded c else .enosys)) := by
  show (Job.bind (interposeFd c) _).eval _ _ = _
  rw [interposeFd_eq]
  show (Job.bind (if (table (.fd c.symbol)).isSome then _ else _) _).eval _ _ = _
  split <;> rfl

end

/-- A C library: what `dlsym` finds of it, and what it reports of a process. -/
structure Library where
  table : RealTable
  world : Kernel → World

namespace Library

def libc (lib : Library) (k : Kernel) : Libc := (lib.world k).libc lib.table

/-- In front of every kernel the library tells the truth. -/
def Backs (lib : Library) : Prop := ∀ k : Kernel, k.Backs (lib.libc k)

/-- One that does, with every function there is. -/
def faithful : Library where
  table _ := some 1
  world k := k.libc.world

theorem backs_faithful : faithful.Backs := Kernel.backs_libc

end Library

/-- `dlsym` finds the function that is asked for.  A library in front of a
    kernel has `getcwd`. -/
def Ask.Present (lib : Library) : Ask → Prop
  | .call c => (lib.table (.path c.symbol)).isSome = true
  | .onFd c => (lib.table (.fd c.symbol)).isSome = true
  | .getcwd .. => True

/-! ## Being told -/

/-- What the real `getcwd` tells. -/
def Kernel.tellCwd {ρ : Type} (k : Kernel) : Option CharArray → Nat → Told ρ
  | some buf, size =>
    if k.cwd.text.length < size then
      if k.cwd.text.length < buf.cap then .cwd (some k.cwd.text) else .fault
    else .cwd none
  | none, size => .cwd (if size = 0 ∨ k.cwd.text.length < size then some k.cwd.text else none)

structure Process (σ : Type) where
  files : σ
  kernel : Kernel

namespace Process

variable {σ ρ : Type} (fs : FileSystem σ ρ)

/-- A call, carried out. -/
def call (p : Process σ) (c : Call) : Process σ × Told ρ :=
  let targets := p.kernel.targets c
  let (files, effect, r) := fs.act p.files c.shape targets
  (⟨files, p.kernel.after targets effect⟩, .done r)

def onFd (p : Process σ) (c : FdCall) : Process σ × Told ρ :=
  let (files, r) := fs.actFd p.files c
  (⟨files, p.kernel⟩, .done r)

/-- A process without the interposer. -/
def plain (p : Process σ) : Ask → Process σ × Told ρ
  | .call c => p.call fs c.effective
  | .onFd c => p.onFd fs c
  | .getcwd buf size => (p, p.kernel.tellCwd buf size)

/-- What an exported function ends with, carried out. -/
def carry (p : Process σ) : Answer → Process σ × Told ρ
  | .reply (.call (.forwarded c)) => p.call fs c
  | .reply (.call .enosys) => (p, .enosys)
  | .reply (.getcwd reply) => (p, reply.told)
  | .onFd (.forwarded c) => p.onFd fs c
  | .onFd .enosys => (p, .enosys)

/-- A process behind the interposer. -/
def interposed (lib : Library) (rp : RewritePolicy) (p : Process σ) (ask : Ask) :
    Process σ × Told ρ :=
  match ask.entry.job.eval (Static.pick lib.table rp) (lib.world p.kernel) with
  | .ok answer => p.carry fs answer
  | .error _ => (p, .fault)

variable {fs} {lib : Library} {rp : RewritePolicy} {p : Process σ}

/-- A call goes on with its arguments changed. -/
theorem interposed_call {f : PathArg → PathArg} (hf : Follows (lib.libc p.kernel) rp f) {c : Call}
    (hpresent : (Ask.call c).Present lib) :
    p.interposed fs lib rp (.call c) = p.call fs (c.effective.mapArgs f) := by
  have hforwarded := hf.forwarded_of_resolves (c := c) hpresent
  have hjob := eval_call_job lib.table rp (lib.world p.kernel) c
  rw [show eval ((lib.world p.kernel).libc lib.table) rp (interpose c) = _ from hforwarded] at hjob
  simp only [interposed, Ask.entry, hjob]
  rfl

/-- A call without paths goes on as it is. -/
theorem interposed_onFd {c : FdCall} (hpresent : (Ask.onFd c).Present lib) :
    p.interposed fs lib rp (.onFd c) = p.onFd fs c := by
  replace hpresent : (lib.table (.fd c.symbol)).isSome = true := hpresent
  simp only [interposed, Ask.entry, eval_onFd_job, hpresent, if_true, carry]

section Getcwd

variable {buf : Option CharArray} {size : Nat}

/-- What `getcwd` leaves is what the program finds. -/
theorem interposed_getcwd {reply : CwdReply}
    (h : eval (lib.libc p.kernel) rp (LdPreload.getcwd buf size) = .ok reply) :
    p.interposed fs lib rp (.getcwd buf size) = (p, reply.told) := by
  have hjob := eval_getcwd_job lib.table rp (lib.world p.kernel) buf size
  rw [show eval ((lib.world p.kernel).libc lib.table) rp _ = _ from h] at hjob
  simp only [interposed, Ask.entry, hjob]
  rfl

theorem interposed_getcwd_of_error {e : Stop}
    (h : eval (lib.libc p.kernel) rp (LdPreload.getcwd buf size) = .error e) :
    p.interposed fs lib rp (.getcwd buf size) = (p, .fault) := by
  have hjob := eval_getcwd_job lib.table rp (lib.world p.kernel) buf size
  rw [show eval ((lib.world p.kernel).libc lib.table) rp _ = _ from h] at hjob
  simp only [interposed, Ask.entry, hjob]
  rfl

end Getcwd

end Process

end LdPreload
