/-
  LdPreload.Contract.Configuration

  The policy is taken from the environment once, whole or not at all.  What
  `init_rewrite_policy` leaves is told by `Configured`; that all wrappers and
  `getcwd` only ever see one such policy, in any interleaving of their steps
  with each other and with changes of the environment, by `TakenOnce`.
-/

import LdPreload.Rtld.GetcwdSound
import LdPreload.System.Kernel

namespace LdPreload

open CMem Once

/-! ## What is taken -/

/-- Both variables are set to absolute paths that can be cleaned. -/
def Configures (env : Environ) : Prop :=
  ∃ fromEnv toEnv, env.fromEnv = some fromEnv ∧ env.toEnv = some toEnv ∧
    0 < fromEnv.length ∧ 0 < toEnv.length ∧ isAbsolute fromEnv = true ∧ isAbsolute toEnv = true ∧
    (cleaned fromEnv).isSome = true ∧ (cleaned toEnv).isSome = true

/-- The policy `rp` is what the environment says, all of it or nothing. -/
structure Configured (env : Environ) (rp : RewritePolicy) : Prop where
  enabled_iff : rp.enabled = true ↔ Configures env
  from_cleaned : rp.enabled = true → env.fromEnv.bind cleaned = some rp.fromPath
  to_cleaned : rp.enabled = true → env.toEnv.bind cleaned = some rp.toPath
  from_absolute : rp.enabled = true → isAbsolute rp.fromPath = true
  to_absolute : rp.enabled = true → isAbsolute rp.toPath = true
  lengths : rp.enabled = true → rp.fromLen = rp.fromPath.length ∧ rp.toLen = rp.toPath.length
  short : rp.enabled = true → rp.fromLen < pathMax ∧ rp.toLen < pathMax

/-- Under the policy every call goes on with the arguments that it was given,
    and `getcwd` is the real one. -/
structure Inert (rp : RewritePolicy) : Prop where
  call : ∀ libc c, eval libc rp (interpose c) = .ok (libc.outcome c.effective)
  getcwd : ∀ libc buf n, eval libc rp (getcwd buf n) = eval libc rp (origGetcwd buf n)

theorem isAbsolute_pos {path : CString} (h : isAbsolute path = true) : 0 < path.length := by
  obtain ⟨rest, hrest⟩ := isAbsolute_iff.mp h
  rw [CString.length_def, hrest]
  exact Nat.succ_pos _

theorem Mapping.ConfiguredBy.configured {m : Mapping} {env : Environ} {fromEnv toEnv : CString}
    (h : m.ConfiguredBy env fromEnv toEnv) : Configured env m.policy where
  enabled_iff := by
    refine ⟨fun _ => ⟨fromEnv, toEnv, h.from_set, h.to_set, isAbsolute_pos h.from_absolute,
      isAbsolute_pos h.to_absolute, h.from_absolute, h.to_absolute, ?_, ?_⟩, fun _ => rfl⟩
    · rw [h.src_text]
      rfl
    · rw [h.dst_text]
      rfl
  from_cleaned _ := by
    rw [h.from_set, Option.bind_some, h.src_text]
    rfl
  to_cleaned _ := by
    rw [h.to_set, Option.bind_some, h.dst_text]
    rfl
  from_absolute _ := m.src.isAbsolute_of_append (List.append_nil _).symm
  to_absolute _ := m.dst.isAbsolute_of_append (List.append_nil _).symm
  lengths _ := ⟨rfl, rfl⟩
  short _ := ⟨m.src.short, m.dst.short⟩

/-- The zero that the policy starts with is what a useless environment says. -/
theorem configured_zero {env : Environ} (h : Unconfigured env) : Configured env {} where
  enabled_iff := by
    refine ⟨fun henabled => absurd henabled (by decide), fun hconf => ?_⟩
    obtain ⟨fromEnv, toEnv, hfrom, hto, -, -, hfromAbs, htoAbs, hfromClean, htoClean⟩ := hconf
    rcases h fromEnv toEnv hfrom hto hfromAbs htoAbs with hnone | hnone
    · rw [hnone] at hfromClean
      exact absurd hfromClean (by decide)
    · rw [hnone] at htoClean
      exact absurd htoClean (by decide)
  from_cleaned henabled := absurd henabled (by decide)
  to_cleaned henabled := absurd henabled (by decide)
  from_absolute henabled := absurd henabled (by decide)
  to_absolute henabled := absurd henabled (by decide)
  lengths henabled := absurd henabled (by decide)
  short henabled := absurd henabled (by decide)

/-- `init_rewrite_policy` ends, and leaves a policy for the environment. -/
theorem exists_configured (env : Environ) :
    ∃ rp, initRewritePolicy env = .ok rp ∧ Configured env rp := by
  rcases initRewritePolicy_cases env with ⟨m, fromEnv, toEnv, hm, hinit⟩ | ⟨hnone, hinit⟩
  · exact ⟨m.policy, hinit, hm.configured⟩
  · exact ⟨{}, hinit, configured_zero hnone⟩

theorem inert_of_disabled {rp : RewritePolicy} (h : rp.enabled = false) : Inert rp where
  call libc c := by
    rw [(rewrites_of_disabled libc h).eval_interpose c, Call.mapArgs_of_fixed (f := id)
      fun _ _ => rfl]
  getcwd libc buf n := eval_getcwd_of_disabled libc h buf n

/-! ## When it is taken -/

/-- What a program asks of the interposer. -/
inductive Request where
  | call (c : Call)
  | getcwd (buf : Option CharArray) (size : Nat)

inductive Reply where
  | call (outcome : Outcome)
  | getcwd (reply : CwdReply)

def Request.serve : Request → Interp Reply
  | .call c => do return .call (← interpose c)
  | .getcwd buf size => do return .getcwd (← LdPreload.getcwd buf size)

theorem guarded_serve (req : Request) : Guarded false req.serve := by
  cases req with
  | call c => exact Guarded.bind (guarded_interpose c) fun _ => guarded_pure _
  | getcwd buf size => exact Guarded.bind (guarded_getcwd buf size) fun _ => guarded_pure _

/-- A process before its first request: nothing is filled, no thread runs. -/
def freshProcess (env : Environ) : System Libc Environ RewritePolicy Stop Reply where
  cell := { environ := env, done := false, value := {}, reads := [] }
  threads := []

/-- A run from there. -/
def process (env : Environ) (events : List (Event Libc Environ RewritePolicy Stop Reply)) :
    System Libc Environ RewritePolicy Stop Reply :=
  (freshProcess env).run initRewritePolicy events

/-- Whatever wrappers and `getcwd` read in the run is one policy, which comes
    from the environment as it stood when the first of them consulted it. -/
def TakenOnce (env : Environ)
    (events : List (Event Libc Environ RewritePolicy Stop Reply)) : Prop :=
  (process env events).cell.reads = [] ∨
    ∃ pre post i libc next rp, events = pre ++ .advance i libc :: post ∧
      (process env pre).cell.reads = [] ∧ (process env pre).threads[i]? = some (.consult next) ∧
      initRewritePolicy (process env pre).cell.environ = .ok rp ∧
      ∀ x ∈ (process env events).cell.reads, x = rp

/-- A request that runs alone computes what it computes under the policy in
    force, filled already or not. -/
theorem exec_serve {libc : Libc} {c : Cell Environ RewritePolicy} {rp : RewritePolicy}
    (h : c.InForce initRewritePolicy rp) (req : Request) :
    (exec initRewritePolicy libc req.serve c).1 = eval libc rp req.serve := by
  have hguarded : Guarded c.done req.serve := by
    cases c.done with
    | false => exact guarded_serve req
    | true => exact (guarded_serve req).after
  exact (exec_eq_eval hguarded h).1

theorem takenOnce {env : Environ} {events : List (Event Libc Environ RewritePolicy Stop Reply)}
    (h : ∀ m, .start m ∈ events → ∃ req : Request, m = req.serve) : TakenOnce env events := by
  have hfresh : (freshProcess env).Fresh := ⟨rfl, rfl, fun m hm => absurd hm List.not_mem_nil⟩
  have hadmissible : System.Admissible events := by
    intro m hm
    obtain ⟨req, rfl⟩ := h m hm
    exact guarded_serve req
  rcases (System.reads_of_run hfresh hadmissible : (process env events).Fresh ∨ _) with hend |
    ⟨pre, post, i, libc, next, rp, hsplit, hpre, hget, hinit, hend⟩
  · exact Or.inl hend.reads
  · exact Or.inr ⟨pre, post, i, libc, next, rp, hsplit, hpre.reads, hget, hinit, hend.reads⟩

/-- The policy is configured whole or not at all, does nothing in the latter
    case, and is taken once in every run. -/
theorem policy_configured_once :
    (∀ env, ∃ rp, initRewritePolicy env = .ok rp ∧ Configured env rp ∧
      (rp.enabled = false → Inert rp)) ∧
    ∀ env events, (∀ m, .start m ∈ events → ∃ req : Request, m = req.serve) →
      TakenOnce env events := by
  refine ⟨fun env => ?_, fun _ _ h => takenOnce h⟩
  obtain ⟨rp, hinit, hconfigured⟩ := exists_configured env
  exact ⟨rp, hinit, hconfigured, inert_of_disabled⟩

/-- One `access` that has consulted the policy, while the environment changes
    around it. -/
theorem access_taken_once :
    TakenOnce ⟨none, none⟩
      [.start (Request.call (.access (some (.ofAscii ['/', 'a'])) 0)).serve, .setenv .aToB,
        .advance 0 (Kernel.libc ⟨.a, []⟩), .setenv ⟨none, none⟩,
        .advance 0 (Kernel.libc ⟨.a, []⟩)] := by
  refine policy_configured_once.2 _ _ fun m hm =>
    ⟨.call (.access (some (.ofAscii ['/', 'a'])) 0), ?_⟩
  simpa using hm

end LdPreload
