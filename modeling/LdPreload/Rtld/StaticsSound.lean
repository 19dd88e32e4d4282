/-
  LdPreload.Rtld.StaticsSound

  What the two routines leave in the statics (`table_of_fills`,
  `init_of_fills`), that they end, and how often a function of the interposer
  looks at the library and at the statics on its way (`uses_interpose`,
  `uses_getcwd`).
-/

import LdPreload.C.OnceProgress
import LdPreload.Rtld.Statics
import LdPreload.Rtld.WrappersSound

namespace LdPreload

open CMem Once

/-! ## What the routines leave -/

theorem mem_realNames (real : Real) : real ∈ realNames := by
  cases real with
  | path sym | fd sym => cases sym <;> decide

/-- Each pointer of the list is what `dlsym` has found for it at some time, the
    others stay as they are. -/
theorem fills_resolveSymbols {names : List Real} {v w : RealTable} {es : List Surroundings}
    (h : (names.foldr resolveSymbol .done).Fills v es w) (real : Real) :
    (∃ s ∈ es, w real = s.dlsym real) ∨ real ∉ names ∧ w real = v real := by
  induction names generalizing v es with
  | nil =>
    obtain ⟨-, rfl⟩ := Routine.fills_done.mp h
    exact Or.inr ⟨List.not_mem_nil, rfl⟩
  | cons name names ih =>
    rw [List.foldr_cons, resolveSymbol, Routine.fills_query] at h
    obtain ⟨s, es, rfl, h⟩ := h
    rcases ih (Routine.fills_store.mp h) with ⟨s', hs', hw⟩ | ⟨hmem, hw⟩
    · exact Or.inl ⟨s', List.mem_cons_of_mem _ hs', hw⟩
    · by_cases hname : real = name
      · subst hname
        rw [Function.update_self] at hw
        exact Or.inl ⟨s, List.mem_cons_self .., hw⟩
      · rw [Function.update_of_ne hname] at hw
        exact Or.inr ⟨List.not_mem_cons_of_ne_of_not_mem hname hmem, hw⟩

/-- `resolve_symbols` leaves every pointer as `dlsym` has found it. -/
theorem table_of_fills {v w : RealTable} {es : List Surroundings} (h : resolveSymbols.Fills v es w)
    (real : Real) : ∃ s ∈ es, w real = s.dlsym real :=
  (fills_resolveSymbols h real).resolve_right fun hout => hout.1 (mem_realNames real)

/-- The policy that the locals of `init_rewrite_policy` are installed as. -/
def policyOf : Option (CString × CString) → RewritePolicy
  | none => {}
  | some (fromPath, toPath) =>
    { enabled := true, fromLen := fromPath.length, toLen := toPath.length, fromPath := fromPath,
      toPath := toPath }

theorem initRewritePolicy_eq (env : Environ) :
    initRewritePolicy env = (cleanedPaths env.fromEnv env.toEnv).map policyOf := by
  obtain ⟨fromEnv, toEnv⟩ := env
  cases fromEnv with
  | none => rfl
  | some fromEnv =>
  cases toEnv with
  | none => rfl
  | some toEnv =>
  simp only [initRewritePolicy, cleanedPaths]
  by_cases hempty : fromEnv.charAt 0 = nul ∨ toEnv.charAt 0 = nul
  · rw [if_pos hempty, if_pos hempty]
    rfl
  rw [if_neg hempty, if_neg hempty]
  by_cases hrel : fromEnv.charAt 0 ≠ slash ∨ toEnv.charAt 0 ≠ slash
  · rw [if_pos hrel, if_pos hrel]
    rfl
  rw [if_neg hrel, if_neg hrel, installPolicy]
  -- from here on both go through the same computations
  generalize attempt (cleanPathInto (some fromEnv) (.uninit pathMax) pathMax) = x
  generalize attempt (cleanPathInto (some toEnv) (.uninit pathMax) pathMax) = y
  obtain e | _ | cleanedFrom := x
  · rfl
  · rfl
  obtain e | _ | cleanedTo := y
  · rfl
  · rfl
  show (cleanedFrom.read 0 >>= _) = Except.map policyOf (cleanedFrom.read 0 >>= _)
  obtain e | b := cleanedFrom.read 0
  · rfl
  show (cleanedTo.read 0 >>= _) = Except.map policyOf (cleanedTo.read 0 >>= _)
  obtain e | b' := cleanedTo.read 0
  · rfl
  show (if b ≠ slash ∨ b' ≠ slash then _ else _) =
    Except.map policyOf (if b ≠ slash ∨ b' ≠ slash then _ else _)
  by_cases hslash : b ≠ slash ∨ b' ≠ slash
  · rw [if_pos hslash, if_pos hslash]
    rfl
  rw [if_neg hslash, if_neg hslash]
  obtain e | fromPath := cleanedFrom.string
  · rfl
  obtain e | toPath := cleanedTo.string
  · rfl
  rfl

/-- No check of `init_rewrite_policy` goes wrong. -/
theorem exists_cleanedPaths (fromEnv toEnv : Option CString) :
    ∃ o, cleanedPaths fromEnv toEnv = .ok o := by
  have hinit : ∃ rp, (cleanedPaths fromEnv toEnv).map policyOf = .ok rp := by
    rw [← initRewritePolicy_eq ⟨fromEnv, toEnv⟩]
    rcases initRewritePolicy_cases ⟨fromEnv, toEnv⟩ with ⟨m, _, _, -, h⟩ | ⟨-, h⟩
    · exact ⟨m.policy, h⟩
    · exact ⟨{}, h⟩
  obtain ⟨rp, hrp⟩ := hinit
  cases h : cleanedPaths fromEnv toEnv with
  | ok o => exact ⟨o, rfl⟩
  | error e =>
    rw [h] at hrp
    exact absurd hrp (by simp [Except.map])

/-- `init_rewrite_policy` reads the environment twice, and leaves what the two
    values make together. -/
theorem init_of_fills {v w : RewritePolicy} {es : List Surroundings}
    (h : initRewritePolicyStores.Fills v es w) :
    ∃ s s', es = [s, s'] ∧
      initRewritePolicy ⟨s.environ.fromEnv, s'.environ.toEnv⟩ = .ok w := by
  simp only [initRewritePolicyStores, Routine.fills_store, Routine.fills_query] at h
  obtain ⟨s, es', rfl, s', es'', rfl, h⟩ := h
  obtain ⟨o, ho⟩ := exists_cleanedPaths s.environ.fromEnv s'.environ.toEnv
  rw [ho] at h
  have hw : es'' = [] ∧ w = policyOf o := by
    cases o with
    | none => simpa [policyOf] using h
    | some paths => simpa [storePolicy, policyOf] using h
  obtain ⟨rfl, rfl⟩ := hw
  refine ⟨s, s', rfl, ?_⟩
  rw [initRewritePolicy_eq, ho]
  rfl

/-! ## The routines end -/

theorem safe_routine (i : Static) : i.routine.Safe := by
  cases i with
  | symbols =>
    show (realNames.foldr resolveSymbol .done).Safe
    generalize realNames = names
    induction names with
    | nil => trivial
    | cons name names ih => exact fun _ => ih
  | policy =>
    intro s s'
    obtain ⟨o, ho⟩ := exists_cleanedPaths s.environ.fromEnv s'.environ.toEnv
    simp only [ho]
    cases o <;> trivial

/-- The number of steps that a routine takes at most. -/
def Static.steps : Static → Nat
  | .symbols => 86
  | .policy => 12

theorem bounded_resolveSymbols (names : List Real) :
    (names.foldr resolveSymbol .done).Bounded (2 * names.length) := by
  induction names with
  | nil => trivial
  | cons name names ih => exact fun _ => ih

theorem bounded_routine (i : Static) : i.routine.Bounded i.steps := by
  cases i with
  | symbols => exact bounded_resolveSymbols realNames
  | policy =>
    intro s s'
    obtain ⟨o, ho⟩ := exists_cleanedPaths s.environ.fromEnv s'.environ.toEnv
    simp only [ho]
    cases o <;> trivial

/-! ## How often functions look -/

/-- Libraries with the same pointers. -/
def SameSymbols (libc libc' : Libc) : Prop := libc.resolves = libc'.resolves

section Uses

theorem uses_orig (c : Call) : (orig c).Uses 1 0 := by
  refine Prog.uses_look_bind fun libc => ?_
  split <;> exact Prog.uses_pure ..

/-- All that a wrapper looks at in the end is the pointer. -/
theorem blind_orig (c : Call) : (orig c).Blind SameSymbols := by
  refine ⟨fun libc libc' h => ?_, fun libc => ?_⟩
  · show (if libc.resolves c.symbol then _ else _) = if libc'.resolves c.symbol then _ else _
    rw [show libc.resolves = libc'.resolves from h]
  · show (if libc.resolves c.symbol then _ else _ : Interp Outcome).Blind SameSymbols
    split <;> trivial

theorem looks_orig (c : Call) : (orig c).Looks := trivial

theorem uses_substitutePrefix (path : Option CString) (dst : CharArray) (n : Nat) :
    (substitutePrefix path dst n).Uses 0 1 :=
  Prog.uses_peek_bind fun _ => Prog.uses_lift ..

/-- An absolute path needs no look, -/
theorem uses_rewriteAbsolutePath (path : Option CString) (dst : CharArray) (n : Nat) :
    (rewriteAbsolutePath path dst n).Uses 0 2 := by
  cases path with
  | none => exact Prog.uses_pure ..
  | some path =>
    unfold rewriteAbsolutePath
    simp only
    split
    · exact Prog.uses_pure ..
    refine Prog.uses_consult_bind fun k => ?_
    split
    · exact Prog.uses_pure ..
    refine Prog.uses_lift_bind fun o => ?_
    cases o with
    | none => exact Prog.uses_pure ..
    | some cleaned =>
      refine Prog.uses_lift_bind fun text => ?_
      refine Prog.Uses.bind_local (uses_substitutePrefix _ _ _) fun r => ?_
      split <;> exact Prog.uses_pure ..

/-- and a relative one a single look, for its base. -/
theorem uses_rewriteRelativePathFromDirfd (d : Int32) (path : Option CString) (dst : CharArray)
    (n : Nat) : (rewriteRelativePathFromDirfd d path dst n).Uses 1 2 := by
  cases path with
  | none => exact Prog.uses_pure ..
  | some path =>
    unfold rewriteRelativePathFromDirfd
    simp only
    split
    · exact Prog.uses_pure ..
    refine Prog.uses_consult_bind fun k => ?_
    split
    · exact Prog.uses_pure ..
    refine Prog.uses_look_bind fun libc => ?_
    refine Prog.uses_lift_bind fun o => ?_
    cases o with
    | none => exact Prog.uses_pure ..
    | some arrays =>
      refine Prog.uses_lift_bind fun base => ?_
      refine Prog.uses_lift_bind fun o => ?_
      cases o with
      | none => exact Prog.uses_pure ..
      | some resolved =>
        refine Prog.uses_lift_bind fun text => ?_
        refine Prog.Uses.bind_local (uses_substitutePrefix _ _ _) fun r => ?_
        split <;> exact Prog.uses_pure ..

theorem uses_rewritePathArgument (p : Option CString) (buf : CharArray) (n : Nat) :
    (rewritePathArgument p buf n).Uses 0 2 := by
  unfold rewritePathArgument
  split
  · exact Prog.uses_pure ..
  refine Prog.Uses.bind_local (uses_rewriteAbsolutePath ..) fun r => ?_
  dsimp only
  split
  · exact Prog.uses_lift_bind fun _ => Prog.uses_pure ..
  · exact Prog.uses_pure ..

theorem uses_rewriteCwdRelativeArgument (p : Option CString) (buf : CharArray) (n : Nat) :
    (rewriteCwdRelativeArgument p buf n).Uses 1 2 := by
  cases p with
  | none => exact Prog.uses_pure ..
  | some path =>
    unfold rewriteCwdRelativeArgument
    simp only
    split
    · exact (uses_rewritePathArgument ..).mono (by omega) (by omega)
    refine Prog.Uses.bind_local (uses_rewriteRelativePathFromDirfd ..) fun r => ?_
    split
    · exact Prog.uses_lift_bind fun _ => Prog.uses_pure ..
    · exact Prog.uses_pure ..

theorem uses_rewriteAtArgument (d : Int32) (p : Option CString) (buf : CharArray) (n : Nat) :
    (rewriteAtArgument d p buf n).Uses 1 2 := by
  cases p with
  | none => exact Prog.uses_pure ..
  | some path =>
    unfold rewriteAtArgument
    simp only
    split
    · refine Prog.Uses.mono (l := 0) (c := 2) ?_ (by omega) (by omega)
      exact Prog.Uses.bind_local (uses_rewritePathArgument ..) fun r => Prog.uses_pure ..
    refine Prog.Uses.bind_local (uses_rewriteRelativePathFromDirfd ..) fun r => ?_
    split
    · exact Prog.uses_lift_bind fun _ => Prog.uses_pure ..
    · exact Prog.uses_pure ..

/-! ## Whole functions -/

/-- The calls that take two paths from directories. -/
def Call.takesTwo : Call → Bool
  | .link .. | .linkat .. | .rename .. | .renameat .. | .renameat2 .. => true
  | _ => false

/-- What holds of the shapes of wrappers, holds of all wrappers. -/
theorem interpose_cases {P : Interp Outcome → Prop} (c : Call)
    (onPath : ∀ p call, P (Wrapper.onPath p call))
    (onCwdPath : ∀ p call, P (Wrapper.onCwdPath p call))
    (onDirfdPath : ∀ d p call, P (Wrapper.onDirfdPath d p call))
    (symlink : ∀ target linkpath, P (Wrapper.symlink target linkpath))
    (symlinkat : ∀ target d linkpath, P (Wrapper.symlinkat target d linkpath))
    (close : ∀ fd, P (Wrapper.close fd))
    (onCwdPaths : c.takesTwo = true → ∀ p p' (call : Option CString → Option CString → Call), P do
      let oldTarget ← rewriteCwdRelativeArgument p (.uninit pathMax) pathMax
      let newTarget ← rewriteCwdRelativeArgument p' (.uninit pathMax) pathMax
      orig (call oldTarget newTarget))
    (onDirfdPaths : c.takesTwo = true → ∀ d p d' p' call, P (Wrapper.onDirfdPaths d p d' p' call)) :
    P (interpose c) := by
  cases c with
  | link oldpath newpath => exact onCwdPaths rfl oldpath newpath .link
  | rename oldpath newpath => exact onCwdPaths rfl oldpath newpath .rename
  | linkat d p d' p' flags =>
    exact onDirfdPaths rfl d p d' p' fun d p d' p' => .linkat d p d' p' flags
  | renameat d p d' p' => exact onDirfdPaths rfl d p d' p' .renameat
  | renameat2 d p d' p' flags =>
    exact onDirfdPaths rfl d p d' p' fun d p d' p' => .renameat2 d p d' p' flags
  | symlink target linkpath => exact symlink target linkpath
  | symlinkat target d linkpath => exact symlinkat target d linkpath
  | close fd => exact close fd
  | access | chdir | execve | euidaccess | statfs => exact onCwdPath ..
  | __lxstat | __xstat | creat | mkdir | «open» | readlink | lstat | rmdir | stat | truncate
  | unlink => exact onPath ..
  | __fxstatat | newfstatat | faccessat | fchmodat | mkdirat | openat | openat2 | readlinkat
  | statx | unlinkat | utimensat =>
    simp only [interpose, Wrapper.__fxstatat, Wrapper.newfstatat, Wrapper.faccessat,
      Wrapper.fchmodat, Wrapper.mkdirat, Wrapper.openat, Wrapper.openat2, Wrapper.readlinkat,
      Wrapper.statx, Wrapper.unlinkat, Wrapper.utimensat, onDirfdPath]

/-- All but these depend on the library at a single moment. -/
theorem atMoment_interpose {c : Call} (hc : c.takesTwo = false) :
    (interpose c).AtMoment SameSymbols := by
  have htwo : c.takesTwo ≠ true := by simp [hc]
  refine interpose_cases c (fun p call => ?_) (fun p call => ?_) (fun d p call => ?_)
    (fun target linkpath => ?_) (fun target d linkpath => ?_) (fun fd => (blind_orig _).atMoment)
    (fun h => absurd h htwo) (fun h => absurd h htwo)
  · exact Prog.Uses.bind_atMoment (uses_rewritePathArgument ..) fun _ => (blind_orig _).atMoment
  · exact (uses_rewriteCwdRelativeArgument ..).atMoment.bind fun _ => blind_orig _
  · unfold Wrapper.onDirfdPath
    split
    · exact Prog.Uses.bind_atMoment (uses_rewritePathArgument ..) fun _ => (blind_orig _).atMoment
    refine (uses_rewriteRelativePathFromDirfd ..).atMoment.bind fun r => ?_
    dsimp only
    split
    · exact Prog.Blind.bind (Prog.blind_lift _) fun _ => blind_orig _
    · exact blind_orig _
  · have hlinkpath : ∀ target', Prog.AtMoment SameSymbols (do
        let effectiveLinkpath ← rewriteCwdRelativeArgument linkpath (.uninit pathMax) pathMax
        orig (.symlink target' effectiveLinkpath)) := fun target' =>
      (uses_rewriteCwdRelativeArgument ..).atMoment.bind fun _ => blind_orig _
    unfold Wrapper.symlink
    split
    · exact Prog.Uses.bind_atMoment (uses_rewritePathArgument ..) hlinkpath
    · exact hlinkpath target
  · refine (uses_rewriteAtArgument ..).atMoment.bind fun r => ?_
    dsimp only
    split
    · exact (uses_rewritePathArgument ..).blind.bind fun _ => blind_orig _
    · exact blind_orig _

/-- No call looks more than three times, or reads the policy more than four
    times. -/
theorem uses_interpose (c : Call) : (interpose c).Uses 3 4 := by
  refine interpose_cases c (fun p call => ?_) (fun p call => ?_) (fun d p call => ?_)
    (fun target linkpath => ?_) (fun target d linkpath => ?_) (fun fd => ?_)
    (fun _ p p' call => ?_) (fun _ d p d' p' call => ?_)
  · refine Prog.Uses.mono (l := 1) (c := 2) ?_ (by omega) (by omega)
    exact Prog.Uses.bind (uses_rewritePathArgument ..) fun _ => uses_orig _
  · refine Prog.Uses.mono (l := 2) (c := 2) ?_ (by omega) (by omega)
    exact Prog.Uses.bind (uses_rewriteCwdRelativeArgument ..) fun _ => uses_orig _
  · refine Prog.Uses.mono (l := 2) (c := 2) ?_ (by omega) (by omega)
    unfold Wrapper.onDirfdPath
    split
    · refine Prog.Uses.mono (l := 1) (c := 2) ?_ (by omega) (by omega)
      exact Prog.Uses.bind (uses_rewritePathArgument ..) fun _ => uses_orig _
    refine Prog.Uses.bind (uses_rewriteRelativePathFromDirfd ..) fun r => (?_ : Prog.Uses 1 0 _)
    dsimp only
    split
    · exact Prog.uses_lift_bind fun _ => uses_orig _
    · exact uses_orig _
  · refine Prog.Uses.mono (l := 2) (c := 4) ?_ (by omega) (by omega)
    have hlinkpath : ∀ target', Prog.Uses 2 2 (do
        let effectiveLinkpath ← rewriteCwdRelativeArgument linkpath (.uninit pathMax) pathMax
        orig (.symlink target' effectiveLinkpath)) := fun target' =>
      Prog.Uses.bind (uses_rewriteCwdRelativeArgument ..) fun _ => uses_orig _
    unfold Wrapper.symlink
    split
    · exact Prog.Uses.bind (uses_rewritePathArgument ..) hlinkpath
    · exact (hlinkpath target).mono (by omega) (by omega)
  · refine Prog.Uses.mono (l := 2) (c := 4) ?_ (by omega) (by omega)
    refine Prog.Uses.bind (uses_rewriteAtArgument ..) fun r => (?_ : Prog.Uses 1 2 _)
    dsimp only
    split
    · exact Prog.Uses.bind (uses_rewritePathArgument ..) fun _ => uses_orig _
    · exact (uses_orig _).mono (by omega) (by omega)
  · exact (uses_orig _).mono (by omega) (by omega)
  · exact Prog.Uses.bind (uses_rewriteCwdRelativeArgument ..) fun _ =>
      Prog.Uses.bind (uses_rewriteCwdRelativeArgument ..) fun _ => uses_orig _
  · exact Prog.Uses.bind (uses_rewriteAtArgument ..) fun _ =>
      Prog.Uses.bind (uses_rewriteAtArgument ..) fun _ => uses_orig _

/-- No call ends without a look at the pointer. -/
theorem looks_interpose (c : Call) : (interpose c).Looks := by
  refine interpose_cases c (fun p call => ?_) (fun p call => ?_) (fun d p call => ?_)
    (fun target linkpath => ?_) (fun target d linkpath => ?_) (fun fd => ?_)
    (fun _ p p' call => ?_) (fun _ d p d' p' call => ?_)
  · exact Prog.Looks.bind fun _ => looks_orig _
  · exact Prog.Looks.bind fun _ => looks_orig _
  · unfold Wrapper.onDirfdPath
    split
    · exact Prog.Looks.bind fun _ => looks_orig _
    refine Prog.Looks.bind fun r => ?_
    dsimp only
    split
    · exact Prog.Looks.bind fun _ => looks_orig _
    · exact looks_orig _
  · unfold Wrapper.symlink
    split
    · exact Prog.Looks.bind fun _ => Prog.Looks.bind fun _ => looks_orig _
    · exact Prog.Looks.bind fun _ => looks_orig _
  · refine Prog.Looks.bind fun r => ?_
    dsimp only
    split
    · exact Prog.Looks.bind fun _ => looks_orig _
    · exact looks_orig _
  · exact looks_orig _
  · exact Prog.Looks.bind fun _ => Prog.Looks.bind fun _ => looks_orig _
  · exact Prog.Looks.bind fun _ => Prog.Looks.bind fun _ => looks_orig _

theorem uses_getcwd (buf : Option CharArray) (size : Nat) : (getcwd buf size).Uses 1 2 := by
  have hreply : (origGetcwd buf size).Uses 1 0 := by
    refine Prog.uses_look_bind fun libc => ?_
    split
    · exact Prog.uses_pure ..
    cases buf with
    | none =>
      simp only
      split <;> exact Prog.uses_pure ..
    | some buf =>
      simp only
      split
      · exact Prog.uses_lift_bind fun _ => Prog.uses_pure ..
      · exact Prog.uses_pure ..
  refine Prog.Uses.bind hreply fun result => (?_ : Prog.Uses 0 2 _)
  split
  · exact Prog.uses_pure ..
  refine Prog.uses_consult_bind fun k => ?_
  split
  · exact Prog.uses_pure ..
  refine Prog.uses_lift_bind fun path => Prog.Uses.bind_local (Prog.uses_peek_bind fun _ =>
    Prog.uses_lift ..) fun r => ?_
  dsimp only
  split
  · exact Prog.uses_pure ..
  refine Prog.uses_lift_bind fun text => ?_
  split
  · exact Prog.uses_pure ..
  · exact Prog.uses_lift ..

theorem looks_getcwd (buf : Option CharArray) (size : Nat) : (getcwd buf size).Looks := trivial

end Uses

/-! ## Access by access -/

section ToJob

variable {α : Type} {m : Interp α}

/-- A guarded function loads the policy behind `pthread_once`. -/
theorem guarded_toJob {filled : Bool} {filled' : Static → Prop} (hm : Guarded filled m)
    (hfilled : filled = true → filled' .policy) : (Interp.toJob m).Guarded filled' := by
  induction m generalizing filled filled' with
  | ret a => trivial
  | stop e => trivial
  | look next ih =>
    exact ⟨Or.inl rfl, fun table w => ih _ (hm _) fun h => Or.inr (hfilled h)⟩
  | consult next ih => exact ⟨Or.inl rfl, fun rp => ih rp (hm rp) fun _ => Or.inl rfl⟩
  | peek next ih => exact ⟨hfilled hm.1, fun rp => ih rp (hm.2 rp) hfilled⟩

/-- A look takes three steps, a read of the policy at most two. -/
theorem bounded_toJob {l c : Nat} (hm : m.Uses l c) :
    (Interp.toJob m).Bounded (3 * l + 2 * c) := by
  induction m generalizing l c with
  | ret a => exact (Job.Bounded.mono (n := 0) trivial (Nat.zero_le _))
  | stop e => exact (Job.Bounded.mono (n := 0) trivial (Nat.zero_le _))
  | look next ih =>
    obtain _ | l := l
    · cases c <;> exact absurd hm id
    have hnext : ∀ table w, (Interp.toJob (next (World.libc w table))).Bounded (3 * l + 2 * c) :=
      fun table w => ih _ (hm _)
    rw [show 3 * (l + 1) + 2 * c = 3 * l + 2 * c + 3 by omega]
    exact hnext
  | consult next ih =>
    obtain _ | c := c
    · cases l <;> exact absurd hm id
    exact fun rp => ih rp (hm rp)
  | peek next ih =>
    obtain _ | c := c
    · cases l <;> exact absurd hm id
    exact Job.Bounded.mono (n := 3 * l + 2 * c + 1) (fun rp => ih rp (hm rp)) (by omega)

/-- In one world, the accesses compute what the function computes. -/
theorem eval_toJob (vals : ∀ i : Static, i.Value) (w : World) (m : Interp α) :
    (Interp.toJob m).eval vals w = eval (w.libc (vals .symbols)) (vals .policy) m := by
  induction m with
  | ret a => rfl
  | stop e => rfl
  | look next ih => exact ih (w.libc (vals .symbols))
  | consult next ih => exact ih (vals .policy)
  | peek next ih => exact ih (vals .policy)

/-- What the accesses compute, the function sees over the same statics. -/
theorem sees_of_evals {vals : ∀ i : Static, i.Value} {ws : List World} {x : Except Stop α}
    (h : (Interp.toJob m).Evals vals ws x) :
    Prog.Sees (vals .policy) m (ws.map fun w => w.libc (vals .symbols)) x := by
  induction m generalizing ws with
  | ret a =>
    cases h
    exact .ret a
  | stop e =>
    cases h
    exact .stop e
  | look next ih =>
    cases h with
    | once h =>
      cases h with
      | load h =>
        cases h with
        | look h => exact .look (ih _ h)
  | consult next ih =>
    cases h with
    | once h =>
      cases h with
      | load h => exact .consult (ih _ h)
  | peek next ih =>
    cases h with
    | load h => exact .peek (ih _ h)

end ToJob

end LdPreload
