/-
  LdPreload.Contract.Threads

  Threads that run exported functions at the same time, interleaved at every
  access to the statics, while the environment, what `dlsym` finds and the
  directories of the process change around them.

  Nobody sees a policy that is half filled or a pointer that has not been
  looked up, and all see the same (`statics_taken`).  A call with one path
  depends on the directories of the process at one moment of its own
  (`answered_at_moments`); with two, each path has a moment.  And nobody waits
  for ever (`threads_progress`).
-/

import LdPreload.Contract.Configuration
import LdPreload.Rtld.Arguments
import LdPreload.Rtld.StaticsSound

namespace LdPreload

open CMem Once

/-! ## Threads -/

/-- A call of an exported function. -/
inductive Entry where
  | request (req : Request)
  | onFd (c : FdCall)

inductive Answer where
  | reply (r : Reply)
  | onFd (o : FdOutcome)

def Entry.job : Entry → Job World Static.Value Stop Answer
  | .request req => Interp.toJob do return .reply (← req.serve)
  | .onFd c => do return .onFd (← interposeFd c)

/-- Threads with the statics of their process. -/
abbrev Threads : Type := Machine World Surroundings Static.Value Stop Answer

abbrev ThreadMove : Type := Move World Surroundings Static.Value Stop Answer

/-- A run of threads, from the moment that the interposer was loaded. -/
def threads (s : Surroundings) (moves : List ThreadMove) : Threads :=
  (Machine.fresh s Static.zero).run Static.routine moves

/-- The surroundings at all moments of a run, its end included. -/
def moments (s : Surroundings) (moves : List ThreadMove) : List Surroundings :=
  (Machine.fresh s Static.zero : Threads).environs Static.routine moves ++
    [(threads s moves).globals.environ]

/-- The threads run these exported functions, one each. -/
def Runs (moves : List ThreadMove) (entries : List Entry) : Prop :=
  Move.started moves = entries.map Entry.job

/-! ## What is taken -/

/-- All that a run ever loads of its statics are the table and the policy.
    Every pointer of the table is what `dlsym` has found at some moment, and
    the policy is what the two variables say, each at a moment of its own. -/
structure Takes (s : Surroundings) (moves : List ThreadMove) (table : RealTable)
    (rp : RewritePolicy) : Prop where
  resolved : ∀ real, ∃ s' ∈ moments s moves, table real = s'.dlsym real
  configured : ∃ s₁ s₂, (s₁ = s₂ ∧ s₁ ∈ moments s moves ∨ [s₁, s₂].Sublist (moments s moves)) ∧
    initRewritePolicy ⟨s₁.environ.fromEnv, s₂.environ.toEnv⟩ = .ok rp
  symbols_loads : ∀ v, ⟨.symbols, v⟩ ∈ (threads s moves).globals.reads → v = table
  policy_loads : ∀ v, ⟨.policy, v⟩ ∈ (threads s moves).globals.reads → v = rp

/-- The statics with these values. -/
def Static.pick (table : RealTable) (rp : RewritePolicy) : ∀ i : Static, i.Value
  | symbols => table
  | policy => rp

variable {s : Surroundings} {moves : List ThreadMove} {entries : List Entry}

theorem interposeFd_eq (c : FdCall) : interposeFd c = origFd c := by
  cases c <;> rfl

theorem guarded_job (entry : Entry) : entry.job.Guarded fun _ => False := by
  cases entry with
  | request req =>
    have hserve : Guarded false (do return Answer.reply (← req.serve) : Interp Answer) :=
      Guarded.bind (guarded_serve req) fun _ => guarded_pure _
    exact guarded_toJob hserve fun h => absurd h (by decide)
  | onFd c =>
    rw [Entry.job, interposeFd_eq]
    refine ⟨Or.inl rfl, fun table => ?_⟩
    show (Job.bind (if (table (.fd c.symbol)).isSome then _ else _) _).Guarded _
    split <;> trivial

theorem Runs.admissible (h : Runs moves entries) : Machine.Admissible moves := by
  intro m hm
  rw [show Move.started moves = _ from h] at hm
  obtain ⟨entry, -, rfl⟩ := List.mem_map.mp hm
  exact guarded_job entry

theorem mem_moments_start (s : Surroundings) (moves : List ThreadMove) : s ∈ moments s moves := by
  cases moves with
  | nil => exact List.mem_singleton_self s
  | cons mv moves => exact List.mem_cons_self ..

/-- There are values that the statics take, and hold where they are filled. -/
theorem exists_takes (h : Runs moves entries) : ∃ table rp, Takes s moves table rp ∧
    ∀ i, (threads s moves).globals.Filled i →
      Static.pick table rp i = (threads s moves).globals.value i := by
  have hcoherent : Machine.Coherent Static.routine Static.zero _ (threads s moves) :=
    Machine.coherent_run safe_routine s h.admissible
  have hsub := List.sublist_append_left
    ((Machine.fresh s Static.zero : Threads).environs Static.routine moves)
    [(threads s moves).globals.environ]
  -- where a static has not been filled, any value that it might have taken will do
  have hsymbols : ∃ table : RealTable,
      (∀ real, ∃ s' ∈ moments s moves, table real = s'.dlsym real) ∧
      ((threads s moves).globals.Filled .symbols →
        table = (threads s moves).globals.value .symbols) := by
    by_cases hfilled : (threads s moves).globals.Filled .symbols
    · have hcell := hcoherent.sound.filled .symbols
      rw [show (threads s moves).globals.control .symbols = .finished from hfilled] at hcell
      obtain ⟨seen, hseen, hfills⟩ := hcell
      refine ⟨_, fun real => ?_, fun _ => rfl⟩
      obtain ⟨s', hs', hreal⟩ := table_of_fills hfills real
      exact ⟨s', hsub.subset (hseen.subset hs'), hreal⟩
    · exact ⟨s.dlsym, fun real => ⟨s, mem_moments_start s moves, rfl⟩, fun h => absurd h hfilled⟩
  have hpolicy : ∃ rp, (∃ s₁ s₂, (s₁ = s₂ ∧ s₁ ∈ moments s moves ∨
        [s₁, s₂].Sublist (moments s moves)) ∧
        initRewritePolicy ⟨s₁.environ.fromEnv, s₂.environ.toEnv⟩ = .ok rp) ∧
      ((threads s moves).globals.Filled .policy →
        rp = (threads s moves).globals.value .policy) := by
    by_cases hfilled : (threads s moves).globals.Filled .policy
    · have hcell := hcoherent.sound.filled .policy
      rw [show (threads s moves).globals.control .policy = .finished from hfilled] at hcell
      obtain ⟨seen, hseen, hfills⟩ := hcell
      obtain ⟨s₁, s₂, rfl, hinit⟩ := init_of_fills hfills
      exact ⟨_, ⟨s₁, s₂, Or.inr (hseen.trans hsub), hinit⟩, fun _ => rfl⟩
    · obtain ⟨rp, hinit, -⟩ := exists_configured s.environ
      exact ⟨rp, ⟨s, s, Or.inl ⟨rfl, mem_moments_start s moves⟩, hinit⟩,
        fun h => absurd h hfilled⟩
  obtain ⟨table, htable, htableEq⟩ := hsymbols
  obtain ⟨rp, hrp, hrpEq⟩ := hpolicy
  refine ⟨table, rp, ⟨htable, hrp, fun v hv => ?_, fun v hv => ?_⟩, fun i hi => ?_⟩
  · obtain ⟨hfilled, rfl⟩ := hcoherent.sound.reads .symbols v hv
    exact (htableEq hfilled).symm
  · obtain ⟨hfilled, rfl⟩ := hcoherent.sound.reads .policy v hv
    exact (hrpEq hfilled).symm
  · cases i with
    | symbols => exact htableEq hi
    | policy => exact hrpEq hi

/-- In any interleaving, all loads of the statics are of one table of pointers
    and of one whole policy. -/
theorem statics_taken (s : Surroundings) (moves : List ThreadMove) (entries : List Entry)
    (h : Runs moves entries) : ∃ table rp, Takes s moves table rp := by
  obtain ⟨table, rp, htakes, -⟩ := exists_takes h
  exact ⟨table, rp, htakes⟩

/-- The world of a process at the root. -/
def World.atRoot : World := (Kernel.libc ⟨.root, []⟩).world

/-- Before anything is set, and when `dlsym` finds everything. -/
def Surroundings.unset : Surroundings := ⟨⟨none, none⟩, fun _ => some 1⟩

/-- Two threads consult the policy, and the environment changes while the first
    of them is at it. -/
def twoThreads : List ThreadMove :=
  [.start (Entry.request (.call (.access (some (.ofAscii ['/', 'a'])) 0))).job, .advance 0 .atRoot,
    .advance 0 .atRoot, .setenv ⟨.aToB, fun _ => some 1⟩,
    .start (Entry.request (.call (.mkdir (some (.ofAscii ['/', 'a'])) 0))).job, .advance 1 .atRoot,
    .advance 0 .atRoot]

theorem statics_taken_by_two : ∃ table rp, Takes .unset twoThreads table rp :=
  statics_taken .unset twoThreads [.request (.call (.access (some (.ofAscii ['/', 'a'])) 0)),
    .request (.call (.mkdir (some (.ofAscii ['/', 'a'])) 0))] rfl

/-! ## What is answered -/

/-- The call with other paths, where it takes two of them from directories. -/
def Call.withPaths (a b : PathArg) : Call → Call
  | .link .. => .link a.path b.path
  | .rename .. => .rename a.path b.path
  | .linkat _ _ _ _ flags => .linkat a.dirfd a.path b.dirfd b.path flags
  | .renameat .. => .renameat a.dirfd a.path b.dirfd b.path
  | .renameat2 _ _ _ _ flags => .renameat2 a.dirfd a.path b.dirfd b.path flags
  | c => c

/-- The answer is computed from the table, from the policy, and from the
    library as it was at moments out of `ws`: at a single one, except that two
    paths may have been looked at one after the other. -/
inductive AnsweredAt (table : RealTable) (rp : RewritePolicy) (ws : List World) :
    Entry → Answer → Prop where
  | call {c : Call} {o : Outcome} {w : World} (hc : c.takesTwo = false) (hw : w ∈ ws)
      (h : eval (w.libc table) rp (interpose c) = .ok o) :
    AnsweredAt table rp ws (.request (.call c)) (.reply (.call o))
  | twoPaths {c : Call} {o : Outcome} {w₁ w₂ : World} {a b : PathArg} {f g : PathArg → PathArg}
      (hc : c.takesTwo = true) (hargs : c.args = [a, b]) (hw₁ : w₁ ∈ ws) (hw₂ : w₂ ∈ ws)
      (hf : Follows (w₁.libc table) rp f) (hg : Follows (w₂.libc table) rp g)
      (h : o = (w₁.libc table).outcome (c.withPaths (f a) (g b))) :
    AnsweredAt table rp ws (.request (.call c)) (.reply (.call o))
  | getcwd {buf : Option CharArray} {size : Nat} {r : CwdReply} {w : World} (hw : w ∈ ws)
      (h : eval (w.libc table) rp (LdPreload.getcwd buf size) = .ok r) :
    AnsweredAt table rp ws (.request (.getcwd buf size)) (.reply (.getcwd r))
  | onFd {c : FdCall} {o : FdOutcome}
      (h : o = if (table (.fd c.symbol)).isSome then .forwarded c else .enosys) :
    AnsweredAt table rp ws (.onFd c) (.onFd o)

theorem AnsweredAt.mono {table : RealTable} {rp : RewritePolicy} {ws ws' : List World}
    {entry : Entry} {answer : Answer} (h : AnsweredAt table rp ws entry answer) (hsub : ws ⊆ ws') :
    AnsweredAt table rp ws' entry answer := by
  cases h with
  | call hc hw h => exact .call hc (hsub hw) h
  | twoPaths hc hargs hw₁ hw₂ hf hg h => exact .twoPaths hc hargs (hsub hw₁) (hsub hw₂) hf hg h
  | getcwd hw h => exact .getcwd (hsub hw) h
  | onFd h => exact .onFd h

section Sees

variable {table : RealTable} {rp : RewritePolicy} {ws ws' : List World} {α : Type}

/-- The libraries that a function sees, out of the worlds of its thread. -/
def World.libcs (table : RealTable) (ws : List World) : List Libc := ws.map (World.libc · table)

theorem sameSymbols_libcs : ∀ r ∈ World.libcs table ws, ∀ r' ∈ World.libcs table ws,
    SameSymbols r r' := by
  intro r hr r' hr'
  obtain ⟨w, -, rfl⟩ := List.mem_map.mp hr
  obtain ⟨w', -, rfl⟩ := List.mem_map.mp hr'
  rfl

/-- What depends on one moment has a moment. -/
theorem eval_of_sees {m : Interp α} {a : α} (h : m.Sees rp (World.libcs table ws') (.ok a))
    (hm : m.AtMoment SameSymbols) (hsub : ws' ⊆ ws) (hne : ws ≠ []) :
    ∃ w ∈ ws, eval (w.libc table) rp m = .ok a := by
  obtain ⟨r, hr, ha⟩ := h.eq_eval hm sameSymbols_libcs (List.map_subset _ hsub)
    (fun hnil => hne (List.map_eq_nil_iff.mp hnil))
  obtain ⟨w, hw, rfl⟩ := List.mem_map.mp hr
  exact ⟨w, hw, ha.symm⟩

theorem sees_bind_libcs {β : Type} {m : Interp α} {g : α → Interp β} {b : β}
    (h : (m >>= g).Sees rp (World.libcs table ws) (.ok b)) :
    ∃ a ws₁ ws₂, ws = ws₁ ++ ws₂ ∧ m.Sees rp (World.libcs table ws₁) (.ok a) ∧
      (g a).Sees rp (World.libcs table ws₂) (.ok b) := by
  rcases Prog.sees_bind h with ⟨a, rs₁, rs₂, hsplit, h₁, h₂⟩ | ⟨e, he, -⟩
  · obtain ⟨ws₁, ws₂, rfl, rfl, rfl⟩ := List.map_eq_append_iff.mp hsplit
    exact ⟨a, ws₁, ws₂, rfl, h₁, h₂⟩
  · exact absurd he (by simp)

theorem sees_orig {c : Call} {o : Outcome} (h : (orig c).Sees rp (World.libcs table ws) (.ok o)) :
    ∃ w ∈ ws, o = (w.libc table).outcome c := by
  have hne : ws ≠ [] := by
    rintro rfl
    exact h.ne_nil (looks_orig c) rfl
  obtain ⟨w, hw, ho⟩ := eval_of_sees h (blind_orig c).atMoment (List.Subset.refl ws) hne
  rw [eval_orig] at ho
  exact ⟨w, hw, (Except.ok.inj ho).symm⟩

variable {env : Environ} {o : Outcome}

/-- Two looks, one after the other, and the call of what they give. -/
theorem sees_two {β : Type} {m : Interp α} {m' : Interp β} {call : α → β → Call}
    (h : Prog.Sees rp (do
      let a ← m
      let b ← m'
      orig (call a b)) (World.libcs table ws) (.ok o))
    (hm : m.AtMoment SameSymbols) (hm' : m'.AtMoment SameSymbols) :
    ∃ w₁ ∈ ws, ∃ w₂ ∈ ws, ∃ a b, eval (w₁.libc table) rp m = .ok a ∧
      eval (w₂.libc table) rp m' = .ok b ∧ o = (w₁.libc table).outcome (call a b) := by
  obtain ⟨a, ws₁, ws', rfl, h₁, h⟩ := sees_bind_libcs h
  obtain ⟨b, ws₂, ws₃, rfl, h₂, h₃⟩ := sees_bind_libcs h
  obtain ⟨w, hw, rfl⟩ := sees_orig h₃
  have hne : ws₁ ++ (ws₂ ++ ws₃) ≠ [] := by
    have := List.ne_nil_of_mem hw
    simp [this]
  obtain ⟨w₁, hw₁, ha⟩ := eval_of_sees h₁ hm (fun w hw => List.mem_append_left _ hw) hne
  obtain ⟨w₂, hw₂, hb⟩ := eval_of_sees h₂ hm'
    (fun w hw => List.mem_append_right _ (List.mem_append_left _ hw)) hne
  exact ⟨w₁, hw₁, w₂, hw₂, a, b, ha, hb, rfl⟩

/-- Two paths from the current directory, one after the other. -/
theorem sees_onCwdPaths (hinit : initRewritePolicy env = .ok rp) {p p' : Option CString}
    {call : Option CString → Option CString → Call}
    (h : Prog.Sees rp (do
      let oldTarget ← rewriteCwdRelativeArgument p (.uninit pathMax) pathMax
      let newTarget ← rewriteCwdRelativeArgument p' (.uninit pathMax) pathMax
      orig (call oldTarget newTarget)) (World.libcs table ws) (.ok o)) :
    ∃ w₁ ∈ ws, ∃ w₂ ∈ ws, ∃ f g, Follows (w₁.libc table) rp f ∧ Follows (w₂.libc table) rp g ∧
      o = (w₁.libc table).outcome
        (call (f ⟨true, atFdcwd, p⟩).path (g ⟨true, atFdcwd, p'⟩).path) := by
  obtain ⟨w₁, hw₁, w₂, hw₂, a, b, ha, hb, rfl⟩ := sees_two h
    (uses_rewriteCwdRelativeArgument ..).atMoment (uses_rewriteCwdRelativeArgument ..).atMoment
  obtain ⟨f, hf⟩ := exists_follows hinit (w₁.libc table)
  obtain ⟨g, hg⟩ := exists_follows hinit (w₂.libc table)
  obtain rfl := Except.ok.inj ((hf.rewrites.cwdPath p).symm.trans ha)
  obtain rfl := Except.ok.inj ((hg.rewrites.cwdPath p').symm.trans hb)
  exact ⟨w₁, hw₁, w₂, hw₂, f, g, hf, hg, rfl⟩

/-- Two paths from descriptors, one after the other. -/
theorem sees_onDirfdPaths (hinit : initRewritePolicy env = .ok rp) {d d' : Int32}
    {p p' : Option CString} {call : Int32 → Option CString → Int32 → Option CString → Call}
    (h : (Wrapper.onDirfdPaths d p d' p' call).Sees rp (World.libcs table ws) (.ok o)) :
    ∃ w₁ ∈ ws, ∃ w₂ ∈ ws, ∃ f g, Follows (w₁.libc table) rp f ∧ Follows (w₂.libc table) rp g ∧
      o = (w₁.libc table).outcome (call (f ⟨true, d, p⟩).dirfd (f ⟨true, d, p⟩).path
        (g ⟨true, d', p'⟩).dirfd (g ⟨true, d', p'⟩).path) := by
  obtain ⟨w₁, hw₁, w₂, hw₂, a, b, ha, hb, rfl⟩ := sees_two h
    (uses_rewriteAtArgument ..).atMoment (uses_rewriteAtArgument ..).atMoment
  obtain ⟨f, hf⟩ := exists_follows hinit (w₁.libc table)
  obtain ⟨g, hg⟩ := exists_follows hinit (w₂.libc table)
  obtain rfl := Except.ok.inj ((hf.rewrites.atPath d p).symm.trans ha)
  obtain rfl := Except.ok.inj ((hg.rewrites.atPath d' p').symm.trans hb)
  exact ⟨w₁, hw₁, w₂, hw₂, f, g, hf, hg, rfl⟩

/-- A call that has been answered, was answered at moments of its own. -/
theorem answeredAt_call (hinit : initRewritePolicy env = .ok rp) {c : Call}
    (h : (interpose c).Sees rp (World.libcs table ws) (.ok o)) :
    AnsweredAt table rp ws (.request (.call c)) (.reply (.call o)) := by
  have hne : ws ≠ [] := by
    rintro rfl
    exact h.ne_nil (looks_interpose c) rfl
  cases hc : c.takesTwo with
  | false =>
    obtain ⟨w, hw, heval⟩ := eval_of_sees h (atMoment_interpose hc) (List.Subset.refl ws) hne
    exact .call hc hw heval
  | true =>
    cases c with
    | link | rename =>
      obtain ⟨w₁, hw₁, w₂, hw₂, f, g, hf, hg, ho⟩ := sees_onCwdPaths hinit h
      exact .twoPaths hc rfl hw₁ hw₂ hf hg ho
    | linkat | renameat | renameat2 =>
      simp only [interpose, Wrapper.linkat, Wrapper.renameat, Wrapper.renameat2] at h
      obtain ⟨w₁, hw₁, w₂, hw₂, f, g, hf, hg, ho⟩ := sees_onDirfdPaths hinit h
      exact .twoPaths hc rfl hw₁ hw₂ hf hg ho
    | _ => exact absurd hc (by simp [Call.takesTwo])

end Sees

theorem answeredAt_of_evals {table : RealTable} {rp : RewritePolicy} {ws : List World}
    {env : Environ} (hinit : initRewritePolicy env = .ok rp) {entry : Entry} {answer : Answer}
    (h : entry.job.Evals (Static.pick table rp) ws (.ok answer)) :
    AnsweredAt table rp ws entry answer := by
  cases entry with
  | request req =>
    obtain ⟨r, rfl, hserve⟩ := Prog.sees_map (sees_of_evals h)
    cases req with
    | call c =>
      obtain ⟨o, rfl, hcall⟩ := Prog.sees_map hserve
      exact answeredAt_call hinit hcall
    | getcwd buf size =>
      obtain ⟨r, rfl, hgetcwd⟩ := Prog.sees_map hserve
      replace hgetcwd : (LdPreload.getcwd buf size).Sees rp (World.libcs table ws) (.ok r) :=
        hgetcwd
      have hne : ws ≠ [] := by
        rintro rfl
        exact hgetcwd.ne_nil (looks_getcwd buf size) rfl
      obtain ⟨w, hw, heval⟩ := eval_of_sees hgetcwd
        (uses_getcwd buf size).atMoment (List.Subset.refl ws) hne
      exact .getcwd hw heval
  | onFd c =>
    rw [Entry.job, interposeFd_eq] at h
    rcases Job.evals_bind h with ⟨o, ws₁, ws₂, rfl, h₁, h₂⟩ | ⟨e, he, -⟩
    · cases h₂
      refine .onFd ?_
      cases h₁ with
      | once h₁ =>
        cases h₁ with
        | load h₁ =>
          dsimp only [Static.pick] at h₁
          split at h₁ <;> cases h₁ <;> simp [*]
    · exact absurd he (by simp)

/-- In any interleaving there are one table of pointers and one policy, so that
    every thread that has ended, has answered as the library was at moments
    of its own steps. -/
theorem answered_at_moments (s : Surroundings) (moves : List ThreadMove) (entries : List Entry)
    (h : Runs moves entries) : ∃ table rp, Takes s moves table rp ∧
      ∀ n entry answer, entries[n]? = some entry →
        (threads s moves).threads[n]? = some (.ret answer) →
          AnsweredAt table rp (Move.worlds n moves) entry answer := by
  obtain ⟨table, rp, htakes, hpick⟩ := exists_takes (s := s) h
  refine ⟨table, rp, htakes, fun n entry answer hentry hret => ?_⟩
  have htraced : Machine.Traced moves (threads s moves) :=
    Machine.traced_run safe_routine s h.admissible
  obtain ⟨m, ws, hm, hws, hleft⟩ := htraced.left hret
  -- the thread was started on the job of its entry
  rw [show Move.started moves = _ from h, List.getElem?_map, hentry] at hm
  obtain rfl := Option.some.inj hm
  have hevals := hleft (Static.pick table rp) hpick [] (.ok answer) (.ret answer)
  rw [List.append_nil] at hevals
  obtain ⟨s₁, s₂, -, hinit⟩ := htakes.configured
  exact (answeredAt_of_evals hinit hevals).mono hws.subset

/-- The world of a process in `/a`. -/
def World.inA : World := (Kernel.libc ⟨.a, []⟩).world

/-- `access ("x", 0)` as it is called. -/
def Entry.accessX : Entry := .request (.call (.access (some (.ofAscii ['x'])) 0))

/-- `rename ("x", "y")` as it is called. -/
def Entry.renameXY : Entry :=
  .request (.call (.rename (some (.ofAscii ['x'])) (some (.ofAscii ['y']))))

/-- Two threads take `n` steps each, in turns, while the world is `w`. -/
def turns (n : Nat) (w : World) : List ThreadMove :=
  (List.replicate n [.advance 0 w, .advance 1 w]).flatten

/-- Both look at the current directory in `/a`, the second one for its first
    path only.  Then the current directory becomes the root. -/
def accessRename : List ThreadMove :=
  [.start Entry.accessX.job, .start Entry.renameXY.job] ++ turns 108 .inA ++ turns 10 .atRoot

/-- The environment maps `/a` to `/b`, and `dlsym` finds everything. -/
def Surroundings.aToB : Surroundings := ⟨.aToB, fun _ => some 1⟩

set_option maxRecDepth 8000 in
theorem threads_accessRename : (threads .aToB accessRename).threads =
    [.ret (.reply (.call (.forwarded (.access (some (.ofAscii ['/', 'b', '/', 'x'])) 0)))),
      .ret (.reply (.call (.forwarded
        (.rename (some (.ofAscii ['/', 'b', '/', 'x'])) (some (.ofAscii ['y']))))))] :=
  rfl

/-- `rename` has gone on with one path of either moment. -/
theorem answered_accessRename :
    ∃ table rp, Takes .aToB accessRename table rp ∧
      AnsweredAt table rp (Move.worlds 0 accessRename) .accessX
        (.reply (.call (.forwarded (.access (some (.ofAscii ['/', 'b', '/', 'x'])) 0)))) ∧
      AnsweredAt table rp (Move.worlds 1 accessRename) .renameXY
        (.reply (.call (.forwarded
          (.rename (some (.ofAscii ['/', 'b', '/', 'x'])) (some (.ofAscii ['y'])))))) := by
  have hret := fun n : Nat => congrArg (fun threads => threads[n]?) threads_accessRename
  obtain ⟨table, rp, htakes, hanswered⟩ :=
    answered_at_moments .aToB accessRename [.accessX, .renameXY] rfl
  exact ⟨table, rp, htakes, hanswered 0 _ _ rfl (hret 0), hanswered 1 _ _ rfl (hret 1)⟩

/-! ## Progress -/

section Errors

variable {table : RealTable} {rp : RewritePolicy} {ws : List World} {env : Environ} {e : Stop}

/-- What ends well at every moment, never stops. -/
theorem not_sees_error {α : Type} {m : Interp α} (hm : m.AtMoment SameSymbols)
    (hok : ∀ libc, ∃ a, eval libc rp m = .ok a) :
    ¬ m.Sees rp (World.libcs table ws) (.error e) := by
  intro h
  obtain ⟨r, -, heval⟩ := h.eq_eval hm sameSymbols_libcs
    (List.subset_cons_self (World.atRoot.libc table) _) (List.cons_ne_nil _ _)
  obtain ⟨a, ha⟩ := hok r
  exact absurd (heval.trans ha) (by simp)

theorem not_sees_error_bind {α β : Type} {m : Interp α} {g : α → Interp β}
    (hm : m.AtMoment SameSymbols) (hok : ∀ libc, ∃ a, eval libc rp m = .ok a)
    (hg : ∀ a ws, ¬ (g a).Sees rp (World.libcs table ws) (.error e)) :
    ¬ (m >>= g).Sees rp (World.libcs table ws) (.error e) := by
  intro h
  rcases Prog.sees_bind h with ⟨a, rs₁, rs₂, hsplit, h₁, h₂⟩ | ⟨e', he, hstop⟩
  · obtain ⟨ws₁, ws₂, rfl, rfl, rfl⟩ := List.map_eq_append_iff.mp hsplit
    exact hg a ws₂ h₂
  · obtain rfl := Except.error.inj he
    exact not_sees_error hm hok hstop

/-- No wrapper of a path ever goes wrong, whatever happens around it. -/
theorem not_sees_error_interpose (hinit : initRewritePolicy env = .ok rp) (c : Call) :
    ¬ (interpose c).Sees rp (World.libcs table ws) (.error e) := by
  cases hc : c.takesTwo with
  | false =>
    refine not_sees_error (atMoment_interpose hc) fun libc => ?_
    obtain ⟨f, hf⟩ := exists_follows hinit libc
    exact ⟨_, hf.forwarded c⟩
  | true =>
    have horig : ∀ c ws, ¬ (orig c).Sees rp (World.libcs table ws) (.error e) := fun c ws =>
      not_sees_error (blind_orig c).atMoment fun libc => ⟨_, eval_orig libc rp c⟩
    have hcwd : ∀ p libc, ∃ a,
        eval libc rp (rewriteCwdRelativeArgument p (.uninit pathMax) pathMax) = .ok a := by
      intro p libc
      obtain ⟨f, hf⟩ := exists_follows hinit libc
      exact ⟨_, hf.rewrites.cwdPath p⟩
    have hat : ∀ d p libc, ∃ a,
        eval libc rp (rewriteAtArgument d p (.uninit pathMax) pathMax) = .ok a := by
      intro d p libc
      obtain ⟨f, hf⟩ := exists_follows hinit libc
      exact ⟨_, hf.rewrites.atPath d p⟩
    cases c with
    | link | rename =>
      exact not_sees_error_bind (uses_rewriteCwdRelativeArgument ..).atMoment (hcwd _) fun a ws =>
        not_sees_error_bind (uses_rewriteCwdRelativeArgument ..).atMoment (hcwd _) fun b ws =>
          horig _ ws
    | linkat | renameat | renameat2 =>
      simp only [interpose, Wrapper.linkat, Wrapper.renameat, Wrapper.renameat2]
      exact not_sees_error_bind (uses_rewriteAtArgument ..).atMoment (hat _ _) fun a ws =>
        not_sees_error_bind (uses_rewriteAtArgument ..).atMoment (hat _ _) fun b ws =>
          horig _ ws
    | _ => exact absurd hc (by simp [Call.takesTwo])

end Errors

/-- An exported function takes at most 17 steps of its own. -/
theorem bounded_job (entry : Entry) : entry.job.Bounded 17 := by
  cases entry with
  | request req =>
    cases req with
    | call c =>
      exact bounded_toJob (l := 3) (c := 4) (Prog.Uses.bind_local (Prog.Uses.bind_local
        (uses_interpose c) fun o => Prog.uses_pure ..) fun r => Prog.uses_pure ..)
    | getcwd buf size =>
      refine Job.Bounded.mono (n := 7) (bounded_toJob (l := 1) (c := 2) ?_) (by omega)
      exact Prog.Uses.bind_local (Prog.Uses.bind_local (uses_getcwd buf size) fun r =>
        Prog.uses_pure ..) fun r => Prog.uses_pure ..
  | onFd c =>
    rw [Entry.job, interposeFd_eq]
    refine Job.Bounded.mono (n := 2) (fun table => ?_) (by omega)
    show (Job.bind (if (table (.fd c.symbol)).isSome then _ else _) _).Bounded 0
    split <;> trivial

/-- The steps of the two routines, with two more each for going in and out. -/
theorem sum_steps : ∑ i : Static, (i.steps + 2) = 102 := by
  decide

/-- Threads never lock each other out, and end after a number of steps that
    depends on the number of calls alone, the wrappers of paths with an answer. -/
theorem threads_progress (s : Surroundings) (moves : List ThreadMove) (entries : List Entry)
    (h : Runs moves entries) :
    ((∃ m ∈ (threads s moves).threads, m.ended = false) →
      ∃ n, (threads s moves).runnable n = true) ∧
    (Machine.fresh s Static.zero).effort Static.routine moves ≤ 102 + 17 * entries.length ∧
    ∀ (n : Nat) (c : Call) (e : Stop), entries[n]? = some (.request (.call c)) →
      (threads s moves).threads[n]? ≠ some (Job.stop e) := by
  refine ⟨?_, ?_, fun n c e hentry hstop => ?_⟩
  · rintro ⟨m, hm, hended⟩
    exact (Machine.owned_run safe_routine s h.admissible).exists_runnable hm hended
  · have hjobs : ∀ m ∈ Move.started moves, m.Bounded 17 := by
      intro m hm
      rw [show Move.started moves = _ from h] at hm
      obtain ⟨entry, -, rfl⟩ := List.mem_map.mp hm
      exact bounded_job entry
    have hle : (Machine.fresh s Static.zero).effort Static.routine moves ≤
        ∑ i : Static, (i.steps + 2) + 17 * (Move.started moves).length :=
      Machine.effort_run_le bounded_routine s hjobs
    rwa [sum_steps, show Move.started moves = _ from h, List.length_map] at hle
  · obtain ⟨table, rp, htakes, hpick⟩ := exists_takes (s := s) h
    have htraced : Machine.Traced moves (threads s moves) :=
      Machine.traced_run safe_routine s h.admissible
    obtain ⟨m, ws, hm, -, hleft⟩ := htraced.left hstop
    rw [show Move.started moves = _ from h, List.getElem?_map, hentry] at hm
    obtain rfl := Option.some.inj hm
    have hevals := hleft (Static.pick table rp) hpick [] (.error e) (.stop e)
    obtain ⟨s₁, s₂, -, hinit⟩ := htakes.configured
    have hserve := Prog.sees_error_of_map (sees_of_evals hevals)
    exact not_sees_error_interpose hinit c (Prog.sees_error_of_map hserve)

/-- The two threads from above: the second one waits, the first one can go on. -/
theorem progress_of_two :
    (∃ n, (threads .unset twoThreads).runnable n = true) ∧
      (Machine.fresh .unset Static.zero).effort Static.routine twoThreads ≤ 136 := by
  obtain ⟨hrunnable, heffort, -⟩ := threads_progress .unset twoThreads
    [.request (.call (.access (some (.ofAscii ['/', 'a'])) 0)),
      .request (.call (.mkdir (some (.ofAscii ['/', 'a'])) 0))] rfl
  exact ⟨hrunnable ⟨_, List.mem_cons_self .., rfl⟩, heffort⟩

end LdPreload
