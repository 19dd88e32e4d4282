/-
  LdPreload.Contract.Race

  Between the moment at which the interposer looks at the directories of the
  process and the moment at which the kernel carries out what it has handed
  on, other threads may have changed these directories.  The tree at FROM
  stays out of sight in every interleaving, as long as nobody changes the
  directory that a call on its way starts from (`shadowed_of_race`), and may
  come into sight when somebody does (`race_lost`).
-/

import LdPreload.Contract.Overlap
import LdPreload.System.Redirect

namespace LdPreload

open CMem Lexical Once

/-- The interposer follows the call. -/
def Entry.Followed (rp : RewritePolicy) (k : Kernel) : Entry → Prop
  | .request (.call c) => c.Followed rp k
  | .request (.getcwd ..) | .onFd _ => True

/-- Directories, in front of which only what the interposer follows goes on.
    What it has handed on has any effect that such a call can have, and any
    other answer has none. -/
def Site.directories (rp : RewritePolicy) : Site Kernel where
  kernel k := k
  admits k entry := entry.Followed rp k
  carries k _ answer k' := k' = k ∨ ∃ (c : Call) (effect : Effect),
    answer = .reply (.call (.forwarded c)) ∧ effect.Of c ∧ k' = k.after (k.targets c) effect

/-- The directories that a call starts from stay what they are. -/
def Entry.StartsAlike (entry : Entry) (k k' : Kernel) : Prop :=
  ∀ a ∈ entry.args, a.path.any isAbsolute = false → k.dirOf a.dirfd = k'.dirOf a.dirfd

section

variable {env : Environ} {rp : RewritePolicy} {lib : Library} {f : PathArg → PathArg}
  {k k₀ : Kernel} {c c₀ : Call}

/-- What was handed on from the directories `k₀`, is clear of FROM in the
    directories `k`. -/
theorem Follows.clear_later (hf : Follows (lib.libc k₀) rp f)
    (hinit : initRewritePolicy env = .ok rp)
    (henabled : rp.enabled = true) (hfrom : endsInSlash rp.fromPath = false)
    (hunrelated : Unrelated rp.fromDirs rp.toDirs) (hlib : lib.Backs) (hc : c₀.Followed rp k₀)
    {a : PathArg} (ha : a ∈ c₀.args)
    (hstarts : a.path.any isAbsolute = false → k₀.dirOf a.dirfd = k.dirOf a.dirfd) {d : Dir}
    (hd : (k.target (f a)).place = some d) :
    ¬ rp.fromDirs <+: d.names ∧ (c₀.renames = true → ¬ d.names <+: rp.fromDirs) := by
  rw [← hf.target_congr hstarts, Kernel.place_target] at hd
  exact hf.clear_of_leads hinit henabled hfrom hunrelated (hlib k₀).toServes hc ha hd

/-- Whatever a call has seen, what it hands on is clear of FROM when it is
    carried out. -/
theorem Call.clear_of_answered (hinit : initRewritePolicy env = .ok rp)
    (henabled : rp.enabled = true) (hfrom : endsInSlash rp.fromPath = false)
    (hunrelated : Unrelated rp.fromDirs rp.toDirs) (hlib : lib.Backs) {ws : List World}
    {entry : Entry}
    (hseen : ∀ w ∈ ws, ∃ k₀ : Kernel, w = lib.world k₀ ∧ entry.Followed rp k₀ ∧
      entry.StartsAlike k₀ k)
    (hanswered : AnsweredAt lib.table rp ws entry (.reply (.call (.forwarded c)))) :
    c.Clear rp (k.targets c) := by
  generalize hanswer : (Answer.reply (.call (.forwarded c))) = answer at hanswered
  intro t ht d hd
  cases hanswered with
  | @call c₀ o w hc hw heval =>
    obtain rfl : o = .forwarded c := by
      simpa using hanswer.symm
    obtain ⟨k₀, rfl, hfollowed, hstarts⟩ := hseen w hw
    replace hfollowed : c₀.Followed rp k₀ := hfollowed
    obtain ⟨f, hf⟩ := exists_follows hinit (lib.libc k₀)
    obtain rfl := hf.eq_of_forwarded heval
    rw [Kernel.targets_handed_on _ hf.keepsCwd hfollowed.untied] at ht
    obtain ⟨a, ha, rfl⟩ := List.mem_map.mp ht
    rw [Call.renames_mapArgs, Call.renames_effective]
    exact hf.clear_later hinit henabled hfrom hunrelated hlib hfollowed ha (hstarts a ha) hd
  | @twoPaths c₀ o w₁ w₂ a b f g hc hargs hw₁ hw₂ hf hg ho =>
    obtain rfl : o = .forwarded c := by
      simpa using hanswer.symm
    obtain ⟨k₁, rfl, hfollowed₁, hstarts₁⟩ := hseen w₁ hw₁
    obtain ⟨k₂, rfl, hfollowed₂, hstarts₂⟩ := hseen w₂ hw₂
    replace hfollowed₁ : c₀.Followed rp k₁ := hfollowed₁
    replace hfollowed₂ : c₀.Followed rp k₂ := hfollowed₂
    obtain rfl : c = c₀.withPaths (f a) (g b) := by
      unfold Libc.outcome at ho
      split at ho
      · exact Outcome.forwarded.inj ho
      · exact absurd ho (by simp)
    have huntied := Call.untied_of_takesTwo
      ((Call.takesTwo_withPaths (f a) (g b) c₀).trans hc)
    rw [Kernel.targets_of_untied _ huntied,
      Call.args_withPaths hf.keepsCwd hg.keepsCwd hc hargs] at ht
    have ha : a ∈ c₀.args := by simp [hargs]
    have hb : b ∈ c₀.args := by simp [hargs]
    rw [Call.renames_withPaths]
    -- each path was looked at in a moment of its own
    rcases List.mem_pair.mp ht with rfl | rfl
    · exact hf.clear_later hinit henabled hfrom hunrelated hlib hfollowed₁ ha (hstarts₁ a ha) hd
    · exact hg.clear_later hinit henabled hfrom hunrelated hlib hfollowed₂ hb (hstarts₂ b hb) hd
  | getcwd => exact absurd hanswer (by simp)
  | onFd => exact absurd hanswer (by simp)

end

/-- In every interleaving, the tree at FROM stays out of sight while nobody
    changes a directory that somebody else's call starts from. -/
theorem shadowed_of_race (env : Environ) (rp : RewritePolicy)
    (hinit : initRewritePolicy env = .ok rp)
    (henabled : rp.enabled = true) (hfrom : endsInSlash rp.fromPath = false)
    (hunrelated : Unrelated rp.fromDirs rp.toDirs) (lib : Library) (hlib : lib.Backs) (k : Kernel)
    (hstart : Shadowed rp k) (t : Threaded Kernel)
    (hrun : Threaded.Runs env lib (.directories rp) Entry.StartsAlike (.start k) t) :
    Shadowed rp t.state := by
  apply Threaded.inv_of_run (fun k₀ entry k => entry.Followed rp k₀ ∧ entry.StartsAlike k₀ k)
    hinit _ _ _ hstart hrun
  · exact fun k entry _ hfollowed => ⟨hfollowed, fun a _ _ => rfl⟩
  · intro k₀ entry k k' hholds hkeeps
    exact ⟨hholds.1, fun a ha hrel => (hholds.2 a ha hrel).trans (hkeeps a ha hrel)⟩
  · rintro k entry answer k' ws hshadowed hseen hanswered (rfl | ⟨c, effect, rfl, hof, rfl⟩)
    · exact hshadowed
    · exact hshadowed.after (Call.clear_of_answered hinit henabled hfrom hunrelated hlib hseen
        hanswered) hof

/-! ## A race that is lost, and one that is not -/

/-- `openat (dirfd, "../a")` as it is called. -/
def Entry.openBeside (dirfd : Int32) : Entry :=
  .request (.call (.openat dirfd (some (.ofAscii ['.', '.', '/', 'a'])) 0 0))

/-- `chdir (path)` as it is called. -/
def Entry.chdir (path : CString) : Entry := .request (.call (.chdir (some path)))

namespace Threaded

/-- A first thread has called `openat`, has its answer, and nobody has carried
    it out. -/
def opening (k : Kernel) (dirfd : Int32) : Threaded Kernel :=
  .called .faithful (.directories .aToB) (.start k) (.openBeside dirfd) 120

/-- A second one has called `chdir`, and has its answer, too. -/
def both (k : Kernel) (dirfd : Int32) (path : CString) : Threaded Kernel :=
  .called .faithful (.directories .aToB) (opening k dirfd) (.chdir path) 20

theorem run_both {k : Kernel} {dirfd : Int32} {path : CString}
    (hopen : Roomy .aToB k ⟨true, dirfd, some (.ofAscii ['.', '.', '/', 'a'])⟩)
    (hchdir : Roomy .aToB k ⟨true, atFdcwd, some path⟩) :
    Runs .aToB .faithful (.directories .aToB) Entry.StartsAlike (.start k) (both k dirfd path) := by
  have hself : ∀ entry : Entry, entry.StartsAlike k k := fun _ _ _ _ => rfl
  have hopen' : (Entry.openBeside dirfd).Followed .aToB k := by
    refine ⟨rfl, fun a ha => ?_, nofun⟩
    rwa [List.mem_singleton.mp ha]
  have hchdir' : (Entry.chdir path).Followed .aToB k := by
    refine ⟨rfl, fun a ha => ?_, nofun⟩
    rwa [List.mem_singleton.mp ha]
  have hfirst : Runs .aToB .faithful (.directories .aToB) Entry.StartsAlike (.start k)
      (opening k dirfd) := run_called _ _ _ _ hself hopen' 120
  exact hfirst.trans (run_called _ _ _ (opening k dirfd) hself hchdir' 20)

end Threaded

/-- A process in the root, with `/c` as its descriptor 3. -/
def Kernel.besideC : Kernel := ⟨.root, [(3, .c)]⟩

set_option maxRecDepth 8000 in
theorem threads_besideC :
    (threads ⟨.aToB, Library.faithful.table⟩
        (Threaded.both .besideC 3 (.ofAscii ['/', 'a'])).moves).threads =
      [.ret (.reply (.call (.forwarded (.openat atFdcwd (some (.ofAscii ['/', 'b'])) 0 0)))),
        .ret (.reply (.call (.forwarded (.chdir (some (.ofAscii ['/', 'b']))))))] :=
  rfl

/-- While `openat (3, "../a")` is on its way from there, `chdir ("/a")` is
    carried out, and then the `openat`. -/
theorem shadowed_besideC :
    let b : Dir := Dir.root.follow (.ofAscii ['/', 'b'])
    Shadowed .aToB ⟨b, (4, b) :: Kernel.besideC.fds⟩ := by
  intro b
  have hopen : Roomy .aToB .besideC ⟨true, 3, some (.ofAscii ['.', '.', '/', 'a'])⟩ :=
    .of_relative rfl rfl rfl rfl (by decide) (by decide)
  have hchdir : Roomy .aToB .besideC ⟨true, atFdcwd, some (.ofAscii ['/', 'a'])⟩ :=
    .of_absolute rfl rfl (by decide) (by decide)
  have hret := fun n : Nat => congrArg (fun threads => threads[n]?) threads_besideC
  let both : Threaded Kernel := .both .besideC 3 (.ofAscii ['/', 'a'])
  let moved : Threaded Kernel := { both with
    carried := [1], state := ⟨b, Kernel.besideC.fds⟩ }
  let ended : Threaded Kernel := { both with
    carried := [0, 1], state := ⟨b, (4, b) :: Kernel.besideC.fds⟩ }
  have hfirst : Threaded.Step .aToB .faithful (.directories .aToB) both moved :=
    .carry rfl List.not_mem_nil (hret 1) (Or.inr ⟨_, .enter, rfl, rfl, rfl⟩)
  have hsecond : Threaded.Step .aToB .faithful (.directories .aToB) moved ended :=
    .carry rfl (by decide) (hret 0) (Or.inr ⟨_, .install 4, rfl, by decide, rfl⟩)
  -- the descriptor that `openat` starts from stays what it is
  have hkeeps : Threaded.Undisturbed Entry.StartsAlike both moved := by
    intro n entry hentry hn _
    replace hentry : [Entry.openBeside 3, .chdir (.ofAscii ['/', 'a'])][n]? = some entry := hentry
    obtain _ | _ | n := n
    · obtain rfl := Option.some.inj hentry
      intro a ha _
      rw [List.mem_singleton.mp ha]
      rfl
    · exact absurd (List.mem_singleton_self 1) hn
    · exact absurd hentry nofun
  have hkeeps' : Threaded.Undisturbed Entry.StartsAlike moved ended := by
    intro n entry hentry hn _
    replace hentry : [Entry.openBeside 3, .chdir (.ofAscii ['/', 'a'])][n]? = some entry := hentry
    replace hn : n ∉ [0, 1] := hn
    obtain _ | _ | n := n
    · exact absurd (List.mem_cons_self ..) hn
    · exact absurd (by decide) hn
    · exact absurd hentry nofun
  refine shadowed_of_race .aToB .aToB init_aToB rfl rfl ⟨by decide, by decide⟩ .faithful
    Library.backs_faithful .besideC (fun dir hdir => ?_) ended
    (((Threaded.run_both hopen hchdir).tail ⟨hfirst, hkeeps⟩).tail ⟨hsecond, hkeeps'⟩)
  rcases List.mem_pair.mp hdir with rfl | rfl <;> decide

/-- The directory `/c/d`. -/
def Dir.cd : Dir := ⟨[[99], [100]], by decide, by decide⟩

set_option maxRecDepth 8000 in
theorem threads_cd :
    (threads ⟨.aToB, Library.faithful.table⟩
        (Threaded.both ⟨.cd, []⟩ atFdcwd (.ofAscii ['/', 'c'])).moves).threads =
      [.ret (.reply (.call (.forwarded
          (.openat atFdcwd (some (.ofAscii ['.', '.', '/', 'a'])) 0 0)))),
        .ret (.reply (.call (.forwarded (.chdir (some (.ofAscii ['/', 'c']))))))] :=
  rfl

/-- From `/c/d`, `../a` is not in `/a`, and is handed on as it is.  Behind a
    `chdir ("/c")` of another thread it is opened in `/a`. -/
theorem race_lost : ∃ t, Shadowed .aToB ⟨.cd, []⟩ ∧
    Relation.ReflTransGen (Threaded.Step .aToB .faithful (.directories .aToB))
      (.start ⟨.cd, []⟩) t ∧ ¬ Shadowed .aToB t.state := by
  have hopen : Roomy .aToB ⟨.cd, []⟩ ⟨true, atFdcwd, some (.ofAscii ['.', '.', '/', 'a'])⟩ :=
    .of_relative rfl rfl rfl rfl (by decide) (by decide)
  have hchdir : Roomy .aToB ⟨.cd, []⟩ ⟨true, atFdcwd, some (.ofAscii ['/', 'c'])⟩ :=
    .of_absolute rfl rfl (by decide) (by decide)
  have hret := fun n : Nat => congrArg (fun threads => threads[n]?) threads_cd
  let both : Threaded Kernel := .both ⟨.cd, []⟩ atFdcwd (.ofAscii ['/', 'c'])
  let moved : Threaded Kernel := { both with
    carried := [1], state := ⟨Dir.root.follow (.ofAscii ['/', 'c']), []⟩ }
  have hfirst : Threaded.Step .aToB .faithful (.directories .aToB) both moved :=
    .carry rfl List.not_mem_nil (hret 1) (Or.inr ⟨_, .enter, rfl, rfl, rfl⟩)
  have hsecond : Threaded.Step .aToB .faithful (.directories .aToB) moved
      { moved with carried := [0, 1], state := moved.state.after [.entry .a] (.install 3) } := by
    refine .carry rfl (by decide) (hret 0) (Or.inr ⟨_, .install 3, rfl, by decide, ?_⟩)
    have htarget : moved.state.target ⟨true, atFdcwd, some (.ofAscii ['.', '.', '/', 'a'])⟩ =
        .entry .a := congrArg Target.entry (Dir.ext_names (by decide))
    rw [← htarget]
    rfl
  have hboth := (Threaded.run_both hopen hchdir).lift id fun _ _ => And.left
  refine ⟨_, fun dir hdir => ?_, (hboth.tail hfirst).tail hsecond, fun h => ?_⟩
  · rw [List.mem_singleton.mp hdir]
    decide
  · exact h .a (List.mem_cons_of_mem _ (List.mem_singleton_self _)) (by decide)

end LdPreload
