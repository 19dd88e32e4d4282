/-
  LdPreload.Contract.Repeat

  A rewritten path that comes back.  The kernel hands the real path that a
  rewriting has produced to later calls: as the current directory, as the link
  of a descriptor, or in the text of a path.  The interposer does not remember
  which paths it has made itself, so it looks at such a path as at any other.
  It leaves the path where it is, unless the path lies below FROM again: that
  happens only when one of FROM and TO lies within the other.
-/

import LdPreload.System.Relocation

namespace LdPreload

open CMem Lexical Once

/-- The path `r` behind the real path `R`, as it comes back: from `R` as the
    current directory or an open one, or spelled behind `R`. -/
def ComesBack (k : Kernel) (R r : CString) (a : PathArg) : Prop :=
  a.path = some r ∧ k.dirOf a.dirfd = some (Dir.root.follow R) ∨ a.path = some (joinText R r)

/-- An argument that leads to `q` is handed on as `a'`.  Where the policy does
    not apply to its cleaned text, or FROM and TO are the same place, `a'` leads
    there as well; where it applies, `q` is below FROM, and `a'` leads once more
    to the place below TO. -/
structure MovedAtMost (k : Kernel) (libc : Libc) (rp : RewritePolicy) (q : Dir) (a a' : PathArg) :
    Prop where
  stays : rp.Skips libc a ∨ rp.fromDirs = rp.toDirs → k.leads a' = some q
  moves : ¬ rp.Skips libc a → rp.fromDirs <+: q.names ∧
    ∃ dir, k.leads a' = some dir ∧ dir.names = relocate rp.fromDirs rp.toDirs q.names

/-- What becomes of arguments for `r` behind `d`, when `d` is rewritten to
    `R`. -/
structure RewrittenOnce (k : Kernel) (libc : Libc) (rp : RewritePolicy) (d R r : CString)
    (a a' : PathArg) : Prop where
  back : ComesBack k R r a → MovedAtMost k libc rp ((Dir.root.follow R).follow r) a a'
  direct : endsInSlash rp.fromPath = false → a.path = some (joinText d r) →
    k.leads a' = some ((Dir.root.follow R).follow r)

section

variable {env : Environ} {rp : RewritePolicy} {libc : Libc} {f : PathArg → PathArg} {k : Kernel}
  {d R r t : CString} {a : PathArg}

/-- A path that has come back leads where it led when it was made. -/
theorem ComesBack.leads (h : ComesBack k R r a) (hR : isAbsolute R = true)
    (hr : ¬ isAbsolute r = true) : k.leads a = some ((Dir.root.follow R).follow r) := by
  rcases h with ⟨hpath, hdir⟩ | hpath
  · rw [Kernel.leads, hpath, Option.bind_some, Kernel.lookup, if_neg hr, hdir, Option.map_some]
  · have habs := isAbsolute_joinText hR r
    rw [Kernel.leads, hpath, Option.bind_some, Kernel.lookup, if_pos habs, Option.some.injEq]
    apply Dir.ext_names
    rw [Dir.follow_of_absolute _ habs, resolve_joinText, Dir.follow_of_relative _ hr,
      Dir.follow_of_absolute _ hR]

theorem ComesBack.intact (h : ComesBack k R r a) (hR : isAbsolute R = true)
    (hlen : R.length + 1 + r.length < pathMax) : k.Intact a := by
  intro path dir hpath hrel hdir
  rcases h with ⟨hpath', hdir'⟩ | hpath'
  · obtain rfl := Option.some.inj (hpath.symm.trans hpath')
    obtain rfl := Option.some.inj (hdir.symm.trans hdir')
    have hmax : pathMax ≤ intMax := by decide
    have hnormal := Dir.root.length_text_follow_le hR
    rw [length_joinText]
    omega
  · obtain rfl := Option.some.inj (hpath.symm.trans hpath')
    exact absurd (isAbsolute_joinText hR r) (by rw [hrel]; decide)

theorem Follows.movedAtMost (hf : Follows libc rp f) (hk : k.Reports libc)
    (h : ComesBack k R r a) (hR : isAbsolute R = true) (hr : ¬ isAbsolute r = true)
    (hlen : R.length + 1 + r.length < pathMax) :
    MovedAtMost k libc rp ((Dir.root.follow R).follow r) a (f a) := by
  have hleads := h.leads hR hr
  rcases Follows.skips_or_applies rp libc a with hskips | ⟨s, t, hs, ht, happlies⟩
  · refine ⟨fun _ => ?_, fun h' => absurd hskips h'⟩
    rwa [hf.skipped hskips]
  · have hq := hk.resolve_source (h.intact hR hlen) hs hleads
    obtain ⟨hbelow, dir, hdir, hnames⟩ := Kernel.leads_of_rewritten (k := k)
      (hf.rewritten hs ht happlies) hq
    refine ⟨fun hstays => ?_, fun _ => ⟨hbelow, dir, hdir, hnames⟩⟩
    -- relocation within one place goes nowhere
    have hsame := hstays.resolve_left fun hskips => hskips s t hs ht happlies
    rw [← hsame, relocate_self] at hnames
    rw [hdir, Dir.ext_names hnames]

/-- Below `d`, the substitution has as much room as it takes for `d` and the
    rest of the path. -/
theorem Spliced.room (h : Spliced rp d t R) (hto : rp.toLen = rp.toPath.length)
    (ht : cleaned d = some t) (hparent : [dot, dot] ∉ segments slash r.chars)
    (hlen : R.length + 1 + r.length < pathMax) {t' : CString}
    (ht' : cleaned (joinText d r) = some t') :
    rp.toLen + (t'.length - rp.fromLen) + 1 ≤ pathMax := by
  have hlonger := length_cleaned_joinText h.source_absolute ht ht' hparent
  have hR : R.length = rp.toLen + (t.length - rp.fromLen) := by
    rw [CString.length_def, h.chars, List.length_append, List.length_drop, hto,
      CString.length_def, CString.length_def]
  omega

/-- The absolute path is handed on as the same place. -/
theorem Follows.leads_direct (hf : Follows libc rp f) (hinit : initRewritePolicy env = .ok rp)
    (hspliced : Spliced rp d t R) (ht : cleaned d = some t) (happlies : rp.Applies t)
    (hr : ¬ isAbsolute r = true) (hparent : [dot, dot] ∉ segments slash r.chars)
    (hlen : R.length + 1 + r.length < pathMax) (hlen' : d.length + 1 + r.length < pathMax)
    (hfrom : endsInSlash rp.fromPath = false) (hpath : a.path = some (joinText d r)) :
    k.leads (f a) = some ((Dir.root.follow R).follow r) := by
  obtain ⟨rest, hd, -, hR⟩ := hspliced.dirs
  have habs := isAbsolute_joinText hspliced.source_absolute r
  have hto : rp.toLen = rp.toPath.length := by
    obtain ⟨m, rfl, -⟩ := exists_mapping hinit happlies.1
    rfl
  -- `d/r` lies below FROM where `R(d)/r` lies below TO
  have hdirs : resolve (joinText d r).chars =
      rp.fromDirs ++ (rest ++ (segments slash r.chars).filter (· ≠ [dot])) := by
    rw [resolve_joinText, hd, ← List.append_assoc]
    exact walk_of_not_parent hparent _
  have hplace : ((Dir.root.follow R).follow r).names =
      rp.toDirs ++ (rest ++ (segments slash r.chars).filter (· ≠ [dot])) := by
    rw [Kernel.names_follow_of_not_parent hr hparent,
      Dir.follow_of_absolute _ hspliced.absolute, hR, List.append_assoc]
  have hsource : libc.source a = some (joinText d r) := Libc.source_of_absolute hpath habs
  have hshort : (joinText d r).length < pathMax := by
    rw [length_joinText]
    omega
  obtain ⟨t', ht'⟩ := cleaned_of_short hshort
  have happlies' : rp.Applies t' :=
    applies_of_below hinit happlies.1 hfrom habs ht' ⟨_, hdirs.symm⟩
      (hspliced.room hto ht hparent hlen ht')
  obtain ⟨-, dir, hdir, hnames⟩ := Kernel.leads_of_rewritten (k := k)
    (hf.rewritten hsource ht' happlies') (Dir.root.follow_of_absolute habs).symm
  rw [hdir, Option.some.injEq]
  apply Dir.ext_names
  rw [hnames, Dir.follow_of_absolute _ habs, hdirs, relocate_append, hplace]

end

/-- A path behind a rewritten one stays where it is when it comes back, unless
    it lies below FROM; and it is where the absolute path is rewritten to. -/
theorem interpose_rewrittenOnce (env : Environ) (rp : RewritePolicy)
    (hinit : initRewritePolicy env = .ok rp) (libc₀ : Libc) (d R r : CString)
    (hR : RewritesTo libc₀ rp d R) (hr : ¬ isAbsolute r = true)
    (hparent : [dot, dot] ∉ segments slash r.chars) (hlen : R.length + 1 + r.length < pathMax)
    (hlen' : d.length + 1 + r.length < pathMax) (k : Kernel) (libc : Libc) (hk : k.Reports libc)
    (c : Call) (hc : libc.resolves c.symbol = true) :
    ∃ c', eval libc rp (interpose c) = .ok (.forwarded c') ∧
      List.Forall₂ (RewrittenOnce k libc rp d R r) c.args c'.args := by
  obtain ⟨f, hf⟩ := exists_follows hinit libc
  obtain ⟨t, ht, happlies, hspliced⟩ := hR.spliced hinit
  have hforwarded := hf.forwarded_of_resolves hc
  refine ⟨_, hforwarded, ?_⟩
  refine hf.forall_forwarded_iff.mpr (fun _ a _ => ?_) _ hforwarded
  refine ⟨fun hback => hf.movedAtMost hk hback hspliced.absolute hr hlen, fun hfrom hpath => ?_⟩
  exact hf.leads_direct hinit hspliced ht happlies hr hparent hlen hlen' hfrom hpath

/-- In `/b`, where `/a` has led, `access ("x")` stays in `/b`. -/
theorem access_rewrittenOnce :
    let k : Kernel := ⟨Dir.root.follow (.ofAscii ['/', 'b']), []⟩
    ∃ c', eval k.libc .aToB (interpose (.access (some (.ofAscii ['x'])) 0)) = .ok (.forwarded c') ∧
      List.Forall₂
        (RewrittenOnce k k.libc .aToB (.ofAscii ['/', 'a']) (.ofAscii ['/', 'b']) (.ofAscii ['x']))
        (Call.access (some (.ofAscii ['x'])) 0).args c'.args := by
  intro k
  have hR : RewritesTo k.libc .aToB (.ofAscii ['/', 'a']) (.ofAscii ['/', 'b']) := ⟨_, rfl, rfl⟩
  exact interpose_rewrittenOnce .aToB .aToB init_aToB k.libc _ _ (.ofAscii ['x']) hR (by decide)
    (by decide) (by decide) (by decide) k k.libc k.serves_libc.toReports _ rfl

/-- `/a` is to appear as what `/a/b` is. -/
def Environ.aToAB : Environ := ⟨some (.ofAscii ['/', 'a']), some (.ofAscii ['/', 'a', '/', 'b'])⟩

def RewritePolicy.aToAB : RewritePolicy where
  enabled := true
  fromLen := 2
  toLen := 4
  fromPath := .ofAscii ['/', 'a']
  toPath := .ofAscii ['/', 'a', '/', 'b']

/-- A process in `/a/b`. -/
def Kernel.atAB : Kernel := ⟨⟨[[97], [98]], by decide, by decide⟩, []⟩

/-- `/a` has led to `/a/b`, and from there `access ("x")` leads to
    `/a/b/b/x`. -/
theorem access_moved_twice :
    initRewritePolicy .aToAB = .ok .aToAB ∧
      RewritesTo Kernel.atAB.libc .aToAB (.ofAscii ['/', 'a']) (.ofAscii ['/', 'a', '/', 'b']) ∧
      Kernel.atAB.Reports Kernel.atAB.libc ∧
      ∃ c', eval Kernel.atAB.libc .aToAB (interpose (.access (some (.ofAscii ['x'])) 0)) =
          .ok (.forwarded c') ∧
        ¬ List.Forall₂ (fun a a' =>
            ComesBack .atAB (.ofAscii ['/', 'a', '/', 'b']) (.ofAscii ['x']) a →
            Kernel.leads .atAB a' = some
              ((Dir.root.follow (.ofAscii ['/', 'a', '/', 'b'])).follow (.ofAscii ['x'])))
          (Call.access (some (.ofAscii ['x'])) 0).args c'.args := by
  refine ⟨rfl, ⟨_, rfl, rfl⟩, Kernel.atAB.serves_libc.toReports,
    .access (some (.ofAscii ['/', 'a', '/', 'b', '/', 'b', '/', 'x'])) 0, by decide +kernel,
    fun h => ?_⟩
  have hback : ComesBack .atAB (.ofAscii ['/', 'a', '/', 'b']) (.ofAscii ['x'])
      ⟨true, atFdcwd, some (.ofAscii ['x'])⟩ :=
    Or.inl ⟨rfl, congrArg some (Dir.ext_names (by decide))⟩
  exact absurd ((List.forall₂_cons.mp h).1 hback) (by decide +kernel)

end LdPreload
