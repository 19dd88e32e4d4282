/-
  LdPreload.Contract.VirtualCwd

  `getcwd` as the inverse of `chdir`.  From a directory that was reached
  through FROM, `getcwd` gives back the name below FROM, except where the
  texts of FROM and TO end in a separator or TO is the root: the reverse
  substitution matches the text of TO against a name without a separator at
  its end.

  Whatever name `getcwd` gives, `chdir` follows it back to where it was given.
-/

import LdPreload.Rtld.GetcwdSound
import LdPreload.System.Process

namespace LdPreload

open CMem Lexical Once

/-! ## The virtual name of a directory -/

/-- A path that ends in a separator without being the root. -/
def StraySlash (path : CString) : Prop := endsInSlash path = true ∧ resolve path.chars ≠ []

/-- The policy gives the directory behind `d` its name below FROM back. -/
def GivesBack (rp : RewritePolicy) (d : CString) : Prop :=
  StraySlash rp.toPath ∧ rp.toDirs = rp.fromDirs ∨
    ¬ StraySlash rp.toPath ∧ ¬ StraySlash rp.fromPath ∧
      (rp.toDirs = [] → resolve d.chars = rp.fromDirs)

theorem straySlash_text (c : CleanPath) : StraySlash c.text ↔ c.atSlash = true ∧ c.dirs ≠ [] := by
  rw [StraySlash, c.endsInSlash_text, c.chars_text, resolve_pathText c.names]

namespace Dir

/-- The path of a directory, as a cleaned one. -/
def clean (d : Dir) (h : d.text.length < pathMax) : CleanPath where
  dirs := d.names
  atSlash := decide (d.names = [])
  names := d.isName
  rooted := decide_eq_true
  noNul := d.text.noNul
  short := h

theorem text_clean (d : Dir) (h : d.text.length < pathMax) : (d.clean h).text = d.text := rfl

theorem text_inj {d d' : Dir} : d.text = d'.text ↔ d.names = d'.names := by
  refine ⟨fun h => ?_, fun h => congrArg text (ext_names h)⟩
  rw [← d.resolve_text, ← d'.resolve_text, h]

end Dir

namespace Mapping

/-- The name that `getcwd` gives to a directory. -/
def virtual (m : Mapping) (dir : Dir) (n : Nat) : CString :=
  (substituted m.dst.text m.src.text dir.text n).getD dir.text

variable {m : Mapping} {c : CleanPath} {rest : List Segment} {place back : Dir} {n : Nat}

theorem virtual_of_not_covers (hlen : place.text.length < pathMax)
    (h : ∀ rest, ¬ m.dst.Covers (place.clean hlen) rest) : m.virtual place n = place.text := by
  have hnone : substituted m.dst.text m.src.text place.text n = none := by
    rw [Option.eq_none_iff_forall_ne_some]
    intro t ht
    rw [← place.text_clean hlen] at ht
    obtain ⟨rest, hcovers, -⟩ := CleanPath.substituted_eq_some_iff.mp ht
    exact h rest hcovers
  rw [virtual, hnone]
  rfl

/-- Without a stray separator in the text of FROM, the normal form of what
    lies at `rest` below it continues that text. -/
theorem chars_text_of_covers (hsrc : m.src.Covers c rest) (hstray : ¬ StraySlash m.src.text)
    (hback : back.names = m.src.dirs ++ rest) :
    back.text.chars = m.src.text.chars ++ spell slash rest := by
  rw [straySlash_text] at hstray
  rw [Dir.chars_text, hback, CleanPath.chars_text]
  cases hslash : m.src.atSlash with
  | false =>
    -- no separator at the end, since FROM is not the root
    have hne : m.src.dirs ++ rest ≠ [] := by
      intro hnil
      have := m.src.rooted (List.append_eq_nil_iff.mp hnil).1
      exact absurd (hslash.symm.trans this) (by decide)
    rw [decide_eq_false hne, pathText, pathText, spell_append]
    simp
  | true =>
    have hroot : m.src.dirs = [] := by
      by_contra hne
      exact hstray ⟨hslash, hne⟩
    rw [hroot, (hsrc.alone hslash).1]
    rfl

/-- A directory whose name continues the text of TO gets the name below FROM,
    unless FROM has a stray separator that shows in it. -/
theorem virtual_eq_iff_of_covers (hsrc : m.src.Covers c rest)
    (hback : back.names = m.src.dirs ++ rest)
    (hfits : back.text.length < pathMax) (hlen : place.text.length < pathMax)
    (hdst : m.dst.Covers (place.clean hlen) rest)
    (hrest : CleanPath.remainder m.dst (place.clean hlen) rest = spell slash rest) :
    m.virtual place pathMax = back.text ↔ ¬ StraySlash m.src.text := by
  by_cases hstray : StraySlash m.src.text
  · -- the name is the text of FROM itself, with its separator
    obtain ⟨hslash, hne⟩ := (straySlash_text m.src).mp hstray
    obtain ⟨rfl, -⟩ := hsrc.alone hslash
    have hsome : substituted m.dst.text m.src.text place.text pathMax = some m.src.text :=
      CleanPath.substituted_eq_some_iff.mpr
        ⟨[], hdst, by rw [hrest, spell_nil, List.append_nil], m.src.short⟩
    refine ⟨fun h => ?_, fun h => absurd hstray h⟩
    rw [virtual, hsome, Option.getD_some] at h
    have hends := congrArg (fun t : CString => t.chars.length) h
    simp only [Dir.chars_text, CleanPath.chars_text, hback, List.append_nil, length_pathText,
      hslash, decide_eq_false hne, if_true] at hends
    exact absurd hends (by simp)
  · have hsome : substituted m.dst.text m.src.text place.text pathMax = some back.text :=
      CleanPath.substituted_eq_some_iff.mpr
        ⟨rest, hdst, by rw [hrest, chars_text_of_covers hsrc hstray hback], hfits⟩
    rw [virtual, hsome, Option.getD_some]
    exact ⟨fun _ => hstray, fun _ => rfl⟩

/-- Relocation from FROM to TO and the reverse substitution on the name of the
    result: when they give the name of the start back. -/
theorem virtual_eq_iff {d : CString} (hsrc : m.src.Covers c rest)
    (hd : resolve d.chars = m.src.dirs ++ rest) (hback : back.names = m.src.dirs ++ rest)
    (hfits : back.text.length < pathMax) (hplace : place.names = m.dst.dirs ++ rest)
    (hlen : place.text.length < pathMax) :
    m.virtual place pathMax = back.text ↔ GivesBack m.policy d := by
  have hcond : GivesBack m.policy d ↔
      StraySlash m.dst.text ∧ m.dst.dirs = m.src.dirs ∨
        ¬ StraySlash m.dst.text ∧ ¬ StraySlash m.src.text ∧ (m.dst.dirs = [] → rest = []) := by
    rw [GivesBack, m.toDirs_policy, m.fromDirs_policy, hd, List.append_right_eq_self]
    rfl
  rw [hcond, straySlash_text m.dst]
  cases hslash : m.dst.atSlash with
  | false =>
    -- the text of TO ends in a segment, and what lies below continues it
    have hne : m.dst.dirs ≠ [] := fun hnil =>
      absurd (hslash.symm.trans (m.dst.rooted hnil)) (by decide)
    have hnames : place.names ≠ [] := by simp [hplace, hne]
    rw [virtual_eq_iff_of_covers hsrc hback hfits hlen
      ⟨hplace, fun h => absurd (hslash.symm.trans h) (by decide)⟩
      (by simp [CleanPath.remainder, hslash, pathText, Dir.clean, hnames])]
    simp [hne]
  | true =>
    by_cases hroot : m.dst.dirs = []
    · by_cases hrest : rest = []
      · -- the root itself is matched by its one separator
        subst hrest
        have hnames : place.names = [] := by rw [hplace, hroot, List.append_nil]
        rw [virtual_eq_iff_of_covers hsrc hback hfits hlen
          ⟨hplace, fun _ => ⟨rfl, decide_eq_true hnames⟩⟩
          (by rw [CleanPath.remainder, hslash, if_pos rfl, spell_nil])]
        simp [hroot]
      · -- below the root nothing is matched
        have hnone : m.virtual place pathMax = place.text := by
          refine virtual_of_not_covers hlen fun rest' hcovers => hrest ?_
          obtain ⟨rfl, -⟩ := hcovers.alone hslash
          have hdirs : place.names = m.dst.dirs ++ [] := hcovers.dirs
          rw [hplace] at hdirs
          exact List.append_cancel_left hdirs
        have hne : m.src.dirs ≠ [] := fun hnil =>
          hrest (hsrc.alone (m.src.rooted hnil)).1
        rw [hnone, Dir.text_inj, hplace, hback, hroot]
        simp [hne, hrest]
    · -- a stray separator is in no normal form
      have hnone : m.virtual place pathMax = place.text := by
        refine virtual_of_not_covers hlen fun rest' hcovers => hroot ?_
        have hnames : place.names = [] := of_decide_eq_true (hcovers.alone hslash).2
        rw [hplace] at hnames
        exact (List.append_eq_nil_iff.mp hnames).1
      rw [hnone, Dir.text_inj, hplace, hback]
      simp [hroot]

end Mapping

/-! ## The two calls -/

section

variable {env : Environ} {rp : RewritePolicy} {libc : Libc} {f : PathArg → PathArg} {k k' : Kernel}
  {s : CString}

/-- `chdir` to the name of a directory outside FROM goes there. -/
theorem Follows.leads_text (hf : Follows libc rp f) (hinit : initRewritePolicy env = .ok rp)
    (hout : ¬ rp.fromDirs <+: k.cwd.names) :
    k.leads (f ⟨true, atFdcwd, some k.cwd.text⟩) = some k.cwd := by
  have habs := k.cwd.isAbsolute_text
  have hskips : rp.Skips libc ⟨true, atFdcwd, some k.cwd.text⟩ := by
    intro s t hs ht happlies
    obtain rfl := Option.some.inj ((Libc.source_of_absolute rfl habs).symm.trans hs)
    have hbelow := below_of_applies hinit ht happlies
    rw [Dir.resolve_text] at hbelow
    exact hout hbelow
  rw [hf.skipped hskips, Kernel.leads_some, Kernel.lookup, if_pos habs, Option.some.injEq]
  apply Dir.ext_names
  rw [Dir.follow_of_absolute _ habs, Dir.resolve_text]

/-- `chdir` to the virtual name of a directory goes to the directory. -/
theorem Follows.leads_virtual {m : Mapping} {n : Nat} (hf : Follows libc m.policy f)
    (hinit : initRewritePolicy env = .ok m.policy) (hfrom : endsInSlash m.src.text = false)
    (hto : endsInSlash m.dst.text = false) (hlen : k.cwd.text.length < pathMax) (hn : n ≤ pathMax)
    (hs : substituted m.dst.text m.src.text k.cwd.text n = some s) :
    k.leads (f ⟨true, atFdcwd, some s⟩) = some k.cwd := by
  have hshort := length_lt_of_substituted hs
  rw [← k.cwd.text_clean hlen] at hs
  obtain ⟨rest, hcovers, hchars, -⟩ := CleanPath.substituted_eq_some_iff.mp hs
  have habs := m.src.isAbsolute_of_append hchars
  have hcwd : k.cwd.names = m.dst.dirs ++ rest := hcovers.dirs
  -- the name spells the directories of FROM and what lies below TO
  have hsegs := hcovers.segments_substituted m.src
  rw [← hchars] at hsegs
  have hnames : ∀ x ∈ segments slash s.chars, IsName x := by
    intro x hx
    rw [hsegs] at hx
    rcases List.mem_append.mp hx with hx | hx
    · exact m.src.names x hx
    · exact hcovers.names x hx
  have hresolve : resolve s.chars = m.src.dirs ++ rest := (resolve_of_names hnames).trans hsegs
  obtain ⟨t, ht⟩ := cleaned_of_short (Nat.lt_of_lt_of_le hshort hn)
  -- substituting for it takes the room of the real name
  have hfits : m.policy.toLen + (t.length - m.policy.fromLen) + 1 ≤ pathMax := by
    obtain ⟨htext, -⟩ := cleaned_absolute habs ht
    have hroot : m.src.dirs ++ rest ≠ [] := by
      intro hnil
      have hslash := m.src.rooted (List.append_eq_nil_iff.mp hnil).1
      rw [m.src.endsInSlash_text, hslash] at hfrom
      exact absurd hfrom (by decide)
    have htlen : t.length =
        (m.src.dirs.map (·.length + 1)).sum + (rest.map (·.length + 1)).sum := by
      rw [CString.length_def, htext, length_pathText, hresolve, leavesSlash_of_names hnames, hsegs,
        decide_eq_false hroot, List.map_append, List.sum_append]
      rfl
    have hfromLen : m.policy.fromLen = (m.src.dirs.map (·.length + 1)).sum := by
      show m.src.text.chars.length = _
      rw [m.src.endsInSlash_text] at hfrom
      rw [CleanPath.chars_text, length_pathText, hfrom]
      rfl
    have htoLen : m.policy.toLen = (m.dst.dirs.map (·.length + 1)).sum := by
      show m.dst.text.chars.length = _
      rw [m.dst.endsInSlash_text] at hto
      rw [CleanPath.chars_text, length_pathText, hto]
      rfl
    rw [CString.length_def, Dir.chars_text, length_pathText, hcwd, List.map_append,
      List.sum_append] at hlen
    omega
  -- it leads to where relocation back from TO sends the current directory
  have hsent : resolve s.chars = relocate m.policy.toDirs m.policy.fromDirs k.cwd.names := by
    rw [hresolve, hcwd, m.fromDirs_policy, m.toDirs_policy, relocate_append]
  have hq : resolve s.chars = (Dir.root.follow s).names := (Dir.follow_of_absolute _ habs).symm
  have hbelow : m.policy.fromDirs <+: (Dir.root.follow s).names := by
    rw [← hq, hresolve, m.fromDirs_policy]
    exact List.prefix_append _ _
  have hsource : libc.source ⟨true, atFdcwd, some s⟩ = some s := Libc.source_of_absolute rfl habs
  obtain ⟨dir, hdir, hmoved⟩ := hf.leads_relocate (k := k) hinit rfl hfrom hsource habs hq ht hbelow
    hfits
  rw [hdir, Option.some.injEq]
  apply Dir.ext_names
  rw [hmoved, ← hq, hsent]
  apply relocate_relocate_back
  rw [hcwd, m.toDirs_policy]
  exact List.prefix_append _ _

end

/-- After `chdir (d)`, where `d` is rewritten, `getcwd` gives the normal form
    of `d` in exactly these cases. -/
theorem getcwd_after_chdir_iff (env : Environ) (rp : RewritePolicy)
    (hinit : initRewritePolicy env = .ok rp) (libc₀ libc libc' : Libc) (d R u : CString)
    (hR : RewritesTo libc₀ rp d R) (k k' : Kernel)
    (hchdir : eval libc rp (interpose (.chdir (some d))) = .ok (.forwarded (.chdir (some u))))
    (hk' : k.chdir u = some k') (hserves : k'.Serves libc') (buf : CharArray)
    (hcap : pathMax ≤ buf.cap) (hfits : (Dir.root.follow d).text.length < pathMax) :
    (∃ buf', eval libc' rp (getcwd (some buf) pathMax) = .ok (.caller buf') ∧
      buf'.string = .ok (Dir.root.follow d).text) ↔ GivesBack rp d := by
  obtain ⟨t, ht, happlies, hspliced⟩ := hR.spliced hinit
  obtain ⟨m, rfl, -⟩ := exists_mapping hinit happlies.1
  obtain ⟨f, hf⟩ := exists_follows hinit libc
  have habs := hspliced.source_absolute
  -- the current directory is what `d` was rewritten to
  have hargs : [⟨true, atFdcwd, some u⟩] = [f ⟨true, atFdcwd, some d⟩] :=
    hf.args_of_forwarded hchdir
  have hsource : libc.source ⟨true, atFdcwd, some d⟩ = some d := Libc.source_of_absolute rfl habs
  obtain ⟨u', hu', hspliced'⟩ := (hf.rewritten hsource ht happlies).path
  rw [← List.head_eq_of_cons_eq hargs] at hu'
  obtain rfl := Option.some.inj hu'
  have hcwd : k'.cwd = Dir.root.follow u := by
    rw [Kernel.chdir, Kernel.lookup, if_pos hspliced'.absolute] at hk'
    rw [← Option.some.inj hk']
  have hlen : k'.cwd.text.length < pathMax := by
    have := Dir.root.length_text_follow_le hspliced'.absolute
    have := hspliced'.short
    rw [hcwd]
    omega
  -- `d` lies at `rest` below FROM, and the current directory there below TO
  obtain ⟨c, rfl, hdirs, -⟩ := exists_cleanPath habs ht
  obtain ⟨rest, hsrc⟩ := CleanPath.pathMatchesPrefix_iff.mp happlies.2.1
  obtain ⟨rest', hd, -, hu⟩ := hspliced'.dirs
  rw [m.fromDirs_policy, ← hdirs, hsrc.dirs] at hd
  obtain rfl := List.append_cancel_left hd
  rw [hsrc.dirs] at hdirs
  have hback : (Dir.root.follow d).names = m.src.dirs ++ rest := by
    rw [Dir.follow_of_absolute _ habs, hdirs]
  have hplace : k'.cwd.names = m.dst.dirs ++ rest := by
    rw [hcwd, Dir.follow_of_absolute _ hspliced'.absolute, hu, m.toDirs_policy]
  rw [← Mapping.virtual_eq_iff hsrc hdirs.symm hback hfits hplace hlen]
  obtain ⟨buf', hok, hstring⟩ := eval_getcwd m hserves.resolves_getcwd
    (hserves.getcwd_of_lt hlen) hcap (Nat.le_refl _)
  refine ⟨?_, fun h => ⟨buf', hok, hstring.trans (congrArg _ h)⟩⟩
  rintro ⟨buf'', hok', hstring'⟩
  obtain rfl : buf' = buf'' := CwdReply.caller.inj (Except.ok.inj (hok.symm.trans hok'))
  exact Except.ok.inj (hstring.symm.trans hstring')

/-- The directory `/b`. -/
def Dir.b : Dir := ⟨[[98]], by decide, by decide⟩

/-- With `/a` to appear as what `/b` is, `chdir ("/a")` and `getcwd`. -/
theorem getcwd_after_chdir_a :
    (∃ buf', eval (Kernel.libc ⟨.b, []⟩) .aToB (getcwd (some (.uninit pathMax)) pathMax) =
        .ok (.caller buf') ∧ buf'.string = .ok (Dir.root.follow (.ofAscii ['/', 'a'])).text) ↔
      GivesBack .aToB (.ofAscii ['/', 'a']) := by
  have hR : RewritesTo (Kernel.libc ⟨.root, []⟩) .aToB
      (.ofAscii ['/', 'a']) (.ofAscii ['/', 'b']) := ⟨_, rfl, rfl⟩
  have hchdir : Kernel.chdir ⟨.root, []⟩ (.ofAscii ['/', 'b']) = some ⟨.b, []⟩ :=
    congrArg (fun dir => some (Kernel.mk dir [])) (Dir.ext_names (by decide))
  exact getcwd_after_chdir_iff .aToB .aToB init_aToB _ (Kernel.libc ⟨.root, []⟩) _ _ _
    (.ofAscii ['/', 'b']) hR ⟨.root, []⟩ _ rfl hchdir (Kernel.serves_libc _) _ (Nat.le_refl _)
    (by decide)

/-- `/a` is to appear as what the root is. -/
def Environ.aToRoot : Environ := ⟨some (.ofAscii ['/', 'a']), some (.ofAscii ['/'])⟩

def RewritePolicy.aToRoot : RewritePolicy where
  enabled := true
  fromLen := 2
  toLen := 1
  fromPath := .ofAscii ['/', 'a']
  toPath := .ofAscii ['/']

/-- The directory `/x`. -/
def Dir.x : Dir := ⟨[[120]], by decide, by decide⟩

/-- After `chdir ("/a/x")`, which goes to `/x`, `getcwd` gives `/x`. -/
theorem getcwd_after_chdir_below_root :
    initRewritePolicy .aToRoot = .ok .aToRoot ∧
      RewritesTo (Kernel.libc ⟨.root, []⟩) .aToRoot (.ofAscii ['/', 'a', '/', 'x'])
        (.ofAscii ['/', '/', 'x']) ∧
      eval (Kernel.libc ⟨.root, []⟩) .aToRoot
          (interpose (.chdir (some (.ofAscii ['/', 'a', '/', 'x'])))) =
        .ok (.forwarded (.chdir (some (.ofAscii ['/', '/', 'x'])))) ∧
      Kernel.chdir ⟨.root, []⟩ (.ofAscii ['/', '/', 'x']) = some ⟨.x, []⟩ ∧
      (Dir.root.follow (.ofAscii ['/', 'a', '/', 'x'])).text.length < pathMax ∧
      ¬ ∃ buf', eval (Kernel.libc ⟨.x, []⟩) .aToRoot (getcwd (some (.uninit pathMax)) pathMax) =
          .ok (.caller buf') ∧
        buf'.string = .ok (Dir.root.follow (.ofAscii ['/', 'a', '/', 'x'])).text := by
  refine ⟨rfl, ⟨_, rfl, rfl⟩, rfl, ?_, by decide, ?_⟩
  · exact congrArg (fun dir => some (Kernel.mk dir [])) (Dir.ext_names (by decide))
  · rintro ⟨buf', hok, hstring⟩
    have hreal : ∃ buf, eval (Kernel.libc ⟨.x, []⟩) .aToRoot
        (getcwd (some (.uninit pathMax)) pathMax) = .ok (.caller buf) ∧
          buf.string = .ok (.ofAscii ['/', 'x']) := ⟨_, rfl, rfl⟩
    obtain ⟨buf, hok', hstring'⟩ := hreal
    obtain rfl : buf = buf' := CwdReply.caller.inj (Except.ok.inj (hok'.symm.trans hok))
    exact absurd (Except.ok.inj (hstring'.symm.trans hstring)) (by decide)

/-- `chdir` to the name that `getcwd` gives goes nowhere. -/
theorem chdir_getcwd (env : Environ) (rp : RewritePolicy) (hinit : initRewritePolicy env = .ok rp)
    (henabled : rp.enabled = true) (hfrom : endsInSlash rp.fromPath = false)
    (hto : endsInSlash rp.toPath = false) (hunrelated : Unrelated rp.fromDirs rp.toDirs)
    (k : Kernel) (hout : ¬ rp.fromDirs <+: k.cwd.names) (libc : Libc) (hk : k.Reports libc)
    (hsym : libc.resolves .getcwd = true) (n : Nat) (hn : n ≤ pathMax) (cwd : CString)
    (hget : libc.getcwd n = some cwd) (buf : CharArray) (hcap : n ≤ buf.cap) :
    ∃ buf' s, eval libc rp (getcwd (some buf) n) = .ok (.caller buf') ∧ buf'.string = .ok s ∧
      ∀ libc', libc'.resolves .chdir = true →
        ∃ u, eval libc' rp (interpose (.chdir (some s))) = .ok (.forwarded (.chdir (some u))) ∧
          k.chdir u = some k := by
  obtain ⟨m, rfl, -⟩ := exists_mapping hinit henabled
  obtain rfl := hk.getcwd_eq hget
  have hlen : k.cwd.text.length < pathMax := Nat.lt_of_lt_of_le (libc.getcwd_lt hget) hn
  obtain ⟨buf', hok, hstring⟩ := eval_getcwd m hsym hget hcap hn
  refine ⟨buf', _, hok, hstring, fun libc' hc => ?_⟩
  obtain ⟨f, hf⟩ := exists_follows hinit libc'
  suffices hleads : k.leads (f ⟨true, atFdcwd, some (m.virtual k.cwd n)⟩) = some k.cwd from
    hf.chdir_forwarded hc hleads
  rw [Mapping.virtual]
  cases hs : substituted m.dst.text m.src.text k.cwd.text n with
  | none => exact hf.leads_text hinit hout
  | some s =>
    exact hf.leads_virtual hinit hfrom hto hlen hn hs

/-- In `/b`, with room for one more byte than its name has. -/
theorem chdir_getcwd_b :
    ∃ buf' s, eval (Kernel.libc ⟨.b, []⟩) .aToB (getcwd (some (.uninit 3)) 3) = .ok (.caller buf') ∧
      buf'.string = .ok s ∧
      ∀ libc', libc'.resolves .chdir = true →
        ∃ u, eval libc' .aToB (interpose (.chdir (some s))) = .ok (.forwarded (.chdir (some u))) ∧
          Kernel.chdir ⟨.b, []⟩ u = some ⟨.b, []⟩ :=
  chdir_getcwd .aToB .aToB init_aToB rfl rfl rfl ⟨by decide, by decide⟩ ⟨.b, []⟩ (by decide)
    (Kernel.libc ⟨.b, []⟩) (Kernel.serves_libc _).toReports rfl 3 (by decide) _ rfl _
    (Nat.le_refl _)

end LdPreload
