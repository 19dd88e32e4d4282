/-
  LdPreload.Contract.Coverage

  No missed rewriting: an absolute path at or below FROM is rewritten when the
  result fits.  This holds for every FROM whose cleaned text does not end in a
  separator.  The root does, and so does a path whose last segment is a `..`;
  `path_matches_prefix` then asks for a second separator that no cleaned path
  has, and only FROM itself, spelled so that it is cleaned to the same text,
  is matched.
-/

import LdPreload.Contract.Confinement

namespace LdPreload

open CMem Lexical Once

/-- `rewrite_absolute_path` returns 1 and has written the path `rest` below TO. -/
def Caught (env : Environ) (rp : RewritePolicy) (libc : Libc) (path : CString)
    (rest : List Segment) (dst : CharArray) : Prop :=
  ∃ dst' t, eval libc rp (rewriteAbsolutePath (some path) dst pathMax) = .ok (1, dst') ∧
    dst'.string = .ok t ∧ segments slash t.chars = env.toDirs ++ rest

/-- An absolute path at or below FROM, with room for what takes its place, is
    rewritten exactly when FROM does not end in a separator or the path is
    cleaned to the very text of FROM. -/
theorem caught_iff (env : Environ) (rp : RewritePolicy) (hinit : initRewritePolicy env = .ok rp)
    (henabled : rp.enabled = true) (libc : Libc) (path : CString)
    (habs : isAbsolute path = true) (hshort : path.length < pathMax) (rest : List Segment)
    (hdirs : resolve path.chars = env.fromDirs ++ rest)
    (hfits : rp.toPath.length + 1 + ([slash].intercalate rest).length + 1 + 1 ≤ pathMax)
    (dst : CharArray) (hcap : dst.cap = pathMax) :
    Caught env rp libc path rest dst ↔
      endsInSlash rp.fromPath = false ∨ cleaned path = some rp.fromPath := by
  obtain ⟨m, rfl, hfrom, hto⟩ := exists_mapping hinit henabled
  obtain ⟨text, htext⟩ := cleaned_of_short hshort
  obtain ⟨c, rfl, hc, -⟩ := exists_cleanPath habs htext
  have hcdirs : c.dirs = m.src.dirs ++ rest := by rw [hc, hdirs, hfrom]
  have hanswer : Answers (m.absoluteTarget path)
      (eval libc m.policy (rewriteAbsolutePath (some path) dst pathMax)) :=
    eval_rewriteAbsolutePath m path hcap
  have htarget : m.absoluteTarget path = m.target c.text := by
    rw [Mapping.absoluteTarget, if_pos habs, htext, Option.bind_some]
  rw [htarget] at hanswer
  have hcondition : endsInSlash m.policy.fromPath = false ∨ cleaned path = some m.policy.fromPath ↔
      m.src.Covers c rest := by
    rw [CleanPath.covers_iff hcdirs, htext, Option.some.injEq]
    rfl
  rw [hcondition]
  refine ⟨?_, fun hcovers => ?_⟩
  · -- the answer 1 comes from a substitution
    rintro ⟨dst', t, hok, hstring, hsegs⟩
    cases ht : m.target c.text with
    | none =>
      rw [ht] at hanswer
      obtain ⟨dst'', hzero⟩ := hanswer
      exact absurd (congrArg Prod.fst (Except.ok.inj (hok.symm.trans hzero))) (by simp)
    | some t' =>
      obtain ⟨rest', hcovers, -⟩ := CleanPath.substituted_eq_some_iff.mp ht
      have hrest : rest = rest' := List.append_cancel_left (hcdirs.symm.trans hcovers.dirs)
      rw [hrest]
      exact hcovers
  · -- the substitute fits, with the one separator that cleaning may leave
    have hlen : (m.dst.text.chars ++ CleanPath.remainder m.src c rest).length < pathMax := by
      have := CleanPath.length_remainder_le m.src c rest
      have hto' : m.policy.toPath.length = m.dst.text.chars.length := rfl
      rw [List.length_append]
      omega
    have hnul : nul ∉ m.dst.text.chars ++ CleanPath.remainder m.src c rest := by
      intro hmem
      rcases List.mem_append.mp hmem with hmem | hmem
      · exact m.dst.text.noNul hmem
      · apply c.text.noNul
        rw [hcovers.text_eq]
        exact List.mem_append_right _ hmem
    have ht : m.target c.text =
        some ⟨m.dst.text.chars ++ CleanPath.remainder m.src c rest, hnul⟩ :=
      CleanPath.substituted_eq_some_iff.mpr ⟨rest, hcovers, rfl, hlen⟩
    rw [ht] at hanswer
    obtain ⟨dst', hok, hstring⟩ := hanswer
    refine ⟨dst', _, hok, hstring, ?_⟩
    rw [← hto]
    exact hcovers.segments_substituted m.dst

theorem file_below_a_caught :
    Caught .aToB .aToB (Kernel.libc ⟨.a, []⟩) (.ofAscii ['/', 'a', '/', 'x']) [[120]]
      (.uninit pathMax) :=
  (caught_iff .aToB .aToB init_aToB rfl (Kernel.libc ⟨.a, []⟩) (.ofAscii ['/', 'a', '/', 'x']) rfl
    (by decide) [[120]] rfl (by decide) (.uninit pathMax) rfl).mpr (Or.inl rfl)

/-- With the root as FROM, not even `/x` is rewritten. -/
theorem root_not_caught :
    let env : Environ := ⟨some (.ofAscii ['/']), some (.ofAscii ['/', 't'])⟩
    let path : CString := .ofAscii ['/', 'x']
    ∃ rp, initRewritePolicy env = .ok rp ∧ rp.enabled = true ∧ isAbsolute path = true ∧
      path.length < pathMax ∧ resolve path.chars = env.fromDirs ++ [[120]] ∧
      rp.toPath.length + 1 + ([slash].intercalate [[120]]).length + 1 + 1 ≤ pathMax ∧
      ¬ Caught env rp (Kernel.libc ⟨.a, []⟩) path [[120]] (.uninit pathMax) := by
  refine ⟨⟨true, 1, 2, .ofAscii ['/'], .ofAscii ['/', 't']⟩, rfl, rfl, rfl, by decide, rfl,
    by decide, ?_⟩
  rintro ⟨dst', t, hok, -⟩
  have hzero : eval (Kernel.libc ⟨.a, []⟩) ⟨true, 1, 2, .ofAscii ['/'], .ofAscii ['/', 't']⟩
      (rewriteAbsolutePath (some (.ofAscii ['/', 'x'])) (.uninit pathMax) pathMax) =
        .ok (0, .uninit pathMax) := rfl
  exact absurd (congrArg Prod.fst (Except.ok.inj (hok.symm.trans hzero))) (by simp)

end LdPreload
