/-
  LdPreload.Contract.Inverse

  `substitute_prefix` and `substitute_prefix_reverse` undo each other.  What
  one of them writes continues its replacement at a boundary, by the same
  suffix with which its argument continues the prefix, so the other one
  matches it and puts the argument back; only the room for that can be
  missing.
-/

import LdPreload.System.Kernel

namespace LdPreload

open CMem Lexical Once

/-- `substitute_prefix` or `substitute_prefix_reverse`. -/
abbrev Substitution := Option CString → CharArray → Nat → Interp (Int × CharArray)

/-- The call returns 0 and leaves the string `q` in the array. -/
def Writes (libc : Libc) (k : RewritePolicy) (f : Substitution) (p q : CString) (dst : CharArray)
    (dstLen : Nat) : Prop :=
  ∃ dst', eval libc k (f (some p) dst dstLen) = .ok (0, dst') ∧ dst'.string = .ok q

/-- The call returns -1 and leaves the array as it is. -/
def Refuses (libc : Libc) (k : RewritePolicy) (f : Substitution) (p : CString) (dst : CharArray)
    (dstLen : Nat) : Prop :=
  eval libc k (f (some p) dst dstLen) = .ok (-1, dst)

/-- Whatever `f` writes for a string, `g` writes the string for it when it
    fits, and refuses when it does not. -/
def UndoneBy (libc : Libc) (k : RewritePolicy) (f g : Substitution) : Prop :=
  ∀ (p q : CString) (dst : CharArray) (dstLen : Nat), dstLen ≤ dst.cap →
    Writes libc k f p q dst dstLen → ∀ (dst₂ : CharArray) (n : Nat), n ≤ dst₂.cap →
      (p.length + 1 ≤ n → Writes libc k g q p dst₂ n) ∧
        (n < p.length + 1 → Refuses libc k g q dst₂ n)

/-- `f` puts `repl` in the place of `pfx`. -/
def Replaces (libc : Libc) (k : RewritePolicy) (f : Substitution) (pfx repl : CString) : Prop :=
  ∀ path dst dstLen, eval libc k (f path dst dstLen) =
    substitute true pfx pfx.length repl repl.length path dst dstLen

variable {libc : Libc} {k : RewritePolicy} {f g : Substitution} {pfx repl p q : CString}

/-! ## Strings -/

/-- The way back asks for nothing but room. -/
theorem substituted_back {n : Nat} (h : substituted pfx repl p n = some q) (n' : Nat) :
    substituted repl pfx q n' = if p.length + 1 ≤ n' then some p else none := by
  unfold substituted at h
  split at h
  · next hcond =>
    obtain ⟨suffix, hp, hboundary⟩ := (pathMatchesPrefix_iff_append p pfx).mp hcond.1
    have hsuffix : (p.drop pfx.length).chars = suffix := by
      rw [CString.chars_drop, hp, CString.length_def, List.drop_left]
    have hq : q.chars = repl.chars ++ suffix := by
      rw [← Option.some.inj h, CString.chars_append, hsuffix]
    -- the same suffix, at the same boundary
    have hmatch := (pathMatchesPrefix_iff_append q repl).mpr ⟨suffix, hq, hboundary⟩
    have hdrop : (q.drop repl.length).chars = suffix := by
      rw [CString.chars_drop, hq, CString.length_def, List.drop_left]
    have hback : pfx ++ q.drop repl.length = p :=
      CString.ext (by rw [CString.chars_append, hdrop, hp])
    have hlen : pfx.length + (q.drop repl.length).length + 1 = p.length + 1 := by
      rw [← CString.length_append, hback]
    rw [substituted, hlen, hback]
    simp only [hmatch, true_and]
  · exact absurd h (by simp)

/-! ## Calls -/

theorem Replaces.writes_iff (h : Replaces libc k f pfx repl) {dst : CharArray} {dstLen : Nat}
    (hcap : dstLen ≤ dst.cap) :
    Writes libc k f p q dst dstLen ↔ substituted pfx repl p dstLen = some q := by
  have hspec := substitute_spec pfx repl p hcap
  rw [Writes, h]
  cases hsub : substituted pfx repl p dstLen with
  | none =>
    rw [hsub] at hspec
    refine ⟨?_, fun hq => absurd hq (by simp)⟩
    rintro ⟨dst', hok, -⟩
    exact absurd (congrArg Prod.fst (Except.ok.inj (hok.symm.trans hspec))) (by simp)
  | some t =>
    rw [hsub] at hspec
    obtain ⟨dst', hok, -, hstring⟩ := hspec
    rw [Option.some.injEq]
    refine ⟨?_, ?_⟩
    · rintro ⟨dst'', hok', hstring'⟩
      obtain rfl : dst' = dst'' :=
        congrArg Prod.snd (Except.ok.inj (hok.symm.trans hok'))
      exact Except.ok.inj (hstring.symm.trans hstring')
    · rintro rfl
      exact ⟨dst', hok, hstring⟩

theorem Replaces.refuses (h : Replaces libc k f pfx repl) {dst : CharArray} {dstLen : Nat}
    (hsub : substituted pfx repl p dstLen = none) : Refuses libc k f p dst dstLen := by
  rw [Refuses, h]
  exact substitute_of_none hsub

theorem Replaces.writes_or_refuses (h : Replaces libc k f pfx repl) (p : CString)
    {dst : CharArray} {dstLen : Nat} (hcap : dstLen ≤ dst.cap) :
    (∃ q, Writes libc k f p q dst dstLen) ∨ Refuses libc k f p dst dstLen := by
  cases hsub : substituted pfx repl p dstLen with
  | none => exact Or.inr (h.refuses hsub)
  | some q => exact Or.inl ⟨q, (h.writes_iff hcap).mpr hsub⟩

/-- Replacing and replacing the other way round. -/
theorem Replaces.undoneBy (hf : Replaces libc k f pfx repl) (hg : Replaces libc k g repl pfx) :
    UndoneBy libc k f g := by
  intro p q dst dstLen hcap hwrites dst₂ n hcap₂
  have hback := substituted_back ((hf.writes_iff hcap).mp hwrites) n
  refine ⟨fun hroom => ?_, fun hshort => ?_⟩
  · rw [if_pos hroom] at hback
    exact (hg.writes_iff hcap₂).mpr hback
  · rw [if_neg (by omega)] at hback
    exact hg.refuses hback

/-- Under an enabled policy the two substitutions undo each other, and each of
    them either writes a string or leaves the array alone. -/
theorem substitutions_inverse (env : Environ) (rp : RewritePolicy)
    (hinit : initRewritePolicy env = .ok rp) (henabled : rp.enabled = true) (libc : Libc) :
    UndoneBy libc rp substitutePrefix substitutePrefixReverse ∧
      UndoneBy libc rp substitutePrefixReverse substitutePrefix ∧
      ∀ f, f = substitutePrefix ∨ f = substitutePrefixReverse →
        ∀ (p : CString) (dst : CharArray) (dstLen : Nat), dstLen ≤ dst.cap →
          (∃ q, Writes libc rp f p q dst dstLen) ∨ Refuses libc rp f p dst dstLen := by
  obtain ⟨m, rfl, -, -⟩ := exists_mapping hinit henabled
  have hforth : Replaces libc m.policy substitutePrefix m.src.text m.dst.text :=
    eval_substitutePrefix m.policy
  have hback : Replaces libc m.policy substitutePrefixReverse m.dst.text m.src.text :=
    eval_substitutePrefixReverse m.policy
  refine ⟨hforth.undoneBy hback, hback.undoneBy hforth, ?_⟩
  rintro f (rfl | rfl) p dst dstLen hcap
  · exact hforth.writes_or_refuses p hcap
  · exact hback.writes_or_refuses p hcap

theorem substitutions_inverse_aToB :
    UndoneBy (Kernel.libc ⟨.a, []⟩) .aToB substitutePrefix substitutePrefixReverse ∧
      UndoneBy (Kernel.libc ⟨.a, []⟩) .aToB substitutePrefixReverse substitutePrefix ∧
      ∀ f, f = substitutePrefix ∨ f = substitutePrefixReverse →
        ∀ (p : CString) (dst : CharArray) (dstLen : Nat), dstLen ≤ dst.cap →
          (∃ q, Writes (Kernel.libc ⟨.a, []⟩) .aToB f p q dst dstLen) ∨
            Refuses (Kernel.libc ⟨.a, []⟩) .aToB f p dst dstLen :=
  substitutions_inverse .aToB .aToB init_aToB rfl (Kernel.libc ⟨.a, []⟩)

end LdPreload
