/-
  LdPreload.Contract.CwdBuffer

  The memory of `getcwd`.  The wrapper lets `substitute_prefix_reverse` write
  as much into its own array of `PATH_MAX` bytes as the caller's buffer could
  take, and it hands on the caller's pointer where the real function may have
  allocated one.  Both go well exactly when the substitute of the real name is
  no longer than `PATH_MAX` allows, and the caller has a buffer.
-/

import LdPreload.System.Kernel
import LdPreload.Rtld.GetcwdSound

namespace LdPreload

open CMem Lexical Once

/-- `rewritten` has room for the name that FROM in the place of TO gives to
    the directory `cwd`, unless the caller's buffer has none or TO does not
    match. -/
def ScratchFits (rp : RewritePolicy) (cwd : CString) (size : Nat) : Prop :=
  pathMatchesPrefix cwd rp.toPath rp.toLen = true →
    rp.fromLen + (cwd.drop rp.toLen).length + 1 ≤ size →
      rp.fromLen + (cwd.drop rp.toLen).length + 1 ≤ pathMax

/-- The bytes that `substitute_prefix_reverse (cwd, dst, size)` writes from
    `dst` on, which do not depend on what `dst` is. -/
def reverseWritten (libc : Libc) (rp : RewritePolicy) (cwd : CString) (size : Nat) : Nat :=
  match eval libc rp (substitutePrefixReverse (some cwd) (.uninit size) size) with
  | .ok (_, dst) => dst.bytes.length
  | .error _ => 0

variable {libc : Libc} {cwd : CString} {size : Nat}

theorem scratchFits_iff (m : Mapping) :
    ScratchFits m.policy cwd size ↔
      ∀ t, substituted m.dst.text m.src.text cwd size = some t → t.length < pathMax := by
  have hunfold : ScratchFits m.policy cwd size ↔
      (pathMatchesPrefix cwd m.dst.text m.dst.text.length = true →
        m.src.text.length + (cwd.drop m.dst.text.length).length + 1 ≤ size →
          m.src.text.length + (cwd.drop m.dst.text.length).length + 1 ≤ pathMax) := Iff.rfl
  rw [hunfold]
  refine ⟨fun h t ht => ?_, fun h hmatch hsize => ?_⟩
  · unfold substituted at ht
    split at ht
    · next hcond =>
      have hfits := h hcond.1 hcond.2
      rw [← Option.some.inj ht, CString.length_append]
      omega
    · exact absurd ht (by simp)
  · have ht := h _ (if_pos ⟨hmatch, hsize⟩)
    rw [CString.length_append] at ht
    omega

/-- A name that is not substituted writes nothing, another one its substitute
    and the terminator. -/
theorem reverseWritten_eq (m : Mapping) :
    reverseWritten libc m.policy cwd size =
      match substituted m.dst.text m.src.text cwd size with
      | some t => t.length + 1
      | none => 0 := by
  rw [reverseWritten, eval_substitutePrefixReverse]
  show (match substitute true m.dst.text m.dst.text.length m.src.text m.src.text.length (some cwd)
    (.uninit size) size with | .ok (_, dst) => dst.bytes.length | .error _ => 0) = _
  cases hsub : substituted m.dst.text m.src.text cwd size with
  | none =>
    rw [substitute_of_none hsub]
    rfl
  | some t =>
    obtain ⟨dst', hok, -, hbytes⟩ :=
      substitute_of_room hsub (.uninit size) (length_lt_of_substituted hsub)
    rw [hok]
    simp only [hbytes, CharArray.uninit, List.drop_nil, List.append_nil, List.length_append,
      List.length_singleton, CString.length_def]

/-! ## A deep directory -/

/-- `/c` and `n` times `/x` behind it. -/
def Dir.deep (n : Nat) : Dir where
  names := [99] :: List.replicate n [120]
  isName := by
    intro s hs
    rcases List.mem_cons.mp hs with rfl | hs
    · decide
    · rw [List.eq_of_mem_replicate hs]
      decide
  noNul := by
    intro s hs
    rcases List.mem_cons.mp hs with rfl | hs
    · decide
    · rw [List.eq_of_mem_replicate hs]
      decide

/-- `/aaaaaaaa` is to appear as what `/c` is. -/
def Environ.longToC : Environ :=
  ⟨some (.ofAscii ['/', 'a', 'a', 'a', 'a', 'a', 'a', 'a', 'a']), some (.ofAscii ['/', 'c'])⟩

def Mapping.longToC : Mapping where
  src := ⟨[[97, 97, 97, 97, 97, 97, 97, 97]], false, by decide, by decide, by decide, by decide⟩
  dst := ⟨[[99]], false, by decide, by decide, by decide, by decide⟩

theorem init_longToC : initRewritePolicy .longToC = .ok Mapping.longToC.policy := by rfl

theorem chars_deep (n : Nat) :
    (Dir.deep n).text.chars =
      Mapping.longToC.dst.text.chars ++ spell slash (List.replicate n [120]) := by
  rw [Dir.chars_text, Dir.deep, decide_eq_false (List.cons_ne_nil _ _), pathText,
    if_neg (by decide), List.append_nil]
  rfl

theorem length_deep (n : Nat) : (Dir.deep n).text.length = 2 + 2 * n := by
  rw [CString.length_def, chars_deep, List.length_append, length_spell, List.map_replicate,
    List.sum_replicate, smul_eq_mul, Nat.mul_comm]
  rfl

/-- The name that `getcwd` has to write for such a directory. -/
theorem substituted_deep (n : Nat) (h : 9 + 2 * n < size) :
    ∃ t, substituted Mapping.longToC.dst.text Mapping.longToC.src.text (Dir.deep n).text size =
      some t ∧ t.length = 9 + 2 * n := by
  have hboundary : AtBoundary slash (spell slash (List.replicate n [120])) := by
    simpa using atBoundary_spell (List.replicate n [120]) [] trivial
  have hmatch := (pathMatchesPrefix_iff_append _ _).mpr ⟨_, chars_deep n, hboundary⟩
  have hdrop : ((Dir.deep n).text.drop Mapping.longToC.dst.text.length).length = 2 * n := by
    have hdst : Mapping.longToC.dst.text.length = 2 := rfl
    have hlen := length_deep n
    rw [CString.length_def] at hlen
    rw [CString.length_def, CString.chars_drop, List.length_drop, hlen, hdst]
    omega
  have hsrc : Mapping.longToC.src.text.length = 9 := rfl
  refine ⟨_, if_pos ⟨hmatch, by rw [hsrc, hdrop]; exact h⟩, ?_⟩
  rw [CString.length_append, hsrc, hdrop]

/-! ## The scratch array -/

/-- `getcwd` stays in its array and in the caller's exactly when the array has
    room for the substitute. -/
theorem getcwd_in_bounds_iff (env : Environ) (rp : RewritePolicy)
    (hinit : initRewritePolicy env = .ok rp) (henabled : rp.enabled = true) (libc : Libc)
    (hsym : libc.resolves .getcwd = true) (size : Nat) (cwd : CString)
    (hget : libc.getcwd size = some cwd) :
    (reverseWritten libc rp cwd size ≤ pathMax ∧
      ∀ buf : CharArray, buf.cap = size → ∃ buf' t,
        eval libc rp (getcwd (some buf) size) = .ok (.caller buf') ∧ buf'.string = .ok t ∧
          t.length + 1 ≤ size) ↔
      ScratchFits rp cwd size := by
  obtain ⟨m, rfl, -, -⟩ := exists_mapping hinit henabled
  rw [scratchFits_iff, reverseWritten_eq]
  refine ⟨?_, fun hfits => ?_⟩
  · rintro ⟨hwritten, -⟩ t ht
    rw [ht] at hwritten
    exact hwritten
  · cases hsub : substituted m.dst.text m.src.text cwd size with
    | none =>
      refine ⟨Nat.zero_le _, fun buf hbuf => ?_⟩
      obtain ⟨buf', hok, hstring⟩ := eval_getcwd_of_none m hsym hget
        (libc.length_lt_cap hget (Nat.le_of_eq hbuf.symm)) hsub
      exact ⟨buf', cwd, hok, hstring, libc.getcwd_lt hget⟩
    | some t =>
      have hroom := hfits t hsub
      refine ⟨hroom, fun buf hbuf => ?_⟩
      obtain ⟨buf', hok, hstring⟩ :=
        eval_getcwd_of_room m hsym hget (Nat.le_of_eq hbuf.symm) hsub hroom
      exact ⟨buf', t, hok, hstring, length_lt_of_substituted hsub⟩

/-- Below `/c`, with one name. -/
theorem getcwd_in_bounds_below_c :
    let libc := Kernel.libc ⟨.deep 1, []⟩
    let rp := Mapping.longToC.policy
    let cwd := (Dir.deep 1).text
    (reverseWritten libc rp cwd 8192 ≤ pathMax ∧
      ∀ buf : CharArray, buf.cap = 8192 → ∃ buf' t,
        eval libc rp (getcwd (some buf) 8192) = .ok (.caller buf') ∧ buf'.string = .ok t ∧
          t.length + 1 ≤ 8192) ↔
      ScratchFits rp cwd 8192 :=
  getcwd_in_bounds_iff .longToC Mapping.longToC.policy init_longToC rfl
    (Kernel.libc ⟨.deep 1, []⟩) rfl 8192 (Dir.deep 1).text
    ((Kernel.serves_libc ⟨.deep 1, []⟩).getcwd_of_lt (by decide))

/-- With `/aaaaaaaa` for `/c`, a buffer of 8192 bytes and a current directory
    of 4092 bytes below `/c`, 4100 bytes go into an array of 4096. -/
theorem getcwd_overruns_scratch :
    let libc := Kernel.libc ⟨.deep 2045, []⟩
    let cwd := (Dir.deep 2045).text
    ∃ rp, initRewritePolicy .longToC = .ok rp ∧ rp.enabled = true ∧
      libc.resolves .getcwd = true ∧ libc.getcwd 8192 = some cwd ∧ cwd.length = 4092 ∧
      reverseWritten libc rp cwd 8192 = 4100 ∧
      eval libc rp (getcwd (some (.uninit 8192)) 8192) = .error .fault := by
  intro libc cwd
  have hlen : cwd.length = 2 + 2 * 2045 := length_deep 2045
  have hlt : cwd.length < 8192 := by omega
  have hget : libc.getcwd 8192 = some cwd :=
    (Kernel.serves_libc ⟨.deep 2045, []⟩).getcwd_of_lt hlt
  have hfits : 9 + 2 * 2045 < 8192 := by decide
  obtain ⟨t, hsub, ht⟩ := substituted_deep 2045 hfits
  refine ⟨Mapping.longToC.policy, init_longToC, rfl, rfl, hget, hlen, ?_, ?_⟩
  · rw [reverseWritten_eq, hsub]
    show t.length + 1 = 4100
    omega
  · refine eval_getcwd_of_overrun Mapping.longToC rfl hget (Nat.le_refl _) hsub ?_
    rw [ht]
    decide

/-! ## The pointer -/

namespace CwdReply

/-- The string at the pointer. -/
def text : CwdReply → Except Stop CString
  | .null => .error .fault
  | .caller buf => buf.string
  | .allocated cwd => .ok cwd

/-- The same pointer, with whatever memory behind it. -/
def SamePointer : CwdReply → CwdReply → Prop
  | .null, .null => True
  | .caller _, .caller _ => True
  | .allocated _, .allocated _ => True
  | _, _ => False

end CwdReply

/-- A name for the directory `cwd`: its real one, or the one with FROM in the
    place of TO where TO ends at a segment boundary of it. -/
def Names (rp : RewritePolicy) (cwd t : CString) : Prop :=
  t = cwd ∨ ∃ suffix, cwd.chars = rp.toPath.chars ++ suffix ∧ AtBoundary slash suffix ∧
    t.chars = rp.fromPath.chars ++ suffix

theorem names_of_substituted {m : Mapping} {t : CString}
    (h : substituted m.dst.text m.src.text cwd size = some t) : Names m.policy cwd t := by
  unfold substituted at h
  split at h
  · next hcond =>
    obtain ⟨suffix, hcwd, hboundary⟩ := (pathMatchesPrefix_iff_append _ _).mp hcond.1
    refine Or.inr ⟨suffix, hcwd, hboundary, ?_⟩
    rw [← Option.some.inj h, CString.chars_append, CString.chars_drop, hcwd, CString.length_def,
      List.drop_left]
    rfl
  · exact absurd h (by simp)

/-- The two conventions of the real `getcwd`. -/
theorem origGetcwd_cases {k : RewritePolicy} {buf : Option CharArray} {real : CwdReply}
    (hbuf : ∀ b, buf = some b → size ≤ b.cap)
    (hreal : eval libc k (origGetcwd buf size) = .ok real) (htext : real.text = .ok cwd) :
    libc.resolves .getcwd = true ∧
      ((∃ b b', buf = some b ∧ real = .caller b' ∧ libc.getcwd size = some cwd) ∨
        buf = none ∧ real = .allocated cwd) := by
  have hnull : ∀ {r : CwdReply}, r = .null → r.text ≠ .ok cwd := by
    rintro r rfl
    simp [CwdReply.text]
  rw [origGetcwd, eval_bind_ok eval_look] at hreal
  cases hsym : libc.resolves .getcwd with
  | false =>
    rw [hsym] at hreal
    exact absurd htext (hnull (Except.ok.inj hreal).symm)
  | true =>
    rw [hsym] at hreal
    refine ⟨rfl, ?_⟩
    cases buf with
    | some b =>
      cases hget : libc.getcwd size with
      | none =>
        simp only [hget] at hreal
        exact absurd htext (hnull (Except.ok.inj hreal).symm)
      | some s =>
        obtain ⟨b', hok, -, hstring⟩ := eval_origGetcwd (k := k) hsym hget
          (libc.length_lt_cap hget (hbuf b rfl))
        rw [origGetcwd, eval_bind_ok eval_look, hsym] at hok
        obtain rfl := Except.ok.inj (hreal.symm.trans hok)
        obtain rfl : s = cwd := Except.ok.inj (hstring.symm.trans htext)
        exact Or.inl ⟨b, b', rfl, rfl, rfl⟩
    | none =>
      cases hget : libc.getcwdAlloc size with
      | none =>
        simp only [hget] at hreal
        exact absurd htext (hnull (Except.ok.inj hreal).symm)
      | some s =>
        simp only [hget] at hreal
        obtain rfl := Except.ok.inj hreal
        obtain rfl : s = cwd := Except.ok.inj htext
        exact Or.inr ⟨rfl, rfl⟩

/-- Where the real `getcwd` succeeds, the wrapper returns the same pointer
    with a name of the directory behind it exactly when there is no policy, or
    a buffer of the caller and room for the substitute. -/
theorem getcwd_names_iff (env : Environ) (rp : RewritePolicy)
    (hinit : initRewritePolicy env = .ok rp) (libc : Libc) (buf : Option CharArray) (size : Nat)
    (hbuf : ∀ b, buf = some b → size ≤ b.cap) (real : CwdReply) (cwd : CString)
    (hreal : eval libc rp (origGetcwd buf size) = .ok real) (htext : real.text = .ok cwd) :
    (∃ reply t, eval libc rp (getcwd buf size) = .ok reply ∧ reply.SamePointer real ∧
      reply.text = .ok t ∧ Names rp cwd t) ↔
      rp.enabled = false ∨ buf.isSome = true ∧ ScratchFits rp cwd size := by
  obtain ⟨hsym, hcases⟩ := origGetcwd_cases hbuf hreal htext
  cases henabled : rp.enabled with
  | false =>
    -- the reply is that of the real function
    refine ⟨fun _ => Or.inl rfl, fun _ => ⟨real, cwd, ?_, ?_, htext, Or.inl rfl⟩⟩
    · rw [eval_getcwd_of_disabled libc henabled, hreal]
    · cases real <;> trivial
  | true =>
    obtain ⟨m, rfl, -, -⟩ := exists_mapping hinit henabled
    rcases hcases with ⟨b, b', rfl, rfl, hget⟩ | ⟨rfl, rfl⟩
    · have hcap := hbuf b rfl
      rw [scratchFits_iff]
      refine ⟨?_, ?_⟩
      · rintro ⟨reply, t, hok, -⟩
        refine Or.inr ⟨rfl, fun t ht => ?_⟩
        -- without room, the substitution runs over the end of its array
        by_contra hover
        have hfault := eval_getcwd_of_overrun m hsym hget hcap ht (by omega)
        exact absurd (hok.symm.trans hfault) (by simp)
      · rintro (hdisabled | ⟨-, hfits⟩)
        · exact absurd hdisabled (by decide)
        · cases hsub : substituted m.dst.text m.src.text cwd size with
          | none =>
            obtain ⟨buf', hok, hstring⟩ := eval_getcwd_of_none m hsym hget
              (libc.length_lt_cap hget hcap) hsub
            exact ⟨_, cwd, hok, trivial, hstring, Or.inl rfl⟩
          | some t =>
            obtain ⟨buf', hok, hstring⟩ :=
              eval_getcwd_of_room m hsym hget hcap hsub (hfits t hsub)
            exact ⟨_, t, hok, trivial, hstring, names_of_substituted hsub⟩
    · -- the wrapper reads at the `NULL` that it was given
      refine ⟨?_, ?_⟩
      · rintro ⟨reply, t, hok, -⟩
        exact absurd (hok.symm.trans (eval_getcwd_null m hreal)) (by simp)
      · rintro (hdisabled | ⟨hsome, -⟩)
        · exact absurd hdisabled (by decide)
        · exact absurd hsome (by decide)

/-- From `/c/x`, with an array of 16 bytes. -/
theorem getcwd_names_below_c :
    let libc := Kernel.libc ⟨.deep 1, []⟩
    let rp := Mapping.longToC.policy
    let buf : CharArray := .uninit 16
    let cwd := (Dir.deep 1).text
    let real : CwdReply := .caller ⟨16, [47, 99, 47, 120, 0], by decide⟩
    (∃ reply t, eval libc rp (getcwd (some buf) 16) = .ok reply ∧ reply.SamePointer real ∧
      reply.text = .ok t ∧ Names rp cwd t) ↔
      rp.enabled = false ∨ (some buf).isSome = true ∧ ScratchFits rp cwd 16 :=
  getcwd_names_iff .longToC Mapping.longToC.policy init_longToC (Kernel.libc ⟨.deep 1, []⟩)
    (some (.uninit 16)) 16 (by rintro b ⟨⟩; exact Nat.le_refl _)
    (.caller ⟨16, [47, 99, 47, 120, 0], by decide⟩) (Dir.deep 1).text rfl rfl

/-- `getcwd (NULL, 0)` gets an allocated string from the real function, and
    then looks for it at `NULL`. -/
theorem getcwd_reads_null :
    let libc := Kernel.libc ⟨.a, []⟩
    let cwd : CString := .ofAscii ['/', 'a']
    initRewritePolicy .aToB = .ok .aToB ∧
      eval libc .aToB (origGetcwd none 0) = .ok (.allocated cwd) ∧
      eval libc .aToB (getcwd none 0) = .error .fault :=
  ⟨rfl, rfl, rfl⟩

end LdPreload
