/-
  LdPreload.Rtld.GetcwdSound

  What `getcwd` leaves in the caller's array: the real name of the current
  directory with FROM in the place of TO, where TO matches and the result fits,
  and the real name otherwise.
-/

import LdPreload.Rtld.WrappersSound

namespace LdPreload

open CMem Once

variable {libc : Libc} {k : RewritePolicy} {buf : CharArray} {n : Nat} {cwd : CString}

/-- What the real `getcwd` finds fits into an array of the size that it is
    told. -/
theorem Libc.length_lt_cap (libc : Libc) (hget : libc.getcwd n = some cwd) (hcap : n ≤ buf.cap) :
    cwd.length < buf.cap :=
  Nat.lt_of_lt_of_le (libc.getcwd_lt hget) hcap

/-- The real `getcwd` has filled the caller's array. -/
theorem eval_origGetcwd (hsym : libc.resolves .getcwd = true) (hget : libc.getcwd n = some cwd)
    (hroom : cwd.length < buf.cap) :
    ∃ buf', eval libc k (origGetcwd (some buf) n) = .ok (.caller buf') ∧ buf'.cap = buf.cap ∧
      buf'.string = .ok cwd := by
  obtain ⟨buf', hstore, hcap', hstring⟩ := CharArray.store_spec (a := buf) (s := cwd) hroom
  refine ⟨buf', ?_, hcap', hstring⟩
  rw [origGetcwd, eval_bind_ok eval_look]
  simp only [hsym, hget, Bool.not_true, Bool.false_eq_true, if_false]
  rw [eval_lift_bind_ok hstore]
  rfl

/-- It does not come back from an array that is smaller than it was told. -/
theorem eval_getcwd_of_small (hsym : libc.resolves .getcwd = true) (hget : libc.getcwd n = some cwd)
    (hsmall : buf.cap ≤ cwd.length) : eval libc k (getcwd (some buf) n) = .error .fault := by
  have horig : eval libc k (origGetcwd (some buf) n) = .error .fault := by
    rw [origGetcwd, eval_bind_ok eval_look]
    simp only [hsym, hget, Bool.not_true, Bool.false_eq_true, if_false]
    rw [eval_bind, eval_lift, CharArray.store_error hsmall]
    rfl
  rw [getcwd, eval_bind, horig]
  rfl

/-- A `getcwd` that the library refuses is refused. -/
theorem eval_getcwd_of_refused (hget : libc.getcwd n = none) :
    eval libc k (getcwd (some buf) n) = .ok .null := by
  have horig : eval libc k (origGetcwd (some buf) n) = .ok .null := by
    rw [origGetcwd, eval_bind_ok eval_look]
    simp only [hget]
    split <;> rfl
  rw [getcwd, eval_bind_ok horig]
  rfl

/-- Without a policy the reply is that of the real `getcwd`. -/
theorem eval_getcwd_of_disabled (libc : Libc) (hk : k.enabled = false) (buf : Option CharArray)
    (n : Nat) : eval libc k (getcwd buf n) = eval libc k (origGetcwd buf n) := by
  rw [getcwd, eval_bind]
  cases eval libc k (origGetcwd buf n) with
  | error e => rfl
  | ok result =>
    cases result with
    | null => rfl
    | caller | allocated =>
      show eval libc k (if !k.enabled then _ else _) = _
      rw [hk]
      rfl

/-- What `getcwd` does behind the real one, under a policy. -/
theorem eval_getcwd_eq (m : Mapping) {real : CharArray}
    (horig : eval libc m.policy (origGetcwd (some buf) n) = .ok (.caller real))
    (hstring : real.string = .ok cwd) :
    eval libc m.policy (getcwd (some buf) n) =
      (substitute true m.dst.text m.dst.text.length m.src.text m.src.text.length (some cwd)
        (.uninit pathMax) n >>= fun result =>
          if result.1 ≠ 0 then .ok (.caller real)
          else result.2.string >>= fun rewritten =>
            if rewritten.length + 1 > n then .ok (.caller real)
            else CwdReply.copyBack rewritten (.caller real)) := by
  have hatBuf : CwdReply.atBuf (.caller real) = .ok (some cwd) := by
    show (real.string >>= fun s => _) = _
    rw [hstring]
    rfl
  rw [getcwd, eval_bind_ok horig]
  simp only [Bool.false_eq_true, if_false]
  rw [getRewritePolicy, eval_bind_ok eval_consult]
  simp only [Mapping.policy, Bool.not_true, Bool.false_eq_true, if_false]
  rw [eval_lift_bind_ok hatBuf, eval_bind]
  show (eval libc m.policy (substitutePrefixReverse (some cwd) (.uninit pathMax) n) >>= _) = _
  rw [eval_substitutePrefixReverse]
  show (substitute true m.dst.text m.dst.text.length m.src.text m.src.text.length (some cwd)
    (.uninit pathMax) n >>= _) = _
  cases substitute true m.dst.text m.dst.text.length m.src.text m.src.text.length (some cwd)
    (.uninit pathMax) n with
  | error stop => rfl
  | ok result =>
    obtain ⟨status, rewritten⟩ := result
    show eval libc m.policy (if status ≠ 0 then _ else _) = if status ≠ 0 then _ else _
    split
    · rfl
    · rw [eval_bind, eval_lift]
      cases rewritten.string with
      | error stop => rfl
      | ok t =>
        show eval libc m.policy (if t.length + 1 > n then _ else _) =
          if t.length + 1 > n then _ else _
        split
        · rfl
        · exact eval_lift _

/-- A name that is not substituted stays. -/
theorem eval_getcwd_of_none (m : Mapping) (hsym : libc.resolves .getcwd = true)
    (hget : libc.getcwd n = some cwd) (hroom : cwd.length < buf.cap)
    (hsub : substituted m.dst.text m.src.text cwd n = none) :
    ∃ buf', eval libc m.policy (getcwd (some buf) n) = .ok (.caller buf') ∧
      buf'.string = .ok cwd := by
  obtain ⟨real, horig, -, hstring⟩ := eval_origGetcwd (k := m.policy) hsym hget hroom
  refine ⟨real, ?_, hstring⟩
  rw [eval_getcwd_eq m horig hstring, substitute_of_none hsub]
  rfl

/-- A substitute that `rewritten` has room for is copied back. -/
theorem eval_getcwd_of_room (m : Mapping) (hsym : libc.resolves .getcwd = true)
    (hget : libc.getcwd n = some cwd) (hcap : n ≤ buf.cap) {t : CString}
    (hsub : substituted m.dst.text m.src.text cwd n = some t) (hroom : t.length < pathMax) :
    ∃ buf', eval libc m.policy (getcwd (some buf) n) = .ok (.caller buf') ∧
      buf'.string = .ok t := by
  obtain ⟨real, horig, hcap', hstring⟩ := eval_origGetcwd (k := m.policy) hsym hget
    (libc.length_lt_cap hget hcap)
  obtain ⟨rewritten, hok, -, hbytes⟩ := substitute_of_room hsub (.uninit pathMax) hroom
  have hrewritten : rewritten.string = .ok t := CharArray.string_spec ⟨_, hbytes.symm⟩
  have hfits := length_lt_of_substituted hsub
  obtain ⟨buf', hstore, -, hstring'⟩ := CharArray.store_spec (a := real) (s := t) (by omega)
  refine ⟨buf', ?_, hstring'⟩
  rw [eval_getcwd_eq m horig hstring, hok]
  show (rewritten.string >>= fun rewritten => _) = _
  rw [hrewritten]
  show (if t.length + 1 > n then _ else _) = _
  rw [if_neg (by omega), CwdReply.copyBack, hstore]
  rfl

/-- A longer one is written over the end of `rewritten`. -/
theorem eval_getcwd_of_overrun (m : Mapping) (hsym : libc.resolves .getcwd = true)
    (hget : libc.getcwd n = some cwd) (hcap : n ≤ buf.cap) {t : CString}
    (hsub : substituted m.dst.text m.src.text cwd n = some t) (hover : pathMax ≤ t.length) :
    eval libc m.policy (getcwd (some buf) n) = .error .fault := by
  obtain ⟨real, horig, -, hstring⟩ := eval_origGetcwd (k := m.policy) hsym hget
    (libc.length_lt_cap hget hcap)
  rw [eval_getcwd_eq m horig hstring, substitute_of_overrun hsub (.uninit pathMax) hover]
  rfl

/-- Under a policy the array holds the name with FROM in the place of TO, or
    the real name. -/
theorem eval_getcwd (m : Mapping) (hsym : libc.resolves .getcwd = true)
    (hget : libc.getcwd n = some cwd) (hcap : n ≤ buf.cap) (hn : n ≤ pathMax) :
    ∃ buf', eval libc m.policy (getcwd (some buf) n) = .ok (.caller buf') ∧
      buf'.string = .ok ((substituted m.dst.text m.src.text cwd n).getD cwd) := by
  cases hsub : substituted m.dst.text m.src.text cwd n with
  | none => exact eval_getcwd_of_none m hsym hget (libc.length_lt_cap hget hcap) hsub
  | some t =>
    have hroom := Nat.lt_of_lt_of_le (length_lt_of_substituted hsub) hn
    exact eval_getcwd_of_room m hsym hget hcap hsub hroom

/-- Without an array, the policy asks `strncmp` to compare at `NULL`. -/
theorem eval_getcwd_null (m : Mapping)
    (horig : eval libc m.policy (origGetcwd none n) = .ok (.allocated cwd)) :
    eval libc m.policy (getcwd none n) = .error .fault := by
  rw [getcwd, eval_bind_ok horig]
  rfl

end LdPreload
