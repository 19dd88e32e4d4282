/-
  LdPreload.Rtld.Mapping

  What an enabled policy says.  A `CleanPath` is an absolute path as
  `clean_path_into` leaves it, a `Mapping` a pair of them, and a policy that
  `init_rewrite_policy` enables is the policy of a mapping
  (`initRewritePolicy_cases`).

  On cleaned paths the textual test of `path_matches_prefix` is a test on
  segments (`pathMatchesPrefix_iff`): the path lies at or below the source,
  except that a source that ends in a separator matches its own text only.
-/

import LdPreload.Rtld.CleanText
import LdPreload.Rtld.Rewrite

namespace LdPreload

open CMem Lexical

/-! ## Cleaned paths -/

/-- A cleaned absolute path: names from the root on, and whether a separator
    stands behind the last one. -/
structure CleanPath where
  dirs : List Segment
  atSlash : Bool
  names : ∀ s ∈ dirs, IsName s
  rooted : dirs = [] → atSlash = true
  noNul : nul ∉ pathText dirs atSlash
  short : (pathText dirs atSlash).length < pathMax
deriving DecidableEq

/-- `path[strlen (path) - 1] == '/'` -/
def endsInSlash (path : CString) : Bool := path.chars.getLast? == some slash

namespace CleanPath

def text (c : CleanPath) : CString := ⟨pathText c.dirs c.atSlash, c.noNul⟩

@[simp] theorem chars_text (c : CleanPath) : c.text.chars = pathText c.dirs c.atSlash := rfl

theorem isSegment (c : CleanPath) : ∀ s ∈ c.dirs, IsSegment slash s :=
  fun s hs => (c.names s hs).1

theorem charAt_text_zero (c : CleanPath) : c.text.charAt 0 = slash := by
  show (pathText c.dirs c.atSlash).getD 0 nul = slash
  cases hdirs : c.dirs with
  | nil => rw [c.rooted hdirs]; rfl
  | cons s dirs => rfl

/-- What continues a cleaned path is absolute. -/
theorem isAbsolute_of_append (c : CleanPath) {s : CString} {l : List Byte}
    (h : s.chars = c.text.chars ++ l) : isAbsolute s = true := by
  have hzero := c.charAt_text_zero
  rw [CString.charAt] at hzero
  rw [isAbsolute_iff, h]
  cases hchars : c.text.chars with
  | nil =>
    rw [hchars] at hzero
    exact absurd hzero (by decide)
  | cons b rest =>
    rw [hchars] at hzero
    exact ⟨rest ++ l, congrArg (· :: (rest ++ l)) hzero⟩

/-- The separator behind a path is seen at the end of its text. -/
theorem endsInSlash_text (c : CleanPath) : endsInSlash c.text = c.atSlash := by
  unfold endsInSlash
  rw [chars_text, pathText]
  cases c.atSlash with
  | true => simp
  | false =>
    rw [if_neg (by decide), List.append_nil, beq_eq_false_iff_ne]
    exact getLast?_spell_ne_sep c.isSegment

theorem ext_text {c c' : CleanPath} (hdirs : c.dirs = c'.dirs) (hslash : c.atSlash = c'.atSlash) :
    c.text = c'.text :=
  CString.ext (by rw [chars_text, chars_text, hdirs, hslash])

end CleanPath

/-- Whatever an absolute path is cleaned to is a cleaned path. -/
theorem exists_cleanPath {src t : CString} (habs : isAbsolute src = true)
    (h : cleaned src = some t) :
    ∃ c : CleanPath, t = c.text ∧ c.dirs = resolve src.chars ∧
      c.atSlash = leavesSlash src.chars := by
  obtain ⟨hchars, hlen⟩ := cleaned_absolute habs h
  refine ⟨⟨resolve src.chars, leavesSlash src.chars, isName_of_mem_resolve,
    leavesSlash_of_resolve_nil, hchars ▸ t.noNul, ?_⟩, CString.ext hchars, rfl, rfl⟩
  rw [← hchars]
  exact hlen

/-! ## Enabled policies -/

/-- The cleaned values of the two variables. -/
structure Mapping where
  src : CleanPath
  dst : CleanPath

namespace Mapping

def policy (m : Mapping) : RewritePolicy where
  enabled := true
  fromLen := m.src.text.length
  toLen := m.dst.text.length
  fromPath := m.src.text
  toPath := m.dst.text

/-- The mapping that an environment configures. -/
structure ConfiguredBy (m : Mapping) (env : Environ) (fromEnv toEnv : CString) : Prop where
  from_set : env.fromEnv = some fromEnv
  to_set : env.toEnv = some toEnv
  from_absolute : isAbsolute fromEnv = true
  to_absolute : isAbsolute toEnv = true
  src_text : cleaned fromEnv = some m.src.text
  dst_text : cleaned toEnv = some m.dst.text
  src_dirs : m.src.dirs = resolve fromEnv.chars
  src_atSlash : m.src.atSlash = leavesSlash fromEnv.chars
  dst_dirs : m.dst.dirs = resolve toEnv.chars
  dst_atSlash : m.dst.atSlash = leavesSlash toEnv.chars

end Mapping

/-- `clean_path_into` as its callers use it. -/
theorem attempt_cleanPathInto (src : CString) (dst : CharArray) (hcap : dst.cap = pathMax) :
    match cleaned src with
    | some t => ∃ dst', attempt (cleanPathInto (some src) dst pathMax) = .ok (some dst') ∧
        dst'.cap = pathMax ∧ dst'.string = .ok t
    | none => attempt (cleanPathInto (some src) dst pathMax) = .ok none := by
  have hspec := cleanPathInto_pathMax src dst hcap
  cases hc : cleaned src with
  | none =>
    rw [hc] at hspec
    show attempt (cleanPathInto (some src) dst pathMax) = _
    rw [show cleanPathInto (some src) dst pathMax = .error .fail from hspec]
    rfl
  | some t =>
    rw [hc] at hspec
    obtain ⟨dst', hok, hcap', hstring⟩ := hspec
    exact ⟨dst', by rw [hok]; rfl, hcap', hstring⟩

/-- The environment does not configure a mapping. -/
def Unconfigured (env : Environ) : Prop :=
  ∀ fromEnv toEnv, env.fromEnv = some fromEnv → env.toEnv = some toEnv →
    isAbsolute fromEnv = true → isAbsolute toEnv = true →
    cleaned fromEnv = none ∨ cleaned toEnv = none

/-- Two absolute values are installed if both can be cleaned. -/
theorem installPolicy_spec {fromEnv toEnv : CString} (hfrom : isAbsolute fromEnv = true)
    (hto : isAbsolute toEnv = true) :
    match cleaned fromEnv, cleaned toEnv with
    | some cf, some ct => installPolicy fromEnv toEnv = .ok
        { enabled := true, fromLen := cf.length, toLen := ct.length, fromPath := cf, toPath := ct }
    | _, _ => installPolicy fromEnv toEnv = .ok {} := by
  have hfromSpec := attempt_cleanPathInto fromEnv (.uninit pathMax) rfl
  have htoSpec := attempt_cleanPathInto toEnv (.uninit pathMax) rfl
  cases hcf : cleaned fromEnv with
  | none =>
    rw [hcf] at hfromSpec
    show installPolicy fromEnv toEnv = _
    rw [installPolicy, show attempt (cleanPathInto (some fromEnv) _ _) = _ from hfromSpec]
    rfl
  | some cf =>
    rw [hcf] at hfromSpec
    obtain ⟨dstFrom, hokFrom, -, hstringFrom⟩ := hfromSpec
    cases hct : cleaned toEnv with
    | none =>
      rw [hct] at htoSpec
      show installPolicy fromEnv toEnv = _
      rw [installPolicy, hokFrom]
      show (attempt (cleanPathInto (some toEnv) _ _) >>= fun _ => _) = _
      rw [show attempt (cleanPathInto (some toEnv) _ _) = _ from htoSpec]
      rfl
    | some ct =>
      rw [hct] at htoSpec
      obtain ⟨dstTo, hokTo, -, hstringTo⟩ := htoSpec
      obtain ⟨src, rfl, -⟩ := exists_cleanPath hfrom hcf
      obtain ⟨dst, rfl, -⟩ := exists_cleanPath hto hct
      show installPolicy fromEnv toEnv = _
      rw [installPolicy, hokFrom]
      show (attempt (cleanPathInto (some toEnv) _ _) >>= fun _ => _) = _
      rw [hokTo]
      show (dstFrom.read 0 >>= fun a => dstTo.read 0 >>= fun b => _) = _
      rw [CharArray.read_zero hstringFrom, CharArray.read_zero hstringTo, src.charAt_text_zero,
        dst.charAt_text_zero]
      show (dstFrom.string >>= fun a => dstTo.string >>= fun b => _) = _
      rw [hstringFrom, hstringTo]
      rfl

/-- `init_rewrite_policy` leaves the policy of the configured mapping, or the
    zero it started with. -/
theorem initRewritePolicy_cases (env : Environ) :
    (∃ m fromEnv toEnv, Mapping.ConfiguredBy m env fromEnv toEnv ∧
      initRewritePolicy env = .ok m.policy) ∨
    (Unconfigured env ∧ initRewritePolicy env = .ok {}) := by
  obtain ⟨fromEnv, toEnv⟩ := env
  cases fromEnv with
  | none => exact Or.inr ⟨fun f t hf => absurd hf (by simp), rfl⟩
  | some fromEnv =>
  cases toEnv with
  | none => exact Or.inr ⟨fun f t _ ht => absurd ht (by simp), rfl⟩
  | some toEnv =>
  by_cases habs : fromEnv.charAt 0 = slash ∧ toEnv.charAt 0 = slash
  · -- both values are absolute: what is left to decide is whether they clean
    obtain ⟨hfrom, hto⟩ := habs
    have hfromAbs : isAbsolute fromEnv = true := by simpa [isAbsolute] using hfrom
    have htoAbs : isAbsolute toEnv = true := by simpa [isAbsolute] using hto
    have hinit : initRewritePolicy ⟨some fromEnv, some toEnv⟩ = installPolicy fromEnv toEnv := by
      simp only [initRewritePolicy, hfrom, hto]
      rfl
    have hspec := installPolicy_spec hfromAbs htoAbs
    rw [← hinit] at hspec
    cases hcf : cleaned fromEnv with
    | none =>
      rw [hcf] at hspec
      refine Or.inr ⟨fun f t hf ht _ _ => Or.inl ?_, hspec⟩
      rw [← Option.some.inj hf]
      exact hcf
    | some cf =>
      cases hct : cleaned toEnv with
      | none =>
        rw [hcf, hct] at hspec
        refine Or.inr ⟨fun f t hf ht _ _ => Or.inr ?_, hspec⟩
        rw [← Option.some.inj ht]
        exact hct
      | some ct =>
        rw [hcf, hct] at hspec
        obtain ⟨src, rfl, hsrcDirs, hsrcSlash⟩ := exists_cleanPath hfromAbs hcf
        obtain ⟨dst, rfl, hdstDirs, hdstSlash⟩ := exists_cleanPath htoAbs hct
        exact Or.inl ⟨⟨src, dst⟩, fromEnv, toEnv,
          ⟨rfl, rfl, hfromAbs, htoAbs, hcf, hct, hsrcDirs, hsrcSlash, hdstDirs, hdstSlash⟩, hspec⟩
  · -- an empty or relative value ends the function early
    have hne : fromEnv.charAt 0 ≠ slash ∨ toEnv.charAt 0 ≠ slash := not_and_or.mp habs
    have hunconfigured : Unconfigured ⟨some fromEnv, some toEnv⟩ := by
      intro f t hf ht hfa hta
      rw [← Option.some.inj hf] at hfa
      rw [← Option.some.inj ht] at hta
      exact absurd ⟨by simpa [isAbsolute] using hfa, by simpa [isAbsolute] using hta⟩ habs
    refine Or.inr ⟨hunconfigured, ?_⟩
    simp only [initRewritePolicy, if_pos hne]
    split <;> rfl

/-! ## Matching -/

/-- The prefix test accepts what continues the prefix at a boundary. -/
theorem pathMatchesPrefix_iff_append (path pfx : CString) :
    pathMatchesPrefix path pfx pfx.length = true ↔
      ∃ suffix, path.chars = pfx.chars ++ suffix ∧ AtBoundary slash suffix := by
  -- the byte behind the prefix is the first one of the suffix, or the NUL
  have hread : ∀ suffix, path.chars = pfx.chars ++ suffix →
      path.charAt pfx.length = suffix.getD 0 nul := by
    intro suffix h
    simp only [CString.charAt, h, CString.length_def, List.getD_eq_getElem?_getD,
      List.getElem?_append_right (Nat.le_refl _), Nat.sub_self]
  have hboundary : ∀ suffix, path.chars = pfx.chars ++ suffix →
      ((path.charAt pfx.length == nul || path.charAt pfx.length == slash) = true ↔
        AtBoundary slash suffix) := by
    intro suffix h
    rw [hread suffix h]
    cases suffix with
    | nil => simp [AtBoundary]
    | cons b suffix =>
      have hb : b ≠ nul := fun hb => path.noNul (by simp [h, hb])
      simp [AtBoundary, hb]
  rw [pathMatchesPrefix]
  by_cases hpfx : CString.strncmpEq path pfx pfx.length = true
  · obtain ⟨suffix, hsuffix⟩ := (CString.strncmpEq_length_iff path pfx).mp hpfx
    rw [hpfx, if_neg (by simp), hboundary suffix hsuffix.symm]
    refine ⟨fun h => ⟨suffix, hsuffix.symm, h⟩, ?_⟩
    -- there is only one way to continue the prefix
    rintro ⟨suffix', hsuffix', h⟩
    rwa [List.append_cancel_left (hsuffix.trans hsuffix')]
  · rw [Bool.not_eq_true] at hpfx
    rw [hpfx]
    refine ⟨fun h => by simp at h, ?_⟩
    rintro ⟨suffix, hsuffix, -⟩
    have := (CString.strncmpEq_length_iff path pfx).mpr ⟨suffix, hsuffix.symm⟩
    rw [hpfx] at this
    exact absurd this (by decide)

namespace CleanPath

/-- The path `c` lies at `rest` below `src`, as far as the text of `src` can
    tell: a source that ends in a separator covers itself only. -/
structure Covers (src c : CleanPath) (rest : List Segment) : Prop where
  dirs : c.dirs = src.dirs ++ rest
  alone : src.atSlash = true → rest = [] ∧ c.atSlash = true

/-- What the text of a covered path adds to the text of its cover. -/
def remainder (src c : CleanPath) (rest : List Segment) : List Byte :=
  if src.atSlash then [] else pathText rest c.atSlash

variable {src dst c : CleanPath} {rest : List Segment}

theorem Covers.names (h : src.Covers c rest) : ∀ s ∈ rest, IsName s := by
  intro s hs
  apply c.names
  rw [h.dirs]
  exact List.mem_append_right _ hs

theorem Covers.text_eq (h : src.Covers c rest) :
    c.text.chars = src.text.chars ++ remainder src c rest := by
  simp only [chars_text, pathText, remainder, h.dirs]
  cases hslash : src.atSlash with
  | false => simp [spell_append]
  | true =>
    obtain ⟨rfl, hc⟩ := h.alone hslash
    simp [hc]

theorem atBoundary_remainder (src c : CleanPath) (rest : List Segment) :
    AtBoundary slash (remainder src c rest) := by
  unfold remainder pathText
  split
  · trivial
  · apply atBoundary_spell
    split <;> simp [AtBoundary]

theorem covers_of_append {suffix : List Byte} (h : c.text.chars = src.text.chars ++ suffix)
    (hsuffix : AtBoundary slash suffix) :
    ∃ rest, src.Covers c rest ∧ suffix = remainder src c rest := by
  -- both texts are spelled segments, followed by a separator at most
  have htail : (if c.atSlash then [slash] else []) = [] ∨
      (if c.atSlash then [slash] else []) = [slash] := by
    cases c.atSlash <;> simp
  simp only [chars_text, pathText] at h
  cases hslash : src.atSlash with
  | false =>
    simp only [hslash, Bool.false_eq_true, if_false, List.append_nil] at h
    obtain ⟨rest, hdirs, hs⟩ := spell_append_eq_spell_append src.isSegment c.isSegment htail
      hsuffix h.symm
    refine ⟨rest, ⟨hdirs, fun ht => absurd (hslash.symm.trans ht) (by decide)⟩, ?_⟩
    rw [remainder, hslash, if_neg (by decide), hs, pathText]
  | true =>
    simp only [hslash, if_true, List.append_assoc] at h
    have hbehind : AtBoundary slash ([slash] ++ suffix) := rfl
    obtain ⟨rest, hdirs, hs⟩ := spell_append_eq_spell_append src.isSegment c.isSegment htail
      hbehind h.symm
    -- a segment behind the separator would have to start with another one
    have hrest : rest = [] := by
      cases rest with
      | nil => rfl
      | cons s rest =>
        have hname := c.isSegment s (by rw [hdirs]; simp)
        obtain ⟨b, s, rfl⟩ := List.exists_cons_of_ne_nil hname.1
        have hb : b ≠ slash := fun hb => hname.2 (by simp [hb])
        simp only [spell_cons, List.cons_append, List.nil_append, List.cons.injEq, true_and] at hs
        rw [hs] at hsuffix
        exact absurd hsuffix hb
    subst hrest
    cases hc : c.atSlash with
    | false => simp [hc] at hs
    | true =>
      rw [hc] at hs
      refine ⟨[], ⟨hdirs, fun _ => ⟨rfl, hc⟩⟩, ?_⟩
      rw [remainder, hslash, if_pos rfl]
      simpa using hs

/-- A cover is seen in the text: FROM ends in a segment, or is the text. -/
theorem covers_iff (hdirs : c.dirs = src.dirs ++ rest) :
    src.Covers c rest ↔ endsInSlash src.text = false ∨ c.text = src.text := by
  rw [src.endsInSlash_text]
  refine ⟨fun h => ?_, fun h => ⟨hdirs, fun hslash => ?_⟩⟩
  · cases hslash : src.atSlash with
    | false => exact Or.inl rfl
    | true =>
      obtain ⟨rfl, hc⟩ := h.alone hslash
      exact Or.inr (ext_text (by rw [hdirs, List.append_nil]) (hc.trans hslash.symm))
  · rcases h with h | h
    · exact absurd (hslash.symm.trans h) (by decide)
    · -- equal texts have equal directories and end alike
      have hsame : c.dirs = src.dirs := by
        rw [← resolve_pathText c.names c.atSlash, ← resolve_pathText src.names src.atSlash]
        exact congrArg resolve (congrArg CString.chars h)
      have hend : c.atSlash = src.atSlash := by
        rw [← c.endsInSlash_text, ← src.endsInSlash_text, h]
      rw [hsame] at hdirs
      exact ⟨List.self_eq_append_right.mp hdirs, hend.trans hslash⟩

theorem length_remainder_le (src c : CleanPath) (rest : List Segment) :
    (remainder src c rest).length ≤ ([slash].intercalate rest).length + 2 := by
  unfold remainder pathText
  have htail : (if c.atSlash then [slash] else []).length ≤ 1 := by
    cases c.atSlash <;> simp
  split
  · simp
  · rw [List.length_append]
    cases rest with
    | nil =>
      rw [spell_nil, List.length_nil]
      omega
    | cons s rest =>
      rw [spell_eq_cons_intercalate (by simp), List.length_cons]
      omega

/-- On cleaned paths the prefix test is a test on segments. -/
theorem pathMatchesPrefix_iff :
    pathMatchesPrefix c.text src.text src.text.length = true ↔ ∃ rest, src.Covers c rest := by
  rw [pathMatchesPrefix_iff_append]
  refine ⟨?_, ?_⟩
  · rintro ⟨suffix, htext, hsuffix⟩
    obtain ⟨rest, hcovers, -⟩ := covers_of_append htext hsuffix
    exact ⟨rest, hcovers⟩
  · rintro ⟨rest, hcovers⟩
    exact ⟨_, hcovers.text_eq, atBoundary_remainder src c rest⟩

end CleanPath

/-! ## Substituting -/

/-- The string that a substitution of `repl` for `pfx` leaves. -/
def substituted (pfx repl path : CString) (dstLen : Nat) : Option CString :=
  if pathMatchesPrefix path pfx pfx.length ∧
      repl.length + (path.drop pfx.length).length + 1 ≤ dstLen then
    some (repl ++ path.drop pfx.length)
  else
    none

theorem length_lt_of_substituted {pfx repl path t : CString} {dstLen : Nat}
    (h : substituted pfx repl path dstLen = some t) : t.length < dstLen := by
  unfold substituted at h
  split at h
  · next hcond =>
    rw [← Option.some.inj h, CString.length_append]
    omega
  · exact absurd h (by simp)

/-- Without a match, or with too little room, nothing is written. -/
theorem substitute_of_none {pfx repl path : CString} {dst : CharArray} {dstLen : Nat}
    (h : substituted pfx repl path dstLen = none) :
    substitute true pfx pfx.length repl repl.length (some path) dst dstLen = .ok (-1, dst) := by
  unfold substituted at h
  by_cases hmatch : pathMatchesPrefix path pfx pfx.length = true
  · have hfits : ¬ repl.length + (path.drop pfx.length).length + 1 ≤ dstLen := by
      intro hfits
      rw [if_pos ⟨hmatch, hfits⟩] at h
      exact absurd h (by simp)
    simp only [substitute, hmatch, Bool.not_true]
    rw [if_neg (by decide), if_neg (by decide), if_pos (by omega)]
    rfl
  · rw [Bool.not_eq_true] at hmatch
    simp only [substitute, hmatch]
    rfl

/-- What is left of a substitution that is carried out: the two calls of
    `memcpy`, the second one with the terminator. -/
theorem substitute_of_some {pfx repl path t : CString} {dstLen : Nat}
    (h : substituted pfx repl path dstLen = some t) (dst : CharArray) :
    t = repl ++ path.drop pfx.length ∧
      substitute true pfx pfx.length repl repl.length (some path) dst dstLen =
        (dst.write 0 repl.chars >>= fun dst =>
          dst.write repl.chars.length ((path.drop pfx.length).chars ++ [nul]) >>= fun dst =>
            .ok (0, dst)) := by
  unfold substituted at h
  split at h
  · next hcond =>
    obtain ⟨hmatch, hfits⟩ := hcond
    have htake : (repl.take repl.length).chars = repl.chars := List.take_length
    refine ⟨(Option.some.inj h).symm, ?_⟩
    simp only [substitute, hmatch, Bool.not_true]
    rw [if_neg (by decide), if_neg (by decide), if_neg (by omega), htake]
    rfl
  · exact absurd h (by simp)

/-- A substitution is carried out where the array has room for its result. -/
theorem substitute_of_room {pfx repl path t : CString} {dstLen : Nat}
    (h : substituted pfx repl path dstLen = some t) (dst : CharArray) (hroom : t.length < dst.cap) :
    ∃ dst', substitute true pfx pfx.length repl repl.length (some path) dst dstLen =
      .ok (0, dst') ∧ dst'.cap = dst.cap ∧
        dst'.bytes = t.chars ++ [nul] ++ dst.bytes.drop (t.length + 1) := by
  obtain ⟨rfl, heq⟩ := substitute_of_some h dst
  rw [CString.length_append, CString.length_def, CString.length_def] at hroom
  obtain ⟨dst₁, hwrite₁, hcap₁, hbytes₁⟩ := CharArray.exists_write dst repl.chars
    (Nat.zero_le _) (by omega)
  have hrepl : dst₁.bytes = repl.chars ++ dst.bytes.drop repl.chars.length := by
    rw [hbytes₁, List.take_zero, List.nil_append, Nat.zero_add]
  obtain ⟨dst₂, hwrite₂, hcap₂, hbytes₂⟩ := CharArray.exists_write dst₁ (i := repl.chars.length)
    ((path.drop pfx.length).chars ++ [nul]) (by rw [hrepl, List.length_append]; omega)
    (by rw [hcap₁, List.length_append, List.length_singleton]; omega)
  refine ⟨dst₂, ?_, hcap₂.trans hcap₁, ?_⟩
  · rw [heq, hwrite₁]
    show (dst₁.write _ _ >>= fun dst => _) = _
    rw [hwrite₂]
    rfl
  · rw [hbytes₂, hrepl, List.take_left, List.drop_length_add_append, List.drop_drop,
      List.length_append, List.length_singleton]
    simp only [CString.length_def, CString.chars_append, List.length_append, List.append_assoc,
      Nat.add_assoc]

/-- Elsewhere the end of the array is written over. -/
theorem substitute_of_overrun {pfx repl path t : CString} {dstLen : Nat}
    (h : substituted pfx repl path dstLen = some t) (dst : CharArray) (hover : dst.cap ≤ t.length) :
    substitute true pfx pfx.length repl repl.length (some path) dst dstLen = .error .fault := by
  obtain ⟨rfl, heq⟩ := substitute_of_some h dst
  rw [heq]
  rw [CString.length_append, CString.length_def, CString.length_def] at hover
  cases hwrite : dst.write 0 repl.chars with
  | error stop =>
    rw [CharArray.write_error hwrite]
    rfl
  | ok dst₁ =>
    -- the second call starts in the array and ends behind it
    have hcap₁ := CharArray.cap_of_write hwrite
    show (dst₁.write _ _ >>= fun dst => _) = _
    rw [CharArray.write, dif_neg]
    · rfl
    · rintro ⟨-, hroom⟩
      rw [List.length_append, List.length_singleton, hcap₁] at hroom
      omega

/-- An enabled substitution into an array that is as long as it is said to be
    writes that string, or nothing. -/
theorem substitute_spec (pfx repl path : CString) {dst : CharArray} {dstLen : Nat}
    (hcap : dstLen ≤ dst.cap) :
    match substituted pfx repl path dstLen with
    | some t => ∃ dst', substitute true pfx pfx.length repl repl.length (some path) dst dstLen =
        .ok (0, dst') ∧ dst'.cap = dst.cap ∧ dst'.string = .ok t
    | none => substitute true pfx pfx.length repl repl.length (some path) dst dstLen =
        .ok (-1, dst) := by
  cases h : substituted pfx repl path dstLen with
  | none => exact substitute_of_none h
  | some t =>
    have hroom := Nat.lt_of_lt_of_le (length_lt_of_substituted h) hcap
    obtain ⟨dst', hok, hcap', hbytes⟩ := substitute_of_room h dst hroom
    exact ⟨dst', hok, hcap', CharArray.string_spec ⟨_, hbytes.symm⟩⟩

namespace CleanPath

variable {src dst c : CleanPath}

/-- On cleaned paths: the directories of `dst` take the place of those of
    `src`, if the result fits. -/
theorem substituted_eq_some_iff {dstLen : Nat} {t : CString} :
    substituted src.text dst.text c.text dstLen = some t ↔
      ∃ rest, src.Covers c rest ∧ t.chars = dst.text.chars ++ remainder src c rest ∧
        t.length < dstLen := by
  have hdrop : ∀ {rest}, src.Covers c rest →
      (c.text.drop src.text.length).chars = remainder src c rest := by
    intro rest h
    rw [CString.chars_drop, h.text_eq, CString.length_def, List.drop_left]
  unfold substituted
  refine ⟨?_, ?_⟩
  · intro h
    split at h
    next hcond =>
      obtain ⟨rest, hcovers⟩ := pathMatchesPrefix_iff.mp hcond.1
      rw [← Option.some.inj h, CString.chars_append, hdrop hcovers]
      refine ⟨rest, hcovers, rfl, ?_⟩
      rw [CString.length_append]
      omega
    next => exact absurd h (by simp)
  · rintro ⟨rest, hcovers, hchars, hlen⟩
    have htext : dst.text ++ c.text.drop src.text.length = t :=
      CString.ext (by rw [CString.chars_append, hdrop hcovers, hchars])
    have hfits : dst.text.length + (c.text.drop src.text.length).length + 1 ≤ dstLen := by
      rw [← htext, CString.length_append] at hlen
      exact hlen
    rw [if_pos ⟨pathMatchesPrefix_iff.mpr ⟨rest, hcovers⟩, hfits⟩, htext]

theorem segments_pathText_append {dirs rest : List Segment} {s t : Bool}
    (hdirs : ∀ d ∈ dirs, IsName d) (hrest : ∀ d ∈ rest, IsName d) :
    segments slash (pathText dirs s ++ pathText rest t) = dirs ++ rest := by
  have hsegs := segments_pathText hrest t
  have hspell : ∀ d ∈ dirs, IsSegment slash d := fun d hd => (hdirs d hd).1
  -- a separator between the two is there already, or comes with the first name
  cases s with
  | true =>
    rw [show pathText dirs true ++ pathText rest t = spell slash dirs ++ slash :: pathText rest t by
      simp [pathText], segments_append_sep, hsegs, segments_spell hspell]
  | false =>
    rw [show pathText dirs false = spell slash dirs by simp [pathText],
      segments_spell_append hspell, hsegs]
    unfold pathText
    apply atBoundary_spell
    cases t <;> simp [AtBoundary]

/-- The segments of a substituted text. -/
theorem Covers.segments_substituted {rest : List Segment} (h : src.Covers c rest)
    (dst : CleanPath) :
    segments slash (dst.text.chars ++ remainder src c rest) = dst.dirs ++ rest := by
  unfold remainder
  cases hslash : src.atSlash with
  | false =>
    rw [if_neg (by decide), chars_text]
    exact segments_pathText_append dst.names h.names
  | true =>
    rw [(h.alone hslash).1, if_pos rfl, List.append_nil, List.append_nil]
    exact segments_pathText dst.names dst.atSlash

end CleanPath

end LdPreload
