/-
  LdPreload.Contract.Canonical

  What cleaning makes of an absolute path.  The segments that are left are the
  lexical resolution of the path, whatever the array holds.  The text is in
  canonical form, one separator in front of every segment and none behind the
  last, unless the last segment of the path to act is a `..` that leaves
  something: the separator in front of what it removes then stays behind.
-/

import LdPreload.Rtld.CleanLimits

namespace LdPreload

open CMem Lexical Cleaning

/-- No empty segment, no `.` and no `..` between the separators behind the
    first one, unless the path is the root. -/
def Canonical (path : CString) : Prop :=
  ∃ rest, path.chars = slash :: rest ∧
    (rest = [] ∨ ∀ s ∈ rest.splitOn slash, s ≠ [] ∧ s ≠ [dot] ∧ s ≠ [dot, dot])

theorem Canonical.isAbsolute {path : CString} (h : Canonical path) :
    LdPreload.isAbsolute path = true := by
  obtain ⟨rest, hrest, -⟩ := h
  exact isAbsolute_iff.mpr ⟨rest, hrest⟩

/-- Canonical, and cleaned to itself into every array that has room for it. -/
def Settled (path : CString) : Prop :=
  Canonical path ∧ ∀ (dst : CharArray) (dstLen : Nat), path.length < dstLen → dstLen ≤ dst.cap →
    CleansTo path dst dstLen path

/-- Something is left of the path, and its last segment but for dots is a
    `..`. -/
def StepsBack (path : CString) : Prop :=
  resolve path.chars ≠ [] ∧
    ((segments slash path.chars).filter (· ≠ [dot])).getLast? = some [dot, dot]

/-! ## Segments -/

/-- A return of 0 leaves an absolute path, whose segments are what the walk
    over the segments of the source ends with. -/
theorem segments_of_cleaned (src : CString) (habs : isAbsolute src = true) (dst : CharArray)
    (dstLen : Nat) (hcap : dstLen ≤ dst.cap) (dst' : CharArray)
    (hok : cleanPathInto (some src) dst dstLen = .ok dst') :
    ∃ t, dst'.string = .ok t ∧ isAbsolute t = true ∧
      segments slash t.chars = walk [] (segments slash src.chars) := by
  obtain ⟨t, hstring, -⟩ := exists_string_of_ok hcap hok
  have hchars := CleansTo.chars_absolute ⟨dst', hok, hstring⟩ hcap habs
  refine ⟨t, hstring, ?_, ?_⟩
  · have hroot : resolve src.chars = [] → leavesSlash src.chars = true :=
      leavesSlash_of_resolve_nil
    obtain ⟨rest, hrest⟩ := exists_pathText_eq_cons hroot
    exact isAbsolute_iff.mpr ⟨rest, hchars.trans hrest⟩
  · rw [hchars, segments_pathText isName_of_mem_resolve]
    rfl

/-- Five bytes are enough for `/../a/./b//..`. -/
theorem segments_of_cleaned_dots :
    let src : CString := .ofAscii ['/', '.', '.', '/', 'a', '/', '.', '/', 'b', '/', '/', '.', '.']
    let dst' : CharArray := ⟨5, [47, 97, 47, 0], by decide⟩
    cleanPathInto (some src) (.uninit 5) 5 = .ok dst' ∧ ∃ t, dst'.string = .ok t ∧
      isAbsolute t = true ∧ segments slash t.chars = walk [] (segments slash src.chars) := by
  intro src dst'
  have hok : cleanPathInto (some src) (.uninit 5) 5 = .ok dst' := rfl
  exact ⟨hok, segments_of_cleaned src rfl (.uninit 5) 5 (Nat.le_refl _) dst' hok⟩

/-! ## Canonical form -/

/-- A path in canonical form spells names, with a separator behind them only
    when there are none. -/
theorem canonical_iff {path : CString} :
    Canonical path ↔
      ∃ dirs, (∀ s ∈ dirs, IsName s) ∧ path.chars = pathText dirs (decide (dirs = [])) := by
  refine ⟨?_, ?_⟩
  · rintro ⟨rest, hchars, rfl | hnames⟩
    · exact ⟨[], by simp, hchars⟩
    · -- no piece is empty, so the pieces are the segments
      have hsegs : segments slash rest = rest.splitOn slash :=
        List.filter_eq_self.mpr fun s hs => decide_eq_true (hnames s hs).1
      have hne : segments slash rest ≠ [] := by
        intro hnil
        rw [hsegs] at hnil
        exact List.splitOn_ne_nil slash rest hnil
      refine ⟨segments slash rest, fun s hs => ⟨isSegment_of_mem_segments hs, ?_⟩, ?_⟩
      · exact (hnames s (hsegs ▸ hs)).2
      · rw [hchars, pathText, decide_eq_false hne, spell_eq_cons_intercalate hne, hsegs,
          List.intercalate_splitOn, if_neg (by decide), List.append_nil]
  · rintro ⟨dirs, hnames, hchars⟩
    rw [pathText] at hchars
    by_cases hnil : dirs = []
    · subst hnil
      exact ⟨[], hchars, Or.inl rfl⟩
    · rw [decide_eq_false hnil, if_neg (by decide), List.append_nil,
        spell_eq_cons_intercalate hnil] at hchars
      refine ⟨_, hchars, Or.inr fun s hs => ?_⟩
      rw [List.splitOn_intercalate slash (fun s hs => (hnames s hs).1.2) hnil] at hs
      exact ⟨(hnames s hs).1.1, (hnames s hs).2⟩

theorem cleaned_of_canonical {path : CString} (h : Canonical path)
    (hshort : path.length < pathMax) : cleaned path = some path := by
  obtain ⟨dirs, hnames, hchars⟩ := canonical_iff.mp h
  exact cleaned_of_names hnames hchars hshort

/-- A path in canonical form with no more segments than the loop can record
    is cleaned to itself. -/
theorem settled_of_names {path : CString} {dirs : List Segment} (hnames : ∀ s ∈ dirs, IsName s)
    (hcount : dirs.length ≤ pathMax) (hchars : path.chars = pathText dirs (decide (dirs = []))) :
    Settled path := by
  refine ⟨canonical_iff.mpr ⟨dirs, hnames, hchars⟩, fun dst dstLen hlen hcap => ?_⟩
  obtain ⟨habs, htext⟩ := pathText_of_names hnames hchars
  have htwo : 2 ≤ dstLen := by
    obtain ⟨rest, hrest⟩ := isAbsolute_iff.mp habs
    rw [CString.length_def, hrest, List.length_cons] at hlen
    omega
  -- the stack in the end is the whole path
  have hfits : Cleaning.Fits true dstLen ⟨dirs.reverse ++ [], decide (dirs = [])⟩ := by
    have hshown : Cleaning.shown true ⟨dirs.reverse, decide (dirs = [])⟩ = path.chars := by
      rw [shown_true (by simp), hchars, List.reverse_reverse]
    have hprefix : closed true dirs.reverse <+: path.chars := by
      rw [← hshown]
      exact closed_prefix_shown ⟨dirs.reverse, _⟩
    rw [List.append_nil]
    refine ⟨Nat.lt_of_le_of_lt hprefix.length_le hlen, ?_⟩
    rw [List.length_reverse]
    exact hcount
  have hclean : cleaning (isAbsolute path) dstLen path.chars =
      some (dirs.foldl (step true) ⟨[], true⟩) := by
    rw [habs, cleaning, hchars, segments_pathText hnames]
    exact foldlM_next_of_names (fun s hs => (hnames s hs).2) hfits
  obtain ⟨t, ht, -, -⟩ := exists_cleansTo hcap htwo hclean
  have hself : t = path := CString.ext ((ht.chars_absolute hcap habs).trans htext)
  rwa [hself] at ht

/-- The text that cleaning leaves is settled unless the path steps back. -/
theorem settled_of_cleansTo {src t : CString} {dst : CharArray} {dstLen : Nat}
    (h : CleansTo src dst dstLen t) (hcap : dstLen ≤ dst.cap) (habs : isAbsolute src = true)
    (hback : ¬ StepsBack src) :
    Settled t ∧ t.chars = pathText (resolve src.chars) (decide (resolve src.chars = [])) := by
  have hslash : leavesSlash src.chars = decide (resolve src.chars = []) := by
    rw [Bool.eq_iff_iff, leavesSlash_iff, decide_eq_true_iff]
    refine ⟨fun hcases => ?_, Or.inl⟩
    by_contra hne
    exact hback ⟨hne, hcases.resolve_left hne⟩
  have hchars := h.chars_absolute hcap habs
  rw [hslash] at hchars
  refine ⟨settled_of_names isName_of_mem_resolve ?_ hchars, hchars⟩
  exact h.length_resolve_le hcap habs

/-- A path that steps back leaves a separator behind. -/
theorem not_canonical_of_stepsBack {src t : CString} {dst : CharArray} {dstLen : Nat}
    (h : CleansTo src dst dstLen t) (hcap : dstLen ≤ dst.cap) (habs : isAbsolute src = true)
    (hback : StepsBack src) : ¬ Canonical t := by
  intro hcan
  obtain ⟨dirs, hnames, hdirs⟩ := canonical_iff.mp hcan
  have hchars := h.chars_absolute hcap habs
  rw [leavesSlash_iff .. |>.mpr (Or.inr hback.2)] at hchars
  -- the names are the same, so the separator is the difference
  have hsame : dirs = resolve src.chars := by
    have hsegs := congrArg (segments slash) (hdirs.symm.trans hchars)
    rwa [segments_pathText hnames, segments_pathText isName_of_mem_resolve] at hsegs
  have hlen := congrArg List.length (hdirs.symm.trans hchars)
  rw [length_pathText, length_pathText, hsame, decide_eq_false hback.1] at hlen
  simp at hlen

/-- Two absolute paths are cleaned to settled texts, and to the same one where
    they lead to the same place, exactly when neither steps back. -/
theorem settled_iff (src src' : CString) (habs : isAbsolute src = true)
    (habs' : isAbsolute src' = true) (dst dst' : CharArray) (dstLen dstLen' : Nat)
    (hcap : dstLen ≤ dst.cap) (hcap' : dstLen' ≤ dst'.cap) (t t' : CString)
    (h : CleansTo src dst dstLen t) (h' : CleansTo src' dst' dstLen' t') :
    (Settled t ∧ Settled t' ∧ (resolve src.chars = resolve src'.chars → t = t')) ↔
      ¬ StepsBack src ∧ ¬ StepsBack src' := by
  refine ⟨?_, ?_⟩
  · rintro ⟨ht, ht', -⟩
    exact ⟨fun hback => not_canonical_of_stepsBack h hcap habs hback ht.1,
      fun hback => not_canonical_of_stepsBack h' hcap' habs' hback ht'.1⟩
  · rintro ⟨hback, hback'⟩
    obtain ⟨ht, hchars⟩ := settled_of_cleansTo h hcap habs hback
    obtain ⟨ht', hchars'⟩ := settled_of_cleansTo h' hcap' habs' hback'
    refine ⟨ht, ht', fun hsame => CString.ext ?_⟩
    rw [hchars, hchars', hsame]

/-- `/a/b/..` is cleaned to `/a/`, which has an empty segment behind its last
    separator; `/a` leads to the same place and stays `/a`, and so does `/a/`
    when it is cleaned in its turn. -/
theorem not_settled_back_to_a :
    let src : CString := .ofAscii ['/', 'a', '/', 'b', '/', '.', '.']
    let a : CString := .ofAscii ['/', 'a']
    let t : CString := .ofAscii ['/', 'a', '/']
    isAbsolute src = true ∧ isAbsolute a = true ∧ resolve src.chars = resolve a.chars ∧
      CleansTo src (.uninit 8) 8 t ∧ CleansTo a (.uninit 8) 8 a ∧ CleansTo t (.uninit 8) 8 a ∧
      ¬ Canonical t ∧ a ≠ t := by
  intro src a t
  have hsrc : CleansTo src (.uninit 8) 8 t := ⟨⟨8, [47, 97, 47, 0], by decide⟩, rfl, rfl⟩
  refine ⟨rfl, rfl, rfl, hsrc, ⟨⟨8, [47, 97, 0], by decide⟩, rfl, rfl⟩,
    ⟨⟨8, [47, 97, 0], by decide⟩, rfl, rfl⟩, ?_, by decide⟩
  exact not_canonical_of_stepsBack hsrc (Nat.le_refl _) rfl ⟨by decide, rfl⟩

/-- `//a/.` and `/a` -/
theorem settled_a :
    let src : CString := .ofAscii ['/', '/', 'a', '/', '.']
    let a : CString := .ofAscii ['/', 'a']
    (Settled a ∧ Settled a ∧ (resolve src.chars = resolve a.chars → a = a)) ↔
      ¬ StepsBack src ∧ ¬ StepsBack a :=
  settled_iff (.ofAscii ['/', '/', 'a', '/', '.']) (.ofAscii ['/', 'a']) rfl rfl (.uninit 8)
    (.uninit 3) 8 3 (Nat.le_refl _) (Nat.le_refl _) (.ofAscii ['/', 'a']) (.ofAscii ['/', 'a'])
    ⟨⟨8, [47, 97, 0], by decide⟩, rfl, rfl⟩ ⟨⟨3, [47, 97, 0], by decide⟩, rfl, rfl⟩

end LdPreload
