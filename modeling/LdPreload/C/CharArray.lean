/-
  LdPreload.C.CharArray

  Local `char` arrays.  Only the bytes written so far are kept, as the list
  from index 0 on: a C function that fills an array from the front never
  leaves a gap, and a store that would leave one, or lie outside the array,
  is a fault, as is a load of a byte that was never written.

  What an array holds is stated by prefixes: `l <+: a.bytes` says that the
  bytes of `l` stand at its start.
-/

import LdPreload.C.CString

namespace CMem

/-- A `char` array of `cap` bytes and what has been written of it. -/
structure CharArray where
  cap : Nat
  bytes : List Byte
  fits : bytes.length ≤ cap

namespace CharArray

/-- `char a[n];` -/
def uninit (n : Nat) : CharArray := ⟨n, [], Nat.zero_le n⟩

/-- `memcpy (a + i, bs, |bs|)`. -/
def write (a : CharArray) (i : Nat) (bs : List Byte) : Except Stop CharArray :=
  if h : i ≤ a.bytes.length ∧ i + bs.length ≤ a.cap then
    .ok ⟨a.cap, a.bytes.take i ++ bs ++ a.bytes.drop (i + bs.length), by
      have hfits := a.fits
      simp only [List.length_append, List.length_take, List.length_drop]
      omega⟩
  else .error .fault

/-- A string stored at `a`, with its terminator. -/
def store (a : CharArray) (s : CString) : Except Stop CharArray := a.write 0 (s.chars ++ [nul])

/-- `a[i]` as a value. -/
def read (a : CharArray) (i : Nat) : Except Stop Byte :=
  match a.bytes[i]? with
  | some b => .ok b
  | none => .error .fault

/-- The string that starts at `a`. -/
def string (a : CharArray) : Except Stop CString :=
  if nul ∈ a.bytes then
    .ok ⟨a.bytes.takeWhile (· ≠ nul), fun h => by simpa using List.mem_takeWhile_imp h⟩
  else .error .fault

/-- A write that starts in what is written and ends in the array succeeds. -/
theorem exists_write (a : CharArray) {i : Nat} (bs : List Byte) (hi : i ≤ a.bytes.length)
    (hcap : i + bs.length ≤ a.cap) :
    ∃ a', a.write i bs = .ok a' ∧ a'.cap = a.cap ∧
      a'.bytes = a.bytes.take i ++ bs ++ a.bytes.drop (i + bs.length) :=
  ⟨_, dif_pos ⟨hi, hcap⟩, rfl, rfl⟩

theorem cap_of_write {a a' : CharArray} {i : Nat} {bs : List Byte} (h : a.write i bs = .ok a') :
    a'.cap = a.cap := by
  unfold write at h
  split at h
  · rw [← Except.ok.inj h]
  · exact absurd h (by simp)

/-- A write that is refused is a fault. -/
theorem write_error {a : CharArray} {i : Nat} {bs : List Byte} {stop : Stop}
    (h : a.write i bs = .error stop) : stop = .fault := by
  unfold write at h
  split at h
  · exact absurd h (by simp)
  · exact (Except.error.inj h).symm

/-- A write behind a known start extends that start. -/
theorem write_spec {a : CharArray} {l : List Byte} (hl : l <+: a.bytes) (bs : List Byte)
    (hcap : l.length + bs.length ≤ a.cap) :
    ∃ a', a.write l.length bs = .ok a' ∧ a'.cap = a.cap ∧ l ++ bs <+: a'.bytes := by
  obtain ⟨a', hwrite, hcap', hbytes⟩ := exists_write a bs hl.length_le hcap
  refine ⟨a', hwrite, hcap', ?_⟩
  rw [hbytes, ← List.prefix_iff_eq_take.mp hl]
  exact List.prefix_append _ _

/-- The last byte of a known start can be read. -/
theorem read_spec {a : CharArray} {l : List Byte} {b : Byte} (hl : l ++ [b] <+: a.bytes) :
    a.read l.length = .ok b := by
  obtain ⟨rest, hrest⟩ := hl
  simp [read, ← hrest]

/-- A terminated start is the string. -/
theorem string_spec {a : CharArray} {s : CString} (hs : s.chars ++ [nul] <+: a.bytes) :
    a.string = .ok s := by
  obtain ⟨rest, hrest⟩ := hs
  have hmem : nul ∈ a.bytes := by simp [← hrest]
  have htake : a.bytes.takeWhile (· ≠ nul) = s.chars := by
    rw [← hrest, List.append_assoc, List.takeWhile_append_of_pos
      (fun c hc => by simpa using ne_of_mem_of_not_mem hc s.noNul)]
    simp
  rw [string, if_pos hmem]
  exact congrArg Except.ok (CString.ext htake)

/-- An array is read from its front as its string is. -/
theorem read_zero {a : CharArray} {t : CString} (h : a.string = .ok t) :
    a.read 0 = .ok (t.charAt 0) := by
  rw [string] at h
  split at h
  · have hchars : a.bytes.takeWhile (· ≠ nul) = t.chars := by rw [← Except.ok.inj h]
    rw [read, CString.charAt, ← hchars]
    cases hbytes : a.bytes with
    | nil => simp_all
    | cons b bytes => by_cases hb : b = nul <;> simp [hb]
  · exact absurd h (by simp)

theorem store_spec {a : CharArray} {s : CString} (h : s.length < a.cap) :
    ∃ a', a.store s = .ok a' ∧ a'.cap = a.cap ∧ a'.string = .ok s := by
  obtain ⟨a', hwrite, hcap, hbytes⟩ := write_spec (a := a) (l := []) List.nil_prefix
    (s.chars ++ [nul]) (by simpa [CString.length_def, Nat.succ_le_iff] using h)
  exact ⟨a', hwrite, hcap, string_spec hbytes⟩

theorem store_error {a : CharArray} {s : CString} (h : a.cap ≤ s.length) :
    a.store s = .error .fault := by
  have hlen : (s.chars ++ [nul]).length = s.length + 1 := by simp [CString.length_def]
  exact dif_neg fun hroom => by omega

end CharArray

end CMem
