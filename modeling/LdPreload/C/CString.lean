/-
  LdPreload.C.CString

  NUL-terminated strings, as the C library sees them.  A `CString` is the
  bytes in front of the terminator; that none of them is the terminator is
  part of the value.  The functions of `string.h` and `stdio.h` that the
  program text calls are given by what they are documented to return.
-/

import Mathlib

namespace CMem

/-- A C `char`. -/
abbrev Byte := UInt8

def nul : Byte := 0

/-- `INT_MAX` of a 32-bit `int`. -/
def intMax : Nat := 2147483647

/-- How a C function can end other than by handing back a result. -/
inductive Stop where
  /-- An access through `NULL`, outside an object, or to a byte never written. -/
  | fault
  /-- `return -1`. -/
  | fail
deriving DecidableEq, Repr

/-- A call whose caller looks at the status: `none` is -1. -/
def attempt {α : Type} (x : Except Stop α) : Except Stop (Option α) :=
  match x with
  | .ok a => .ok (some a)
  | .error .fail => .ok none
  | .error .fault => .error .fault

/-- A NUL-terminated string: the bytes before the terminator. -/
@[ext] structure CString where
  chars : List Byte
  noNul : nul ∉ chars
deriving DecidableEq

namespace CString

/-- The string that a literal of ASCII characters spells, up to a NUL. -/
def ofAscii (cs : List Char) : CString where
  chars := (cs.map Char.toUInt8).takeWhile (· ≠ nul)
  noNul h := absurd (List.mem_takeWhile_imp h) (by decide)

/-- `strlen`. -/
def length (s : CString) : Nat := s.chars.length

/-- `s[i]` for an index up to the terminator. -/
def charAt (s : CString) (i : Nat) : Byte := s.chars.getD i nul

/-- The string at `s + i`. -/
def drop (s : CString) (i : Nat) : CString :=
  ⟨s.chars.drop i, fun h => s.noNul (List.mem_of_mem_drop h)⟩

/-- At most `n` bytes of `s`, terminated. -/
def take (s : CString) (n : Nat) : CString :=
  ⟨s.chars.take n, fun h => s.noNul (List.mem_of_mem_take h)⟩

instance : Append CString where
  append a b := ⟨a.chars ++ b.chars, by simp [a.noNul, b.noNul]⟩

instance : Inhabited CString := ⟨⟨[], by simp⟩⟩

@[simp] theorem chars_append (a b : CString) : (a ++ b).chars = a.chars ++ b.chars := rfl

@[simp] theorem chars_take (s : CString) (n : Nat) : (s.take n).chars = s.chars.take n := rfl

@[simp] theorem chars_drop (s : CString) (n : Nat) : (s.drop n).chars = s.chars.drop n := rfl

theorem length_def (s : CString) : s.length = s.chars.length := rfl

@[simp] theorem length_append (a b : CString) : (a ++ b).length = a.length + b.length :=
  List.length_append

/-! ## `string.h` -/

/-- `strncmp (a, b, n) == 0`: the first `n` bytes agree, the terminator counting
    as a byte and ending the comparison. -/
def strncmpEq (a b : CString) (n : Nat) : Bool :=
  (a.chars ++ [nul]).take n == (b.chars ++ [nul]).take n

/-- Compared over its own length, a string agrees with the strings it starts. -/
theorem strncmpEq_length_iff (a b : CString) :
    strncmpEq a b b.length = true ↔ b.chars <+: a.chars := by
  have hb : (b.chars ++ [nul]).take b.length = b.chars := by
    rw [length_def, List.take_left]
  rw [strncmpEq, beq_iff_eq, hb, List.prefix_iff_eq_take]
  refine ⟨fun h => ?_, fun h => ?_⟩
  · -- a shorter `a` would show its terminator among the bytes of `b`
    have hle : b.chars.length ≤ a.chars.length := by
      by_contra hlt
      have hmem : nul ∈ b.chars := by
        rw [← h, length_def, List.take_of_length_le (by simp; omega)]
        simp
      exact b.noNul hmem
    rw [← h, length_def, List.take_append_of_le_length hle]
    simp
  · have hle : b.chars.length ≤ a.chars.length := by
      have := congrArg List.length h
      simp only [List.length_take] at this
      omega
    rw [length_def, List.take_append_of_le_length hle, ← h]

/-! ## `stdio.h` -/

/-- `snprintf` into an array of `size` bytes, for a text already formatted: the
    text cut to what fits before the terminator is stored, and the length of
    the whole text is returned, or a negative number when no `int` holds it.
    The array behind a negative return is that of the documentation; glibc
    leaves another one there for an argument of more than 2^31 bytes. -/
def snprintf (size : Nat) (text : CString) : CString × Int :=
  (text.take (size - 1), if text.length ≤ intMax then (text.length : Int) else -1)

/-- The bytes that `"%d"` prints. -/
def decimalDigits (n : Int) : List Byte :=
  (if n < 0 then [45] else []) ++ (Nat.toDigits 10 n.natAbs).map Char.toUInt8

/-- A digit keeps its code as a byte. -/
theorem toNat_toUInt8_of_isDigit {c : Char} (h : c.isDigit) :
    c.toUInt8.toNat = c.toNat ∧ 48 ≤ c.toNat := by
  simp only [Char.isDigit, Bool.and_eq_true, decide_eq_true_eq] at h
  obtain ⟨hlo, hhi⟩ := h
  have hlo' : 48 ≤ c.val.toNat := hlo
  have hhi' : c.val.toNat ≤ 57 := hhi
  refine ⟨?_, hlo'⟩
  show c.val.toUInt8.toNat = c.val.toNat
  rw [UInt32.toNat_toUInt8, Nat.mod_eq_of_lt (by omega)]

/-- Bytes of digits determine the digits. -/
theorem map_toUInt8_toDigits (n : Nat) :
    ((Nat.toDigits 10 n).map Char.toUInt8).map (fun b => Char.ofNat b.toNat)
      = Nat.toDigits 10 n := by
  rw [List.map_map]
  conv_rhs => rw [← List.map_id (Nat.toDigits 10 n)]
  apply List.map_congr_left
  intro c hc
  have hdigit := Nat.isDigit_of_mem_toDigits (by decide) (by decide) hc
  rw [Function.comp_apply, (toNat_toUInt8_of_isDigit hdigit).1, Char.ofNat_toNat, id]

theorem le_toNat_of_mem_digits {n : Nat} {b : Byte}
    (h : b ∈ (Nat.toDigits 10 n).map Char.toUInt8) : 48 ≤ b.toNat := by
  obtain ⟨c, hc, rfl⟩ := List.mem_map.mp h
  have hdigit := Nat.isDigit_of_mem_toDigits (by decide) (by decide) hc
  obtain ⟨heq, hle⟩ := toNat_toUInt8_of_isDigit hdigit
  omega

theorem nul_not_mem_decimalDigits (n : Int) : nul ∉ decimalDigits n := by
  intro h
  rcases List.mem_append.mp h with h | h
  · split at h <;> simp [nul] at h
  · exact absurd (le_toNat_of_mem_digits h) (by decide)

/-- `"%d"` of an `int`. -/
def ofDecimal (n : Int) : CString := ⟨decimalDigits n, nul_not_mem_decimalDigits n⟩

/-- An `int` is printed in at most eleven bytes. -/
theorem length_ofDecimal_le (n : Int32) : (ofDecimal n.toInt).length ≤ 11 := by
  have hlo := Int32.le_toInt n
  have hhi := Int32.toInt_lt n
  have hdigits : (Nat.toDigits 10 n.toInt.natAbs).length ≤ 10 := by
    rw [Nat.length_toDigits_le_iff (by decide) (by decide)]
    omega
  have hsign : (if n.toInt < 0 then [(45 : Byte)] else []).length ≤ 1 := by
    split <;> simp
  simp only [ofDecimal, length_def, decimalDigits, List.length_append, List.length_map]
  omega

theorem ofDecimal_injective : Function.Injective ofDecimal := by
  intro m n h
  have hchars : decimalDigits m = decimalDigits n := congrArg chars h
  -- no digits start with the sign, and digits determine the number
  have hne (k : Nat) (l : List Byte) : (Nat.toDigits 10 k).map Char.toUInt8 ≠ 45 :: l := by
    intro heq
    have := le_toNat_of_mem_digits (n := k) (b := 45) (by rw [heq]; exact List.mem_cons_self ..)
    exact absurd this (by decide)
  have hinj {k l : Nat} (hkl : (Nat.toDigits 10 k).map Char.toUInt8
      = (Nat.toDigits 10 l).map Char.toUInt8) : k = l := by
    have hdigits : Nat.toDigits 10 k = Nat.toDigits 10 l := by
      rw [← map_toUInt8_toDigits k, hkl, map_toUInt8_toDigits]
    rw [← Nat.ofDigitChars_ten_toDigits (n := k), hdigits, Nat.ofDigitChars_ten_toDigits]
  unfold decimalDigits at hchars
  by_cases hm : m < 0 <;> by_cases hn : n < 0 <;>
    simp only [hm, hn, if_true, if_false, List.singleton_append, List.nil_append,
      List.cons.injEq, true_and] at hchars
  -- the signs agree, or the longer list would start with a digit
  · have := hinj hchars
    omega
  · exact absurd hchars.symm (hne _ _)
  · exact absurd hchars (hne _ _)
  · have := hinj hchars
    omega

end CString

end CMem
