import Mathlib.Algebra.GroupWithZero.Nat
import Mathlib.Data.List.TakeWhile
import Mathlib.Tactic.Common

/-!
# Bytes and C strings

A `char*` that the program uses as a string is the list of its bytes before the
terminator. Where the program reads a string out of a larger buffer, `cstr` cuts
that buffer at its first zero byte.
-/

namespace Khttp

/-- The contents of a C buffer. -/
abbrev Bytes := List UInt8

/-- The bytes of a string literal of the source. -/
def ascii (s : String) : Bytes := s.toList.map fun c => c.toNat.toUInt8

/-- A character constant of the source. -/
def byte (c : Char) : UInt8 := c.toNat.toUInt8

/-- The C string that starts a buffer. -/
def cstr (buf : Bytes) : Bytes := buf.takeWhile (· ≠ 0)

/-- `strlen`. -/
def strlen (buf : Bytes) : ℕ := (cstr buf).length

/-- `%u` and its relatives: the decimal text of a number. -/
def decimal (n : ℕ) : Bytes := ascii (toString n)

/-- The number that a text of decimal digits stands for. -/
def decimalValue (text : Bytes) : ℕ := text.foldl (fun v c => 10 * v + (c - byte '0').toNat) 0

/-- `tolower` in the C locale. -/
def tolower (c : UInt8) : UInt8 := if 65 ≤ c ∧ c ≤ 90 then c + 32 else c

/-- `strcasecmp(a, b) == 0`. -/
def strcaseeq (a b : Bytes) : Bool := (cstr a).map tolower == (cstr b).map tolower

/-- A C string holds no zero byte. -/
theorem zero_notMem_cstr (buf : Bytes) : 0 ∉ cstr buf := by
  intro hmem
  simpa using List.mem_takeWhile_imp hmem

/-- A buffer without a zero byte is its own C string. -/
theorem cstr_of_zero_notMem {buf : Bytes} (h : 0 ∉ buf) : cstr buf = buf := by
  apply List.takeWhile_eq_self_iff.mpr
  intro c hc
  have hne : c ≠ 0 := fun heq => h (heq ▸ hc)
  simpa using hne

/-- A C string is its own C string. -/
theorem cstr_cstr (buf : Bytes) : cstr (cstr buf) = cstr buf :=
  cstr_of_zero_notMem (zero_notMem_cstr buf)

/-- Texts without a null byte are joined to one. -/
@[simp] theorem cstr_append_cstr (a b : Bytes) : cstr (cstr a ++ cstr b) = cstr a ++ cstr b :=
  cstr_of_zero_notMem (by simp [zero_notMem_cstr])

/-- The characters of a decimal number are digits. -/
theorem digit_bounds {n : ℕ} {c : Char} (h : c ∈ Nat.toDigits 10 n) :
    48 ≤ c.toNat ∧ c.toNat ≤ 57 := by
  have hdigit : c.isDigit := Nat.isDigit_of_mem_toDigits (by decide) (by decide) h
  simpa [Char.isDigit, UInt32.le_iff_toNat_le] using hdigit

/-- The bytes of a decimal text are those of its characters. -/
theorem decimal_eq (n : ℕ) : decimal n = (Nat.toDigits 10 n).map fun c => c.toNat.toUInt8 := by
  rw [decimal, ascii, Nat.toString_eq_ofList_toDigits, String.toList_ofList]

/-- Decimal digits are no zero bytes. -/
theorem zero_notMem_decimal (n : ℕ) : 0 ∉ decimal n := by
  intro hmem
  rw [decimal_eq] at hmem
  obtain ⟨c, hc, hzero⟩ := List.mem_map.mp hmem
  have hbounds := digit_bounds hc
  have hmod : c.toNat % 256 = 0 := by simpa using congrArg UInt8.toNat hzero
  omega

/-- The decimal text of a number stands for it. -/
theorem decimalValue_decimal (n : ℕ) : decimalValue (decimal n) = n := by
  have hdigits (c : Char) (hc : c ∈ Nat.toDigits 10 n) :
      (c.toNat.toUInt8 - byte '0').toNat = c.toNat - '0'.toNat := by
    have hbounds := digit_bounds hc
    have hbyte : byte '0' ≤ c.toNat.toUInt8 := by
      rw [UInt8.le_iff_toNat_le]
      simp [byte]
      omega
    rw [UInt8.toNat_sub_of_le _ _ hbyte]
    simp [byte]
    omega
  have hfold : ∀ (cs : List Char) (v : ℕ), (∀ c ∈ cs, c ∈ Nat.toDigits 10 n) →
      (cs.map fun c => c.toNat.toUInt8).foldl (fun v c => 10 * v + (c - byte '0').toNat) v =
        Nat.ofDigitChars 10 cs v := by
    intro cs
    induction cs with
    | nil => intro v _; rfl
    | cons c cs ih =>
      intro v hcs
      rw [List.map_cons, List.foldl_cons, ih _ fun d hd => hcs d (by simp [hd]),
        Nat.ofDigitChars_cons, hdigits c (hcs c (by simp))]
  rw [decimalValue, decimal_eq, hfold _ _ fun c hc => hc, Nat.ofDigitChars_ten_toDigits]

/-- A C string is the first part of the buffer it was read from. -/
theorem take_strlen (buf : Bytes) : buf.take (strlen buf) = cstr buf := by
  unfold strlen cstr
  induction buf with
  | nil => rfl
  | cons c rest ih =>
    by_cases hc : c = 0
    · simp [hc]
    · simp only [ne_eq, decide_not] at ih
      simp [hc, ih]

end Khttp
