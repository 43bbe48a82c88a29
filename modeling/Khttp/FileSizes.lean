import Khttp.Containment
import Khttp.Lib.ChunkedCoding

/-!
# The sizes in a listing

`server_get_filesize` divides a size by 1024 as long as it is larger than that, and takes the name
of the unit from a table. The table has no `tb`, and the test that is to keep the index inside it
comes two divisions too late.
-/

namespace Khttp

/-- The power of 1024 that a unit stands for. -/
def unitExponent (unit : Bytes) : Option ℕ :=
  ([ascii "b", ascii "kb", ascii "mb", ascii "gb", ascii "tb", ascii "pb"].findIdx? (· == unit))

/-- The text for a file is a number of units that the size of the file lies in. -/
def SizeReadable (fs : FileSystem) (filename : Bytes) (size : ℕ) : Prop :=
  ∃ n unit k, serverGetFilesize fs filename = some (some (decimal n ++ unit)) ∧
    unitExponent unit = some k ∧ n * 1024 ^ k ≤ size ∧ size < (n + 1) * 1024 ^ k

/-- **Run lemma.** The loop divides as long as the size is larger than 1024, so many times at
most. -/
theorem filesizeLoop_spec (rounds size sizeI : ℕ) :
    ∃ j ≤ rounds, filesizeLoop rounds size sizeI = (size / 1024 ^ j, sizeI + j) ∧
      (j < rounds → size / 1024 ^ j ≤ 1024) ∧ ∀ i < j, 1024 < size / 1024 ^ i := by
  induction rounds generalizing size sizeI with
  | zero => exact ⟨0, le_refl 0, by simp [filesizeLoop], by omega, by omega⟩
  | succ rounds ih =>
    rw [filesizeLoop]
    by_cases hlarge : size > 1024
    · obtain ⟨j, hj, hloop, hstop, hgoes⟩ := ih (size / 1024) (sizeI + 1)
      have hdiv (i : ℕ) : size / 1024 / 1024 ^ i = size / 1024 ^ (i + 1) := by
        rw [Nat.div_div_eq_div_mul, ← Nat.pow_succ']
      refine ⟨j + 1, by omega, ?_, ?_, ?_⟩
      · rw [if_pos hlarge, hloop, hdiv]
        congr 1
        omega
      · intro hlt
        rw [← hdiv]
        exact hstop (by omega)
      · intro i hi
        cases i with
        | zero => simpa using hlarge
        | succ i =>
          rw [← hdiv]
          exact hgoes i (by omega)
    · refine ⟨0, Nat.zero_le _, by simp [hlarge], fun _ => ?_, by omega⟩
      simpa using hlarge

/-- A size lies in as many units as it is divided into. -/
theorem div_pow_bounds (size k : ℕ) :
    size / 1024 ^ k * 1024 ^ k ≤ size ∧ size < (size / 1024 ^ k + 1) * 1024 ^ k := by
  have hpos : 0 < 1024 ^ k := Nat.pow_pos (by decide)
  refine ⟨Nat.div_mul_le_self _ _, ?_⟩
  exact (Nat.div_lt_iff_lt_mul hpos).mp (Nat.lt_succ_self _)

/-- The digits of a decimal number are numerals. -/
theorem isNum_decimal (n : ℕ) : ∀ c ∈ decimal n, isNum c = true := by
  intro c hc
  rw [decimal_eq] at hc
  obtain ⟨d, hd, rfl⟩ := List.mem_map.mp hc
  have hbounds := digit_bounds hd
  have hbyte : (d.toNat.toUInt8).toNat = d.toNat := by
    simp
    omega
  simp only [isNum, Bool.and_eq_true, decide_eq_true_eq, UInt8.le_iff_toNat_le, hbyte]
  exact hbounds

/-- A text that starts with a letter tells the number in front of it. -/
theorem decimal_append_inj {m n : ℕ} {unit other : Bytes}
    (hunit : ∀ c ∈ unit.head?, isNum c = false) (hother : ∀ c ∈ other.head?, isNum c = false)
    (h : decimal m ++ unit = decimal n ++ other) : m = n ∧ unit = other := by
  obtain ⟨hdigits, hrest⟩ :=
    Lib.Chunked.digits_unique (isNum_decimal m) (isNum_decimal n) hunit hother h
  refine ⟨?_, hrest⟩
  rw [← decimalValue_decimal m, hdigits, decimalValue_decimal]

/-- A unit is one of six. -/
theorem mem_of_unitExponent {unit : Bytes} {k : ℕ} (h : unitExponent unit = some k) :
    unit ∈ [ascii "b", ascii "kb", ascii "mb", ascii "gb", ascii "tb", ascii "pb"] := by
  obtain ⟨hk, hunit, _⟩ := List.findIdx?_eq_some_iff_getElem.mp h
  rw [← beq_iff_eq.mp hunit]
  exact List.getElem_mem hk

/-- A unit starts with a letter. -/
theorem head_unit {unit : Bytes}
    (h : unit ∈ [ascii "b", ascii "kb", ascii "mb", ascii "gb", ascii "tb", ascii "pb"]) :
    ∀ c ∈ unit.head?, isNum c = false := by
  revert h
  revert unit
  decide +kernel

/-- What the text for a file is made of. -/
theorem serverGetFilesize_eq {fs : FileSystem} {filename : Bytes} {file : Place}
    (hopen : fs.fopen filename = some file) :
    serverGetFilesize fs filename =
      (["b", "kb", "mb", "gb", "pb"][(filesizeLoop 6 (fs.content file).length 0).2]?).map
        fun name => some (decimal (filesizeLoop 6 (fs.content file).length 0).1 ++ ascii name) := by
  rw [serverGetFilesize, hopen]
  rfl

/-- A size below 1025 GiB is readable. -/
theorem sizeReadable_of_lt {fs : FileSystem} {filename : Bytes} {file : Place}
    (hopen : fs.fopen filename = some file) (hsmall : (fs.content file).length < 1025 * 1024 ^ 3) :
    SizeReadable fs filename (fs.content file).length := by
  obtain ⟨j, hj, hloop, _, hgoes⟩ := filesizeLoop_spec 6 (fs.content file).length 0
  have htext := serverGetFilesize_eq hopen
  have hbounds := div_pow_bounds (fs.content file).length j
  rw [hloop] at htext
  have hfew : j < 4 := by
    by_contra hmany
    have hthree := hgoes 3 (by omega)
    omega
  unfold SizeReadable
  generalize (fs.content file).length = size at *
  obtain rfl | rfl | rfl | rfl : j = 0 ∨ j = 1 ∨ j = 2 ∨ j = 3 := by omega
  · exact ⟨_, ascii "b", 0, htext, by decide +kernel, hbounds⟩
  · exact ⟨_, ascii "kb", 1, htext, by decide +kernel, hbounds⟩
  · exact ⟨_, ascii "mb", 2, htext, by decide +kernel, hbounds⟩
  · exact ⟨_, ascii "gb", 3, htext, by decide +kernel, hbounds⟩

/-- A size from 1025 GiB on is taken for one of petabytes, or has no unit. -/
theorem not_sizeReadable_of_le {fs : FileSystem} {filename : Bytes} {file : Place}
    (hopen : fs.fopen filename = some file)
    (hlarge : 1025 * 1024 ^ 3 ≤ (fs.content file).length) :
    ¬SizeReadable fs filename (fs.content file).length := by
  obtain ⟨j, hj, hloop, hstop, hgoes⟩ := filesizeLoop_spec 6 (fs.content file).length 0
  rintro ⟨n, unit, k, htext, hunit, hle, hlt⟩
  rw [serverGetFilesize_eq hopen, hloop] at htext
  generalize (fs.content file).length = size at *
  have hmany : 4 ≤ j := by
    by_contra hfew
    have hle := hstop (by omega)
    have hmono : size / 1024 ^ 3 ≤ size / 1024 ^ j :=
      Nat.div_le_div_left (Nat.pow_le_pow_right (by decide) (by omega)) (Nat.pow_pos (by decide))
    omega
  rcases hmany.eq_or_lt with rfl | hover
  · -- the fifth name of the table is `pb`, after four divisions
    have htext : decimal (size / 1024 ^ 4) ++ ascii "pb" = decimal n ++ unit := by
      simpa using htext
    obtain ⟨rfl, rfl⟩ := decimal_append_inj (by decide +kernel)
      (head_unit (mem_of_unitExponent hunit)) htext
    obtain rfl : 5 = k := by
      have hfive : unitExponent (ascii "pb") = some 5 := by decide +kernel
      exact Option.some.inj (hfive.symm.trans hunit)
    have hthree := hgoes 3 (by omega)
    omega
  · -- there are only five names
    have hnames : ["b", "kb", "mb", "gb", "pb"].length ≤ j := hover
    rw [Nat.zero_add, List.getElem?_eq_none hnames] at htext
    simp at htext

/-- The text for a file is readable exactly where its size is below 1025 GiB. -/
theorem sizeReadable_iff {fs : FileSystem} {filename : Bytes} {file : Place}
    (hopen : fs.fopen filename = some file) :
    SizeReadable fs filename (fs.content file).length ↔
      (fs.content file).length < 1025 * 1024 ^ 3 := by
  constructor
  · intro hreadable
    by_contra hlarge
    exact not_sizeReadable_of_le hopen (by omega) hreadable
  · exact sizeReadable_of_lt hopen

/-- The text for a file of one byte. -/
theorem sizeReadable_indexHtml : SizeReadable siblingFileSystem (ascii "/srv/www/index.html")
    (siblingFileSystem.content (siblingDir ++ [⟨ascii "index.html", by decide⟩])).length :=
  (sizeReadable_iff (by decide +kernel)).mpr (by decide +kernel)

/-- The file system with a file of a size. -/
def sizeFileSystem (size : ℕ) : FileSystem :=
  { siblingFileSystem with content := fun _ => List.replicate size 0 }

/-- The size of a large file is not readable. -/
theorem not_sizeReadable_large {size : ℕ} (hlarge : 1025 * 1024 ^ 3 ≤ size) :
    ¬SizeReadable (sizeFileSystem size) (ascii "/srv/www/index.html") size := by
  have hopen : (sizeFileSystem size).fopen (ascii "/srv/www/index.html") =
      some (siblingDir ++ [⟨ascii "index.html", by decide⟩]) := by
    change siblingFileSystem.fopen (ascii "/srv/www/index.html") = _
    decide +kernel
  have hlength (p : Place) : ((sizeFileSystem size).content p).length = size :=
    List.length_replicate
  have hnot := not_sizeReadable_of_le hopen (by rwa [hlength])
  rwa [hlength] at hnot

/-- A file of 1025 GiB is said to have one petabyte. -/
theorem not_sizeReadable_terabyte :
    ¬SizeReadable (sizeFileSystem (1025 * 1024 ^ 3)) (ascii "/srv/www/index.html")
      (1025 * 1024 ^ 3) :=
  not_sizeReadable_large (Nat.le_refl _)

end Khttp
