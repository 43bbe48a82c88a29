import Mathlib.Data.List.TakeWhile
import Mathlib.Tactic.Common

/-!
# The chunked coding of a message body

The grammar of a chunked body, with what a receiver makes of it: each chunk is its
size in hexadecimal digits, extensions, a line end, so many octets and a line end; the
last chunk has size zero and is followed by the trailer and a line end. Some things are
read more generously than senders are told to write them: an extension may lack its
name, a quoted value may hold any octets, and so may the lines of the trailer, except for
line ends.
-/

namespace Khttp.Lib.Chunked

/-- A line end. -/
def crlf : List UInt8 := [13, 10]

/-- A hexadecimal digit. -/
def isHex (c : UInt8) : Bool := (48 ≤ c && c ≤ 57) || (65 ≤ c && c ≤ 70) || (97 ≤ c && c ≤ 102)

/-- The value of a hexadecimal digit. -/
def hexDigitValue (c : UInt8) : ℕ :=
  if c ≤ 57 then c.toNat - 48 else if c ≤ 70 then c.toNat - 55 else c.toNat - 87

/-- The number that a text of hexadecimal digits stands for. -/
def hexValue (text : List UInt8) : ℕ := text.foldl (fun v c => 16 * v + hexDigitValue c) 0

/-- The hexadecimal text of a number, without leading zeros and in lower case. -/
def hexText (n : ℕ) : List UInt8 := (Nat.toDigits 16 n).map fun c => c.toNat.toUInt8

/-- A character of a token: neither a control character nor a separator. -/
def isTokenChar (c : UInt8) : Bool :=
  32 < c && c < 127 &&
    !("()<>@,;:\\\"/[]?=\x7b\x7d".toList.map fun c => c.toNat.toUInt8).contains c

/-- A token. -/
def Token (text : List UInt8) : Prop := text ≠ [] ∧ ∀ c ∈ text, isTokenChar c = true

/-- A quoted value. -/
def Quoted (text : List UInt8) : Prop := ∃ inner, text = 34 :: inner ++ [34]

/-- The extensions of a chunk. -/
inductive Extensions : List UInt8 → Prop
  /-- There are none. -/
  | nil : Extensions []
  /-- An extension without a name. -/
  | bare {rest : List UInt8} (hrest : Extensions rest) : Extensions (59 :: rest)
  /-- An extension without a value. -/
  | named {name rest : List UInt8} (hname : Token name) (hrest : Extensions rest) :
      Extensions (59 :: (name ++ rest))
  /-- An extension with a value. -/
  | valued {name value rest : List UInt8} (hname : Token name) (hvalue : Token value ∨ Quoted value)
      (hrest : Extensions rest) : Extensions (59 :: (name ++ 61 :: (value ++ rest)))

/-- A text within a line. -/
def InLine (text : List UInt8) : Prop := ∀ c ∈ text, c ≠ 13 ∧ c ≠ 10

/-- The trailer, with the names and contents of its lines. -/
inductive Trailer : List UInt8 → List (List UInt8 × List UInt8) → Prop
  /-- It is empty. -/
  | nil : Trailer [] []
  /-- A line, and more of them. -/
  | cons {name blanks content rest : List UInt8} {footers : List (List UInt8 × List UInt8)}
      (hname : InLine name) (hblanks : ∀ c ∈ blanks, c = 32 ∨ c = 9) (hcontent : InLine content)
      (hrest : Trailer rest footers) :
      Trailer (name ++ 58 :: (blanks ++ content ++ crlf ++ rest)) ((name, content) :: footers)

/-- A chunked body, with the data and the footers that it stands for. -/
inductive Body : List UInt8 → List UInt8 → List (List UInt8 × List UInt8) → Prop
  /-- The last chunk and the trailer. -/
  | last {zeros extensions trailer : List UInt8} {footers : List (List UInt8 × List UInt8)}
      (hne : zeros ≠ []) (hzeros : ∀ c ∈ zeros, c = 48) (hextensions : Extensions extensions)
      (htrailer : Trailer trailer footers) :
      Body (zeros ++ (extensions ++ (crlf ++ (trailer ++ crlf)))) [] footers
  /-- A chunk, and more of them. -/
  | chunk {size extensions chunk rest data : List UInt8}
      {footers : List (List UInt8 × List UInt8)} (hne : size ≠ [])
      (hsize : ∀ c ∈ size, isHex c = true) (hextensions : Extensions extensions)
      (hlength : chunk.length = hexValue size) (hrest : Body rest data footers) :
      Body (size ++ (extensions ++ (crlf ++ (chunk ++ (crlf ++ rest))))) (chunk ++ data) footers

/-- The hexadecimal digits below sixteen. -/
theorem hexDigit_spec {d : ℕ} (hd : d < 16) :
    isHex d.digitChar.toNat.toUInt8 = true ∧ hexDigitValue d.digitChar.toNat.toUInt8 = d := by
  revert d
  decide

/-- The text of a number is one digit, or that of its sixteenth part and one digit. -/
theorem hexText_eq (n : ℕ) :
    hexText n = (if n < 16 then [] else hexText (n / 16)) ++
      [(n % 16).digitChar.toNat.toUInt8] := by
  unfold hexText
  rw [Nat.toDigits_eq_if (by decide)]
  split
  · next hlt => simp [Nat.mod_eq_of_lt hlt]
  · simp

/-- The text of a number is not empty. -/
theorem hexText_ne_nil (n : ℕ) : hexText n ≠ [] := by
  rw [hexText_eq]
  simp

/-- The text of a number consists of digits. -/
theorem isHex_hexText (n : ℕ) : ∀ c ∈ hexText n, isHex c = true := by
  induction n using Nat.strong_induction_on with
  | _ n ih =>
    intro c hc
    rw [hexText_eq] at hc
    rcases List.mem_append.mp hc with hfront | hlast
    · split at hfront
      · simp at hfront
      · exact ih (n / 16) (by omega) c hfront
    · obtain rfl := List.mem_singleton.mp hlast
      exact (hexDigit_spec (Nat.mod_lt n (by omega))).1

/-- The text of a number stands for it. -/
theorem hexValue_hexText (n : ℕ) : hexValue (hexText n) = n := by
  induction n using Nat.strong_induction_on with
  | _ n ih =>
    have hdigit := (hexDigit_spec (Nat.mod_lt n (by omega : 0 < 16))).2
    rw [hexText_eq]
    split
    · next hlt =>
      simp only [hexValue, List.nil_append, List.foldl_cons, List.foldl_nil, hdigit]
      omega
    · have hfront := ih (n / 16) (by omega)
      simp only [hexValue] at hfront
      simp only [hexValue, List.foldl_append, List.foldl_cons, List.foldl_nil, hfront, hdigit]
      omega

/-- A text of zeros stands for zero. -/
theorem hexValue_zeros {zeros : List UInt8} (hzeros : ∀ c ∈ zeros, c = 48) :
    hexValue zeros = 0 := by
  obtain ⟨n, rfl⟩ : ∃ n, zeros = List.replicate n 48 :=
    ⟨zeros.length, List.eq_replicate_iff.mpr ⟨rfl, hzeros⟩⟩
  unfold hexValue
  induction n with
  | zero => rfl
  | succ n ih => simpa [List.replicate_succ, hexDigitValue] using ih (by simp)

/-- The digits in front of something that begins otherwise are determined. -/
theorem digits_unique {p : UInt8 → Bool} {xs ys as bs : List UInt8} (hxs : ∀ c ∈ xs, p c = true)
    (hys : ∀ c ∈ ys, p c = true) (has : ∀ c ∈ as.head?, p c = false)
    (hbs : ∀ c ∈ bs.head?, p c = false) (heq : xs ++ as = ys ++ bs) : xs = ys ∧ as = bs := by
  have hrun {zs cs : List UInt8} (hzs : ∀ c ∈ zs, p c = true) (hcs : ∀ c ∈ cs.head?, p c = false) :
      (zs ++ cs).takeWhile p = zs := by
    rw [List.takeWhile_append_of_pos hzs]
    cases cs with
    | nil => simp
    | cons c cs => simp [hcs c (by simp)]
  have hdigits : xs = ys := by
    have htake := congrArg (List.takeWhile p) heq
    rwa [hrun hxs has, hrun hys hbs] at htake
  subst hdigits
  exact ⟨rfl, List.append_cancel_left heq⟩

/-- What follows a size does not begin with a digit. -/
theorem Extensions.head_ne_digit {extensions : List UInt8} (h : Extensions extensions)
    (rest : List UInt8) : ∀ c ∈ (extensions ++ (crlf ++ rest)).head?, isHex c = false := by
  cases h <;> simp [crlf, isHex]

/-- An extension that is one semicolon, and nothing else, is read as such. -/
theorem Extensions.of_bare {extensions as bs : List UInt8} (h : Extensions extensions)
    (heq : extensions ++ (crlf ++ as) = 59 :: (crlf ++ bs)) : as = bs := by
  cases h with
  | nil => simp [crlf] at heq
  | bare hrest =>
    simp only [List.cons_append, List.cons.injEq, true_and] at heq
    cases hrest with
    | nil => simpa [crlf] using heq
    | _ => simp [crlf] at heq
  | named hname | valued hname =>
    obtain ⟨hne, hchars⟩ := hname
    obtain ⟨c, name, rfl⟩ := List.exists_cons_of_ne_nil hne
    have hc := hchars c (by simp)
    simp only [List.cons_append, List.append_assoc, crlf, List.cons.injEq, true_and] at heq
    obtain ⟨rfl, -⟩ := heq
    exact absurd hc (by decide)

/-- A body that begins with the size of a chunk and one semicolon goes on with the octets
of the chunk and a line end. -/
theorem Body.of_bare {k : ℕ} (hk : 0 < k) {rest data : List UInt8}
    {footers : List (List UInt8 × List UInt8)}
    (h : Body (hexText k ++ 59 :: (crlf ++ rest)) data footers) :
    ∃ chunk tail, rest = chunk ++ (crlf ++ tail) ∧ chunk.length = k := by
  have hhead : ∀ c ∈ (59 :: (crlf ++ rest)).head?, isHex c = false := by simp [isHex]
  generalize hbody : hexText k ++ 59 :: (crlf ++ rest) = body at h
  cases h with
  | last hne hzeros hextensions htrailer =>
    have hdigits : ∀ c ∈ _, isHex c = true := fun c hc => by rw [hzeros c hc]; decide
    obtain ⟨hsize, -⟩ := digits_unique (isHex_hexText k) hdigits hhead
      (hextensions.head_ne_digit _) hbody
    have hvalue := hexValue_hexText k
    rw [hsize, hexValue_zeros hzeros] at hvalue
    omega
  | @chunk size extensions chunk tail data footers hne hsize hextensions hlength hrest =>
    obtain ⟨rfl, hafter⟩ := digits_unique (isHex_hexText k) hsize hhead
      (hextensions.head_ne_digit _) hbody
    rw [hexValue_hexText] at hlength
    exact ⟨chunk, tail, (hextensions.of_bare hafter.symm).symm, hlength⟩

end Khttp.Lib.Chunked
