import Khttp.RequestLines

/-!
# Bodies that are read

What follows the header lines of a request: nothing, as many bytes as a header line says, or
chunks with header lines behind them.
-/

namespace Khttp

open Lib

/-- The number that hexadecimal digits are, behind others. -/
def hexNumber (n : ℕ) (digits : Bytes) : ℕ :=
  digits.foldl (fun n c => n * 16 + (unhex c).getD 0) n

/-- A chunk as it is written. -/
structure WrittenChunk where
  /-- The size. -/
  digits : Bytes
  /-- What stands behind the size on its line. -/
  extension : Bytes
  /-- The bytes of the chunk, none for the last one. -/
  data : Bytes
  /-- There is a size. -/
  digits_ne : digits ≠ []
  /-- The size is hexadecimal. -/
  digits_hex : ∀ c ∈ digits, unhex c ≠ none
  /-- An extension begins with a semicolon or a space. -/
  extension_first : ∀ c ∈ extension.head?, c = byte ';' ∨ c = byte ' '
  /-- An extension is on the line of the size. -/
  extension_line : ∀ c ∈ extension, c ≠ cr
  /-- The size is the one of the data. -/
  size : hexNumber 0 digits = data.length
  /-- The size fits the parser's counter. -/
  size_le : data.length ≤ ullongMax - 16
  /-- The line of the size is not too long. -/
  line_le : digits.length + extension.length + 2 ≤ httpMaxHeaderSize
  deriving Repr

/-- The line of the size. -/
def WrittenChunk.head (chunk : WrittenChunk) : Bytes := chunk.digits ++ chunk.extension ++ crlf

/-- The bytes of a chunk. -/
def WrittenChunk.bytes (chunk : WrittenChunk) : Bytes := chunk.head ++ chunk.data ++ crlf

namespace HttpParser

variable {p : HttpParser} {ch : UInt8} {n : ℕ}

end HttpParser

end Khttp
