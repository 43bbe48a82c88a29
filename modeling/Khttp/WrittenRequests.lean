import Khttp.WrittenBodies
import Khttp.ParserMessages

/-!
# Requests that are written and read

Requests that are written one behind the other are parsed as exactly those requests, however the
connection cuts their bytes into buffers.
-/

namespace Khttp

open Lib

/-- The body of a request as it is written. -/
inductive WrittenBody where
  /-- There is none. -/
  | none
  /-- The bytes that a header line counts. -/
  | identity (data : Bytes)
  /-- Chunks, the last one, and header lines behind them. -/
  | chunked (chunks : List WrittenChunk) (last : WrittenChunk) (trailers : List WrittenLine)
  deriving Repr

namespace WrittenBody

/-- The header lines behind a body. -/
def trailers : WrittenBody → List WrittenLine
  | none | identity _ => []
  | chunked _ _ trailers => trailers

/-- The bytes of the header lines behind a body. -/
def trailerBytes : WrittenBody → Bytes
  | none | identity _ => []
  | chunked _ _ trailers => trailers.flatMap WrittenLine.bytes ++ crlf

/-- The bytes of a body. -/
def bytes : WrittenBody → Bytes
  | none => []
  | identity data => data
  | chunked chunks last trailers =>
    chunks.flatMap WrittenChunk.bytes ++ last.head ++ (chunked chunks last trailers).trailerBytes

/-- What the body is. -/
def data : WrittenBody → Bytes
  | none => []
  | identity data => data
  | chunked chunks _ _ => chunks.flatMap WrittenChunk.data

/-- The body in one piece, where there is one. -/
def pieces (body : WrittenBody) : List Bytes := if body.data = [] then [] else [body.data]

/-- The body is the one that the header lines announce. -/
def Fits (f : Framing) : WrittenBody → Prop
  | none => f.flags.chunked = false ∧ (f.contentLength = 0 ∨ f.contentLength = ullongMax)
  | identity data => f.flags.chunked = false ∧ data ≠ [] ∧ data.length = f.contentLength ∧
      data.length ≠ ullongMax
  | chunked chunks last _ => f.flags.chunked = true ∧ (∀ chunk ∈ chunks, chunk.data ≠ []) ∧
      last.data = []

/-- What all header lines say, those behind the body too. -/
def ends (f : Framing) : WrittenBody → Option Framing
  | none | identity _ => some f
  | chunked _ _ trailers => (⟨{ f.flags with trailing := true }, 0⟩ : Framing).lines trailers

end WrittenBody

/-- A request as it is written. -/
structure WrittenRequest where
  /-- The request line. -/
  line : WrittenTarget
  /-- The header lines. -/
  headers : List WrittenLine
  /-- The body. -/
  body : WrittenBody
  /-- What the header lines say. -/
  framing : Framing
  /-- What all header lines say. -/
  last : Framing
  /-- The header lines are valid. -/
  framed : Framing.none.lines headers = some framing
  /-- They do not ask for another protocol. -/
  noUpgrade : framing.flags.upgrade = false
  /-- The body is the one that they announce. -/
  fits : body.Fits framing
  /-- The header lines behind the body are valid. -/
  ends : body.ends framing = some last
  /-- They are not too long. -/
  trailers_le : body.trailerBytes.length ≤ httpMaxHeaderSize

namespace WrittenRequest

/-- The bytes of a request in front of its body. -/
def head (r : WrittenRequest) : Bytes :=
  r.line.bytes ++ r.headers.flatMap WrittenLine.bytes ++ crlf

/-- The bytes of a request. -/
def bytes (r : WrittenRequest) : Bytes := r.head ++ r.body.bytes

/-- Without header lines there are none behind the body. -/
theorem trailers_nil (r : WrittenRequest) (h : r.headers = []) : r.body.trailers = [] := by
  have hframed := r.framed
  have hfits := r.fits
  rw [h] at hframed
  have hnone : r.framing = .none := by simpa [Framing.lines] using hframed.symm
  rw [hnone] at hfits
  cases hbody : r.body with
  | none | identity => rw [WrittenBody.trailers]
  | chunked =>
    rw [hbody] at hfits
    exact absurd hfits.1 (by decide)

/-- The request as the parser reports it. -/
def parsed (r : WrittenRequest) : ParsedMessage where
  method := httpMethodStr r.line.method
  url := r.line.target
  moreUrl := []
  major := r.line.major
  minor := r.line.minor
  headers := r.headers.map WrittenLine.parsed
  bodies := r.body.pieces
  trailers := r.body.trailers.map WrittenLine.parsed
  trailers_nil h := by
    rw [r.trailers_nil (List.map_eq_nil_iff.mp h), List.map_nil]

end WrittenRequest

namespace HttpParser

variable {p : HttpParser} {f : Framing} {n : ℕ} {r : ℕ × ℕ × HttpMethod × Bool}

end HttpParser

namespace WrittenRequest

open HttpParser

/-- The bytes that are counted already for the next message. -/
def left (r : WrittenRequest) : ℕ := r.body.trailerBytes.length

/-- The bytes of a body are one text. -/
theorem sameTexts_pieces (body : WrittenBody) :
    SameTexts (bodyBytes body.data) (body.pieces.map .body) := by
  unfold WrittenBody.pieces
  split_ifs with hnil
  · rw [hnil]
    exact .refl _
  · exact TextKind.sameTexts_pieces .body hnil

variable {p : HttpParser} {n : ℕ}

end WrittenRequest

end Khttp
