import Khttp.Http
import Khttp.Lib.ChunkedCoding

/-!
# Writing a chunked body

`http_chunks_write` and `http_chunks_terminate`. The writer of a chunk ends the line of
its size, but not the data: what follows the data is the size of the next chunk.
-/

namespace Khttp

open Lib.Chunked

/-- `HTTP_CHUNK_MAXSIZE`. -/
def httpChunkMaxsize : ℕ := 1024 * 16

/-- `"%zx;\r\n"` of a length. -/
def chunkLine (chunkLen : ℕ) : Bytes := hexText chunkLen ++ ascii ";\r\n"

/-- `overhead`: the longest such line, with three more for CR, LF and the terminator. -/
def chunkOverhead : ℕ := strlen (chunkLine httpChunkMaxsize) + 3

/-- `chunk_len`, where so much of the source is left. -/
def chunkLen (sourcerem : ℕ) : ℕ :=
  if sourcerem > httpChunkMaxsize - chunkOverhead then httpChunkMaxsize - chunkOverhead
  else sourcerem

/-- A chunk of what is left is not empty. -/
theorem chunkLen_pos {sourcerem : ℕ} (h : 0 < sourcerem) : 0 < chunkLen sourcerem := by
  have hmax : httpChunkMaxsize - chunkOverhead = 16374 := by decide
  unfold chunkLen
  rw [hmax]
  split <;> omega

/-- A chunk is within what is left. -/
theorem chunkLen_le (sourcerem : ℕ) : chunkLen sourcerem ≤ sourcerem := by
  unfold chunkLen
  split <;> omega

/-- The loop of `http_chunks_write`, with what is left of the source. -/
def httpChunksLoop (source output : Bytes) : Bytes :=
  if source = [] then output
  else
    httpChunksLoop (source.drop (chunkLen source.length))
      (output ++ chunkLine (chunkLen source.length) ++ source.take (chunkLen source.length))
termination_by source.length
decreasing_by
  rename_i hsource
  have hpos := List.length_pos_of_ne_nil hsource
  have hchunk := chunkLen_pos hpos
  rw [List.length_drop]
  omega

/-- `http_chunks_write`. -/
def httpChunksWrite (source output : Bytes) : Bytes := httpChunksLoop (cstr source) output

/-- `http_chunks_terminate`. -/
def httpChunksTerminate (footers : Option (List HttpHeader)) (output : Bytes) : Bytes :=
  output ++ ascii "0\r\n" ++ (footers.getD []).flatMap headerLine ++ ascii "\r\n"

/-- The bytes of `http_chunks_write` on each source in turn and of `http_chunks_terminate`. -/
def chunkedBody (sources : List Bytes) (footers : List (Bytes × Bytes)) : Bytes :=
  httpChunksTerminate (some (footers.map fun footer => ⟨footer.1, some footer.2⟩))
    (sources.foldl (fun output source => httpChunksWrite source output) [])

/-- The bytes are a chunked body that stands for the sources and the footers. -/
def RoundTrip (sources : List Bytes) (footers : List (Bytes × Bytes)) : Prop :=
  Body (chunkedBody sources footers) sources.flatten footers

/-- Nothing is written of an empty source. -/
@[simp] theorem httpChunksLoop_nil (output : Bytes) : httpChunksLoop [] output = output := by
  simp [httpChunksLoop]

/-- The loop only appends to its output. -/
theorem httpChunksLoop_append (source output : Bytes) :
    httpChunksLoop source output = output ++ httpChunksLoop source [] := by
  induction hlength : source.length using Nat.strong_induction_on generalizing source output with
  | _ n ih =>
    rw [httpChunksLoop]
    split
    · next hsource =>
      simp [hsource]
    · next hsource =>
      have hsourcePos := List.length_pos_of_ne_nil hsource
      have hpos := chunkLen_pos hsourcePos
      have hless : (source.drop (chunkLen source.length)).length < n := by
        rw [List.length_drop]
        omega
      rw [ih _ hless _ _ rfl]
      conv_rhs => rw [httpChunksLoop, if_neg hsource, ih _ hless _ _ rfl]
      simp

/-- A source that is not empty begins with a chunk of it. -/
theorem httpChunksLoop_eq {source : Bytes} (hsource : source ≠ []) :
    ∃ k, 0 < k ∧ k ≤ source.length ∧ httpChunksLoop source [] =
      hexText k ++ 59 :: (crlf ++ (source.take k ++ httpChunksLoop (source.drop k) [])) := by
  refine ⟨chunkLen source.length, chunkLen_pos (List.length_pos_of_ne_nil hsource),
    chunkLen_le _, ?_⟩
  have hascii : ascii ";\r\n" = 59 :: crlf := by decide
  rw [httpChunksLoop, if_neg hsource, httpChunksLoop_append, chunkLine, hascii]
  simp

/-- The sources are written one after the other. -/
theorem foldl_httpChunksWrite (sources : List Bytes) (output : Bytes) :
    sources.foldl (fun output source => httpChunksWrite source output) output =
      output ++ sources.flatMap fun source => httpChunksLoop (cstr source) [] := by
  induction sources generalizing output with
  | nil => simp
  | cons source rest ih =>
    rw [List.foldl_cons, ih, httpChunksWrite, httpChunksLoop_append]
    simp

/-- The bytes begin with a hexadecimal digit. -/
def StartsWithDigit (bs : Bytes) : Prop := ∃ c rest, bs = c :: rest ∧ isHex c = true

/-- A source is written in front of a digit as nothing or as something that begins with one. -/
theorem StartsWithDigit.httpChunksLoop {bs : Bytes} (h : StartsWithDigit bs) (source : Bytes) :
    StartsWithDigit (httpChunksLoop source [] ++ bs) := by
  by_cases hsource : source = []
  · subst hsource
    simpa using h
  · obtain ⟨k, -, -, heq⟩ := httpChunksLoop_eq hsource
    obtain ⟨c, digits, hdigits⟩ := List.exists_cons_of_ne_nil (hexText_ne_nil k)
    refine ⟨c, _, by rw [heq, hdigits]; rfl, isHex_hexText k c (by simp [hdigits])⟩

/-- Sources are written in front of a digit as something that begins with one. -/
theorem StartsWithDigit.flatMap {bs : Bytes} (h : StartsWithDigit bs) (sources : List Bytes) :
    StartsWithDigit (sources.flatMap
      (fun source => Khttp.httpChunksLoop (cstr source) []) ++ bs) := by
  induction sources with
  | nil => simpa using h
  | cons source rest ih =>
    rw [List.flatMap_cons, List.append_assoc]
    exact ih.httpChunksLoop _

/-- What is written for a source that is not empty, in front of a digit, is no chunked body:
the line end is missing that belongs behind the data of its first chunk. -/
theorem not_body_of_ne_nil {source bs data : Bytes} {footers : List (Bytes × Bytes)}
    (hsource : source ≠ []) (hbs : StartsWithDigit bs) :
    ¬Body (httpChunksLoop source [] ++ bs) data footers := by
  intro hbody
  obtain ⟨k, hpos, hle, heq⟩ := httpChunksLoop_eq hsource
  simp only [heq, List.append_assoc, List.cons_append] at hbody
  obtain ⟨chunk, tail, hrest, hlength⟩ := Body.of_bare hpos hbody
  have htake : (source.take k).length = chunk.length := by
    rw [List.length_take, hlength]
    omega
  obtain ⟨-, hafter⟩ := List.append_inj hrest htake
  obtain ⟨c, after, hdigit, hc⟩ := hbs.httpChunksLoop (source.drop k)
  rw [hdigit] at hafter
  obtain ⟨rfl, -⟩ : c = 13 ∧ after = 10 :: tail := by simpa [crlf] using hafter
  exact absurd hc (by decide)

/-- Sources that are not all empty make no chunked body. -/
theorem not_body_of_exists_ne_nil {sources : List Bytes} {bs data : Bytes}
    {footers : List (Bytes × Bytes)} (hnul : ∀ source ∈ sources, 0 ∉ source)
    (hsources : ∃ source ∈ sources, source ≠ []) (hbs : StartsWithDigit bs) :
    ¬Body (sources.flatMap (fun source => httpChunksLoop (cstr source) []) ++ bs) data footers := by
  induction sources with
  | nil => simp at hsources
  | cons source rest ih =>
    rw [List.flatMap_cons, List.append_assoc, cstr_of_zero_notMem (hnul source (by simp))]
    by_cases hsource : source = []
    · subst hsource
      have hrest : ∃ source ∈ rest, source ≠ [] := by simpa using hsources
      simpa using ih (fun source h => hnul source (by simp [h])) hrest
    · exact not_body_of_ne_nil hsource (hbs.flatMap rest)

/-- What `http_chunks_terminate` writes of footers is a trailer. -/
theorem trailer_footers {footers : List (Bytes × Bytes)}
    (hfooters : ∀ footer ∈ footers, (0 ∉ footer.1 ∧ InLine footer.1) ∧ 0 ∉ footer.2 ∧
      InLine footer.2) :
    Trailer ((footers.map fun footer => (⟨footer.1, some footer.2⟩ : HttpHeader)).flatMap
      headerLine)
      footers := by
  induction footers with
  | nil => exact .nil
  | cons footer rest ih =>
    obtain ⟨⟨hname, hnameLine⟩, hcontent, hcontentLine⟩ := hfooters footer (by simp)
    have hblanks : ∀ c ∈ ([32] : Bytes), c = 32 ∨ c = 9 := by simp
    have htrailer := Trailer.cons hnameLine hblanks hcontentLine
      (ih fun footer h => hfooters footer (by simp [h]))
    have hcolon : ascii ": " = [58, 32] := by decide
    have hend : ascii "\r\n" = crlf := by decide
    simpa [headerLine, hcolon, hend, cstr_of_zero_notMem hname, cstr_of_zero_notMem hcontent]
      using htrailer

/-- The bytes written are those of the sources and those of the last chunk. -/
theorem chunkedBody_eq (sources : List Bytes) (footers : List (Bytes × Bytes)) :
    chunkedBody sources footers =
      sources.flatMap (fun source => httpChunksLoop (cstr source) []) ++ 48 :: (crlf ++
        ((footers.map fun footer => (⟨footer.1, some footer.2⟩ : HttpHeader)).flatMap headerLine ++
          crlf)) := by
  have hzero : ascii "0\r\n" = 48 :: crlf := by decide
  have hend : ascii "\r\n" = crlf := by decide
  rw [chunkedBody, httpChunksTerminate, foldl_httpChunksWrite, hzero, hend]
  simp

/-- The chunked coding of sources and footers can be read back if and only if all sources are
empty: no chunk is ended by a line end. -/
theorem roundTrip_iff_sources_empty {sources : List Bytes} {footers : List (Bytes × Bytes)}
    (hsources : ∀ source ∈ sources, 0 ∉ source)
    (hfooters : ∀ footer ∈ footers, (0 ∉ footer.1 ∧ InLine footer.1) ∧ 0 ∉ footer.2 ∧
      InLine footer.2) :
    RoundTrip sources footers ↔ ∀ source ∈ sources, source = [] := by
  rw [RoundTrip, chunkedBody_eq]
  constructor
  · intro hbody
    by_contra hne
    refine not_body_of_exists_ne_nil hsources (by simpa using hne) ?_ hbody
    exact ⟨48, _, rfl, by decide⟩
  · intro hempty
    have hflat : sources.flatten = [] := by simpa using hempty
    have hnone : sources.flatMap (fun source => httpChunksLoop (cstr source) []) = [] := by
      rw [List.flatMap_eq_nil_iff]
      intro source hsource
      rw [hempty source hsource]
      simp [cstr]
    rw [hflat, hnone]
    have hzeros : ∀ c ∈ ([48] : Bytes), c = 48 := by simp
    exact .last (by simp) hzeros .nil (trailer_footers hfooters)

/-- Two empty sources and a footer can be read back. -/
theorem roundTrip_iff_sources_empty_footer :
    RoundTrip [[], []] [(ascii "Expires", ascii "0")] :=
  (roundTrip_iff_sources_empty (by simp) (by unfold InLine; decide +kernel)).mpr (by simp)

/-- One letter cannot be read back. -/
theorem not_roundTrip_letter : ¬RoundTrip [ascii "a"] [] := by
  rw [RoundTrip, chunkedBody_eq]
  exact not_body_of_exists_ne_nil (by decide) ⟨ascii "a", by simp, by decide⟩
    ⟨48, _, rfl, by decide⟩

end Khttp
