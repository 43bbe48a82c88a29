import Khttp.Bytes

/-!
# The URL parser

`http_parser.c`: the state machine that splits a request target into its fields.
Offsets and lengths of the fields are stored in 16 bits.
-/

namespace Khttp

/-- The states of `enum state` that belong to a URL. -/
inductive UrlState where
  | dead
  | spacesBeforeUrl
  | schema
  | schemaSlash
  | schemaSlashSlash
  | serverStart
  | server
  | serverWithAt
  | path
  | queryStringStart
  | queryString
  | fragmentStart
  | fragment
  deriving DecidableEq, Repr

/-- `http_host_state`. -/
inductive HttpHostState where
  | dead
  | userinfoStart
  | userinfo
  | hostStart
  | hostV6Start
  | host
  | hostV6
  | hostV6End
  | hostPortStart
  | hostPort
  deriving DecidableEq, Repr

/-- `http_parser_url_fields`. -/
inductive UrlField where
  | schema
  | host
  | port
  | path
  | query
  | fragment
  | userinfo
  deriving DecidableEq, Repr

/-- An element of `field_data` and its bit of `field_set`. -/
structure UrlFieldData where
  /-- The bit of the field. -/
  set : Bool
  /-- Where the field starts. -/
  off : UInt16
  /-- How long it is. -/
  len : UInt16
  deriving DecidableEq, Repr

/-- `http_parser_url`. -/
structure HttpParserUrl where
  /-- The fields. -/
  fieldData : UrlField → UrlFieldData
  /-- The converted port. -/
  port : UInt16

/-- `LOWER`. -/
def lower (c : UInt8) : UInt8 := c ||| 0x20

/-- `IS_ALPHA`. -/
def isAlpha (c : UInt8) : Bool := byte 'a' ≤ lower c && lower c ≤ byte 'z'

/-- `IS_NUM`. -/
def isNum (c : UInt8) : Bool := byte '0' ≤ c && c ≤ byte '9'

/-- `IS_ALPHANUM`. -/
def isAlphanum (c : UInt8) : Bool := isAlpha c || isNum c

/-- `IS_HEX`. -/
def isHex (c : UInt8) : Bool := isNum c || (byte 'a' ≤ lower c && lower c ≤ byte 'f')

/-- `IS_MARK`. -/
def isMark (c : UInt8) : Bool := (ascii "-_.!~*'()").contains c

/-- `IS_USERINFO_CHAR`. -/
def isUserinfoChar (c : UInt8) : Bool := isAlphanum c || isMark c || (ascii "%;:&=+$,").contains c

/-- `IS_URL_CHAR`, by the table of the strict mode. -/
def isUrlChar (c : UInt8) : Bool :=
  byte '!' ≤ c && c ≤ byte '~' && c ≠ byte '#' && c ≠ byte '?'

/-- `IS_HOST_CHAR`. -/
def isHostChar (c : UInt8) : Bool := isAlphanum c || (ascii ".-").contains c

/-- The server part of `parse_url_char`. -/
def parseServerChar (ch : UInt8) : UrlState :=
  if ch = byte '/' then .path
  else if ch = byte '?' then .queryStringStart
  else if ch = byte '@' then .serverWithAt
  else if isUserinfoChar ch || ch = byte '[' || ch = byte ']' then .server
  else .dead

/-- A character of a part of the URL that runs in one state: the characters `?` and `#`
lead to the states given. -/
def parsePartChar (ch : UInt8) (stay question hash : UrlState) : UrlState :=
  if isUrlChar ch then stay
  else if ch = byte '?' then question
  else if ch = byte '#' then hash
  else .dead

/-- `parse_url_char`. -/
def parseUrlChar (s : UrlState) (ch : UInt8) : UrlState :=
  if (ascii " \r\n\t\x0c").contains ch then .dead
  else match s with
    | .spacesBeforeUrl =>
      if ch = byte '/' ∨ ch = byte '*' then .path else if isAlpha ch then .schema else .dead
    | .schema => if isAlpha ch then .schema else if ch = byte ':' then .schemaSlash else .dead
    | .schemaSlash => if ch = byte '/' then .schemaSlashSlash else .dead
    | .schemaSlashSlash => if ch = byte '/' then .serverStart else .dead
    | .serverWithAt => if ch = byte '@' then .dead else parseServerChar ch
    | .serverStart | .server => parseServerChar ch
    | .path => parsePartChar ch .path .queryStringStart .fragmentStart
    | .queryStringStart | .queryString =>
      parsePartChar ch .queryString .queryString .fragmentStart
    | .fragmentStart => parsePartChar ch .fragment .fragment .fragmentStart
    | .fragment => parsePartChar ch .fragment .fragment .fragment
    | .dead => .dead

/-- `http_parse_host_char`. -/
def httpParseHostChar (s : HttpHostState) (ch : UInt8) : HttpHostState :=
  match s with
  | .userinfo | .userinfoStart =>
    if ch = byte '@' then .hostStart else if isUserinfoChar ch then .userinfo else .dead
  | .hostStart =>
    if ch = byte '[' then .hostV6Start else if isHostChar ch then .host else .dead
  | .host =>
    if isHostChar ch then .host else if ch = byte ':' then .hostPortStart else .dead
  | .hostV6End => if ch = byte ':' then .hostPortStart else .dead
  | .hostV6 =>
    if ch = byte ']' then .hostV6End
    else if isHex ch || ch = byte ':' || ch = byte '.' then .hostV6 else .dead
  | .hostV6Start => if isHex ch || ch = byte ':' || ch = byte '.' then .hostV6 else .dead
  | .hostPort | .hostPortStart => if isNum ch then .hostPort else .dead
  | .dead => .dead

namespace HttpParserUrl

/-- The record from `calloc`. -/
def new : HttpParserUrl := ⟨fun _ => ⟨false, 0, 0⟩, 0⟩

/-- Assignment to an element of `field_data` and its bit. -/
def setField (u : HttpParserUrl) (uf : UrlField) (data : UrlFieldData) : HttpParserUrl :=
  { u with fieldData := fun f => if f = uf then data else u.fieldData f }

/-- `u->field_data[uf].len++`. -/
def grow (u : HttpParserUrl) (uf : UrlField) : HttpParserUrl :=
  u.setField uf { u.fieldData uf with len := (u.fieldData uf).len + 1 }

/-- A field starts at a position, with its first character not counted yet. -/
def startField (u : HttpParserUrl) (uf : UrlField) (p : ℕ) : HttpParserUrl :=
  u.setField uf ⟨true, p.toUInt16, 0⟩

end HttpParserUrl

/-- The `switch` in the loop of `http_parse_host`: what the new state does to the fields. -/
def httpParseHostField (u : HttpParserUrl) (s newS : HttpHostState) (p : ℕ) : HttpParserUrl :=
  match newS with
  | .host | .hostV6 =>
    let u := if s ≠ newS then
      u.setField .host { u.fieldData .host with off := p.toUInt16 } else u
    u.grow .host
  | .hostPort => (if s ≠ newS then u.startField .port p else u).grow .port
  | .userinfo => (if s ≠ newS then u.startField .userinfo p else u).grow .userinfo
  | _ => u

/-- The loop of `http_parse_host` over the bytes from position `p`: the state it ends in
and the fields. -/
def httpParseHostLoop (u : HttpParserUrl) (s : HttpHostState) (p : ℕ) :
    Bytes → HttpHostState × HttpParserUrl
  | [] => (s, u)
  | ch :: rest =>
    match httpParseHostChar s ch with
    | .dead => (.dead, u)
    | newS => httpParseHostLoop (httpParseHostField u s newS p) newS (p + 1) rest

/-- `http_parse_host`. -/
def httpParseHost (buf : Bytes) (u : HttpParserUrl) (foundAt : Bool) : ℤ × HttpParserUrl :=
  let host := u.fieldData .host
  let text := (buf.drop host.off.toNat).take host.len.toNat
  let u := u.setField .host { host with len := 0 }
  match httpParseHostLoop u (if foundAt then .userinfoStart else .hostStart)
    host.off.toNat text with
  | (.dead, u) | (.hostStart, u) | (.hostV6Start, u) | (.hostV6, u) | (.hostPortStart, u)
  | (.userinfo, u) | (.userinfoStart, u) => (1, u)
  | (_, u) => (0, u)

/-- The variables of the loop of `http_parser_parse_url`. -/
structure UrlParse where
  /-- The state. -/
  s : UrlState
  /-- The field of the last character that belonged to one, `none` for `UF_MAX`. -/
  oldUf : Option UrlField
  /-- Whether there is an `@` in the server part. -/
  foundAt : Bool
  /-- The fields so far. -/
  u : HttpParserUrl

/-- The field that a state belongs to; the delimiters belong to none. -/
def urlField : UrlState → Option UrlField
  | .schema => some .schema
  | .server | .serverWithAt => some .host
  | .path => some .path
  | .queryString => some .query
  | .fragment => some .fragment
  | _ => none

/-- A character in a state that is not dead. -/
def UrlParse.count (v : UrlParse) (s : UrlState) (p : ℕ) : UrlParse :=
  let v := { v with s, foundAt := v.foundAt || s = .serverWithAt }
  match urlField s with
  | none => v
  | some uf =>
    if v.oldUf = some uf then { v with u := v.u.grow uf }
    else { v with u := (v.u.startField uf p).grow uf, oldUf := some uf }

/-- The loop of `http_parser_parse_url` over the bytes from position `p`. -/
def parseUrlLoop (v : UrlParse) (p : ℕ) : Bytes → UrlParse
  | [] => v
  | ch :: rest =>
    match parseUrlChar v.s ch with
    | .dead => { v with s := .dead }
    | s => parseUrlLoop (v.count s p) (p + 1) rest

/-- `strtoul` of a text that starts with a digit. -/
def strtoul (text : Bytes) : ℕ :=
  min ((text.takeWhile isNum).foldl (fun v c => 10 * v + (c - byte '0').toNat) 0) (2 ^ 64 - 1)

/-- The end of `http_parser_parse_url`, after the host was looked at. -/
def httpParserCheckUrl (buf : Bytes) (isConnect : Bool) (u : HttpParserUrl) : ℤ × HttpParserUrl :=
  let onlyHostPort := [UrlField.host, .port].all fun f => (u.fieldData f).set
  let others := [UrlField.schema, .path, .query, .fragment, .userinfo].any fun f =>
    (u.fieldData f).set
  if isConnect && !(onlyHostPort && !others) then (1, u)
  else if (u.fieldData .port).set then
    let v := strtoul (buf.drop (u.fieldData .port).off.toNat)
    if v > 0xffff then (1, u) else (0, { u with port := v.toUInt16 })
  else (0, u)

/-- `http_parser_parse_url`. -/
def httpParserParseUrl (buf : Bytes) (isConnect : Bool) : ℤ × HttpParserUrl :=
  let v := parseUrlLoop
    ⟨if isConnect then .serverStart else .spacesBeforeUrl, none, false, .new⟩ 0 buf
  if v.s = .dead then (1, v.u)
  else if (v.u.fieldData .schema).set || (v.u.fieldData .host).set then
    let (failed, u) := httpParseHost buf v.u v.foundAt
    if failed ≠ 0 then (1, u) else httpParserCheckUrl buf isConnect u
  else httpParserCheckUrl buf isConnect v.u

/-- The check at the end reports a failure by a positive number. -/
theorem httpParserCheckUrl_nonneg (buf : Bytes) (isConnect : Bool) (u : HttpParserUrl) :
    0 ≤ (httpParserCheckUrl buf isConnect u).1 := by
  unfold httpParserCheckUrl
  dsimp only
  split
  · exact Int.zero_le_ofNat 1
  · split
    · split
      · exact Int.zero_le_ofNat 1
      · exact Int.le_refl 0
    · exact Int.le_refl 0

/-- The URL parser reports a failure by a positive number, so that no caller finds it negative. -/
theorem httpParserParseUrl_nonneg (buf : Bytes) (isConnect : Bool) :
    0 ≤ (httpParserParseUrl buf isConnect).1 := by
  have hhost (u : HttpParserUrl) (foundAt : Bool) : 0 ≤ (httpParseHost buf u foundAt).1 := by
    unfold httpParseHost
    dsimp only
    split <;> omega
  unfold httpParserParseUrl
  dsimp only
  generalize parseUrlLoop _ 0 buf = v
  split
  · exact Int.zero_le_ofNat 1
  · split
    · split
      · exact Int.zero_le_ofNat 1
      · exact httpParserCheckUrl_nonneg _ _ _
    · exact httpParserCheckUrl_nonneg _ _ _

end Khttp
