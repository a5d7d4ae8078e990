import P2Streaming.BigEndianBytes
import P2Streaming.PrefixScanners

/-!
# `http::header::parse`

The first line of a request or a response, and the fields behind it, are read one character at a
time. The header ends with the fourth of a row of line ends, or in front of the character behind
the third. What the fields say is left out; `parse` only looks at the name and the value it is
reading.
-/
namespace P2Streaming.Http
open BigEndianBytes PrefixScanners

def isBlank (c : Byte) : Bool := c = 32 || c = 9

def isLineEnd (c : Byte) : Bool := c = 13 || c = 10

def isUpper (c : Byte) : Bool := 65 ≤ c.toNat && c.toNat ≤ 90

def isDigit (c : Byte) : Bool := 48 ≤ c.toNat && c.toNat ≤ 57

/-- The members of `http::header` while it reads the fields: `m_key`, `m_value`,
`m_iCRorLFcontinueNum`, and whether it is in `PARSER_VALUE`. -/
structure FieldState where
  key : List Byte
  value : List Byte
  lineEnds : ℕ
  inValue : Bool
  deriving DecidableEq, Repr

def FieldState.start : FieldState := ⟨[],[],0,false⟩

def maxNameLength : ℕ := 64

/-- One character of `header::parse`. -/
def fieldStep (s : FieldState) (c : Byte) : Verdict FieldState :=
  if !s.inValue then
    if isBlank c then (if s.key.isEmpty then .more s else .reject)
    else if isLineEnd c then
      if s.lineEnds + 1 = 4 then .accept true
      else .more { s with lineEnds := s.lineEnds+1, key := [] }
    else if c≠58 ∧ s.key.length < maxNameLength then
      if s.lineEnds=3 then .accept false
      else .more { s with lineEnds := 0, key := s.key ++ [c] }
    else if c=58 then
      if s.lineEnds=3 then .reject else .more { s with lineEnds := 0, inValue := true }
    else .reject
  else
    if isBlank c then .more (if s.value.isEmpty then s else { s with value := s.value ++ [c] })
    else if !isLineEnd c ∧ s.key.length < maxNameLength then
      if s.lineEnds=3 then .accept false
      else .more { s with lineEnds := 0, value := s.value ++ [c] }
    else if isLineEnd c then
      let s := { s with lineEnds := s.lineEnds+1, inValue := false }
      .more (if !s.key.isEmpty ∧ !s.value.isEmpty then { s with key := [], value := [] } else s)
    else .reject

/-- A verdict on the fields, seen from a scanner that also reads a first line. -/
def Verdict.lift {σ : Type} (f : FieldState → σ) : Verdict FieldState → Verdict σ
  | .more s => .more (f s)
  | .accept inclusive => .accept inclusive
  | .reject => .reject

/-- Where `request::parse` is. -/
inductive RequestState where
  | method (m : List Byte)
  | uri (u : List Byte)
  | version (v : List Byte)
  | fields (s : FieldState)
  deriving DecidableEq, Repr

/-- One character of `request::parse`. A line end behind the version is read once more as the first
character of the fields. -/
def requestStep : RequestState → Byte → Verdict RequestState
  | .method m, c =>
      if isBlank c then
        if m.isEmpty then .more (.method m) else if 32 < m.length then .reject else .more (.uri [])
      else if !isUpper c then .reject
      else .more (.method (m ++ [c]))
  | .uri u, c =>
      if isBlank c then .more (if u.isEmpty then .uri u else .version [])
      else .more (.uri (u ++ [c]))
  | .version v, c =>
      if isBlank c then .more (if v.isEmpty then .version v else .fields .start)
      else if isLineEnd c then Verdict.lift .fields (fieldStep .start c)
      else if 8 < v.length + 1 then .reject
      else .more (.version (v ++ [c]))
  | .fields s, c => Verdict.lift .fields (fieldStep s c)

/-- Where `response::parse` is. -/
inductive ResponseState where
  | version (v : List Byte)
  | status (value : ℕ)
  | reason (r : List Byte)
  | fields (s : FieldState)
  deriving DecidableEq, Repr

/-- One character of `response::parse`. -/
def responseStep : ResponseState → Byte → Verdict ResponseState
  | .version v, c =>
      if isBlank c then
        if v.isEmpty then .more (.version v) else if v.length≠8 then .reject else .more (.status 0)
      else if isLineEnd c then .reject
      else if 8 < v.length + 1 then .reject
      else .more (.version (v ++ [c]))
  | .status value, c =>
      if isBlank c then .more (if value=0 then .status value else .reason [])
      else if isLineEnd c then Verdict.lift .fields (fieldStep .start c)
      else if !isDigit c then .reject
      else .more (.status (value * 10 + (c.toNat - 48)))
  | .reason r, c =>
      if isBlank c then .more (.reason (if r.isEmpty then r else r ++ [c]))
      else if isLineEnd c then Verdict.lift .fields (fieldStep .start c)
      else if 4096 < r.length + 1 then .reject
      else .more (.reason (r ++ [c]))
  | .fields s, c => Verdict.lift .fields (fieldStep s c)

/-- `parse` on a cleared header: of a request at the passive end of a connection and of a response
at the other. -/
def parse (passive : Bool) (bytes : List Byte) : Option Outcome :=
  if passive then scan requestStep (.method []) 0 bytes else scan responseStep (.version []) 0 bytes

theorem parse_isPrefix {passive : Bool} {p bytes : List Byte} {r : Outcome} (hp : p <+: bytes)
    (h : parse passive bytes = some r) : parse passive p = none ∨ parse passive p = some r := by
  cases passive
  · exact scan_isPrefix hp h
  · exact scan_isPrefix hp h

theorem parse_accepted_le {passive : Bool} {bytes : List Byte} {len : ℕ}
    (h : parse passive bytes = some (.accepted len)) : len≤bytes.length := by
  cases passive
  · simpa using scan_accepted_le h
  · simpa using scan_accepted_le h

def ascii (text : String) : List Byte := text.toList.map fun c => BitVec.ofNat 8 c.toNat

example : parse true (ascii "GET /a HTTP/1.1\r\nHost: b\r\n\r\nbody") = some (.accepted 28) := by
  decide +kernel

example : parse false (ascii "HTTP/1.1 200 OK\n\n\nbody") = some (.accepted 18) := by
  decide +kernel

end P2Streaming.Http
