import Mathlib.Data.List.DropRight
import P2Streaming.BoundedLoops
import P2Streaming.UrlEscaping

/-!
# `uri::from_string`

A url is normalized as a whole and then read from left to right, each part up to one of the
characters that end it. User name and password, and the values of the query, are left out.
-/
namespace P2Streaming
open BigEndianBytes BoundedLoops Http

structure Uri where
  protocol : List Byte := []
  userInfo : List Byte := []
  host : List Byte := []
  ipv6Host : Bool := false
  port : List Byte := []
  path : List Byte := []
  query : List Byte := []
  fragment : List Byte := []
  deriving DecidableEq, Repr

namespace Uri

def isSpace (c : Byte) : Bool := c = 32 || 9 ≤ c.toNat && c.toNat ≤ 13

/-- `boost::trim_if(s, ::isspace)`. -/
def trim (s : List Byte) : List Byte := (s.dropWhile isSpace).rdropWhile isSpace

def toLower (c : Byte) : Byte := if isUpper c then c + 32 else c

/-- `boost::replace_first`. -/
def replaceFirst (pattern substitute : List Byte) : List Byte → List Byte
  | [] => []
  | c :: rest =>
    if pattern.isPrefixOf (c::rest) then substitute ++ (c::rest).drop pattern.length
    else c :: replaceFirst pattern substitute rest

/-- `boost::replace_all` of `//` by `/`. -/
def replaceSlashes : List Byte → List Byte
  | [] => []
  | [c] => [c]
  | c :: d :: rest => if c=47 ∧ d=47 then 47 :: replaceSlashes rest else c :: replaceSlashes (d::rest)

/-- A turn of the loop of `normalize` that replaces slashes until the length stays the same. -/
def slashTurn : List Byte × ℕ → Turn (List Byte × ℕ)
  | (s, len) =>
    if (replaceSlashes s).length = len then .leave (replaceSlashes s, len)
    else .again (replaceSlashes s, (replaceSlashes s).length)

/-- `tokenize` at slashes; empty tokens are kept. -/
def tokenize (src : List Byte) : List (List Byte) := if src=[] then [] else src.splitOn 47

/-- A turn of the loop of `normalize` over the tokens; the back of `remainder` comes first. -/
def resolveToken (remainder : List (List Byte)) (token : List Byte) : List (List Byte) :=
  if token = [46,46] then (if remainder=[] then [token] else remainder.tail)
  else if token = [46] then remainder
  else token :: remainder

def joinTokens (tokens : List (List Byte)) : List Byte := [47].intercalate tokens

/-- The end of `normalize`, from the tokens that are left. -/
def reassemble (headerSlash : ℕ) (appendSlash : Bool) (remainder : List (List Byte)) : List Byte :=
  let s := List.replicate headerSlash 92 ++ replaceFirst [58,92] [58,47] (joinTokens remainder.reverse)
  let s := if (s.drop 1).take 3 = [58,47,47] then replaceFirst [58,47,47] [58,47] s else s
  if appendSlash ∧ s.getLast? ≠ some 47 then s ++ [47] else s

def normalize (input : List Byte) : List Byte :=
  let s := trim input
  let headerSlash := (s.takeWhile (· = 92)).length
  let s := replaceFirst [58,47] [58,92] (s.map fun c => if c=92 then 47 else c)
  let s := (loop slashTurn (input.length+2) (s, input.length)).1
  reassemble headerSlash (1 < s.length && s.getLast? = some 47) ((tokenize s).foldl resolveToken [])

/-- What `strcspn` counts. -/
def untilAny (ends : String) (s : List Byte) : List Byte := s.takeWhile fun c => !(ascii ends).contains c

/-- What is left behind it. -/
def fromAny (ends : String) (s : List Byte) : List Byte := s.dropWhile fun c => !(ascii ends).contains c

def takeProtocol (s : List Byte) : List Byte × List Byte :=
  if (fromAny ":" s).take 3 = [58,47,47] then ((trim (untilAny ":" s)).map toLower,
    (fromAny ":" s).drop 3)
  else ([], s)

/-- A colon may belong to the user info, or stand in front of the port. -/
def takeUserInfo (s : List Byte) : List Byte × List Byte :=
  let rest := fromAny "@:[/?#" s
  if rest.head? = some 64 then (untilAny "@:[/?#" s, rest.tail)
  else if rest.head? = some 58 ∧ (fromAny "@/?#" rest).head? = some 64 then
    (untilAny "@:[/?#" s ++ untilAny "@/?#" rest, (fromAny "@/?#" rest).tail)
  else ([], s)

/-- The host; an error leaves what has been read so far. -/
def parseHost (u : Uri) (s : List Byte) : Except Uri (Uri × List Byte) :=
  if s.head? = some 91 then
    let rest := fromAny "]" s.tail
    if rest.head? ≠ some 93 then .error u
    else if untilAny ":/?#" rest.tail = [] then
      .ok ({ u with host := untilAny "]" s.tail, ipv6Host := true }, rest.tail)
    else .error { u with host := untilAny "]" s.tail, ipv6Host := true }
  else .ok ({ u with host := untilAny ":/?#" s }, fromAny ":/?#" s)

def parsePort (u : Uri) (s : List Byte) : Except Uri (Uri × List Byte) :=
  if s.head? = some 58 then
    if untilAny "/?#" s.tail = [] then .error u
    else if (untilAny "/?#" s.tail).all isDigit then .ok ({ u with port := untilAny "/?#" s.tail },
      fromAny "/?#" s.tail)
    else .error { u with port := untilAny "/?#" s.tail }
  else .ok (u, s)

def parsePath (u : Uri) (s : List Byte) : Except Uri (Uri × List Byte) :=
  if s.head? = some 47 then
    if (unescapePath (untilAny "?#" s)).isSome then .ok ({ u with path := untilAny "?#" s },
      fromAny "?#" s)
    else .error { u with path := untilAny "?#" s }
  else .ok ({ u with path := [47] }, s)

/-- `parse_query` as far as it can fail: the text between the first and the second `=` of a part. -/
def isQuery (q : List Byte) : Bool :=
  (q.splitOn 38).all fun part => (((part.splitOn 61).tail.head?).map fun value =>
    (unescapePath value).isSome).getD true

/-- Behind a query that is not empty `s` has not been moved, so that a fragment is not seen. -/
def parseQuery (u : Uri) (s : List Byte) : Except Uri (Uri × List Byte) :=
  if s.head? = some 63 then
    if isQuery (untilAny "#" s.tail) then .ok ({ u with query := untilAny "#" s.tail },
      s.tail) else .error u
  else .ok (u, s)

/-- What `from_string` reads up to the port. -/
def readAuthority (s : List Byte) : Except Uri (Uri × List Byte) := do
  let (protocol, s) := takeProtocol s
  let (userInfo, s) := takeUserInfo s
  let (u, s) ← parseHost { protocol, userInfo } s
  parsePort u s

/-- `from_string` on a cleared `uri`. -/
def fromString (p : List Byte) : Except Uri Uri := do
  let (u, s) ← readAuthority (normalize p)
  let (u, s) ← parsePath u s
  let (u, s) ← parseQuery u s
  return if s.head? = some 35 then { u with fragment := s.tail } else u

/-- The `uri` that `from_string` leaves, with or without an error. -/
def parsed (p : List Byte) : Uri :=
  match fromString p with
  | .ok u => u
  | .error u => u

example : fromString (ascii " HTTP:\\\\u:p@h:81//a/./b/../c?x=1&y#f ") =
    .ok { protocol := ascii "http", userInfo := ascii "u:p", host := ascii "h", port := ascii "81",
          path := ascii "/a/c", query := ascii "x=1&y" } := by
  decide +kernel

end Uri
end P2Streaming
