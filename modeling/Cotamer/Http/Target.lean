import Cotamer.Http.Framing
import Cotamer.Http.Url

/-! Request targets of HTTP/1.1: the form of a path, of a URI, of an authority, and the asterisk. -/
namespace Cotamer.Http
open Chunked

/-- The bytes before the first `d`, and those after it. -/
def cut (d : UInt8) (s : Bytes) : Option (Bytes × Bytes) :=
  let word := s.takeWhile (· != d)
  if word.length < s.length then some (word, s.drop (word.length + 1)) else none

def isAlpha (c : UInt8) : Bool := (65 ≤ c && c ≤ 90) || (97 ≤ c && c ≤ 122)
def isHexDigit (c : UInt8) : Bool := (hexDigit c).isSome
def isUnreserved (c : UInt8) : Bool := isAlpha c || isDigit c || (ascii "-._~").contains c
def isSubDelim (c : UInt8) : Bool := (ascii "!$&'()*+,;=").contains c

/-- The characters of URIs. -/
def isUriChar (c : UInt8) : Bool :=
  isUnreserved c || isSubDelim c || c == percent || (ascii ":/?#[]@").contains c

/-- Every percent sign comes with two hexadecimal digits. -/
def wellEscaped : Bytes → Bool
  | [] => true
  | c :: rest => (c != percent || (2 ≤ rest.length && (rest.take 2).all isHexDigit)) && wellEscaped rest

/-- Text of characters that stand for themselves, of escaped ones, and of the given delimiters. -/
def spelled (delims : String) (s : Bytes) : Bool :=
  wellEscaped s && s.all fun c => isUnreserved c || isSubDelim c || c == percent || (ascii delims).contains c

def withQuery (path : Bytes → Bool) (s : Bytes) : Bool :=
  match cut question s with
  | some (p, query) => path p && spelled ":@/?" query
  | none => path s

def originForm : Bytes → Bool := withQuery fun p => p.head? == some slash && spelled ":@/" p

/-! Hosts. -/

def isIPv4 (s : Bytes) : Bool :=
  let parts := s.splitOn 46
  parts.length == 4 && parts.all fun part => (number part).any fun n => n ≤ 255 && decimal n == part

/-- How many groups of 16 bits there are; an IPv4 address at the end counts as two. -/
def groups (s : Bytes) (v4 : Bool) : Option Nat :=
  let isGroup (part : Bytes) : Bool := part != [] && part.length ≤ 4 && part.all isHexDigit
  let parts := s.splitOn colon
  if s = [] then some 0
  else if parts.all isGroup then some parts.length
  else if v4 && parts.dropLast.all isGroup && isIPv4 (parts.getLastD []) then some (parts.length + 1)
  else none

/-- The bytes before the first `::`, and those after it. -/
def cutColons : Bytes → Option (Bytes × Bytes)
  | [] => none
  | c :: rest =>
    if c = colon ∧ rest.head? = some colon then some ([], rest.drop 1)
    else (cutColons rest).map fun (front, back) => (c :: front, back)

def isIPv6 (s : Bytes) : Bool :=
  match cutColons s with
  | none => groups s true == some 8
  | some (front, back) => (groups front false).any fun m => (groups back true).any fun n => m + n ≤ 7

def isIPvFuture (s : Bytes) : Bool :=
  (s.head?.any fun c => lower c == 118) && (cut 46 (s.drop 1)).any fun (version, address) =>
    version != [] && version.all isHexDigit && address != [] &&
      address.all fun c => isUnreserved c || isSubDelim c || c == colon

/-- A host, with a port if one must be there. -/
def isHost (port : Bool) (s : Bytes) : Bool :=
  let isPort (s : Bytes) : Bool := (s == [] && !port) || (s.head? == some colon && (s.drop 1).all isDigit)
  if s.head? = some 91 then
    (cut 93 (s.drop 1)).any fun (address, rest) => (isIPv6 address || isIPvFuture address) && isPort rest
  else
    let name := s.takeWhile (· != colon)
    spelled "" name && isPort (s.drop name.length)

def isAuthority (s : Bytes) : Bool :=
  match cut 64 s with
  | some (user, host) => spelled ":" user && isHost false host
  | none => isHost false s

def hierPart (s : Bytes) : Bool :=
  if s.take 2 = [slash, slash] then
    let authority := (s.drop 2).takeWhile (· != slash)
    isAuthority authority && spelled ":@/" (s.drop (2 + authority.length))
  else spelled ":@/" s

def absoluteForm (s : Bytes) : Bool :=
  (cut colon s).any fun (scheme, rest) =>
    scheme.head?.any isAlpha && (scheme.all fun c => isAlpha c || isDigit c || (ascii "+-.").contains c) &&
      withQuery hierPart rest

/-- The target of a request with this method. -/
def requestTarget (method s : Bytes) : Bool :=
  s.all isUriChar &&
    if method = ascii "CONNECT" then isHost true s
    else originForm s || absoluteForm s || (method == ascii "OPTIONS" && s == ascii "*")

example : (["/a?b=%20", "/", "http://u@[::1]:80/a?b", "x:y"].map fun s => requestTarget (ascii "GET") (ascii s)) =
    [true, true, true, true] := by decide

example : (["abc", "", "/a b", "/%2", "/a#b", "*", "http://[::1::2]/"].map fun s =>
    requestTarget (ascii "GET") (ascii s)) = [false, false, false, false, false, false, false] := by decide

theorem isUriChar_ne (c : UInt8) (uri : isUriChar c = true) : c ≠ space ∧ c ≠ cr := by
  constructor <;> (rintro rfl; revert uri; decide)

/-- A target has neither blanks nor line ends in it. -/
theorem requestTarget_ne {method s : Bytes} (target : requestTarget method s = true) :
    ∀ c ∈ s, c ≠ space ∧ c ≠ cr := fun c member =>
  isUriChar_ne c (List.all_eq_true.mp (Bool.and_eq_true_iff.mp target).1 c member)

end Cotamer.Http
