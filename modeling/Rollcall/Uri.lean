import Rollcall.Text.Cut
import Rollcall.Text.Numeral

namespace Rollcall

/-- A uniform resource identifier, cut into its parts; the authority is empty when there is none. A
fragment is not kept. -/
structure Uri where
  scheme : Option String
  authority : List Char
  path : List Char
  query : Option (List Char)
deriving DecidableEq, Repr

namespace Uri

inductive Flaw
  | badChar | badAuthority | badFormat | schemeTooLong | empty | tooLong
deriving DecidableEq, Repr

def Flaw.message : Flaw → String
  | badChar => "invalid uri character"
  | badAuthority => "invalid authority"
  | badFormat => "invalid format"
  | schemeTooLong => "scheme too long"
  | empty => "empty string"
  | tooLong => "uri too long"

def maxBytes : Nat := 65534

def maxScheme : Nat := 64

/-- The colons that may stand between two brackets, or outside of them. -/
def maxColons : Nat := 8

def isSchemeChar (c : Char) : Bool := c.isAlphanum || c ∈ ['+', '-', '.', '~']

def isAuthorityChar (c : Char) : Bool :=
  c.isAlphanum || c ∈ ['!', '$', '&', '\'', '(', ')', '*', '+', ',', '-', '.', ':', ';', '=', '@',
    '[', ']', '_', '~']

def endsAuthority (c : Char) : Bool := c = '/' || c = '?' || c = '#'

/-- What a scan of an authority has seen since its start, or since the last `@` or `]`. -/
structure Seen where
  colons : Nat := 0
  opened : Bool := false
  closed : Bool := false
  percent : Bool := false
  atSign : Bool := false
deriving DecidableEq, Repr

def Seen.step (s : Seen) (c : Char) : Except Flaw Seen :=
  let s' := { s with atSign := false }
  if c = ':' then
    if maxColons ≤ s.colons then .error .badAuthority else .ok { s' with colons := s.colons + 1 }
  else if c = '[' then
    if s.percent || s.opened then .error .badAuthority else .ok { s' with opened := true }
  else if c = ']' then
    if !s.opened || s.closed then .error .badAuthority
    else .ok { s' with closed := true, colons := 0, percent := false }
  else if c = '@' then .ok { s with atSign := true, colons := 0, percent := false }
  else if c = '%' then .ok { s' with percent := true }
  else if isAuthorityChar c then .ok s'
  else .error .badChar

/-- Brackets are paired, at most one colon is left for a port, a name follows the user, and a
percent sign stands in the user or in brackets only. -/
def Seen.accept (s : Seen) : Bool :=
  s.opened == s.closed && s.colons ≤ 1 && !s.atSign && !s.percent

def splitAuthority (s : List Char) : Except Flaw (List Char × List Char) := do
  let authority := s.takeWhile fun c => !endsAuthority c
  let seen ← authority.foldlM Seen.step {}
  if seen.accept then .ok (authority, s.dropWhile fun c => !endsAuthority c)
  else .error .badAuthority

/-- All characters but blanks and controls. -/
def isVisible (c : Char) : Bool := 0x21 ≤ c.toNat && c.toNat ≠ 0x7F

def isPathChar (c : Char) : Bool := isVisible c && c ∉ ['#', '<', '>', '?', '\x60']

def isQueryChar (c : Char) : Bool := isVisible c && c ∉ ['"', '#', '<', '>']

def readQuery (s : List Char) : Except Flaw (List Char) :=
  let q := s.takeWhile (· ≠ '#')
  if q.all isQueryChar then .ok q else .error .badChar

def readPath (s : List Char) : Except Flaw (List Char × Option (List Char)) :=
  let path := s.takeWhile fun c => c ≠ '?' && c ≠ '#'
  if !path.all isPathChar then .error .badChar
  else match s.dropWhile fun c => c ≠ '?' && c ≠ '#' with
    | '?' :: q => (readQuery q).map fun q => (path, some q)
    | _ => .ok (path, none)

/-- The scheme that `://` follows, and the rest. `http` and `https` are known in any case and are
put in lower case. -/
def splitScheme (s : List Char) : Except Flaw (Option (String × List Char)) :=
  let name := s.takeWhile isSchemeChar
  match s.dropWhile isSchemeChar with
  | ':' :: '/' :: '/' :: rest =>
    let known := Text.lower name
    if known = ['h', 't', 't', 'p'] ∨ known = ['h', 't', 't', 'p', 's'] then
      .ok (some (String.ofList known, rest))
    else if s.length ≤ 3 then .ok none
    else if maxScheme < name.length then .error .schemeTooLong
    else .ok (some (String.ofList name, rest))
  | _ => .ok none

def readFull (s : List Char) : Except Flaw Uri := do
  match ← splitScheme s with
  | none =>
    let (authority, rest) ← splitAuthority s
    if rest = [] then .ok ⟨none, authority, [], none⟩ else .error .badFormat
  | some (scheme, s) =>
    if s = [] then .error .empty
    else
      let (authority, rest) ← splitAuthority s
      if authority = [] then .error .badFormat
      else
        let (path, query) ← readPath rest
        return ⟨some scheme, authority, path, query⟩

def readChars (s : List Char) : Except Flaw Uri :=
  match s with
  | [] => .error .empty
  | ['*'] => .ok ⟨none, [], ['*'], none⟩
  | '/' :: _ => (readPath s).map fun p => ⟨none, [], p.1, p.2⟩
  | [c] =>
    if endsAuthority c then .error .badChar
    else (splitAuthority [c]).map fun p => ⟨none, p.1, [], none⟩
  | s => readFull s

def read (s : String) : Except Flaw Uri :=
  if maxBytes < s.utf8ByteSize then .error .tooLong else readChars s.toList

def hostPort (u : Uri) : List Char :=
  (u.authority.reverse.takeWhile (· ≠ '@')).reverse

def host (u : Uri) : List Char :=
  match u.hostPort with
  | '[' :: r => '[' :: r.takeWhile (· ≠ ']') ++ [']']
  | r => r.takeWhile (· ≠ ':')

/-- The number behind the last colon of the authority, below 65536 and maybe with a plus sign. -/
def port? (u : Uri) : Option Nat :=
  if ':' ∈ u.authority then
    Text.natBelow? 65536 (u.authority.reverse.takeWhile (· ≠ ':')).reverse
  else none

/-- The text of a URI; behind a scheme an empty path is written as a slash. -/
def render (u : Uri) : String :=
  let front := match u.scheme with | some s => s.toList ++ [':', '/', '/'] | none => []
  let path := if u.path = [] ∧ u.scheme.isSome then ['/'] else u.path
  let query := match u.query with | some q => '?' :: q | none => []
  String.ofList (front ++ u.authority ++ path ++ query)

end Uri

end Rollcall
