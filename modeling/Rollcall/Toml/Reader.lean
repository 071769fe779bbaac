import Rollcall.Toml.Scalar

namespace Rollcall.Toml

/-- Reads something in front of a text, and leaves the rest of it. -/
abbrev Reader (α : Type) := List Char → Option (α × List Char)

def isBlank (c : Char) : Bool := c = ' ' ∨ c = '\t'

def skipBlanks (s : List Char) : List Char := s.dropWhile isBlank

def isPlain (c : Char) : Bool := c = '\t' || (0x20 ≤ c.toNat && c.toNat ≠ 0x7F)

def newline? (s : List Char) : Option (List Char) :=
  match s with
  | '\n' :: r => some r
  | '\r' :: '\n' :: r => some r
  | _ => none

def skipComment? (s : List Char) : Option (List Char) :=
  match s with
  | '#' :: r =>
    let rest := r.dropWhile isPlain
    if rest = [] ∨ (newline? rest).isSome then some rest else none
  | r => some r

def skipLines? (comment : Bool) : List Char → Option (List Char)
  | '\n' :: r => skipLines? false r
  | '\r' :: '\n' :: r => skipLines? false r
  | c :: r =>
    if comment then if isPlain c then skipLines? true r else none
    else if isBlank c then skipLines? false r
    else if c = '#' then skipLines? true r
    else some (c :: r)
  | [] => some []

def skipFree? (s : List Char) : Option (List Char) := skipLines? false s

def codePoint? (ds : List Char) : Option Char := do
  let n ← ds.foldlM (fun n c => (Json.hexValue? c).map (16 * n + ·)) 0
  if n < 0xD800 ∨ (0xE000 ≤ n ∧ n < 0x110000) then some (Char.ofNat n) else none

def escape? : Char → Option Char
  | 'b' => some '\x08'
  | 't' => some '\t'
  | 'n' => some '\n'
  | 'f' => some '\x0c'
  | 'r' => some '\r'
  | 'e' => some '\x1b'
  | '"' => some '"'
  | '\\' => some '\\'
  | _ => none

def readCodePoint (width : Nat) : Reader Char := fun s =>
  if s.length < width then none else (codePoint? (s.take width)).map (·, s.drop width)

def readEscape : Reader Char
  | 'x' :: r => readCodePoint 2 r
  | 'u' :: r => readCodePoint 4 r
  | 'U' :: r => readCodePoint 8 r
  | c :: r => (escape? c).map (·, r)
  | [] => none

def readBasic : Nat → List Char → Reader (List Char)
  | 0, _, _ => none
  | _, _, [] => none
  | fuel + 1, done, c :: r =>
    if c = '"' then some (done.reverse, r)
    else if c = '\\' then (readEscape r).bind fun e => readBasic fuel (e.1 :: done) e.2
    else if isPlain c then readBasic fuel (c :: done) r
    else none

def readLiteral : Reader (List Char) := fun s =>
  let body := s.takeWhile (· ≠ '\'')
  match s.dropWhile (· ≠ '\'') with
  | _ :: r => if body.all isPlain then some (body, r) else none
  | [] => none

/-- Three to five quotes end a long text; those in front of the last three belong to it. -/
def closing? (quote : Char) : Reader (List Char) := fun s =>
  let run := (s.takeWhile (· = quote)).length
  if 3 ≤ run then some (List.replicate (min run 5 - 3) quote, s.drop (min run 5)) else none

/-- Skips blanks and line ends; a comment is text here. -/
def skipGap : List Char → List Char
  | '\n' :: r => skipGap r
  | '\r' :: '\n' :: r => skipGap r
  | c :: r => if isBlank c then skipGap r else c :: r
  | [] => []

/-- The rest of a text in three quotes. A backslash at the end of a line joins it to the next text,
where `escapes` are known. -/
def readLong (quote : Char) (escapes : Bool) : Nat → List Char → Reader (List Char)
  | 0, _, _ => none
  | _, _, [] => none
  | fuel + 1, done, c :: r =>
    match closing? quote (c :: r) with
    | some (quotes, rest) => some (done.reverse ++ quotes, rest)
    | none =>
      if c = '\\' ∧ escapes then
        match newline? (skipBlanks r) with
        | some next => readLong quote escapes fuel done (skipGap next)
        | none => (readEscape r).bind fun e => readLong quote escapes fuel (e.1 :: done) e.2
      else match newline? (c :: r) with
        | some next =>
          let taken := (c :: r).take ((c :: r).length - next.length)
          readLong quote escapes fuel (taken.reverse ++ done) next
        | none => if isPlain c then readLong quote escapes fuel (c :: done) r else none

def readQuoted (long : Bool) : Reader String := fun s =>
  let body := match s with
    | '"' :: '"' :: '"' :: r =>
      if long then readLong '"' true (s.length + 1) [] ((newline? r).getD r)
      else some ([], '"' :: r)
    | '\'' :: '\'' :: '\'' :: r =>
      if long then readLong '\'' false (s.length + 1) [] ((newline? r).getD r)
      else some ([], '\'' :: r)
    | '"' :: r => readBasic (s.length + 1) [] r
    | '\'' :: r => readLiteral r
    | _ => none
  body.map fun b => (String.ofList b.1, b.2)

def isBare (c : Char) : Bool := c.isAlphanum || c = '_' || c = '-'

def readSimpleKey : Reader String := fun s =>
  match s with
  | '"' :: _ => readQuoted false s
  | '\'' :: _ => readQuoted false s
  | _ =>
    let name := s.takeWhile isBare
    if name = [] then none else some (String.ofList name, s.dropWhile isBare)

def readNames : Nat → Reader (List String)
  | 0, _ => none
  | most + 1, s => do
    let (name, s) ← readSimpleKey (skipBlanks s)
    match skipBlanks s with
    | '.' :: s => (readNames most s).map fun k => (name :: k.1, k.2)
    | s => return ([name], s)

/-- The most arrays and inline tables around a value, and the most names in a key. -/
def maxDepth : Nat := 80

def readKey : Reader (List String) := readNames maxDepth

def isScalarChar (c : Char) : Bool := isBare c || c = '+' || c = '.' || c = ':'

/-- A value without quotes or brackets. A blank may stand between a date and a time. -/
def readScalar : Reader Toml := fun s =>
  let word := s.takeWhile isScalarChar
  let rest := s.dropWhile isScalarChar
  match takeDate? word, rest with
  | some [], ' ' :: d :: r =>
    if d.isDigit then
      let time := (d :: r).takeWhile isScalarChar
      (scalar? (word ++ ' ' :: time)).map (·, (d :: r).dropWhile isScalarChar)
    else (scalar? word).map (·, rest)
  | _, _ => (scalar? word).map (·, rest)

def readItems (value : Reader Toml) : Nat → Reader (List Toml)
  | 0, _ => none
  | fuel + 1, s => do
    match ← skipFree? s with
    | ']' :: s => return ([], s)
    | s =>
      let (v, s) ← value s
      match ← skipFree? s with
      | ',' :: s => (readItems value fuel s).map fun vs => (v :: vs.1, vs.2)
      | ']' :: s => return ([v], s)
      | _ => none

def readPair (gap? : List Char → Option (List Char)) (value : Reader Toml) :
    Reader (List String × Toml) := fun s => do
  let (key, s) ← readKey s
  let '=' :: s ← gap? s | none
  let (v, s) ← value (← gap? s)
  return ((key, v), s)

def readEntries (value : Reader Toml) : Nat → Entries → Reader Entries
  | 0, _, _ => none
  | fuel + 1, es, s => do
    match ← skipFree? s with
    | '}' :: s => return (es, s)
    | s =>
      let ((key, v), s) ← readPair skipFree? value s
      let .table _ es ← assign key v .inline es | none
      match ← skipFree? s with
      | ',' :: s => readEntries value fuel es s
      | '}' :: s => return (es, s)
      | _ => none

/-- A value that nests arrays and inline tables at most `depth` deep. -/
def readValue : Nat → Reader Toml
  | 0, s => readFlat s
  | depth + 1, s =>
    match s with
    | '[' :: r => (readItems (readValue depth) (r.length + 1) r).map fun v => (.array v.1, v.2)
    | '{' :: r =>
      (readEntries (readValue depth) (r.length + 1) [] r).map fun v => (.table .inline v.1, v.2)
    | s => readFlat s
where
  readFlat : Reader Toml := fun s =>
    match s with
    | '"' :: _ => (readQuoted true s).map fun t => (.text t.1, t.2)
    | '\'' :: _ => (readQuoted true s).map fun t => (.text t.1, t.2)
    | s => readScalar s

/-- A document so far, and the path of the header that stands above what follows. -/
structure Draft where
  root : Entries
  header : List String

def Draft.readHeader (d : Draft) : Reader Draft
  | '[' :: s => do
    let (key, s) ← readKey s
    let ']' :: ']' :: s := skipBlanks s | none
    let .table _ root ← openItem key d.root | none
    return (⟨root, key⟩, s)
  | s => do
    let (key, s) ← readKey s
    let ']' :: s := skipBlanks s | none
    let .table _ root ← openTable key d.root | none
    return (⟨root, key⟩, s)

def Draft.readAssignment (d : Draft) : Reader Draft := fun s => do
  let ((key, v), s) ← readPair (some ∘ skipBlanks) (readValue maxDepth) s
  let .table _ root ← within .path (assign key v) d.header .header d.root | none
  return (⟨root, d.header⟩, s)

def Draft.readLines : Nat → Draft → List Char → Option Draft
  | 0, _, _ => none
  | fuel + 1, d, s => do
    match ← skipFree? s with
    | [] => return d
    | s =>
      let (d, s) ← match s with
        | '[' :: s => d.readHeader s
        | s => d.readAssignment s
      match ← skipComment? (skipBlanks s) with
      | [] => return d
      | s => d.readLines fuel (← newline? s)

def read? (s : String) : Option Toml :=
  let s := match s.toList with
    | '\uFEFF' :: r => r
    | r => r
  (Draft.readLines (s.length + 1) ⟨[], []⟩ s).map fun d => .table .header d.root

end Rollcall.Toml
