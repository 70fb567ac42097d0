import Multipath.Settings.Value

/-!
Keys, strings and integers as TOML writes them.
-/

namespace Multipath.Settings.Toml

/-- Reads from a text, or refuses. -/
abbrev Reader := StateT (List Char) Option

namespace Reader

def peek : Reader (Option Char) := return (← get).head?

def next : Reader Char := do
  match ← get with
  | [] => failure
  | c :: cs => set cs; return c

/-- Reads these characters if they come next. -/
def accept (expected : String) : Reader Bool := do
  let cs ← get
  if expected.toList.isPrefixOf cs then
    set (cs.drop expected.length)
    return true
  return false

def expect (expected : String) : Reader Unit := do
  guard (← accept expected)

def takeWhile (p : Char → Bool) : Reader (List Char) := do
  let cs ← get
  set (cs.dropWhile p)
  return cs.takeWhile p

def blanks : Reader Unit := do
  let _ ← takeWhile fun c => c = ' ' || c = '\t'

/-- Whether a character may stand in comments and on one line of a string. -/
def isPrintable (c : Char) : Bool := c = '\t' || (0x20 ≤ c.toNat && c.toNat ≠ 0x7f)

/-- The text from the next character on that is neither a blank nor part of a line break. -/
def dropBlankLines : List Char → List Char
  | '\r' :: '\n' :: cs => dropBlankLines cs
  | c :: cs => if c = ' ' || c = '\t' || c = '\n' then dropBlankLines cs else c :: cs
  | [] => []

/-- Reads a line break, if one comes next. -/
def lineBreak : Reader Bool := do
  if ← accept "\n" then return true
  accept "\r\n"

def comment : Reader Unit := do
  if ← accept "#" then
    let _ ← takeWhile isPrintable

def hexValue? (c : Char) : Option Nat :=
  if c.isDigit then some (c.toNat - '0'.toNat)
  else if 'a' ≤ c && c ≤ 'f' then some (c.toNat - 'a'.toNat + 10)
  else if 'A' ≤ c && c ≤ 'F' then some (c.toNat - 'A'.toNat + 10)
  else none

/-- The number that digits of a base write; single underscores may stand between digits. -/
def digits? (base : Nat) (cs : List Char) : Option Nat :=
  let groups := cs.splitOnP (· = '_')
  if groups.any List.isEmpty then none
  else groups.flatten.foldlM (fun n c => do
    let d ← (hexValue? c).filter (· < base)
    return n * base + d) 0

/-- The character with the code that so many hexadecimal digits write. -/
def codePoint (count : Nat) : Reader Char := do
  let cs ← get
  let digits := cs.take count
  guard (digits.length = count && !digits.contains '_')
  set (cs.drop count)
  let n ← liftM (digits? 16 digits)
  guard n.isValidChar
  return Char.ofNat n

/-- What follows the backslash of an escape. -/
def escape : Reader Char := do
  match ← next with
  | 'b' => return '\x08'
  | 't' => return '\t'
  | 'n' => return '\n'
  | 'f' => return '\x0c'
  | 'r' => return '\r'
  | '"' => return '"'
  | '\\' => return '\\'
  | 'u' => codePoint 4
  | 'U' => codePoint 8
  | _ => failure

/-- The rest of a string on one line; backslashes count between double quotes only. -/
private def line (quote : Char) : Nat → Reader (List Char)
  | 0 => failure
  | fuel + 1 => do
    let c ← next
    if c = quote then return []
    if c = '\\' && quote = '"' then return (← escape) :: (← line quote fuel)
    guard (isPrintable c)
    return c :: (← line quote fuel)

/-- The rest of a string on several lines. Up to two quotes may stand before the closing three,
and a backslash at the end of a line joins it to the next text. -/
private def blockText (quote : Char) : Nat → Reader (List Char)
  | 0 => failure
  | fuel + 1 => do
    let closing := String.ofList [quote, quote, quote]
    if ← accept closing then
      let more := (← get).takeWhile (· = quote)
      guard (more.length ≤ 2)
      modify (·.drop more.length)
      return more
    if ← lineBreak then return '\n' :: (← blockText quote fuel)
    let c ← next
    if c = '\\' && quote = '"' then
      let rest ← get
      blanks
      if ← lineBreak then
        modify dropBlankLines
        return ← blockText quote fuel
      set rest
      return (← escape) :: (← blockText quote fuel)
    guard (isPrintable c)
    return c :: (← blockText quote fuel)

/-- A string in quotes of one kind. -/
def quoted (quote : Char) : Reader String := do
  let fuel := (← get).length
  if ← accept (String.ofList [quote, quote, quote]) then
    let _ ← lineBreak
    return String.ofList (← blockText quote fuel)
  let _ ← next
  return String.ofList (← line quote fuel)

/-- How many parts a key may have, and how many arrays and inline tables may stand one inside
another. -/
def nestingLimit : Nat := 79

def isBareKeyChar (c : Char) : Bool := c.isAlphanum || c = '_' || c = '-'

def key : Reader String := do
  match ← peek with
  | some '"' =>
    let _ ← next
    return String.ofList (← line '"' (← get).length)
  | some '\'' =>
    let _ ← next
    return String.ofList (← line '\'' (← get).length)
  | _ =>
    let cs ← takeWhile isBareKeyChar
    guard !cs.isEmpty
    return String.ofList cs

private def keysWithin : Nat → Reader (List String)
  | 0 => failure
  | fuel + 1 => do
    blanks
    let first ← key
    blanks
    if ← accept "." then return first :: (← keysWithin fuel)
    return [first]

/-- A key of one or more parts with dots between them. -/
def keys : Reader (List String) := do
  let keys ← keysWithin ((← get).length + 1)
  guard (keys.length ≤ nestingLimit)
  return keys

/-- Integers have 64 bits. -/
private def inRange (n : Int) : Option Int :=
  if -9223372036854775808 ≤ n && n ≤ 9223372036854775807 then some n else none

/-- A decimal integer with or without a sign, or a bare one in base 16, 8 or 2. -/
def integer? : List Char → Option Int
  | '0' :: 'x' :: cs => digits? 16 cs >>= fun n => inRange n
  | '0' :: 'o' :: cs => digits? 8 cs >>= fun n => inRange n
  | '0' :: 'b' :: cs => digits? 2 cs >>= fun n => inRange n
  | '+' :: cs => decimal? cs >>= fun n => inRange n
  | '-' :: cs => decimal? cs >>= fun n => inRange (-n)
  | cs => decimal? cs >>= fun n => inRange n
where
  decimal? (cs : List Char) : Option Nat :=
    if cs.head? = some '0' && 1 < cs.length then none else digits? 10 cs

def integer : Reader Int := do
  let cs ← takeWhile fun c => c.isAlphanum || c = '_' || c = '+' || c = '-'
  liftM (integer? cs)

end Reader
end Multipath.Settings.Toml
