import GameData.Bytes.Word

/-!
Quoted forms of texts and byte strings, as they appear in reports: quotes around, a backslash before the quote
and itself, and escapes for what cannot be printed. Single quotes are used unless the text holds single quotes
and no double ones.
-/
namespace GameData.Literal

def hexDigit (n : Nat) : Char := "0123456789abcdef".toList.getD n '0'

/-- The `w` last hexadecimal digits of a number. -/
def hex : Nat → Nat → List Char
  | 0, _ => []
  | w + 1, n => hex w (n / 16) ++ [hexDigit (n % 16)]

/-- Characters without a glyph of their own: controls, formats, separators other than the blank, private use. -/
def isPrintable (c : Char) : Bool :=
  let n := c.toNat
  !(n < 0x20 || (0x7f ≤ n && n ≤ 0xa0) || n == 0xad || n == 0x61c || n == 0x6dd || n == 0x70f || n == 0x1680
    || n == 0x180e || (0x2000 ≤ n && n ≤ 0x200f) || (0x2028 ≤ n && n ≤ 0x202f) || (0x205f ≤ n && n ≤ 0x206f)
    || n == 0x3000 || (0xd800 ≤ n && n ≤ 0xf8ff) || n == 0xfeff || (0xfff0 ≤ n && n ≤ 0xfffb)
    || n == 0xfffe || n == 0xffff || 0xe0000 ≤ n)

def apostrophe : Char := Char.ofNat 39

/-- The quote a text is put in. -/
def quoteFor (hasSingle hasDouble : Bool) : Char := if hasSingle && !hasDouble then '"' else apostrophe

def escapeChar (quote c : Char) : List Char :=
  let n := c.toNat
  if c == quote || c == '\\' then ['\\', c]
  else if c == '\n' then ['\\', 'n']
  else if c == '\r' then ['\\', 'r']
  else if c == '\t' then ['\\', 't']
  else if isPrintable c then [c]
  else if n < 0x100 then '\\' :: 'x' :: hex 2 n
  else if n < 0x10000 then '\\' :: 'u' :: hex 4 n
  else '\\' :: 'U' :: hex 8 n

/-- The quoted form of a text. -/
def ofText (s : String) : String :=
  let cs := s.toList
  let quote := quoteFor (cs.contains apostrophe) (cs.contains '"')
  String.ofList (quote :: cs.flatMap (escapeChar quote) ++ [quote])

def escapeByte (quote : Char) (b : UInt8) : List Char :=
  let n := b.toNat
  let c := Char.ofNat n
  if c == quote || c == '\\' then ['\\', c]
  else if c == '\n' then ['\\', 'n']
  else if c == '\r' then ['\\', 'r']
  else if c == '\t' then ['\\', 't']
  else if 0x20 ≤ n && n < 0x7f then [c]
  else '\\' :: 'x' :: hex 2 n

/-- The quoted form of a byte string, marked with a `b`. -/
def ofBytes (b : Bytes) : String :=
  let quote := quoteFor (b.contains 39) (b.contains 34)
  String.ofList ('b' :: quote :: b.flatMap (escapeByte quote) ++ [quote])

end GameData.Literal
