import MemoryKit.Text.Invisible

/-! # Quoted text

A quoted text stands between double quotes. Quotes and backslashes inside it are escaped, and so
is every character that would not be seen on its own.
-/

namespace MemoryKit.Text

def hexDigits (n : Nat) : List Char := Nat.toDigits 16 n

/-- A character as it stands inside a quoted text. -/
def escapeChar (c : Char) : List Char :=
  if c = '\x00' then ['\\', '0']
  else if c = '\t' then ['\\', 't']
  else if c = '\n' then ['\\', 'n']
  else if c = '\r' then ['\\', 'r']
  else if c = '"' then ['\\', '"']
  else if c = '\\' then ['\\', '\\']
  else if isInvisible c then ['\\', 'u', '\x7b'] ++ hexDigits c.toNat ++ ['\x7d']
  else [c]

def quoted (s : String) : String :=
  String.ofList ('"' :: s.toList.flatMap escapeChar ++ ['"'])

end MemoryKit.Text
