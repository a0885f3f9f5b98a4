import TreeLint.Text.Invisible

namespace TreeLint.Text

/-!
# Quoted text

`quoted` writes a text between double quotes so that it can be read in a message: quotes and
backslashes get a backslash, the common control characters their letter, and any other character
that shows nothing of its own its code point in hexadecimal.
-/

/-- The hexadecimal digits of `n`, in lower case. -/
def hexDigits (n : Nat) : String := String.ofList (Nat.toDigits 16 n)

/-- How a character is written inside quotes. -/
def quotedChar (c : Char) : String :=
  if c = '"' then "\\\""
  else if c = '\\' then "\\\\"
  else if c = '\n' then "\\n"
  else if c = '\r' then "\\r"
  else if c = '\t' then "\\t"
  else if c.toNat = 0 then "\\0"
  else if isInvisible c then "\\u\x7b" ++ hexDigits c.toNat ++ "\x7d"
  else String.singleton c

/-- The text between double quotes. -/
def quoted (s : String) : String := "\"" ++ String.join (s.toList.map quotedChar) ++ "\""

end TreeLint.Text
