import ObjectMemory.Text.Unprintable
set_option autoImplicit false

/-!
# Quoted text

Diagnostics show a text between double quotes.  A quote and a backslash are preceded by a backslash;
the line feed, carriage return, tab and null character have a letter each; any other character that
cannot be shown is written by its number in hexadecimal.
-/

namespace ObjectMemory.Text

/-- The digits of `n` in base sixteen, lower case. -/
def hexDigits (n : Nat) : String := String.ofList (Nat.toDigits 16 n)

/-- One character of a quoted text. -/
def quoteChar (c : Char) : String :=
  if c = '"' then "\\\""
  else if c = '\\' then "\\\\"
  else if c = '\n' then "\\n"
  else if c = '\r' then "\\r"
  else if c = '\t' then "\\t"
  else if c.toNat = 0 then "\\0"
  else if isUnprintable c then "\\u\x7b" ++ hexDigits c.toNat ++ "\x7d"
  else String.singleton c

/-- The text between double quotes, with escapes. -/
def quote (s : String) : String :=
  s.toList.foldl (fun out c => out ++ quoteChar c) "\"" ++ "\""

end ObjectMemory.Text
