import LuaBytecode.Text.Escaped
/-!
# Quoted text

`Text.quote s` writes `s` between double quotes the way constant strings appear in a
disassembly: NUL, tab, carriage return and newline as `\0`, `\t`, `\r`, `\n`; the backslash
and the double quote behind a backslash; a character of `Text.escapedRanges` as `\u` followed
by its code point in lower-case hexadecimal between braces; every other character as itself.
-/

namespace LuaBytecode

namespace Text

/-- The lower-case hexadecimal digits of `n`, without leading zeros. -/
def hexDigits (n : Nat) : String := String.ofList (Nat.toDigits 16 n)

/-- How one character is written inside quotes. -/
def quoteChar (c : Char) : String :=
  match c with
  | '\x00' => "\\0"
  | '\t' => "\\t"
  | '\r' => "\\r"
  | '\n' => "\\n"
  | '\\' => "\\\\"
  | '"' => "\\\""
  | c => if isEscaped c then "\\u\x7b" ++ hexDigits c.toNat ++ "\x7d" else c.toString

/-- Writes `s` between double quotes, each character written by `quoteChar`. -/
def quote (s : String) : String :=
  "\"" ++ String.join (s.toList.map quoteChar) ++ "\""

theorem quote_eq (s : String) :
    quote s = "\"" ++ String.join (s.toList.map quoteChar) ++ "\"" := rfl

end Text

end LuaBytecode
