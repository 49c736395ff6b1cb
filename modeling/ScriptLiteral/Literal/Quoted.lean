/-
  Script literals — quoted strings and property keys.

  A string literal stands between single quotes.  Inside, a backslash and a
  single quote are preceded by a backslash, and a line break, `CR LF` or `LF`,
  is written as backslash and `n`; every other character stands for itself, a
  lone `CR` included.

  A key of at least two characters, all ASCII letters, digits or underscores,
  the first not a digit, is written bare; any other key is a string literal.
  So a key of one character is always quoted.

  * `escape` is the rule on lists of characters;
  * `quote` writes the literal of a text, and `toList_quote` says that it is
    `escape` between two quotes;
  * `key` writes a key.
-/
namespace ScriptLiteral

namespace Literal

/-! ## Strings -/

/-- The inside of a string literal. -/
def escape : List Char → List Char
  | [] => []
  | '\\' :: cs => '\\' :: '\\' :: escape cs
  | '\'' :: cs => '\\' :: '\'' :: escape cs
  | '\r' :: '\n' :: cs => '\\' :: 'n' :: escape cs
  | '\n' :: cs => '\\' :: 'n' :: escape cs
  | c :: cs => c :: escape cs

/-- Write the inside of a string literal to the end of a text. -/
def escapeOnto (out : String) : List Char → String
  | [] => out
  | '\\' :: cs => escapeOnto (out ++ "\\\\") cs
  | '\'' :: cs => escapeOnto (out ++ "\\'") cs
  | '\r' :: '\n' :: cs => escapeOnto (out ++ "\\n") cs
  | '\n' :: cs => escapeOnto (out ++ "\\n") cs
  | c :: cs => escapeOnto (out.push c) cs

/-- The string literal of a text. -/
def quote (s : String) : String := (escapeOnto "'" s.toList).push '\''

theorem toList_escapeOnto (out : String) (cs : List Char) :
    (escapeOnto out cs).toList = out.toList ++ escape cs := by
  fun_induction escapeOnto out cs with
  | case1 => simp [escape]
  | case2 out cs ih => simp [escape, ih]
  | case3 out cs ih => simp [escape, ih]
  | case4 out cs ih => simp [escape, ih]
  | case5 out cs ih => simp [escape, ih]
  | case6 out c cs h₁ h₂ h₃ h₄ ih => simp [escape, ih]

theorem toList_quote (s : String) : (quote s).toList = '\'' :: (escape s.toList ++ ['\'']) := by
  simp [quote, toList_escapeOnto]

/-! ## Keys -/

/-- The characters that may start a bare key: ASCII letters and the underscore. -/
def isKeyStart (c : Char) : Bool := c.isAlpha || c == '_'

/-- The characters of a bare key: also ASCII digits. -/
def isKeyPart (c : Char) : Bool := c.isAlphanum || c == '_'

/-- Whether a key is written bare. -/
def isBareKey : List Char → Bool
  | c :: d :: cs => isKeyStart c && isKeyPart d && cs.all isKeyPart
  | _ => false

/-- The text of a key. -/
def key (k : String) : String := if isBareKey k.toList then k else quote k

end Literal

end ScriptLiteral
