import KeyedRecords.Text.Unprintable

/-! A text between double quotes, as error messages show names: the quote, the backslash and what has no shape of its
own are escaped. -/

namespace KeyedRecords.Text.Quoted

def escape (c : Char) : List Char :=
  match c with
  | '"' => ['\\', '"']
  | '\\' => ['\\', '\\']
  | '\n' => ['\\', 'n']
  | '\r' => ['\\', 'r']
  | '\t' => ['\\', 't']
  | '\x00' => ['\\', '0']
  | c =>
    if isUnprintable c then ['\\', 'u', '\x7b'] ++ Nat.toDigits 16 c.toNat ++ ['\x7d']
    else [c]

def quote (s : String) : String := String.ofList ('"' :: s.toList.flatMap escape ++ ['"'])

def quoteList (texts : List String) : String := "[" ++ ", ".intercalate (texts.map quote) ++ "]"

end KeyedRecords.Text.Quoted
