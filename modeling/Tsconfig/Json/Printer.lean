import Tsconfig.Json.Shortest
import Tsconfig.Json.Value

/-! The text of a JSON value: compact, or laid out with two blanks a level. -/
namespace Tsconfig.Json

/-- A character in a string literal: the quote, the backslash and the controls are escaped, by a
letter where there is one. -/
def escapeChar (c : Char) : List Char :=
  match c with
  | '"' => ['\\', '"']
  | '\\' => ['\\', '\\']
  | '\x08' => ['\\', 'b']
  | '\x0c' => ['\\', 'f']
  | '\n' => ['\\', 'n']
  | '\r' => ['\\', 'r']
  | '\t' => ['\\', 't']
  | c =>
    if c.toNat < 0x20 then
      ['\\', 'u', '0', '0', Nat.digitChar (c.toNat / 16), Nat.digitChar (c.toNat % 16)]
    else [c]

def quote (text : List Char) : List Char := '"' :: (text.flatMap escapeChar ++ ['"'])

def Number.toChars : Number → List Char
  | .int (.ofNat n) _ => Nat.toDigits 10 n
  | .int (.negSucc n) _ => '-' :: Nat.toDigits 10 (n + 1)
  | .double x => x.toChars

namespace Value

mutual

/-- Compact text: no blanks, fields in order. -/
def toChars : Value → List Char
  | null => ['n', 'u', 'l', 'l']
  | bool true => ['t', 'r', 'u', 'e']
  | bool false => ['f', 'a', 'l', 's', 'e']
  | num n => n.toChars
  | str s => quote s.toList
  | arr [] => ['[', ']']
  | arr (item :: items) => '[' :: (item.toChars ++ itemsToChars items)
  | obj [] => ['{', '}']
  | obj ((name, value) :: fields) =>
    '{' :: (quote name.toList ++ ':' :: value.toChars ++ fieldsToChars fields)

def itemsToChars : List Value → List Char
  | [] => [']']
  | item :: items => ',' :: (item.toChars ++ itemsToChars items)

def fieldsToChars : List (String × Value) → List Char
  | [] => ['}']
  | (name, value) :: fields =>
    ',' :: (quote name.toList ++ ':' :: value.toChars ++ fieldsToChars fields)

end

def lineBreak (level : Nat) : List Char := '\n' :: List.replicate (2 * level) ' '

mutual

/-- Text with a line for each item and each field, at the given level. -/
def toLines (level : Nat) : Value → List Char
  | arr [] => ['[', ']']
  | arr (item :: items) =>
    '[' :: (lineBreak (level + 1) ++ item.toLines (level + 1) ++ itemsToLines level items)
  | obj [] => ['{', '}']
  | obj ((name, value) :: fields) =>
    '{' :: (lineBreak (level + 1) ++ quote name.toList ++ ':' :: ' ' :: value.toLines (level + 1)
      ++ fieldsToLines level fields)
  | value => value.toChars

def itemsToLines (level : Nat) : List Value → List Char
  | [] => lineBreak level ++ [']']
  | item :: items =>
    ',' :: (lineBreak (level + 1) ++ item.toLines (level + 1) ++ itemsToLines level items)

def fieldsToLines (level : Nat) : List (String × Value) → List Char
  | [] => lineBreak level ++ ['}']
  | (name, value) :: fields =>
    ',' :: (lineBreak (level + 1) ++ quote name.toList ++ ':' :: ' ' :: value.toLines (level + 1)
      ++ fieldsToLines level fields)

end

def compact (value : Value) : String := String.ofList value.toChars

def pretty (value : Value) : String := String.ofList (value.toLines 0)

end Value
end Tsconfig.Json
