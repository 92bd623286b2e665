import Tsconfig.Path.Basic

/-!
Glob patterns over whole paths. A question mark stands for one byte of a path and a star for any
number of bytes, neither of them a slash. Two stars that are a segment of their own stand for any
number of segments. All other characters, brackets and braces too, stand for themselves.
-/
namespace Tsconfig

/-- A byte of a text in UTF-8: the first of a character, which tells the character, or one of those
that follow it. -/
inductive Utf8Byte
  | lead (c : Char)
  | continuation
  deriving DecidableEq, Repr

namespace Utf8Byte

def ofChar (c : Char) : List Utf8Byte := lead c :: List.replicate (c.utf8Size - 1) continuation

def ofChars (text : List Char) : List Utf8Byte := text.flatMap ofChar

def slash : Utf8Byte := lead '/'

end Utf8Byte

/-- A part of a glob pattern. -/
inductive GlobToken
  | byte (b : Utf8Byte)
  /-- One byte that is no slash. -/
  | anyByte
  /-- Bytes that are no slashes. -/
  | anyBytes
  /-- Any segments at the start of a path, with the slashes after them. -/
  | anyStart
  /-- A slash, or any segments between two slashes. -/
  | anyBetween
  /-- A slash and whatever follows. -/
  | anyBelow
  deriving DecidableEq, Repr

/-- A pattern as its parts. -/
abbrev Glob := List GlobToken

namespace Glob

/-- The parts so far, last first, after two stars that end a segment: the slash in front of them
goes into the new part. Repeating the stars means nothing new. -/
def closeStars (part : GlobToken) : List GlobToken → List GlobToken
  | .anyStart :: done => .anyStart :: done
  | .anyBelow :: done => .anyBelow :: done
  | _ :: done => part :: done
  | [] => [part]

/-- The parts of a pattern, given the character before it and the parts so far, last first. -/
def tokens (before : Option Char) (done : List GlobToken) : List Char → List GlobToken
  | [] => done.reverse
  | '*' :: '*' :: rest =>
    let apart := tokens (some '*') (.anyBytes :: .anyBytes :: done) rest
    if done = [] then
      match rest with
      | [] => [.anyStart]
      | '/' :: rest => tokens (some '/') [.anyStart] rest
      | _ => apart
    else if before = some '/' then
      match rest with
      | [] => (closeStars .anyBelow done).reverse
      | '/' :: rest => tokens (some '/') (closeStars .anyBetween done) rest
      | _ => apart
    else apart
  | '*' :: rest => tokens (some '*') (.anyBytes :: done) rest
  | '?' :: rest => tokens (some '?') (.anyByte :: done) rest
  | c :: rest => tokens (some c) ((Utf8Byte.ofChar c).reverse.map .byte ++ done) rest

def ofChars (pattern : List Char) : Glob := tokens none [] pattern

def afterSlashes : List Utf8Byte → List (List Utf8Byte)
  | [] => []
  | b :: rest => if b = .slash then rest :: afterSlashes rest else afterSlashes rest

/-- What can follow a number of bytes that are no slashes. -/
def afterBytes : List Utf8Byte → List (List Utf8Byte)
  | [] => [[]]
  | b :: rest => (b :: rest) :: if b = .slash then [] else afterBytes rest

/-- What can follow a number of bytes. -/
def tails : List Utf8Byte → List (List Utf8Byte)
  | [] => [[]]
  | b :: rest => (b :: rest) :: tails rest

/-- Whether the parts, one after the other, stand for the bytes. -/
def acceptsBytes : Glob → List Utf8Byte → Bool
  | [], bytes => bytes.isEmpty
  | .byte b :: parts, c :: rest => b = c && acceptsBytes parts rest
  | .anyByte :: parts, c :: rest => c ≠ .slash && acceptsBytes parts rest
  | .anyBytes :: parts, bytes => (afterBytes bytes).any (acceptsBytes parts)
  | .anyStart :: parts, bytes => (bytes :: afterSlashes bytes).any (acceptsBytes parts)
  | .anyBetween :: parts, c :: rest =>
    c = .slash && (rest :: afterSlashes rest).any (acceptsBytes parts)
  | .anyBelow :: parts, c :: rest => c = .slash && (tails rest).any (acceptsBytes parts)
  | _ :: _, [] => false

/-- Whether a pattern stands for a path. Two stars alone stand for every path. -/
def acceptsChars (glob : Glob) (path : List Char) : Bool :=
  glob = [.anyStart] || acceptsBytes glob (Utf8Byte.ofChars path)

def ofText (pattern : String) : Glob := ofChars pattern.toList

def accepts (glob : Glob) (path : String) : Bool := acceptsChars glob path.toList

end Glob
end Tsconfig
