import LambdaCalculus.Fault
import LambdaCalculus.Text.Digit

/-!
# Tokens

The text of a program is a sequence of tokens with layout between them: spaces, tabs, carriage
returns, newlines, and comments from `#` to the end of the line.

* A name is an ASCII letter or `_`, followed by ASCII letters, digits, `_` and `'`; `let` is a word
  of the language.
* A number is a run of decimal digits of any script.
* A character stands between two `'`.  A newline, a `'` and a backslash cannot stand for themselves;
  `\n`, `\t`, `\r`, `\0`, `\\` and `\'` are escapes.
* The signs are `\` or `λ`, `.`, `=`, `;`, `(` and `)`.

`scan` says what a text begins with, and `lex` cuts a whole text into tokens.  It stops at the first
place where no token begins; the tokens before that place are still good, and what comes of the
fault is for the reader of the tokens to say.
-/

namespace LambdaCalculus

/-- What a token says. -/
inductive Lexeme where
  | name (x : String)
  | number (n : Nat)
  | character (c : Char)
  | letWord
  | lambda
  | dot
  | equals
  | semicolon
  | lparen
  | rparen
  deriving DecidableEq, Repr

/-- A token and the place where it stands. -/
structure Token where
  lexeme : Lexeme
  span : Span
  deriving DecidableEq, Repr

/-- The tokens of a text, up to the first place where none begins. -/
structure Lexing where
  tokens : List Token
  /-- Why there are no more, unless the text is at its end. -/
  fault? : Option Fault
  deriving DecidableEq, Repr

namespace Lexeme

/-! ## Classes of characters -/

/-- Is `c` a character of layout? -/
def isBlank (c : Char) : Bool :=
  c = ' ' || c = '\t' || c = '\r' || c = '\n'

/-- May a name begin with `c`? -/
def beginsName (c : Char) : Bool :=
  ('a' ≤ c && c ≤ 'z') || ('A' ≤ c && c ≤ 'Z') || c = '_'

/-- May a name go on with `c`? -/
def continuesName (c : Char) : Bool :=
  beginsName c || ('0' ≤ c && c ≤ '9') || c = '\''

/-- The character that `c` stands for after a backslash. -/
def unescaped? : Char → Option Char
  | 'n' => some '\n'
  | 't' => some '\t'
  | 'r' => some '\r'
  | '0' => some '\x00'
  | '\\' => some '\\'
  | '\'' => some '\''
  | _ => none

/-- The sign that `c` is. -/
def sign? : Char → Option Lexeme
  | '\\' => some .lambda
  | 'λ' => some .lambda
  | '.' => some .dot
  | '=' => some .equals
  | ';' => some .semicolon
  | '(' => some .lparen
  | ')' => some .rparen
  | _ => none

/-- The lexeme of a word. -/
def ofWord (w : List Char) : Lexeme :=
  if w = ['l', 'e', 't'] then .letWord else .name (String.ofList w)

end Lexeme

/-! ## One token -/

/-- What a text begins with, and how many characters of it. -/
inductive Scan where
  | layout (width : Nat)
  | token (what : Lexeme) (width : Nat)
  /-- Nothing that belongs in a program. -/
  | mistake (what : Mistake) (width : Nat)
  | longNumeral (digits : Nat)
  deriving DecidableEq, Repr

open Lexeme in
/-- The literal that the text after a `'` begins. -/
def scanQuoted : List Char → Scan
  | '\\' :: c :: '\'' :: _ =>
    if c = '\n' then .mistake (.unexpectedCharacter '\'') 1
    else match unescaped? c with
      | some u => .token (.character u) 4
      | none => .mistake (.unknownEscape c) 4
  | c :: '\'' :: _ =>
    if c = '\\' || c = '\'' || c = '\n' then .mistake (.unexpectedCharacter '\'') 1
    else .token (.character c) 3
  | _ => .mistake (.unexpectedCharacter '\'') 1

/-- The number written by a run of digits. -/
def scanNumber (digits : List Char) : Scan :=
  if maxDigits < digits.length then .longNumeral digits.length
  else .token (.number (Text.ofDigits digits)) digits.length

open Lexeme in
/-- What the text of a character and what follows it begins with. -/
def scan (c : Char) (rest : List Char) : Scan :=
  if isBlank c then .layout 1
  else if c = '#' then .layout (1 + (rest.takeWhile (· ≠ '\n')).length)
  else if c = '\'' then scanQuoted rest
  else if Text.isDigit c then scanNumber (c :: rest.takeWhile Text.isDigit)
  else if beginsName c then
    let word := c :: rest.takeWhile continuesName
    .token (ofWord word) word.length
  else match sign? c with
    | some sign => .token sign 1
    | none => .mistake (.unexpectedCharacter c) 1

/-! ## All tokens -/

/-- The place of `width` characters from `here` on. -/
def spanOf (here width : Nat) : Span :=
  ⟨here, here + width⟩

/-- The tokens of a text that begins at offset `here` of `source`, after passing over so many
characters of it. -/
def lexFrom (source : String) : Nat → Nat → List Char → Lexing
  | _, _, [] => ⟨[], none⟩
  | pass + 1, here, _ :: rest => lexFrom source pass (here + 1) rest
  | 0, here, c :: rest =>
    match scan c rest with
    | .layout width => lexFrom source (width - 1) (here + 1) rest
    | .token what width =>
      let later := lexFrom source (width - 1) (here + 1) rest
      ⟨⟨what, spanOf here width⟩ :: later.tokens, later.fault?⟩
    | .mistake what width => ⟨[], some (.mistake what (spanOf here width) source)⟩
    | .longNumeral digits => ⟨[], some (.longNumeral digits)⟩

/-- The tokens of a text. -/
def lex (source : String) : Lexing :=
  lexFrom source 0 0 source.toList

end LambdaCalculus
