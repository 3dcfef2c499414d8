import LambdaCalculus.Fault

/-!
# Text from bytes

Bytes are text when they are UTF-8, with nothing overlong and no surrogates.  A line may end in a
newline, in a carriage return, or in both; in the text it ends in a newline.

* `unifyLines` makes every line end in a newline.
* `decode` is the text of some bytes.
-/

namespace LambdaCalculus.Text

/-- The text with every line ending replaced by a newline. -/
def unifyLines : List Char → List Char
  | [] => []
  | '\r' :: '\n' :: rest => '\n' :: unifyLines rest
  | '\r' :: rest => '\n' :: unifyLines rest
  | c :: rest => c :: unifyLines rest

/-- The text that the bytes hold. -/
def decode (bytes : ByteArray) : Except Fault String :=
  match String.fromUTF8? bytes with
  | some s => pure (String.ofList (unifyLines s.toList))
  | none => throw .undecodable

end LambdaCalculus.Text
