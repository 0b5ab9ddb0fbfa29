import Flexbox.Scalar

namespace Flexbox.Fixture

structure Span where
  start : Nat
  stop : Nat
  deriving DecidableEq, Repr

inductive Token
  | node
  | text
  | minus
  | percent
  | braceOpen
  | braceClose
  | bracketOpen
  | bracketClose
  | comma
  | colon
  | ident (name : String)
  | string (content : String)
  | number (value : Float32)

structure Lexeme where
  token : Token
  span : Span

def Token.describe : Token → String
  | node => "keyword 'node'"
  | text => "keyword 'text'"
  | minus => "'-'"
  | percent => "'%'"
  | braceOpen => "'\x7b'"
  | braceClose => "'\x7d'"
  | bracketOpen => "'['"
  | bracketClose => "']'"
  | comma => "','"
  | colon => "':'"
  | ident name => "identifier '" ++ name ++ "'"
  | string content => "string \"" ++ content ++ "\""
  | number value => "number " ++ Scalar.text value

namespace Token

def isNameStart (c : Char) : Bool := c.isAlpha || c == '_'

def isNameRest (c : Char) : Bool := c.isAlphanum || c == '_' || c == '-'

def ofWord (word : List Char) : Token :=
  match String.ofList word with
  | "node" => .node
  | "text" => .text
  | name => .ident name

def digitsValue (digits : List Char) : Nat :=
  digits.foldl (fun n c => 10 * n + (c.toNat - '0'.toNat)) 0

def ofDigits (whole fraction : List Char) : Token :=
  .number (Float32.ofScientific (digitsValue (whole ++ fraction)) true fraction.length)

structure Piece where
  token : Option Token
  more : Nat

def stringPiece : List Char → List Char → Piece
  | seen, [] => ⟨none, seen.length⟩
  | seen, '"' :: _ => ⟨some (.string (String.ofList seen.reverse)), seen.length + 1⟩
  | seen, ['\\'] => ⟨none, seen.length + 1⟩
  | seen, '\\' :: c :: rest =>
    if c == '\n' then ⟨none, seen.length + 1⟩ else stringPiece (c :: '\\' :: seen) rest
  | seen, c :: rest => stringPiece (c :: seen) rest

/-- Length of the rest of a block comment, its closing mark included. A star takes the character
behind it along unless that is the slash that closes. -/
def commentLength : List Char → Nat
  | [] => 0
  | ['*'] => 1
  | '*' :: c :: rest => if c == '/' then 2 else 2 + commentLength rest
  | _ :: rest => 1 + commentLength rest

def piece (c : Char) (rest : List Char) : Piece :=
  match c with
  | '\x7b' => ⟨some .braceOpen, 0⟩
  | '\x7d' => ⟨some .braceClose, 0⟩
  | '[' => ⟨some .bracketOpen, 0⟩
  | ']' => ⟨some .bracketClose, 0⟩
  | ',' => ⟨some .comma, 0⟩
  | ':' => ⟨some .colon, 0⟩
  | '-' => ⟨some .minus, 0⟩
  | '%' => ⟨some .percent, 0⟩
  | '"' => stringPiece [] rest
  | '/' => match rest with
    | '/' :: rest => ⟨none, 1 + (rest.takeWhile (· != '\n')).length⟩
    | '*' :: rest => ⟨none, 1 + commentLength rest⟩
    | _ => ⟨none, 0⟩
  | c =>
    if isNameStart c then
      let word := rest.takeWhile isNameRest
      ⟨some (ofWord (c :: word)), word.length⟩
    else if c.isDigit then
      let whole := rest.takeWhile Char.isDigit
      match rest.drop whole.length with
      | '.' :: tail =>
        let fraction := tail.takeWhile Char.isDigit
        if fraction.isEmpty then ⟨some (ofDigits (c :: whole) []), whole.length⟩
        else ⟨some (ofDigits (c :: whole) fraction), whole.length + 1 + fraction.length⟩
      | _ => ⟨some (ofDigits (c :: whole) []), whole.length⟩
    else ⟨none, 0⟩

end Token

def byteLength : List Char → Nat
  | [] => 0
  | c :: rest => c.utf8Size + byteLength rest

def lexFrom (start : Nat) : List Char → List Lexeme
  | [] => []
  | c :: rest =>
    let piece := Token.piece c rest
    let stop := start + c.utf8Size + byteLength (rest.take piece.more)
    let later := lexFrom stop (rest.drop piece.more)
    match piece.token with
    | some token => ⟨token, ⟨start, stop⟩⟩ :: later
    | none => later
termination_by cs => cs.length
decreasing_by
  rw [List.length_drop, List.length_cons]
  omega

def lex (source : String) : List Lexeme := lexFrom 0 source.toList

end Flexbox.Fixture
