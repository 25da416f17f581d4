import ProgramFacts.Text.Word
/-!
# Tokens of SIMPLE

A token is a keyword, a name, a numeral, a bracket, a mark or an operator. What a
token can be is in its type; what it was written as is its `text`, and its `kind`
is the class that a parser asks for. `Token.ofText?` is the way back: the token of
a kind that is written so, if there is one.
-/

namespace ProgramFacts

/-! ## Operators and keywords -/

/-- Arithmetic operators. -/
inductive ArithOp
  | add | sub | mul | div | mod
  deriving DecidableEq

/-- Operators on conditions. -/
inductive LogicOp
  | not | and | or
  deriving DecidableEq

/-- Comparisons of two numbers. -/
inductive RelOp
  | gt | ge | lt | le | eq | ne
  deriving DecidableEq

/-- The reserved words. -/
inductive Keyword
  | procedureWord | readWord | printWord | callWord
  | whileWord | ifWord | thenWord | elseWord
  deriving DecidableEq

def ArithOp.all : List ArithOp := [.add, .sub, .mul, .div, .mod]

def LogicOp.all : List LogicOp := [.not, .and, .or]

def RelOp.all : List RelOp := [.gt, .ge, .lt, .le, .eq, .ne]

def Keyword.all : List Keyword :=
  [.procedureWord, .readWord, .printWord, .callWord, .whileWord, .ifWord, .thenWord, .elseWord]

def ArithOp.text : ArithOp → String
  | .add => "+" | .sub => "-" | .mul => "*" | .div => "/" | .mod => "%"

def LogicOp.text : LogicOp → String
  | .not => "!" | .and => "&&" | .or => "||"

def RelOp.text : RelOp → String
  | .gt => ">" | .ge => ">=" | .lt => "<" | .le => "<=" | .eq => "==" | .ne => "!="

def Keyword.text : Keyword → String
  | .procedureWord => "procedure" | .readWord => "read" | .printWord => "print"
  | .callWord => "call" | .whileWord => "while" | .ifWord => "if"
  | .thenWord => "then" | .elseWord => "else"

/-- How tightly an operator binds: a product before a sum. -/
def ArithOp.precedence : ArithOp → Nat
  | .mul | .div | .mod => 2
  | .add | .sub => 1

def ArithOp.ofText? (s : String) : Option ArithOp := ArithOp.all.find? (·.text == s)

def LogicOp.ofText? (s : String) : Option LogicOp := LogicOp.all.find? (·.text == s)

def RelOp.ofText? (s : String) : Option RelOp := RelOp.all.find? (·.text == s)

def Keyword.ofText? (s : String) : Option Keyword := Keyword.all.find? (·.text == s)

/-! ## Kinds -/

/-- The classes of tokens. -/
inductive TokenKind
  | keyword (word : Keyword)
  | variableName | procedureName | constant
  | leftBrace | rightBrace | leftParen | rightParen
  | semicolon | assign
  | expressionOp | conditionalOp | relationalOp
  deriving DecidableEq

/-- The name of a kind, as error messages spell it. -/
def TokenKind.name : TokenKind → String
  | .keyword .procedureWord => "ProcedureKeyword"
  | .keyword .readWord => "ReadKeyword"
  | .keyword .printWord => "PrintKeyword"
  | .keyword .callWord => "CallKeyword"
  | .keyword .whileWord => "WhileKeyword"
  | .keyword .ifWord => "IfKeyword"
  | .keyword .thenWord => "ThenKeyword"
  | .keyword .elseWord => "ElseKeyword"
  | .variableName => "VariableName"
  | .procedureName => "ProcedureName"
  | .constant => "Constant"
  | .leftBrace => "LeftBrace"
  | .rightBrace => "RightBrace"
  | .leftParen => "LeftParen"
  | .rightParen => "RightParen"
  | .semicolon => "Semicolon"
  | .assign => "Assign"
  | .expressionOp => "ExpressionOp"
  | .conditionalOp => "ConditionalOp"
  | .relationalOp => "RelationalOp"

def TokenKind.all : List TokenKind :=
  Keyword.all.map .keyword ++
    [.variableName, .procedureName, .constant, .leftBrace, .rightBrace, .leftParen,
      .rightParen, .semicolon, .assign, .expressionOp, .conditionalOp, .relationalOp]

/-- The kind of a given name. -/
def TokenKind.ofName? (s : String) : Option TokenKind :=
  TokenKind.all.find? (·.name == s)

/-- Operands of arithmetic: variables and constants. -/
def TokenKind.isOperand : TokenKind → Bool
  | .variableName | .constant => true
  | _ => false

/-- Operators of any sort. -/
def TokenKind.isOperator : TokenKind → Bool
  | .expressionOp | .conditionalOp | .relationalOp => true
  | _ => false

/-! ## Tokens -/

/-- A word of the language. -/
inductive Token
  | keyword (word : Keyword)
  | var (name : String)
  | proc (name : String)
  | const (digits : String)
  | leftBrace | rightBrace | leftParen | rightParen
  | semicolon | assign
  | arith (op : ArithOp)
  | logic (op : LogicOp)
  | rel (op : RelOp)
  deriving DecidableEq

namespace Token

/-- The class of a token. -/
def kind : Token → TokenKind
  | .keyword k => .keyword k
  | .var _ => .variableName
  | .proc _ => .procedureName
  | .const _ => .constant
  | .leftBrace => .leftBrace
  | .rightBrace => .rightBrace
  | .leftParen => .leftParen
  | .rightParen => .rightParen
  | .semicolon => .semicolon
  | .assign => .assign
  | .arith _ => .expressionOp
  | .logic _ => .conditionalOp
  | .rel _ => .relationalOp

/-- How a token is written. -/
def text : Token → String
  | .keyword k => k.text
  | .var name | .proc name => name
  | .const digits => digits
  | .leftBrace => "\x7b"
  | .rightBrace => "\x7d"
  | .leftParen => "("
  | .rightParen => ")"
  | .semicolon => ";"
  | .assign => "="
  | .arith op => op.text
  | .logic op => op.text
  | .rel op => op.text

/-- **Well spelled**: a name is a name and a constant is a numeral. Every other
token has one spelling. -/
def wellSpelled : Token → Bool
  | .var name | .proc name => Text.isName name.toList
  | .const digits => Text.isNumeral digits.toList
  | _ => true

/-- The token of a kind that is written `s`. -/
def ofText? (kind : TokenKind) (s : String) : Option Token :=
  match kind with
  | .keyword k => if k.text = s then some (.keyword k) else none
  | .variableName => if Text.isName s.toList then some (.var s) else none
  | .procedureName => if Text.isName s.toList then some (.proc s) else none
  | .constant => if Text.isNumeral s.toList then some (.const s) else none
  | .leftBrace => if s = "\x7b" then some .leftBrace else none
  | .rightBrace => if s = "\x7d" then some .rightBrace else none
  | .leftParen => if s = "(" then some .leftParen else none
  | .rightParen => if s = ")" then some .rightParen else none
  | .semicolon => if s = ";" then some .semicolon else none
  | .assign => if s = "=" then some .assign else none
  | .expressionOp => (ArithOp.ofText? s).map .arith
  | .conditionalOp => (LogicOp.ofText? s).map .logic
  | .relationalOp => (RelOp.ofText? s).map .rel

/-- How tightly a token binds in an expression; `0` unless it is an arithmetic
operator. -/
def precedence : Token → Nat
  | .arith op => op.precedence
  | _ => 0

/-- Variables and constants. -/
def isOperand (t : Token) : Bool := t.kind.isOperand

/-- Arithmetic, relational and logical operators. -/
def isOperator (t : Token) : Bool := t.kind.isOperator

/-- Either parenthesis. -/
def isParen : Token → Bool
  | .leftParen | .rightParen => true
  | _ => false

/-- A run of tokens as it is quoted in messages: their texts, parted by single
spaces. -/
def phrase (ts : List Token) : String :=
  " ".intercalate (ts.map text)

/-- How many tokens a message quotes of what lies ahead. -/
def lookahead : Nat := 6

/-- The next few tokens, for a message. -/
def context (ts : List Token) : String :=
  phrase (ts.take lookahead)

end Token

end ProgramFacts
