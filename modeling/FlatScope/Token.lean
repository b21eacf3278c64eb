import FlatScope.Span
import FlatScope.Syntax

/-!
# Tokens

The terminals of the grammar, and the tokens that a source is made of: a terminal, the text that
matched it and the place of that text.
-/

namespace FlatScope

/-- The terminals of the grammar. -/
inductive Terminal where
  | name
  | number
  | string
  | kwVar
  | kwLet
  | kwConst
  | kwReturn
  | kwBreak
  | kwContinue
  | kwTrue
  | kwFalse
  | kwUndefined
  | kwFunction
  | kwIf
  | kwElse
  | kwWhile
  | kwFor
  | kwOf
  | operator (op : BinaryOp)
  | bang
  | leftParen
  | rightParen
  | leftBrace
  | rightBrace
  | leftBracket
  | rightBracket
  | comma
  | semicolon
  | equals
  deriving DecidableEq, Repr

namespace Terminal

/-- The name under which messages show the terminal of a binary operator. -/
def operatorLabel : BinaryOp → Text
  | .or => "OR"
  | .and => "AND"
  | .eq => "EQEQ"
  | .ne => "NOTEQ"
  | .lt => "LT"
  | .le => "LTE"
  | .gt => "GT"
  | .ge => "GTE"
  | .add => "PLUS"
  | .sub => "MINUS"
  | .mul => "STAR"
  | .div => "SLASH"
  | .mod => "PERCENT"
  | .other s => s

/-- The name under which messages show a terminal. -/
def label : Terminal → Text
  | .name => "NAME"
  | .number => "NUMBER"
  | .string => "STRING"
  | .kwVar => "VAR"
  | .kwLet => "LET"
  | .kwConst => "CONST"
  | .kwReturn => "RETURN"
  | .kwBreak => "BREAK"
  | .kwContinue => "CONTINUE"
  | .kwTrue => "TRUE"
  | .kwFalse => "FALSE"
  | .kwUndefined => "UNDEFINED"
  | .kwFunction => "FUNCTION"
  | .kwIf => "IF"
  | .kwElse => "ELSE"
  | .kwWhile => "WHILE"
  | .kwFor => "FOR"
  | .kwOf => "OF"
  | .operator op => operatorLabel op
  | .bang => "BANG"
  | .leftParen => "LPAR"
  | .rightParen => "RPAR"
  | .leftBrace => "LBRACE"
  | .rightBrace => "RBRACE"
  | .leftBracket => "LSQB"
  | .rightBracket => "RSQB"
  | .comma => "COMMA"
  | .semicolon => "SEMICOLON"
  | .equals => "EQUAL"

/-- The reserved words. -/
def keywords : List (Text × Terminal) :=
  [ ("var", .kwVar), ("let", .kwLet), ("const", .kwConst), ("return", .kwReturn),
    ("break", .kwBreak), ("continue", .kwContinue), ("true", .kwTrue), ("false", .kwFalse),
    ("undefined", .kwUndefined), ("function", .kwFunction), ("if", .kwIf), ("else", .kwElse),
    ("while", .kwWhile), ("for", .kwFor), ("of", .kwOf) ]

/-- The terminal of a word: a reserved word or a name. -/
def ofWord (word : Text) : Terminal := (keywords.lookup word).getD .name

/-- The operators and punctuation marks, the longer ones first. -/
def symbols : List (Text × Terminal) :=
  [ ("||", .operator .or), ("&&", .operator .and), ("==", .operator .eq), ("!=", .operator .ne),
    ("<=", .operator .le), (">=", .operator .ge), ("<", .operator .lt), (">", .operator .gt),
    ("+", .operator .add), ("-", .operator .sub), ("*", .operator .mul), ("/", .operator .div),
    ("%", .operator .mod), ("!", .bang), ("(", .leftParen), (")", .rightParen),
    (Text.ofString "\x7b", .leftBrace), (Text.ofString "\x7d", .rightBrace), ("[", .leftBracket),
    ("]", .rightBracket), (",", .comma), (";", .semicolon), ("=", .equals) ]

end Terminal

/-- A token. -/
structure Token where
  terminal : Terminal
  text : Text
  extent : Extent
  deriving DecidableEq, Repr

end FlatScope
