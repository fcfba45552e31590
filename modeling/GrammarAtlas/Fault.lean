import GrammarAtlas.Text.Location

/-! # Faults in a grammar text

Reading a grammar never fails. What is wrong with the text is a list of faults: a cause, and the
location at which it was seen. -/

namespace GrammarAtlas

namespace Fault

inductive Cause where
  | unterminatedString
  | unterminatedComment
  | unterminatedAction
  | unterminatedBracket
  | unterminatedAngle
  | invalidCharacter (c : Char)
  | missingHeader
  | unexpected (found expected : String)
  | unexpectedEnd (expected : String)
  | tokenRuleInParserGrammar (rule : String)
  | parserRuleInLexerGrammar (rule : String)
  | modeOutsideLexerGrammar (mode : String)
  | tooDeep (limit : Nat)
deriving Repr, DecidableEq

def Cause.message : Cause → String
  | unterminatedString => "unterminated string literal"
  | unterminatedComment => "unterminated comment"
  | unterminatedAction => "unterminated action block"
  | unterminatedBracket => "unterminated bracket block"
  | unterminatedAngle => "unterminated element options"
  | invalidCharacter c => "invalid character '" ++ c.toString ++ "'"
  | missingHeader => "missing grammar declaration"
  | unexpected found expected => "unexpected " ++ found ++ ", expected " ++ expected
  | unexpectedEnd expected => "unexpected end of input, expected " ++ expected
  | tokenRuleInParserGrammar rule =>
    "lexer rule '" ++ rule ++ "' is not allowed in a parser grammar"
  | parserRuleInLexerGrammar rule =>
    "parser rule '" ++ rule ++ "' is not allowed in a lexer grammar"
  | modeOutsideLexerGrammar mode => "mode '" ++ mode ++ "' is only allowed in a lexer grammar"
  | tooDeep limit => "blocks nested deeper than " ++ toString limit ++ " levels"

/-- A hint on how to mend the text, for the causes that have a usual remedy. -/
def Cause.advice? : Cause → Option String
  | unterminatedString =>
    some "String literals use single quotes and must close on the same line"
  | unterminatedAction =>
    some "Braces inside actions must be balanced, e.g. '\x7b foo(); \x7d'"
  | unterminatedAngle =>
    some "Element options look like '<assoc=right>' and must close before the rule ends"
  | missingHeader =>
    some ("A grammar starts with 'grammar Name;', 'lexer grammar Name;' " ++
      "or 'parser grammar Name;'")
  | tokenRuleInParserGrammar _ => some "Rules starting with an uppercase letter are lexer rules"
  | parserRuleInLexerGrammar _ => some "Lexer rule names must start with an uppercase letter"
  | unterminatedComment | unterminatedBracket | invalidCharacter _ | unexpected _ _
  | unexpectedEnd _ | modeOutsideLexerGrammar _ | tooDeep _ => none

end Fault

structure Fault where
  cause : Fault.Cause
  location : Location
deriving Repr, DecidableEq

namespace Fault

def text (f : Fault) : String :=
  f.cause.message ++ ", position: " ++ f.location.start.position.text

/-- Puts `f` before the first fault that does not start earlier. -/
def insert (f : Fault) : List Fault → List Fault
  | [] => [f]
  | g :: rest =>
    if f.location.start.offset ≤ g.location.start.offset then f :: g :: rest
    else g :: insert f rest

/-- Orders faults by where they start; those that start together keep their order. -/
def arrange (faults : List Fault) : List Fault := faults.foldr insert []

end Fault

end GrammarAtlas
