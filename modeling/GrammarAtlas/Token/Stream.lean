import GrammarAtlas.Fault
import GrammarAtlas.Text.LineTable
import GrammarAtlas.Token.Piece

/-! # The tokens of a text

`TokenStream.ofChars` keeps of the pieces of a text the lexemes, each with what leads up to it, and
reports the pieces that are at fault. -/

namespace GrammarAtlas

namespace Piece

/-- What is wrong with a lexeme of the given kind that does not close. -/
def unclosedCause? : Token.Kind → Option Fault.Cause
  | .quoted => some .unterminatedString
  | .bracket => some .unterminatedBracket
  | .action => some .unterminatedAction
  | .angle => some .unterminatedAngle
  | _ => none

def cause? (p : Piece) : Option Fault.Cause :=
  match p.form with
  | .comment false => some .unterminatedComment
  | .lexeme kind false => unclosedCause? kind
  | .stray => p.text.head?.map .invalidCharacter
  | .blank | .comment true | .lexeme _ true => none

def fault? (lines : LineTable) (p : Piece) : Option Fault :=
  p.cause?.map fun cause => ⟨cause, lines.locate p.start p.stop⟩

end Piece

/-- The tokens of a text in order, and the token that stands for its end. -/
structure TokenStream where
  tokens : List Token
  finish : Token
deriving Repr

namespace TokenStream

/-- Gathers the tokens of `pieces`. The text `lead` has been read since the last token; what is
left of it at the end leads up to the end of the text. -/
def gather (lines : LineTable) : List Char → List Piece → TokenStream
  | lead, [] =>
    let finish := lines.mark lines.size
    ⟨[], ⟨.finish, finish, finish, String.ofList lead, ""⟩⟩
  | lead, p :: pieces =>
    match p.form with
    | .lexeme kind _ =>
      let token := ⟨kind, lines.mark p.start, lines.mark p.stop, String.ofList lead,
        String.ofList p.text⟩
      let rest := gather lines [] pieces
      { rest with tokens := token :: rest.tokens }
    | .blank | .comment _ | .stray => gather lines (lead ++ p.text) pieces

/-- The tokens of a text, and the faults of its pieces in order. -/
def ofChars (cs : List Char) : TokenStream × List Fault :=
  let lines := LineTable.ofChars cs
  let pieces := Piece.cut cs
  (gather lines [] pieces, pieces.filterMap (Piece.fault? lines))

end TokenStream

end GrammarAtlas
