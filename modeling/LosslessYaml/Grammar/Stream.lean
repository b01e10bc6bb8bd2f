import LosslessYaml.Grammar.Block
import LosslessYaml.Token.Lexer

namespace LosslessYaml.Grammar

open Rule

def document : Rule :=
  ((when (fun ts => atMarker ts && next ts = .directiveEnd) token).andThen
    ((loop contentAhead (trivia.andThen (blockNode 0))).andThen
      (when (fun ts => atMarker (pastTrivia ts) && next (pastTrivia ts) = .documentEnd)
        (trivia.andThen token)))).within .document

def documents : Rule :=
  trivia.andThen (loop (fun ts => !ts.isEmpty) (document.andThen trivia))

end LosslessYaml.Grammar

namespace LosslessYaml

def Tree.ofPlaced (ts : List Placed) : Tree := .node .stream (Grammar.documents ts).trees

def parse (s : List Char) : Tree := Tree.ofPlaced (Placed.place (Token.scan s))

end LosslessYaml
