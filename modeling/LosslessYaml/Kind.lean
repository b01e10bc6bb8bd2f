namespace LosslessYaml

inductive Kind : Type
  | whitespace
  | newline
  | comment
  | text
  | quoted
  | dash
  | colon
  | comma
  | lbracket
  | rbracket
  | lbrace
  | rbrace
  | pipe
  | gt
  | question
  | directiveEnd
  | documentEnd
  | eof
  | stream
  | document
  | blockSequence
  | item
  | blockMapping
  | pair
  | key
  | literal
  | quotedLiteral
  | blockLiteral
  | blockLiteralHeader
  | blockLiteralContent
  | flowSequence
  | flowMapping
  | anchor
  | tag
  | aliasNode
  | frontmatterDocument
  | dashLine
  | frontmatterContent
  | body
  | error
  deriving DecidableEq

namespace Kind

def all : List Kind :=
  [.whitespace, .newline, .comment, .text, .quoted, .dash, .colon, .comma, .lbracket, .rbracket,
   .lbrace, .rbrace, .pipe, .gt, .question, .directiveEnd, .documentEnd, .eof, .stream, .document,
   .blockSequence, .item, .blockMapping, .pair, .key, .literal, .quotedLiteral, .blockLiteral,
   .blockLiteralHeader, .blockLiteralContent, .flowSequence, .flowMapping, .anchor, .tag,
   .aliasNode, .frontmatterDocument, .dashLine, .frontmatterContent, .body, .error]

def toNat (k : Kind) : Nat := all.idxOf k

def ofNat? (n : Nat) : Option Kind := all[n]?

@[simp] theorem ofNat?_toNat (k : Kind) : ofNat? k.toNat = some k := by
  cases k <;> decide

theorem mem_all (k : Kind) : k ∈ all := by
  cases k <;> decide

def name : Kind → String
  | .whitespace => "WHITESPACE"
  | .newline => "NEWLINE"
  | .comment => "COMMENT"
  | .text => "TEXT"
  | .quoted => "QUOTED"
  | .dash => "DASH"
  | .colon => "COLON"
  | .comma => "COMMA"
  | .lbracket => "LBRACKET"
  | .rbracket => "RBRACKET"
  | .lbrace => "LBRACE"
  | .rbrace => "RBRACE"
  | .pipe => "PIPE"
  | .gt => "GT"
  | .question => "QUESTION"
  | .directiveEnd => "DIRECTIVE_END"
  | .documentEnd => "DOCUMENT_END"
  | .eof => "EOF"
  | .stream => "STREAM"
  | .document => "DOCUMENT"
  | .blockSequence => "BLOCK_SEQUENCE"
  | .item => "ITEM"
  | .blockMapping => "BLOCK_MAPPING"
  | .pair => "PAIR"
  | .key => "KEY"
  | .literal => "LITERAL"
  | .quotedLiteral => "QUOTED_LITERAL"
  | .blockLiteral => "BLOCK_LITERAL"
  | .blockLiteralHeader => "BLOCK_LITERAL_HEADER"
  | .blockLiteralContent => "BLOCK_LITERAL_CONTENT"
  | .flowSequence => "FLOW_SEQUENCE"
  | .flowMapping => "FLOW_MAPPING"
  | .anchor => "ANCHOR"
  | .tag => "TAG"
  | .aliasNode => "ALIAS"
  | .frontmatterDocument => "FRONTMATTER_DOCUMENT"
  | .dashLine => "DASH_LINE"
  | .frontmatterContent => "FRONTMATTER_CONTENT"
  | .body => "BODY"
  | .error => "ERROR"

def ofName? (s : String) : Option Kind := all.find? (fun k => k.name = s)

def isToken (k : Kind) : Bool := k.toNat ≤ Kind.eof.toNat

def isNode (k : Kind) : Bool := !k.isToken

def isTrivia : Kind → Bool
  | .whitespace | .newline | .comment => true
  | _ => false

def isFlowCloser : Kind → Bool
  | .rbracket | .rbrace => true
  | _ => false

def isFlowOpener : Kind → Bool
  | .lbracket | .lbrace => true
  | _ => false

def isFlowCollection : Kind → Bool
  | .flowSequence | .flowMapping => true
  | _ => false

end Kind

end LosslessYaml
