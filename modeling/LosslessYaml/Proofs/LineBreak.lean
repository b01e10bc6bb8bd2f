import LosslessYaml.Proofs.Grammar.Retext
import LosslessYaml.Proofs.Lossless
import LosslessYaml.Proofs.Token.LineBreak

namespace LosslessYaml

def Retext.crlf : Retext where
  token := Token.crlf
  kind_token _ := rfl
  mark_token t c hc := by
    refine Text.head?_crlf ?_ ?_ t.text <;> rintro rfl <;> cases hc

theorem Placed.placeFrom_crlf (col : Nat) (fresh : Bool) (ts : List Token) :
    placeFrom col fresh (ts.map Token.crlf) = (placeFrom col fresh ts).map Retext.crlf.placed := by
  induction ts generalizing col fresh with
  | nil => rfl
  | cons t ts ih =>
    have hcol : columnAfter col t.crlf.text = columnAfter col t.text := Token.columnAfter_crlf col t.text
    rw [List.map_cons, placeFrom, hcol, ih]
    rfl

/-- Line breaks of two characters leave the tree as it is, exactly where no double quote that was left open
ends in front of an escaped line feed. -/
theorem parse_crlf_iff (s : List Char) (hs : '\r' ∉ s) :
    parse (Text.crlf s) = Retext.crlf.tree (parse s) ↔ Token.cutAtFeed (Token.scan s) = false := by
  rw [Token.scan, ← Token.scanFrom_crlf false hs]
  constructor
  · intro h
    have hleaves := congrArg Tree.leaves h
    rwa [Retext.leaves_tree, leaves_parse, leaves_parse] at hleaves
  · intro h
    rw [parse, Token.scan, h, Placed.place, Placed.placeFrom_crlf, Retext.tree_ofPlaced]
    rfl

theorem parse_crlf_quoted :
    '\r' ∉ "k: \"a\n b\" # c\n- 'd\n".toList ∧
      parse (Text.crlf "k: \"a\n b\" # c\n- 'd\n".toList) =
        Retext.crlf.tree (parse "k: \"a\n b\" # c\n- 'd\n".toList) :=
  ⟨by decide, (parse_crlf_iff _ (by decide)).2 (by decide +kernel)⟩

/-- With a line feed the quote falls apart into texts, with a carriage return it is one quoted token. -/
theorem escaped_feed_cuts_quote :
    '\r' ∉ "\"a\\\nb\"".toList ∧
      parse (Text.crlf "\"a\\\nb\"".toList) ≠ Retext.crlf.tree (parse "\"a\\\nb\"".toList) :=
  ⟨by decide, fun h => absurd (congrArg Tree.leaves h) (by decide +kernel)⟩

end LosslessYaml
