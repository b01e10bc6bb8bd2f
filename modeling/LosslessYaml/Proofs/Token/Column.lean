import LosslessYaml.Assembly
import LosslessYaml.Proofs.Text.Column
import LosslessYaml.Proofs.Text.Place

namespace LosslessYaml

open Text
open Token (textOf)

theorem Document.column_eq_count {d : Document} {u v : List Char} (h : d.text = u ++ v) (hp : Token.Parted u v) :
    d.column (byteLength u) = Column.count d.tabSize (lastLine u) := by
  obtain ⟨q, hq⟩ := lastLine_isPrefix h hp
  have hplace : byteLength u = (d.lineHolding (byteLength u)).start + byteLength (lastLine u) := by
    rw [lineHolding_start h, Nat.sub_add_cancel (byteLength_lastLine_le u)]
  rw [hplace]
  exact column_append (d.lineHolding_mem (byteLength u)) hq.symm

theorem Document.column_eq_length {d : Document} {u v : List Char} (h : d.text = u ++ v) (hp : Token.Parted u v)
    (hlimit : byteLength d.text < columnLimit) (ht : '\t' ∈ lastLine u → d.tabSize = 1) :
    d.column (byteLength u) = .ok (Text.column u) := by
  have hshort : (lastLine u).length < columnLimit := by
    have hlength := length_le_byteLength (lastLine u)
    have hlast := byteLength_lastLine_le u
    rw [h, byteLength_append] at hlimit
    omega
  rw [column_eq_count h hp, Column.count_eq_length ht hshort, Text.column]

theorem Token.eq_of_getElem?_spansFrom {n i start stop : Nat} {ts : List Token} {t : Token}
    (h : (spansFrom n ts)[i]? = some (t, start, stop)) :
    ts = ts.take i ++ t :: ts.drop (i + 1) ∧ start = n + byteLength (textOf (ts.take i)) := by
  induction ts generalizing n i with
  | nil => cases h
  | cons x ts ih =>
    cases i with
    | zero =>
      cases h
      exact ⟨rfl, rfl⟩
    | succ i =>
      rw [spansFrom, List.getElem?_cons_succ] at h
      obtain ⟨hts, hstart⟩ := ih h
      refine ⟨congrArg (x :: ·) hts, ?_⟩
      rw [hstart, List.take_succ_cons, textOf_cons, byteLength_append, Nat.add_assoc]

namespace Placed

theorem column_drop {s : List Char} {i : Nat} (h : i < (Token.scan s).length) :
    Grammar.column ((place (Token.scan s)).drop i) = Text.column (textOf ((Token.scan s).take i)) := by
  have hlength : (place (Token.scan s)).length = (Token.scan s).length := by
    rw [← List.length_map Placed.token, map_token_place]
  have hstands := (List.take_append_drop i (place (Token.scan s)) ▸ stands_place s).rest
  rw [List.map_take, map_token_place, List.nil_append] at hstands
  cases hd : (place (Token.scan s)).drop i with
  | nil =>
    have hnil := List.drop_eq_nil_iff.1 hd
    omega
  | cons t ts =>
    rw [hd] at hstands
    exact hstands.column.symm

end Placed

namespace Assembly

/-- Wherever an assembly has got to, the column it sees for a token is the one that the document gives for the offset
of the token, with tabs of width one, or with tabs of any width if none is in front of the token on its line. -/
theorem column_eq_nthColumn {s : List Char} (hs : byteLength s < columnLimit) (position : Nat) (events : List Event)
    {n start stop : Nat} {t : Token} (ht : (Token.spans (Token.scan s))[position + n]? = some (t, start, stop)) :
    ((Document.ofText s).withTabSize 1).column start =
        .ok ({ ofText s with position, events }.nthColumn n) ∧
      ∀ tab, '\t' ∉ lastLine (textOf ((Token.scan s).take (position + n))) →
        ((Document.ofText s).withTabSize tab).column start =
          .ok ({ ofText s with position, events }.nthColumn n) := by
  obtain ⟨hscan, hstart⟩ := Token.eq_of_getElem?_spansFrom ht
  rw [Nat.zero_add] at hstart
  have htext : s = textOf ((Token.scan s).take (position + n)) ++ textOf (t :: (Token.scan s).drop (position + n + 1)) := by
    rw [← Token.textOf_append, ← hscan, Token.textOf_scan]
  have hparted := Token.parted_scanFrom hscan
  have hlt : position + n < (Token.scan s).length := by
    have hlength := congrArg List.length hscan
    rw [List.length_append, List.length_cons, List.length_take] at hlength
    omega
  have hcolumn : { ofText s with position, events }.nthColumn n =
      Text.column (textOf ((Token.scan s).take (position + n))) := by
    rw [← Placed.column_drop hlt, ← List.drop_drop]
    rfl
  rw [hcolumn, hstart]
  refine ⟨Document.column_eq_length htext hparted hs fun _ => rfl, fun tab htab => ?_⟩
  exact Document.column_eq_length htext hparted hs fun h => absurd h htab

theorem column_eq_nthColumn_behind_quote :
    byteLength "'\té\n' b".toList < columnLimit ∧
      (Token.spans (Token.scan "'\té\n' b".toList))[1 + 1]? = some (⟨.text, ['b']⟩, 7, 8) ∧
      '\t' ∉ lastLine (textOf ((Token.scan "'\té\n' b".toList).take (1 + 1))) ∧
      ((Document.ofText "'\té\n' b".toList).withTabSize 1).column 7 = .ok 2 ∧
      ((Document.ofText "'\té\n' b".toList).withTabSize 8).column 7 = .ok 2 := by
  have hs : byteLength "'\té\n' b".toList < columnLimit := by decide +kernel
  have ht : (Token.spans (Token.scan "'\té\n' b".toList))[1 + 1]? = some (⟨.text, ['b']⟩, 7, 8) := by decide +kernel
  have htab : '\t' ∉ lastLine (textOf ((Token.scan "'\té\n' b".toList).take (1 + 1))) := by decide +kernel
  have hcolumn : { ofText "'\té\n' b".toList with position := 1, events := [] }.nthColumn 1 = 2 := by decide +kernel
  obtain ⟨hone, hany⟩ := column_eq_nthColumn hs 1 [] ht
  rw [hcolumn] at hone hany
  exact ⟨hs, ht, htab, hone, hany 8 htab⟩

end Assembly

end LosslessYaml
