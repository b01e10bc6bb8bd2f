import LosslessYaml.Fold
import LosslessYaml.Proofs.Schema.Block
import LosslessYaml.Proofs.Text.Place
import LosslessYaml.Proofs.Token.LineFeed
import LosslessYaml.Proofs.Tree.Order

namespace LosslessYaml

namespace Fold

open Text Schema
open Token (textOf Parted)

structure IsBelow (d : Document) (n : Located) (f : Fold) : Prop where
  start : f.start = (d.lineHolding n.start).stop
  stop : f.stop = n.stop
  line : n.start ≤ f.start

structure IsInside (d : Document) (n : Located) (f : Fold) : Prop where
  kind : n.kind.isFlowCollection = true
  start : f.start = n.start + n.lead
  stop : f.stop ≤ n.stop
  close : n.stop ≤ f.stop + n.trail
  lead : 0 < n.lead
  line : (d.lineHolding f.start).start = (d.lineHolding n.start).start

section Parsed

variable {s : List Char} {n : Located}

theorem obeys_of_mem_nodes (h : n ∈ (parse s).nodes) : Obeys n.tree := by
  have hd := Grammar.sound_documents (Placed.place (Token.scan s))
  have hs : Sound [parse s] := sound_node hd.each hd.sound
  obtain ⟨v, -, hn⟩ := Tree.Every.preorderFrom [] (hs []).1 n (List.mem_filter.1 h).1
  exact hn

theorem scan_of_mem_nodes (h : n ∈ (parse s).nodes) :
    ∃ ts us, Token.scan s = ts ++ (n.tree.leaves ++ us) ∧ n.start = byteLength (textOf ts) := by
  obtain ⟨ts, us, ht, hn⟩ := Tree.leaves_preorderFrom [] 0 (parse s) n (List.mem_filter.1 h).1
  rw [leaves_parse] at ht
  exact ⟨ts, us, ht, by rw [hn, Nat.zero_add]⟩

theorem text_of_scan {ts us : List Token} (h : Token.scan s = ts ++ us) :
    (Document.ofText s).text = textOf ts ++ textOf us := by
  rw [← Token.textOf_append, ← h, Token.textOf_scan]
  rfl

theorem start_le_line (h : n ∈ (parse s).nodes) :
    n.start ≤ ((Document.ofText s).lineHolding n.start).stop := by
  obtain ⟨ts, us, hs, hn⟩ := scan_of_mem_nodes h
  rw [hn]
  exact Document.le_lineHolding_stop (text_of_scan hs) (Token.parted_scanFrom hs)

theorem opening_of_flow (h : n ∈ (parse s).nodes) (hk : n.kind.isFlowCollection = true) :
    ∃ t ts, n.tree.children = .leaf t :: ts ∧ n.tree.leaves = t :: Tree.leavesOf ts ∧
      t.text ≠ [] ∧ '\n' ∉ t.text := by
  have ho := obeys_of_mem_nodes h
  have hn := (List.mem_filter.1 h).2
  obtain ⟨us, vs, hs, -⟩ := scan_of_mem_nodes h
  cases htree : n.tree with
  | leaf t => simp [htree, Tree.isNode] at hn
  | node k cs =>
    rw [htree] at ho hs
    rw [Located.kind, htree] at hk
    obtain ⟨b, hb⟩ : ∃ b, FlowCollection b cs := by
      cases k <;> simp [Tree.kind, Kind.isFlowCollection] at hk
      · exact ⟨.square, ho⟩
      · exact ⟨.curly, ho⟩
    obtain ⟨t, body, closing, rfl, ht, -⟩ := hb
    cases t with
    | node k cs => simp [Tree.isLeafOf] at ht
    | leaf t =>
      have ht : t.kind = b.opener := of_decide_eq_true ht
      have hleaves : (Tree.node k (.leaf t :: body ++ closing)).leaves =
          t :: Tree.leavesOf (body ++ closing) := by
        simp [Tree.leaves, Tree.leavesOf]
      have hr : t.Regular :=
        (Token.scanned_of_mem_scan (s := s) (by rw [hs, hleaves]; simp)).regular
      refine ⟨t, _, rfl, hleaves, hr.nonempty, hr.oneLine ?_ ?_ ?_⟩ <;> rw [ht] <;> cases b <;>
        decide

theorem closingStart_le_stop (n : Located) : closingStart n ≤ n.stop := by
  unfold closingStart
  split
  · split
    · exact Nat.sub_le _ _
    · exact Nat.le_refl _
  · exact Nat.le_refl _

theorem stop_le_closingStart (n : Located) : n.stop ≤ closingStart n + n.trail := by
  unfold closingStart
  split
  · next t ht =>
    have htrail : n.trail = byteLength t.text := by rw [Located.trail, ht]
    split <;> omega
  · exact Nat.le_add_right _ _

theorem isInside_of_inside? {f : Fold} (h : n ∈ (parse s).nodes)
    (hk : n.kind.isFlowCollection = true) (hf : inside? n = some f) :
    IsInside (Document.ofText s) n f := by
  obtain ⟨t, ts, hcs, hleaves, hne, hlf⟩ := opening_of_flow h hk
  obtain ⟨us, vs, hs, hstart⟩ := scan_of_mem_nodes h
  have hlead : n.lead = byteLength t.text := by rw [Located.lead, hcs]
  rw [inside?, hcs] at hf
  obtain ⟨-, hf⟩ := Option.ite_none_right_eq_some.1 hf
  obtain rfl := Option.some.inj hf
  have hopen : (Tree.leaf t).byteLength = byteLength t.text := by rw [Tree.byteLength]
  refine ⟨hk, by rw [hlead, hopen], closingStart_le_stop n, stop_le_closingStart n, ?_, ?_⟩
  · obtain ⟨c, cs, hc⟩ := List.exists_cons_of_ne_nil hne
    rw [hlead, hc, byteLength_cons]
    exact Nat.add_pos_left c.utf8Size_pos _
  · have htext := text_of_scan hs
    rw [hleaves, List.cons_append, Token.textOf_cons, ← List.append_assoc] at htext
    rw [hopen, hstart, ← byteLength_append]
    exact Document.lineHolding_start_append htext hlf

theorem isBelow_of_below? {f : Fold} (h : n ∈ (parse s).nodes)
    (hf : below? (Document.ofText s) n = some f) : IsBelow (Document.ofText s) n f := by
  rw [below?] at hf
  obtain ⟨-, hf⟩ := Option.ite_none_right_eq_some.1 hf
  obtain rfl := Option.some.inj hf
  exact ⟨rfl, rfl, start_le_line h⟩

theorem cases_ofNode? {f : Fold} (h : n ∈ (parse s).nodes)
    (hf : ofNode? (Document.ofText s) n = some f) :
    IsBelow (Document.ofText s) n f ∨ IsInside (Document.ofText s) n f := by
  unfold ofNode? at hf
  split at hf
  · next hk => exact .inr (isInside_of_inside? h (by rw [hk]; rfl) hf)
  · next hk => exact .inr (isInside_of_inside? h (by rw [hk]; rfl) hf)
  · exact .inl (isBelow_of_below? h hf)
  · exact .inl (isBelow_of_below? h hf)
  · exact .inl (isBelow_of_below? h hf)
  · cases hf

theorem start_le_of_ofNode? {f : Fold} (h : n ∈ (parse s).nodes)
    (hf : ofNode? (Document.ofText s) n = some f) : n.start ≤ f.start ∧ f.stop ≤ n.stop := by
  rcases cases_ofNode? h hf with hb | hi
  · exact ⟨hb.line, Nat.le_of_eq hb.stop⟩
  · exact ⟨hi.start ▸ Nat.le_add_right _ _, hi.stop⟩

end Parsed

end Fold

end LosslessYaml
