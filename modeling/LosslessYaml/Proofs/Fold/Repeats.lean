import LosslessYaml.Proofs.Fold.Nodes

/-! Folds that occur twice. Of equal folds that stand next to each other one is dropped, so that a fold occurs
again only behind one that differs, and only a flow collection on the first line of the fold can have one that
differs. -/

namespace LosslessYaml.Fold

theorem collapse_sublist (fs : List Fold) : (collapse fs).Sublist fs := by
  fun_induction collapse fs with
  | case1 f fs ih => exact ih.cons f
  | case2 f g fs h ih => exact ih.cons_cons f
  | case3 fs h => exact List.Sublist.refl fs

theorem head?_collapse (fs : List Fold) : (collapse fs).head? = fs.head? := by
  fun_induction collapse fs with
  | case1 f fs ih => exact ih
  | case2 f g fs h ih => rfl
  | case3 fs h => rfl

theorem find?_collapse (p : Fold → Bool) (fs : List Fold) : (collapse fs).find? p = fs.find? p := by
  fun_induction collapse fs with
  | case1 f fs ih =>
    rw [ih]
    simp only [List.find?_cons]
    split <;> rfl
  | case2 f g fs h ih => rw [List.find?_cons, ih, List.find?_cons (a := f)]
  | case3 fs h => rfl

theorem ne_of_collapse {fs us ws : List Fold} {f g : Fold} (h : collapse fs = us ++ f :: g :: ws) :
    f ≠ g := by
  fun_induction collapse fs generalizing us with
  | case1 a fs ih => exact ih h
  | case2 a b fs hab ih =>
    cases us with
    | nil =>
      obtain ⟨rfl, ht⟩ := List.cons.inj h
      have hb := head?_collapse (b :: fs)
      rw [ht] at hb
      obtain rfl := Option.some.inj hb
      exact hab
    | cons u us => exact ih (List.cons.inj h).2
  | case3 fs hfs =>
    subst h
    match us with
    | [] => exact absurd rfl (hfs f g ws)
    | [a] => exact absurd rfl (hfs a f (g :: ws))
    | a :: b :: us => exact absurd rfl (hfs a b _)

theorem start_le_stop_of_ofNode? {d : Document} {n : Located} {f : Fold} (h : ofNode? d n = some f) :
    f.start ≤ f.stop := by
  have hin : ∀ {f}, inside? n = some f → f.start ≤ f.stop := by
    intro f hf
    unfold inside? at hf
    split at hf
    · cases hf
    · obtain ⟨hlt, hf⟩ := Option.ite_none_right_eq_some.1 hf
      obtain rfl := Option.some.inj hf
      exact Nat.le_of_lt hlt
  have hbelow : ∀ {f}, below? d n = some f → f.start ≤ f.stop := by
    intro f hf
    obtain ⟨hle, hf⟩ := Option.ite_none_right_eq_some.1 hf
    obtain rfl := Option.some.inj hf
    exact hle
  unfold ofNode? at h
  split at h
  · exact hin h
  · exact hin h
  · exact hbelow h
  · exact hbelow h
  · exact hbelow h
  · cases h

theorem start_lt_stop_of_mem_all {root : Tree} {d : Document} {f : Fold} (h : f ∈ all root d) :
    f.start < f.stop := by
  obtain ⟨hf, hne⟩ := List.mem_filter.1 ((collapse_sublist _).subset h)
  obtain ⟨n, -, hf⟩ := List.mem_filterMap.1 hf
  have hle := start_le_stop_of_ofNode? hf
  simp only [isEmpty, Bool.not_eq_true', decide_eq_false_iff_not] at hne
  omega

theorem nodes_of_sublist {root : Tree} {d : Document} {f g h : Fold}
    (hs : [f, g, h].Sublist (all root d)) :
    ∃ m x n, [m, x, n].Sublist root.nodes ∧
      ofNode? d m = some f ∧ ofNode? d x = some g ∧ ofNode? d n = some h := by
  have hs := hs.trans ((collapse_sublist _).trans List.filter_sublist)
  obtain ⟨ns, hns, heq⟩ := List.sublist_filterMap_iff.1 hs
  obtain ⟨as, m, ns, rfl, -, hm, heq⟩ := List.filterMap_eq_cons_iff.1 heq.symm
  obtain ⟨bs, x, ns, rfl, -, hx, heq⟩ := List.filterMap_eq_cons_iff.1 heq
  obtain ⟨cs, n, ns, rfl, -, hn, -⟩ := List.filterMap_eq_cons_iff.1 heq
  refine ⟨m, x, n, List.Sublist.trans ?_ hns, hm, hx, hn⟩
  simp

section Parsed

variable {s : List Char} {m x n : Located} {f g : Fold}

theorem stop_le_size (h : n ∈ (parse s).nodes) : n.stop ≤ (Document.ofText s).size := by
  have hw := Tree.within_preorderFrom [] 0 (parse s) n (List.mem_filter.1 h).1
  have hs := hw.stop
  rw [Tree.byteLength_eq, Tree.text, leaves_parse, Token.textOf_scan, Nat.zero_add] at hs
  exact hs

theorem stop_le_of_around (hm : m ∈ (parse s).nodes) (hf : ofNode? (Document.ofText s) m = some f)
    (hx : m.Around x) : x.stop ≤ f.stop := by
  have hstop := hx.stop
  rcases cases_ofNode? hm hf with hb | hi
  · have := hb.stop
    omega
  · have := hi.close
    omega

/-- Of two nodes with the same fold the first is around the second, and the fold starts at the end of the line
on which each node between them starts. -/
theorem line_of_same_fold (hm : m ∈ (parse s).nodes) (hx : x ∈ (parse s).nodes) (hn : n ∈ (parse s).nodes)
    (hmx : m.Precedes x) (hxn : x.start ≤ n.start)
    (hmf : ofNode? (Document.ofText s) m = some f) (hnf : ofNode? (Document.ofText s) n = some f)
    (hf : f.start < f.stop) :
    m.Around x ∧ ((Document.ofText s).lineHolding x.start).stop = f.start := by
  have hmstop := (start_le_of_ofNode? hm hmf).2
  have hnstart := (start_le_of_ofNode? hn hnf).1
  have haround : m.Around x := by
    rcases hmx with ha | hle
    · exact ha
    · omega
  refine ⟨haround, ?_⟩
  rcases cases_ofNode? hm hmf with hb | hi
  · -- the line of `m` reaches to the start of the fold, and `x` starts before it ends
    have hline := (Document.ofText s).lineHolding_start_le m.start
    have hstart := haround.start
    have hsize := stop_le_size hx
    have hle : x.start ≤ x.stop := Nat.le_add_right _ _
    rw [hb.start] at hnstart ⊢
    rw [Document.lineHolding_eq (Document.lineHolding_mem _ m.start) (by omega) (by omega) (by omega)]
  · -- `m` folds behind its bracket, where `x` and `n` start
    have hstart := haround.start
    have hopen := hi.start
    have hxeq : x.start = n.start := by omega
    rcases cases_ofNode? hn hnf with hb | hi'
    · rw [hxeq, hb.start]
    · have := hi'.start
      have := hi'.lead
      omega

theorem eq_or_flow_of_between (hm : m ∈ (parse s).nodes) (hx : x ∈ (parse s).nodes)
    (hn : n ∈ (parse s).nodes) (hmx : m.Precedes x) (hxn : x.Precedes n)
    (hmf : ofNode? (Document.ofText s) m = some f) (hxg : ofNode? (Document.ofText s) x = some g)
    (hnf : ofNode? (Document.ofText s) n = some f) (hf : f.start < f.stop) (hg : g.start < g.stop) :
    g = f ∨ x.kind.isFlowCollection = true := by
  obtain ⟨haround, hline⟩ := line_of_same_fold hm hx hn hmx hxn.start_le hmf hnf hf
  rcases cases_ofNode? hx hxg with hb | hi
  · left
    have hstart : g.start = f.start := by rw [hb.start, hline]
    have hle := stop_le_of_around hm hmf haround
    have hbs := hb.stop
    have hn := start_le_of_ofNode? hn hnf
    have hstop : g.stop = f.stop := by
      rcases hxn with ha | hlt
      · have := ha.stop
        omega
      · omega
    cases f
    cases g
    simp only at hstart hstop
    rw [hstart, hstop]
  · exact .inr hi.kind

end Parsed

/-- A fold is repeated only around folds of flow collections on the line at whose end it starts. -/
theorem repeated_around_flow {s : List Char} {us vs ws : List Fold} {f : Fold}
    (h : all (parse s) (Document.ofText s) = us ++ f :: vs ++ f :: ws) :
    (∃ g ∈ vs, g ≠ f) ∧
      ∀ g ∈ vs, g ≠ f → ∃ n ∈ (parse s).nodes, n.kind.isFlowCollection = true ∧
        ofNode? (Document.ofText s) n = some g ∧
        ((Document.ofText s).lineHolding n.start).stop = f.start := by
  refine ⟨?_, fun g hg hgf => ?_⟩
  · cases vs with
    | nil =>
      rw [List.append_assoc] at h
      exact absurd rfl (ne_of_collapse h)
    | cons g vs =>
      rw [List.append_assoc] at h
      exact ⟨g, List.mem_cons_self, (ne_of_collapse h).symm⟩
  · have hf : f ∈ all (parse s) (Document.ofText s) := by rw [h]; simp
    have hg' : g ∈ all (parse s) (Document.ofText s) := by rw [h]; simp [hg]
    obtain ⟨as, bs, rfl⟩ := List.append_of_mem hg
    have hsub : [f, g, f].Sublist (all (parse s) (Document.ofText s)) := by
      rw [h]
      simp
    obtain ⟨m, x, n, hns, hmf, hxg, hnf⟩ := nodes_of_sublist hsub
    have hm : m ∈ (parse s).nodes := hns.subset (by simp)
    have hx : x ∈ (parse s).nodes := hns.subset (by simp)
    have hn : n ∈ (parse s).nodes := hns.subset (by simp)
    obtain ⟨⟨hmx, -⟩, hxn⟩ : (m.Precedes x ∧ m.Precedes n) ∧ x.Precedes n := by
      simpa using (parse s).pairwise_nodes.sublist hns
    have hf := start_lt_stop_of_mem_all hf
    have hg := start_lt_stop_of_mem_all hg'
    have hline := (line_of_same_fold hm hx hn hmx hxn.start_le hmf hnf hf).2
    have hkind := eq_or_flow_of_between hm hx hn hmx hxn hmf hxg hnf hf hg
    exact ⟨x, hx, hkind.resolve_left hgf, hxg, hline⟩

/-- The entry and its block scalar fold alike, and the key between them folds too. -/
theorem entry_and_scalar_fold_twice :
    ¬(all (parse "[a]: |\n  x".toList) (Document.ofText "[a]: |\n  x".toList)).Nodup := by
  decide +kernel

theorem repeated_around_flow_key :
    all (parse "[a]: |\n  x".toList) (Document.ofText "[a]: |\n  x".toList) =
        [] ++ ⟨6, 10⟩ :: [⟨1, 2⟩] ++ ⟨6, 10⟩ :: [] ∧
      (∃ g ∈ [(⟨1, 2⟩ : Fold)], g ≠ ⟨6, 10⟩) ∧
      ∀ g ∈ [(⟨1, 2⟩ : Fold)], g ≠ ⟨6, 10⟩ →
        ∃ n ∈ (parse "[a]: |\n  x".toList).nodes, n.kind.isFlowCollection = true ∧
          ofNode? (Document.ofText "[a]: |\n  x".toList) n = some g ∧
          ((Document.ofText "[a]: |\n  x".toList).lineHolding n.start).stop = 6 :=
  have h : all (parse "[a]: |\n  x".toList) (Document.ofText "[a]: |\n  x".toList) =
      [] ++ ⟨6, 10⟩ :: [⟨1, 2⟩] ++ ⟨6, 10⟩ :: [] := by decide +kernel
  ⟨h, repeated_around_flow h⟩

end LosslessYaml.Fold
