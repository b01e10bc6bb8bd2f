import LosslessYaml.Proofs.Assembly.Record

namespace LosslessYaml

namespace Run

theorem linked_around {ks : List Call} (h : isOrderly ks {} = true) (m : Nat) :
    Linked (fun x => wrapper? x ks) m (around m ks) := by
  generalize hns : around m ks = ns
  induction ns generalizing m with
  | nil =>
    rw [around_eq Marking.sound_empty h] at hns
    split at hns
    · next hm => exact hm
    · cases hns
  | cons n ns ih =>
    rw [around_eq Marking.sound_empty h] at hns
    split at hns
    · cases hns
    · next l hm =>
      obtain ⟨rfl, htail⟩ := List.cons.inj hns
      exact ⟨hm, ih l htail⟩

end Run

namespace Record

variable {keep : Nat → Bool} {ks : List Call} {s : Marking} {r : Record}

theorem Marked.settled (h : Marked keep ks s r) (hs : s.pending = []) (hks : Run.isOrderly ks {} = true)
    (hw : ∀ x, r.wrapper x = Run.wrapper? x ks) (hkeep : ∀ {x n}, Run.wrapper? x ks = some n → keep n = true) :
    r.Settled := by
  have hlive : ∀ {m}, s.Live m → m ∈ s.completed := by
    intro m hm
    refine hm.resolve_left fun hp => ?_
    rw [hs] at hp
    cases hp
  have hstands : ∀ {m}, m ∈ s.completed → r.Stands m := fun hm => ⟨h.live (.inr hm), h.kind.2 hm⟩
  have hwrapper : r.wrapper = fun x => Run.wrapper? x ks := funext hw
  refine { index := fun hi => (h.slot hi).1, kind := h.finish, stands := ?stands,
           lt := fun hm => (h.wrapper hm).2.2.1, injective := ?injective, opens := ?opens }
  case stands =>
    intro m n hm
    obtain ⟨hdone, -, -, hn⟩ := h.wrapper hm
    exact ⟨hstands hdone, hstands (hlive (hn (hkeep (hw m ▸ hm))))⟩
  case injective =>
    intro m n l hm hn
    rw [hw] at hm hn
    cases Call.eq_of_apart (Run.pairwise_makes hks) (Run.mem_of_wrapper? hm) (Run.mem_of_wrapper? hn) rfl rfl
    rfl
  case opens =>
    intro m o hm
    obtain ⟨i, hi⟩ := List.getElem?_of_mem hm
    obtain ⟨-, -, hopens, hm⟩ := h.slot hi
    rcases hopens with ⟨ho, hk | ⟨x, hx⟩⟩ | ⟨hk, hfree, ho⟩
    · -- a mark that is given up was never completed
      refine .inl ⟨ho, .inl (h.kind_eq_none fun hd => ?_)⟩
      rw [h.kept hd] at hk
      cases hk
    · exact .inl ⟨ho, .inr ⟨x, (hw x).trans hx⟩⟩
    · refine .inr ⟨h.kind.2 (hlive (hm hk)), fun x => hw x ▸ hfree x, _, ho, ?_⟩
      rw [hwrapper]
      exact Run.linked_around hks m

end Record

namespace Run

theorem written_fresh (ts : List Placed) : Record.Written {} (Session.fresh ts) ⟨[], ts.map Placed.token⟩ {} where
  events := rfl
  rest := rfl
  tokens := rfl
  parens := rfl
  marks := by simp

theorem foldl_drawKept (keep : Nat → Bool) (ks cs : List Call) (d : Drawing) :
    cs.foldl (Drawing.drawKept keep ks) d = (keeping keep cs).foldl (Drawing.draw ks) d :=
  List.foldl_filter.symm

theorem keeping_keeping (keep : Nat → Bool) (cs : List Call) : keeping keep (keeping keep cs) = keeping keep cs := by
  rw [keeping, keeping, List.filter_filter]
  simp only [Bool.and_self]

variable {keep : Nat → Bool} {cs ks : List Call} {ts : List Placed} {t : Tree}

theorem finish_run (hcs : isOrderly cs {} = true) (hks : isOrderly ks {} = true) (hkept : keeping keep cs = ks)
    (hfit : ∀ c ∈ cs, c.Fits keep ks) (hw : ∀ x, wrapper? x cs = wrapper? x ks)
    (ht : (Sketch.readAll? (parens (ts.map Placed.token) ks) {}).bind Sketch.tree? = some t) :
    ∃ u, run? cs (Session.fresh ts) = some u ∧ u.assembly.finish = .ok t := by
  obtain ⟨s, u, r, hrun, hs, hr, h, hwrapper⟩ :=
    Record.run (Record.Marked.empty keep ks) (written_fresh ts) hcs hfit
  have hkeep : ∀ {x n}, wrapper? x ks = some n → keep n = true := by
    intro x n hx
    have hmem := mem_of_wrapper? hx
    rw [← hkept] at hmem
    exact (List.mem_filter.1 hmem).2
  have hlast : ∀ x, r.wrapper x = wrapper? x ks := by
    intro x
    rw [hwrapper, hw]
    exact Option.or_none
  rw [foldl_drawKept, hkept] at h
  refine ⟨u, hrun, ?_⟩
  rw [Assembly.finish, h.tokens, h.events]
  refine (hr.settled hs hks hlast hkeep).replay_eq _ ?_
  rwa [← h.parens]

/-- A run whose marks are properly nested builds its tree, and the run without the marks that it gives up builds the
same one, if the mark last put around a node is never given up. -/
theorem finish_run_kept (h : Nested (ts.map Placed.token) cs t)
    (hlast : ∀ m n, wrapper? m cs = some n → n ∉ abandoned cs) :
    ∃ a b, run? cs (Session.fresh ts) = some a ∧ run? (kept cs) (Session.fresh ts) = some b ∧
      a.assembly.finish = .ok t ∧ b.assembly.finish = .ok t := by
  have hfit : ∀ c ∈ cs, c.Fits (· ∉ abandoned cs) (kept cs) := fun c hc => fits_kept h.orderly hc
  have hks : isOrderly (kept cs) {} = true := isOrderly_keeping hfit h.orderly
  have hw : ∀ x, wrapper? x cs = wrapper? x (kept cs) :=
    fun x => (wrapper?_keeping fun n hn => decide_eq_true (hlast x n hn)).symm
  obtain ⟨a, hrun, ha⟩ := finish_run h.orderly hks rfl hfit hw h.tree
  obtain ⟨b, hrun', hb⟩ := finish_run hks hks (keeping_keeping _ cs) (fun c hc => hfit c (List.mem_filter.1 hc).1)
    (fun _ => rfl) h.tree
  exact ⟨a, b, hrun, hrun', ha, hb⟩

def retriedPair : List Call :=
  [.start 0, .start 1, .start 2, .bump, .abandon 2, .complete 1 .key, .precede 1 3, .abandon 3, .precede 1 4, .bump,
    .start 5, .abandon 5, .start 6, .bump, .complete 6 .literal, .complete 4 .pair, .complete 0 .stream]

def retriedTree : Tree :=
  .node .stream [.node .pair [.node .key [.leaf ⟨.text, ['a']⟩], .leaf ⟨.colon, [':']⟩,
    .node .literal [.leaf ⟨.text, ['b']⟩]]]

theorem finish_run_kept_retriedPair :
    Nested ((Placed.place (Token.scan ['a', ':', 'b'])).map Placed.token) retriedPair retriedTree ∧
    ∃ a b, run? retriedPair (Session.fresh (Placed.place (Token.scan ['a', ':', 'b']))) = some a ∧
      run? (kept retriedPair) (Session.fresh (Placed.place (Token.scan ['a', ':', 'b']))) = some b ∧
      a.assembly.finish = .ok retriedTree ∧ b.assembly.finish = .ok retriedTree := by
  have hscan : (Placed.place (Token.scan ['a', ':', 'b'])).map Placed.token =
      [⟨.text, ['a']⟩, ⟨.colon, [':']⟩, ⟨.text, ['b']⟩] := by decide +kernel
  have hnested : Nested ((Placed.place (Token.scan ['a', ':', 'b'])).map Placed.token) retriedPair retriedTree := by
    rw [hscan]
    exact ⟨by decide, rfl⟩
  refine ⟨hnested, finish_run_kept hnested fun m n h => ?_⟩
  have hmem : m = 1 ∧ n = 3 ∨ m = 1 ∧ n = 4 := by simpa [retriedPair] using mem_of_wrapper? h
  rcases hmem with ⟨rfl, rfl⟩ | ⟨rfl, rfl⟩
  · exact absurd h (by decide)
  · decide

def loneWord : List Call :=
  [.start 0, .start 1, .bump, .complete 1 .literal, .precede 1 2, .abandon 2, .complete 0 .stream]

/-- The node's start goes on pointing to a start that is not there. -/
theorem wrapper_outlives_abandon :
    Nested ((Placed.place (Token.scan ['k'])).map Placed.token) loneWord
        (.node .stream [.node .literal [.leaf ⟨.text, ['k']⟩]]) ∧
      ∃ a, run? loneWord (Session.fresh (Placed.place (Token.scan ['k']))) = some a ∧
        a.assembly.events = [.start .stream none, .start .literal (some 4), .token .text, .finish, .finish] ∧
        a.assembly.finish = .error (.wrapper 4) := by
  have hscan : Placed.place (Token.scan ['k']) = [⟨⟨.text, ['k']⟩, 0, true⟩] := by decide +kernel
  have hreplay : Event.replay [⟨.text, ['k']⟩]
      [.start .stream none, .start .literal (some 4), .token .text, .finish, .finish] = .error (.wrapper 4) := by
    rw [Event.replay, Event.replayFrom_start rfl, Event.replayFrom]
    rfl
  rw [hscan]
  exact ⟨⟨by decide, rfl⟩, _, rfl, rfl, hreplay⟩

end Run

end LosslessYaml
