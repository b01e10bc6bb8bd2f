import LosslessYaml.Proofs.Assembly.Orderly
import LosslessYaml.Proofs.Assembly.Piece

namespace LosslessYaml

theorem Assembly.abandon_eq (a : Assembly) (m : Mark) :
    a.abandon m = { a with events := if m.index + 1 = a.events.length then a.events.dropLast else a.events } := by
  rw [abandon]
  split <;> rfl

def Marking.Live (s : Marking) (m : Nat) : Prop := m ∈ s.pending ∨ m ∈ s.completed

namespace Record

def place (r : Record) (m : Nat) (opens : List Nat) : Record :=
  { r with pieces := r.pieces ++ [.slot m opens], index := Function.update r.index m r.pieces.length }

def add (r : Record) (p : Piece) : Record := { r with pieces := r.pieces ++ [p] }

def read (r : Record) : List Token → Record
  | [] => r
  | t :: _ => r.add (.token t)

def wrap (r : Record) (m n : Nat) : Record := { r with wrapper := Function.update r.wrapper m (some n) }

def close (r : Record) (m : Nat) (k : Kind) : Record := { r with kind := Function.update r.kind m (some k) }

def giveUp (r : Record) (m : Nat) : Record :=
  { r with pieces := if r.index m + 1 = r.pieces.length then r.pieces.dropLast else r.pieces }

def Opens (keep : Nat → Bool) (ks : List Call) (m : Nat) (o : List Nat) : Prop :=
  o = [] ∧ (keep m = false ∨ ∃ x, Run.wrapper? x ks = some m) ∨
    keep m = true ∧ (∀ x, Run.wrapper? x ks ≠ some m) ∧ o = m :: Run.around m ks

theorem pieces_place (r : Record) (m : Nat) (o : List Nat) : (r.place m o).pieces = r.pieces ++ [.slot m o] := rfl

theorem index_place (r : Record) {m x : Nat} (o : List Nat) (hx : x ≠ m) : (r.place m o).index x = r.index x :=
  Function.update_of_ne hx ..

theorem index_place_self (r : Record) (m : Nat) (o : List Nat) : (r.place m o).index m = r.pieces.length :=
  Function.update_self ..

theorem wrapper_wrap (r : Record) (m n x : Nat) : (r.wrap m n).wrapper x = if x = m then some n else r.wrapper x :=
  Function.update_apply ..

theorem kind_close (r : Record) (m : Nat) (k : Kind) (x : Nat) :
    (r.close m k).kind x = if x = m then some k else r.kind x :=
  Function.update_apply ..

theorem getElem?_concat {ps : List Piece} {p q : Piece} {i : Nat} :
    (ps ++ [p])[i]? = some q ↔ ps[i]? = some q ∨ i = ps.length ∧ p = q := by
  rw [List.getElem?_append]
  split
  · next hi => simp [Nat.ne_of_lt hi]
  · next hi =>
    have hnone : ps[i]? = none := List.getElem?_eq_none (Nat.le_of_not_lt hi)
    rw [hnone, List.getElem?_singleton]
    have : i - ps.length = 0 ↔ i = ps.length := by omega
    simp [this]

/-- The record tells what has become of the marks. Only a mark that is kept is known to stand at its index: once a mark
is given up, its index may be that of another one. -/
structure Marked (keep : Nat → Bool) (ks : List Call) (s : Marking) (r : Record) : Prop where
  sound : s.Sound
  slot : ∀ {i m o}, r.pieces[i]? = some (.slot m o) →
    r.index m = i ∧ m ∈ s.made ∧ Opens keep ks m o ∧ (keep m = true → s.Live m)
  live : ∀ {m}, s.Live m → ∃ o, r.pieces[r.index m]? = some (.slot m o)
  finish : ∀ {m k}, .finish m k ∈ r.pieces → r.kind m = some k
  kind : ∀ {m}, (r.kind m).isSome = true ↔ m ∈ s.completed
  kept : ∀ {m}, m ∈ s.completed → keep m = true
  wrapper : ∀ {m n}, r.wrapper m = some n →
    m ∈ s.completed ∧ n ∈ s.made ∧ r.index m < r.index n ∧ (keep n = true → s.Live n)

namespace Marked

variable {keep : Nat → Bool} {ks : List Call} {s : Marking} {r : Record}

theorem empty (keep : Nat → Bool) (ks : List Call) : Marked keep ks {} {} where
  sound := Marking.sound_empty
  slot := by simp
  live := by simp [Marking.Live]
  finish := by simp
  kind := by simp
  kept := by simp
  wrapper := by simp

theorem kind_eq_none (h : Marked keep ks s r) {m : Nat} (hm : m ∉ s.completed) : r.kind m = none := by
  rwa [← h.kind, Bool.not_eq_true, Option.isSome_eq_false_iff, Option.isNone_iff_eq_none] at hm

theorem ne_of_index (h : Marked keep ks s r) {m x j : Nat} {o : List Nat} (hj : j ≠ r.index m)
    (hx : r.pieces[j]? = some (.slot x o)) : x ≠ m := by
  rintro rfl
  exact hj (h.slot hx).1.symm

theorem place (h : Marked keep ks s r) {m : Nat} (hm : m ∉ s.made) {o : List Nat} (ho : Opens keep ks m o) :
    Marked keep ks { s with made := m :: s.made, pending := m :: s.pending } (r.place m o) := by
  have hne : ∀ {x}, x ∈ s.made → x ≠ m := fun hx heq => hm (heq ▸ hx)
  have hlive : ∀ {x}, s.Live x → Marking.Live { s with made := m :: s.made, pending := m :: s.pending } x :=
    fun hx => hx.imp_left (List.mem_cons_of_mem m)
  have hsound := Call.sound_mark (c := .start m) h.sound (decide_eq_true hm)
  refine { sound := hsound, slot := ?slot, live := ?live, finish := ?finish, kind := h.kind, kept := h.kept,
           wrapper := ?wrapper }
  case slot =>
    intro i x o' hi
    rcases getElem?_concat.1 hi with hi | ⟨rfl, heq⟩
    · obtain ⟨hindex, hmade, hopens, hkeep⟩ := h.slot hi
      refine ⟨?_, List.mem_cons_of_mem m hmade, hopens, fun hk => hlive (hkeep hk)⟩
      rw [index_place r o (hne hmade), hindex]
    · cases heq
      exact ⟨index_place_self r m o, List.mem_cons_self, ho, fun _ => .inl List.mem_cons_self⟩
  case live =>
    intro x hx
    by_cases hxm : x = m
    · subst hxm
      exact ⟨o, getElem?_concat.2 (.inr ⟨index_place_self r x o, rfl⟩)⟩
    · obtain ⟨o', ho'⟩ := h.live (hx.imp_left fun hx => (List.mem_cons.1 hx).resolve_left hxm)
      exact ⟨o', getElem?_concat.2 (.inl (by rwa [index_place r o hxm]))⟩
  case finish =>
    intro x k hx
    rcases List.mem_append.1 hx with hx | hx
    · exact h.finish hx
    · cases List.mem_singleton.1 hx
  case wrapper =>
    intro x y hw
    obtain ⟨hx, hy, hlt, hkeep⟩ := h.wrapper hw
    rw [index_place r o (hne (h.sound.completed hx)), index_place r o (hne hy)]
    exact ⟨hx, List.mem_cons_of_mem m hy, hlt, fun hk => hlive (hkeep hk)⟩

theorem add (h : Marked keep ks s r) {p : Piece} (hslot : ∀ m o, p ≠ .slot m o)
    (hfinish : ∀ {m k}, p = .finish m k → r.kind m = some k) : Marked keep ks s (r.add p) := by
  refine { h with slot := ?slot, live := ?live, finish := ?finish }
  case slot =>
    intro i m o hi
    rcases getElem?_concat.1 hi with hi | ⟨-, heq⟩
    · exact h.slot hi
    · exact absurd heq (hslot m o)
  case live =>
    intro m hm
    obtain ⟨o, ho⟩ := h.live hm
    exact ⟨o, getElem?_concat.2 (.inl ho)⟩
  case finish =>
    intro m k hmem
    rcases List.mem_append.1 hmem with hmem | hmem
    · exact h.finish hmem
    · exact hfinish (List.mem_singleton.1 hmem).symm

theorem precede (h : Marked keep ks s r) {m n : Nat} (hm : m ∈ s.completed) (hn : n ∉ s.made) {o : List Nat}
    (ho : Opens keep ks n o) :
    Marked keep ks { s with made := n :: s.made, pending := n :: s.pending } ((r.place n o).wrap m n) := by
  have hplace := h.place hn ho
  have hne : m ≠ n := fun heq => hn (heq ▸ h.sound.completed hm)
  have hlt : (r.place n o).index m < (r.place n o).index n := by
    obtain ⟨o', ho'⟩ := h.live (.inr hm)
    rw [index_place r o hne, index_place_self]
    exact (List.getElem?_eq_some_iff.1 ho').1
  refine ⟨hplace.sound, hplace.slot, hplace.live, hplace.finish, hplace.kind, hplace.kept, ?_⟩
  intro x y hw
  rw [wrapper_wrap] at hw
  split at hw
  · next hx =>
    subst hx
    cases hw
    exact ⟨hm, List.mem_cons_self, hlt, fun _ => .inl List.mem_cons_self⟩
  · exact hplace.wrapper hw

theorem close (h : Marked keep ks s r) {m : Nat} (hm : m ∈ s.pending) (hk : keep m = true) (k : Kind) :
    Marked keep ks ((Call.complete m k).mark s) (r.close m k) := by
  have hlive : ∀ {x}, ((Call.complete m k).mark s).Live x ↔ s.Live x := by
    intro x
    by_cases hx : x = m
    · subst hx
      exact iff_of_true (.inr List.mem_cons_self) (.inl hm)
    · simp [Marking.Live, Call.mark, hx]
  refine { sound := Call.sound_mark h.sound (decide_eq_true hm), slot := ?slot, live := fun hx => h.live (hlive.1 hx),
           finish := ?finish, kind := ?kind, kept := ?kept, wrapper := ?wrapper }
  case slot =>
    intro i x o hi
    obtain ⟨hindex, hmade, hopens, hkeep⟩ := h.slot hi
    exact ⟨hindex, hmade, hopens, fun hx => hlive.2 (hkeep hx)⟩
  case finish =>
    intro x l hx
    have hne : x ≠ m := by
      rintro rfl
      have hsome := h.finish hx
      rw [h.kind_eq_none (h.sound.disjoint hm)] at hsome
      cases hsome
    exact (Function.update_of_ne hne ..).trans (h.finish hx)
  case kind =>
    intro x
    rw [kind_close]
    split
    · next hx => exact iff_of_true rfl (hx ▸ List.mem_cons_self)
    · next hx => rw [h.kind, Call.mark, List.mem_cons, or_iff_right hx]
  case kept =>
    intro x hx
    rcases List.mem_cons.1 hx with rfl | hx
    · exact hk
    · exact h.kept hx
  case wrapper =>
    intro x y hw
    obtain ⟨hx, hy, hlt, hkeep⟩ := h.wrapper hw
    exact ⟨List.mem_cons_of_mem m hx, hy, hlt, fun hk => hlive.2 (hkeep hk)⟩

theorem complete (h : Marked keep ks s r) {m : Nat} (hm : m ∈ s.pending) (hk : keep m = true) (k : Kind) :
    Marked keep ks ((Call.complete m k).mark s) ((r.close m k).add (.finish m k)) := by
  refine (h.close hm hk k).add (fun x o heq => by cases heq) fun heq => ?_
  cases heq
  rw [kind_close, if_pos rfl]

theorem read (h : Marked keep ks s r) (ts : List Token) : Marked keep ks s (r.read ts) := by
  cases ts with
  | nil => exact h
  | cons t ts => exact h.add (fun m o heq => by cases heq) fun heq => by cases heq

theorem eq_concat (h : Marked keep ks s r) {m : Nat} (hm : s.Live m) (hk : keep m = false)
    (hlast : r.index m + 1 = r.pieces.length) : r.pieces = r.pieces.dropLast ++ [.slot m []] := by
  obtain ⟨o, ho⟩ := h.live hm
  have ho' : o = [] := by
    rcases (h.slot ho).2.2.1 with ⟨heq, -⟩ | ⟨hk', -⟩
    · exact heq
    · rw [hk] at hk'
      cases hk'
  have hgetLast : r.pieces.getLast? = some (.slot m []) := by
    rw [List.getLast?_eq_getElem?, ← hlast, Nat.add_sub_cancel, ho, ho']
  exact (List.dropLast_append_getLast? _ hgetLast).symm

theorem pieces_giveUp (h : Marked keep ks s r) {m : Nat} (hm : s.Live m) (hk : keep m = false) :
    (r.giveUp m).pieces = r.pieces ∨ r.pieces = (r.giveUp m).pieces ++ [.slot m []] := by
  rw [Record.giveUp]
  split
  · next hlast => exact .inr (h.eq_concat hm hk hlast)
  · exact .inl rfl

theorem giveUp (h : Marked keep ks s r) {m : Nat} (hm : m ∈ s.pending) (hk : keep m = false) :
    Marked keep ks ((Call.abandon m).mark s) (r.giveUp m) := by
  have hne : ∀ {x}, keep x = true → x ≠ m := by
    rintro x hx rfl
    rw [hk] at hx
    cases hx
  have hlive : ∀ {x}, x ≠ m → (((Call.abandon m).mark s).Live x ↔ s.Live x) := by
    intro x hx
    simp [Marking.Live, Call.mark, hx]
  have hdead : ¬ ((Call.abandon m).mark s).Live m := by
    rintro (hp | hd)
    · exact Call.not_mem_pending_mark rfl hp
    · exact h.sound.disjoint hm hd
  have hsub : ∀ {i : Nat} {p : Piece}, (r.giveUp m).pieces[i]? = some p → r.pieces[i]? = some p := by
    intro i p hi
    rcases h.pieces_giveUp (.inl hm) hk with heq | heq
    · rwa [← heq]
    · rw [heq]
      exact getElem?_concat.2 (.inl hi)
  refine { sound := Call.sound_mark h.sound (decide_eq_true hm), slot := ?slot, live := ?live, finish := ?finish,
           kind := h.kind, kept := h.kept, wrapper := ?wrapper }
  case slot =>
    intro i x o hi
    obtain ⟨hindex, hmade, hopens, hkeep⟩ := h.slot (hsub hi)
    exact ⟨hindex, hmade, hopens, fun hx => (hlive (hne hx)).2 (hkeep hx)⟩
  case live =>
    intro x hx
    -- what is taken back, if anything, is the start of `m`
    have hxm : x ≠ m := fun heq => hdead (heq ▸ hx)
    obtain ⟨o, ho⟩ := h.live ((hlive hxm).1 hx)
    refine ⟨o, ?_⟩
    rcases h.pieces_giveUp (.inl hm) hk with heq | heq
    · rwa [heq]
    · rw [heq] at ho
      rcases getElem?_concat.1 ho with ho | ⟨-, hslot⟩
      · exact ho
      · cases hslot
        exact absurd rfl hxm
  case finish =>
    intro x k hx
    obtain ⟨i, hi⟩ := List.getElem?_of_mem hx
    exact h.finish (List.mem_of_getElem? (hsub hi))
  case wrapper =>
    intro x y hw
    obtain ⟨hx, hy, hlt, hkeep⟩ := h.wrapper hw
    exact ⟨hx, hy, hlt, fun hk => (hlive (hne hk)).2 (hkeep hk)⟩

end Marked

structure Written (s : Marking) (u : Session) (d : Drawing) (r : Record) : Prop where
  events : u.assembly.events = r.pieces.map (r.event [])
  rest : u.assembly.rest.map Placed.token = d.rest
  tokens : u.assembly.tokens.map Placed.token = r.pieces.filterMap Piece.token? ++ d.rest
  parens : d.parens = r.pieces.flatMap Piece.parens
  marks : ∀ m ∈ s.made, u.marks m = some ⟨r.index m⟩

variable {keep : Nat → Bool} {ks : List Call} {s : Marking} {u : Session} {d : Drawing} {r : Record}

theorem event_pending {m : Nat} (h : r.kind m = none) (o : List Nat) : r.event [] (.slot m o) = .placeholder := by
  simp [event, h]

theorem event_completed {m : Nat} {k : Kind} (h : r.kind m = some k) (o : List Nat) :
    r.event [] (.slot m o) = .start k ((r.wrapper m).map r.index) := by
  simp [event, h]

theorem event_congr {q r : Record} {m : Nat} (hkind : q.kind m = r.kind m)
    (hwrapper : (q.wrapper m).map q.index = (r.wrapper m).map r.index) (o : List Nat) :
    q.event [] (.slot m o) = r.event [] (.slot m o) := by
  simp only [event, hkind, hwrapper]

theorem event_eq (q r : Record) (hkind : q.kind = r.kind) (hwrapper : q.wrapper = r.wrapper)
    (hindex : q.index = r.index) : q.event = r.event := by
  funext taken p
  cases p <;> simp only [event, hkind, hwrapper, hindex]

theorem map_event_add (r : Record) (p : Piece) :
    (r.add p).pieces.map ((r.add p).event []) = r.pieces.map (r.event []) ++ [r.event [] p] := by
  rw [event_eq (r.add p) r rfl rfl rfl, Record.add, List.map_append, List.map_singleton]

theorem event_place (h : Marked keep ks s r) {m : Nat} (hm : m ∉ s.made) (o : List Nat) (p : Piece) :
    (r.place m o).event [] p = r.event [] p := by
  cases p with
  | token t => rfl
  | finish x k => rfl
  | slot x o' =>
    have hwrapper : (r.wrapper x).map (r.place m o).index = (r.wrapper x).map r.index := by
      refine Option.map_congr fun y hy => index_place r o ?_
      exact fun heq => hm (heq ▸ (h.wrapper hy).2.1)
    exact event_congr (q := r.place m o) (r := r) rfl hwrapper o'

namespace Written

theorem length_events (h : Written s u d r) : u.assembly.events.length = r.pieces.length := by
  rw [h.events, List.length_map]

theorem event_of_live (hr : Marked keep ks s r) (h : Written s u d r) {m : Nat} (hm : s.Live m) :
    ∃ o, u.assembly.events[r.index m]? = some (r.event [] (.slot m o)) := by
  obtain ⟨o, ho⟩ := hr.live hm
  refine ⟨o, ?_⟩
  rw [h.events, List.getElem?_map, ho, Option.map_some]

theorem event_of_pending (hr : Marked keep ks s r) (h : Written s u d r) {m : Nat} (hm : m ∈ s.pending) :
    u.assembly.events[r.index m]? = some .placeholder := by
  obtain ⟨o, ho⟩ := h.event_of_live hr (.inl hm)
  rw [ho, event_pending (hr.kind_eq_none (hr.sound.disjoint hm))]

theorem complete?_eq (hr : Marked keep ks s r) (h : Written s u d r) {m : Nat} (hm : m ∈ s.pending) (k : Kind) :
    u.assembly.complete? ⟨r.index m⟩ k = some (u.assembly.complete ⟨r.index m⟩ k) :=
  if_pos (h.event_of_pending hr hm)

theorem precede?_eq (hr : Marked keep ks s r) (h : Written s u d r) {m : Nat} (hm : m ∈ s.completed) :
    u.assembly.precede? ⟨r.index m⟩ = some (u.assembly.precede ⟨r.index m⟩) := by
  obtain ⟨o, ho⟩ := h.event_of_live hr (.inr hm)
  exact if_pos (Nat.le_of_lt (List.getElem?_eq_some_iff.1 ho).1)

theorem abandon?_eq (hr : Marked keep ks s r) (h : Written s u d r) {m : Nat} (hm : m ∈ s.pending) :
    u.assembly.abandon? ⟨r.index m⟩ = some (u.assembly.abandon ⟨r.index m⟩) := by
  have hm := h.event_of_pending hr hm
  rw [Assembly.abandon?]
  split
  · next hlast =>
    rw [List.getLast?_eq_none_iff.1 hlast] at hm
    cases hm
  · next e hlast =>
    refine if_neg ?_
    rintro ⟨hlen, hne⟩
    rw [List.getLast?_eq_getElem?, ← hlen, Nat.add_sub_cancel, hm] at hlast
    exact hne (Option.some.inj hlast).symm

theorem place (hr : Marked keep ks s r) (h : Written s u d r) {m : Nat} (hm : m ∉ s.made) (o : List Nat) :
    Written { s with made := m :: s.made, pending := m :: s.pending }
      (Session.name ⟨u.assembly.push .placeholder, u.marks⟩ m ⟨u.assembly.events.length⟩)
      (d.add (o.reverse.map .opening)) (r.place m o) := by
  have hnone : (r.place m o).kind m = none := hr.kind_eq_none fun hd => hm (hr.sound.completed hd)
  refine ⟨?_, h.rest, ?_, ?_, ?_⟩
  · have hold : r.pieces.map ((r.place m o).event []) = u.assembly.events := by
      rw [h.events]
      exact List.map_congr_left fun p _ => event_place hr hm o p
    rw [pieces_place, List.map_append, hold, List.map_singleton, event_pending hnone]
    rfl
  · refine h.tokens.trans ?_
    simp [pieces_place, List.filterMap_cons, Piece.token?, Drawing.add]
  · simp [pieces_place, Piece.parens, Drawing.add, h.parens]
  · intro x hx
    by_cases hxm : x = m
    · subst hxm
      simp [Session.name, Record.place, h.length_events]
    · rw [index_place r o hxm, ← h.marks x ((List.mem_cons.1 hx).resolve_left hxm)]
      exact Function.update_of_ne hxm ..

theorem precede (hr : Marked keep ks s r) (h : Written s u d r) {m n : Nat} (hm : m ∈ s.completed) (hn : n ∉ s.made)
    (o : List Nat) :
    Written { s with made := n :: s.made, pending := n :: s.pending }
      (Session.name ⟨(u.assembly.precede ⟨r.index m⟩).2, u.marks⟩ n (u.assembly.precede ⟨r.index m⟩).1)
      (d.add (o.reverse.map .opening)) ((r.place n o).wrap m n) := by
  have hplace := h.place hr hn o
  refine ⟨?_, hplace.rest, hplace.tokens, hplace.parens, hplace.marks⟩
  have hnone : ((r.place n o).wrap m n).kind n = none := hr.kind_eq_none fun hd => hn (hr.sound.completed hd)
  obtain ⟨k, hk⟩ := Option.isSome_iff_exists.1 (hr.kind.2 hm)
  obtain ⟨o', ho'⟩ := hr.live (.inr hm)
  -- of the events that are there, only the start of `m` changes
  have hevent : ((r.place n o).wrap m n).event [] (.slot m o') =
      Assembly.pointTo u.assembly.events.length (r.event [] (.slot m o')) := by
    rw [event_completed (r := (r.place n o).wrap m n) hk, event_completed hk, wrapper_wrap, if_pos rfl]
    simp [Assembly.pointTo, Record.wrap, Record.place, h.length_events]
  have hold : r.pieces.map (((r.place n o).wrap m n).event []) =
      u.assembly.events.modify (r.index m) (Assembly.pointTo u.assembly.events.length) := by
    rw [h.events]
    refine Piece.map_eq_modify ho' (h.events ▸ hevent) fun j q hj hq => ?_
    rw [← event_place hr hn o q]
    cases q with
    | token t => rfl
    | finish x k => rfl
    | slot x o'' =>
      refine event_congr (q := (r.place n o).wrap m n) (r := r.place n o) rfl ?_ o''
      rw [wrapper_wrap, if_neg (hr.ne_of_index hj hq)]
      rfl
  have hpieces : ((r.place n o).wrap m n).pieces = r.pieces ++ [.slot n o] := rfl
  rw [hpieces, List.map_append, hold, List.map_singleton, event_pending hnone]
  rfl

theorem bump (ks : List Call) (h : Written s u d r) :
    Written s { u with assembly := u.assembly.bump } (d.draw ks .bump) (r.read d.rest) := by
  cases hd : d.rest with
  | nil =>
    have hrest : u.assembly.rest = [] := by
      rw [← List.map_eq_nil_iff (f := Placed.token), h.rest, hd]
    have hbump : u.assembly.bump = u.assembly := by simp [Assembly.bump, hrest]
    rw [hbump, Drawing.draw]
    simp only [hd]
    exact h
  | cons t ts =>
    obtain ⟨p, ps, hrest, hp, hps⟩ := List.map_eq_cons_iff.1 (h.rest.trans hd)
    subst hp
    rw [Assembly.bump_eq hrest]
    refine ⟨?_, ?_, ?_, ?_, h.marks⟩
    · rw [Record.read, map_event_add, ← h.events]
      rfl
    · rw [Assembly.rest_advance, hrest]
      simp [Drawing.draw, hd, Drawing.add, hps]
    · refine h.tokens.trans ?_
      simp [Record.read, Record.add, Drawing.draw, hd, Piece.token?]
    · simp [Record.read, Record.add, Drawing.draw, hd, Drawing.add, h.parens, Piece.parens]

theorem complete (hr : Marked keep ks s r) (h : Written s u d r) {m : Nat} (hm : m ∈ s.pending) (k : Kind) :
    Written ((Call.complete m k).mark s) { u with assembly := u.assembly.complete ⟨r.index m⟩ k }
      (d.add [.closing m k]) ((r.close m k).add (.finish m k)) := by
  have hpending : m ∉ s.completed := hr.sound.disjoint hm
  obtain ⟨o, ho⟩ := hr.live (.inl hm)
  have hkind : (r.close m k).kind m = some k := by rw [kind_close, if_pos rfl]
  have hwrapper : r.wrapper m = none := by
    rw [Option.eq_none_iff_forall_ne_some]
    exact fun n hn => hpending (hr.wrapper hn).1
  have hevent : (r.close m k).event [] (.slot m o) = .start k none := by
    rw [event_completed hkind]
    simp [Record.close, hwrapper]
  refine ⟨?_, h.rest, ?_, ?_, h.marks⟩
  · have hold : (r.close m k).pieces.map ((r.close m k).event []) =
        u.assembly.events.set (r.index m) (.start k none) := by
      rw [List.set_eq_modify, h.events]
      refine Piece.map_eq_modify ho hevent fun j q hj hq => ?_
      cases q with
      | token t => rfl
      | finish x k => rfl
      | slot x o' =>
        refine event_congr (q := r.close m k) (r := r) ?_ rfl o'
        rw [kind_close, if_neg (hr.ne_of_index hj hq)]
    rw [map_event_add, hold]
    rfl
  · refine h.tokens.trans ?_
    simp [Record.add, Record.close, List.filterMap_cons, Piece.token?, Drawing.add]
  · simp [Record.add, Record.close, Drawing.add, h.parens, Piece.parens]

theorem abandon (hr : Marked keep ks s r) (h : Written s u d r) {m : Nat} (hm : m ∈ s.pending) (hk : keep m = false) :
    Written ((Call.abandon m).mark s) { u with assembly := u.assembly.abandon ⟨r.index m⟩ } d (r.giveUp m) := by
  rw [Assembly.abandon_eq]
  refine ⟨?_, h.rest, ?_, ?_, h.marks⟩
  · rw [event_eq (r.giveUp m) r rfl rfl rfl, Record.giveUp, h.length_events, h.events]
    split
    · exact List.map_dropLast.symm
    · rfl
  · refine h.tokens.trans ?_
    rcases hr.pieces_giveUp (.inl hm) hk with heq | heq
    · rw [heq]
    · rw [heq]
      simp [List.filterMap_cons, Piece.token?]
  · rw [h.parens]
    rcases hr.pieces_giveUp (.inl hm) hk with heq | heq
    · rw [heq]
    · rw [heq]
      simp [Piece.parens]

end Written

end Record

namespace Drawing

def drawKept (keep : Nat → Bool) (ks : List Call) (d : Drawing) (c : Call) : Drawing :=
  if c.subject?.all keep then d.draw ks c else d

theorem add_nil (d : Drawing) : d.add [] = d := by
  rw [add, List.append_nil]

end Drawing

namespace Record

variable {keep : Nat → Bool} {ks : List Call} {s : Marking} {u : Session} {d : Drawing} {r : Record}

theorem opens_start {m : Nat} (hfit : (Call.start m).Fits keep ks) (d : Drawing) :
    ∃ o, Opens keep ks m o ∧ d.drawKept keep ks (.start m) = d.add (o.reverse.map .opening) := by
  cases hk : keep m with
  | false =>
    refine ⟨[], .inl ⟨rfl, .inl hk⟩, ?_⟩
    simp [Drawing.drawKept, Call.subject?, Call.makes?, hk, Drawing.add_nil]
  | true =>
    refine ⟨m :: Run.around m ks, .inr ⟨hk, hfit, rfl⟩, ?_⟩
    simp [Drawing.drawKept, Call.subject?, Call.makes?, hk, Drawing.draw, Drawing.openings]

theorem opens_precede {m n : Nat} (hfit : (Call.precede m n).Fits keep ks) (d : Drawing) :
    ∃ o, Opens keep ks n o ∧ d.drawKept keep ks (.precede m n) = d.add (o.reverse.map .opening) := by
  cases hk : keep n with
  | false =>
    refine ⟨[], .inl ⟨rfl, .inl hk⟩, ?_⟩
    simp [Drawing.drawKept, Call.subject?, Call.makes?, hk, Drawing.add_nil]
  | true =>
    by_cases hw : Run.wrapper? m ks = some n
    · refine ⟨[], .inl ⟨rfl, .inr ⟨m, hw⟩⟩, ?_⟩
      simp [Drawing.drawKept, Call.subject?, Call.makes?, hk, Drawing.draw, hw, Drawing.add_nil]
    · refine ⟨n :: Run.around n ks, .inr ⟨hk, fun x hx => hw (hfit x hx ▸ hx), rfl⟩, ?_⟩
      simp [Drawing.drawKept, Call.subject?, Call.makes?, hk, Drawing.draw, hw, Drawing.openings]

theorem wrapper_read (r : Record) (ts : List Token) : (r.read ts).wrapper = r.wrapper := by
  cases ts <;> rfl

theorem step (hr : Marked keep ks s r) (h : Written s u d r) {c : Call} (hc : c.isAllowed s = true)
    (hfit : c.Fits keep ks) :
    ∃ u' r', c.step? u = some u' ∧ Marked keep ks (c.mark s) r' ∧ Written (c.mark s) u' (d.drawKept keep ks c) r' ∧
      ∀ x, r'.wrapper x = (c.wrapper? x).or (r.wrapper x) := by
  cases c with
  | start m =>
    have hm : m ∉ s.made := of_decide_eq_true hc
    obtain ⟨o, ho, hdraw⟩ := opens_start hfit d
    rw [hdraw]
    exact ⟨_, r.place m o, rfl, hr.place hm ho, h.place hr hm o, fun x => rfl⟩
  | bump =>
    refine ⟨_, r.read d.rest, rfl, hr.read d.rest, h.bump ks, fun x => ?_⟩
    rw [wrapper_read]
    rfl
  | complete m k =>
    have hm : m ∈ s.pending := of_decide_eq_true hc
    refine ⟨_, (r.close m k).add (.finish m k), ?_, hr.complete hm hfit k, h.complete hr hm k, fun x => rfl⟩
    simp [Call.step?, h.marks m (hr.sound.pending hm), h.complete?_eq hr hm]
  | precede m n =>
    rw [Call.isAllowed, Bool.and_eq_true, decide_eq_true_eq, decide_eq_true_eq] at hc
    obtain ⟨hm, hn⟩ := hc
    obtain ⟨o, ho, hdraw⟩ := opens_precede hfit d
    rw [hdraw]
    refine ⟨_, (r.place n o).wrap m n, ?_, hr.precede hm hn ho, h.precede hr hm hn o, fun x => ?_⟩
    · simp [Call.step?, h.marks m (hr.sound.completed hm), h.precede?_eq hr hm]
    · by_cases hx : x = m
      · simp [wrapper_wrap, Call.wrapper?, hx]
      · simp [wrapper_wrap, Call.wrapper?, hx, Ne.symm hx, Record.place]
  | abandon m =>
    have hm : m ∈ s.pending := of_decide_eq_true hc
    have hdraw : d.drawKept keep ks (.abandon m) = d := by
      rw [Drawing.drawKept]
      split <;> rfl
    rw [hdraw]
    refine ⟨_, r.giveUp m, ?_, hr.giveUp hm hfit, h.abandon hr hm hfit, fun x => rfl⟩
    simp [Call.step?, h.marks m (hr.sound.pending hm), h.abandon?_eq hr hm]

theorem run {cs : List Call} (hr : Marked keep ks s r) (h : Written s u d r) (hcs : Run.isOrderly cs s = true)
    (hfit : ∀ c ∈ cs, c.Fits keep ks) :
    ∃ s' u' r', Run.run? cs u = some u' ∧ s'.pending = [] ∧ Marked keep ks s' r' ∧
      Written s' u' (cs.foldl (Drawing.drawKept keep ks) d) r' ∧
      ∀ x, r'.wrapper x = (Run.wrapper? x cs).or (r.wrapper x) := by
  induction cs generalizing s u d r with
  | nil => exact ⟨s, u, r, rfl, List.isEmpty_iff.1 hcs, hr, h, fun x => rfl⟩
  | cons c cs ih =>
    obtain ⟨hc, hcs⟩ := Run.isOrderly_cons.1 hcs
    obtain ⟨u₁, r₁, hstep, hr₁, h₁, hw₁⟩ := step hr h hc (hfit c List.mem_cons_self)
    obtain ⟨s', u', r', hrun, hp, hr', h', hw'⟩ := ih hr₁ h₁ hcs fun d hd => hfit d (List.mem_cons_of_mem c hd)
    refine ⟨s', u', r', ?_, hp, hr', h', fun x => ?_⟩
    · rw [Run.run?, hstep, Option.bind_some, hrun]
    · rw [hw', hw₁, Run.wrapper?, Option.or_assoc]

end Record

end LosslessYaml
