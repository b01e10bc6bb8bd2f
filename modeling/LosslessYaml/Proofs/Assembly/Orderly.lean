import LosslessYaml.Proofs.Assembly.Call
import Mathlib.Data.List.Pairwise

namespace LosslessYaml

namespace Marking

structure Sound (s : Marking) : Prop where
  pending : s.pending ⊆ s.made
  completed : s.completed ⊆ s.made
  disjoint : s.pending.Disjoint s.completed

theorem sound_empty : Sound {} := ⟨List.nil_subset _, List.nil_subset _, List.disjoint_nil_left _⟩

def keeping (keep : Nat → Bool) (s : Marking) : Marking :=
  ⟨s.made.filter keep, s.pending.filter keep, s.completed⟩

end Marking

namespace Call

variable {s : Marking} {c : Call}

theorem made_subset (s : Marking) (c : Call) : s.made ⊆ (c.mark s).made := by
  cases c <;> simp [mark]

theorem mem_made_mark {m : Nat} (h : c.makes? = some m) : m ∈ (c.mark s).made := by
  cases c <;> simp_all [mark, makes?]

theorem not_mem_made {m : Nat} (hc : c.isAllowed s = true) (h : c.makes? = some m) : m ∉ s.made := by
  cases c <;> simp_all [isAllowed, makes?]

theorem mem_pending {m : Nat} (hc : c.isAllowed s = true) (h : c.ends? = some m) : m ∈ s.pending := by
  cases c <;> simp_all [isAllowed, ends?]

theorem not_mem_pending_mark {m : Nat} (h : c.ends? = some m) : m ∉ (c.mark s).pending := by
  cases c <;> simp_all [mark, ends?]

theorem makes_of_mem_pending {m : Nat} (h : m ∈ (c.mark s).pending) (hm : m ∉ s.pending) : c.makes? = some m := by
  cases c <;> simp_all [mark, makes?]

theorem sound_mark (hs : s.Sound) (hc : c.isAllowed s = true) : (c.mark s).Sound := by
  obtain ⟨hp, hd, hdis⟩ := hs
  -- a mark that is being made is not completed
  have hnew : ∀ {m}, c.makes? = some m → m ∉ s.completed := fun hm h => not_mem_made hc hm (hd h)
  cases c with
  | start m =>
    exact ⟨List.cons_subset_cons m hp, fun x hx => List.mem_cons_of_mem m (hd hx),
      List.disjoint_cons_left.2 ⟨hnew rfl, hdis⟩⟩
  | bump => exact ⟨hp, hd, hdis⟩
  | complete m k =>
    refine ⟨fun x hx => hp (List.mem_filter.1 hx).1, List.cons_subset.2 ⟨hp (mem_pending hc rfl), hd⟩, ?_⟩
    refine List.disjoint_cons_right.2 ⟨?_, fun x hx => hdis (List.mem_filter.1 hx).1⟩
    exact fun h => of_decide_eq_true (List.mem_filter.1 h).2 rfl
  | precede m n =>
    exact ⟨List.cons_subset_cons n hp, fun x hx => List.mem_cons_of_mem n (hd hx),
      List.disjoint_cons_left.2 ⟨hnew rfl, hdis⟩⟩
  | abandon m =>
    exact ⟨fun x hx => hp (List.mem_filter.1 hx).1, hd, fun x hx => hdis (List.mem_filter.1 hx).1⟩

def Apart (f : Call → Option Nat) (c d : Call) : Prop := ∀ m, ¬ (f c = some m ∧ f d = some m)

instance (f : Call → Option Nat) : Std.Symm (Apart f) := ⟨fun _ _ h m hm => h m hm.symm⟩

theorem eq_of_apart {f : Call → Option Nat} {cs : List Call} (h : cs.Pairwise (Apart f)) {c d : Call} {m : Nat}
    (hc : c ∈ cs) (hd : d ∈ cs) (hcm : f c = some m) (hdm : f d = some m) : c = d := by
  by_contra hne
  exact h.forall hc hd hne m ⟨hcm, hdm⟩

theorem eq_precede_of_wrapper? {m n : Nat} (h : c.wrapper? m = some n) : c = .precede m n := by
  cases c <;> simp_all [wrapper?]

/-- A call of a run of which `ks` is kept. Every mark has one call that makes it, and only those kept are
completed. -/
def Fits (keep : Nat → Bool) (ks : List Call) : Call → Prop
  | .start m => ∀ x, Run.wrapper? x ks ≠ some m
  | .bump => True
  | .complete m _ => keep m = true
  | .precede m n => ∀ x, Run.wrapper? x ks = some n → x = m
  | .abandon m => keep m = false

variable {keep : Nat → Bool} {ks : List Call}

theorem isAllowed_keeping (hfit : c.Fits keep ks) (hk : c.subject?.all keep = true) (hc : c.isAllowed s = true) :
    c.isAllowed (s.keeping keep) = true := by
  cases c with
  | start m =>
    rw [isAllowed, decide_eq_true_eq] at hc ⊢
    exact fun h => hc (List.mem_filter.1 h).1
  | bump => rfl
  | complete m k =>
    rw [isAllowed, decide_eq_true_eq] at hc ⊢
    exact List.mem_filter.2 ⟨hc, hfit⟩
  | precede m n =>
    rw [isAllowed, Bool.and_eq_true, decide_eq_true_eq, decide_eq_true_eq] at hc ⊢
    exact ⟨hc.1, fun h => hc.2 (List.mem_filter.1 h).1⟩
  | abandon m =>
    rw [isAllowed, decide_eq_true_eq] at hc ⊢
    exact List.mem_filter.2 ⟨hc, hk⟩

theorem keeping_mark (hfit : c.Fits keep ks) :
    (c.mark s).keeping keep = if c.subject?.all keep then c.mark (s.keeping keep) else s.keeping keep := by
  cases c with
  | start m => cases hm : keep m <;> simp [mark, subject?, makes?, Marking.keeping, hm]
  | bump => rfl
  | complete m k => simp [mark, subject?, makes?, Marking.keeping, List.filter_filter, Bool.and_comm]
  | precede m n => cases hn : keep n <;> simp [mark, subject?, makes?, Marking.keeping, hn]
  | abandon m =>
    have hm : keep m = false := hfit
    have hfilter : s.pending.filter (fun x => keep x && decide (x ≠ m)) = s.pending.filter keep := by
      refine List.filter_congr fun x _ => ?_
      cases hx : keep x with
      | false => rfl
      | true => simp [show x ≠ m from fun h => by simp [← h, hx] at hm]
    simp only [mark, subject?, Option.all_some, hm, Marking.keeping, List.filter_filter, hfilter]
    rfl

end Call

namespace Run

variable {cs : List Call} {s : Marking}

theorem isOrderly_cons {c : Call} :
    isOrderly (c :: cs) s = true ↔ c.isAllowed s = true ∧ isOrderly cs (c.mark s) = true := by
  rw [isOrderly, Bool.and_eq_true]

theorem not_mem_made {c : Call} {m : Nat} (h : isOrderly cs s = true) (hc : c ∈ cs) (hm : c.makes? = some m) :
    m ∉ s.made := by
  induction cs generalizing s with
  | nil => exact absurd hc List.not_mem_nil
  | cons d cs ih =>
    obtain ⟨hd, h⟩ := isOrderly_cons.1 h
    rcases List.mem_cons.1 hc with rfl | hc
    · exact Call.not_mem_made hd hm
    · exact fun hmade => ih h hc (d.made_subset s hmade)

theorem not_ends {c : Call} {m : Nat} (h : isOrderly cs s = true) (hc : c ∈ cs) (hmade : m ∈ s.made)
    (hm : m ∉ s.pending) : c.ends? ≠ some m := by
  induction cs generalizing s with
  | nil => exact absurd hc List.not_mem_nil
  | cons d cs ih =>
    obtain ⟨hd, h⟩ := isOrderly_cons.1 h
    rcases List.mem_cons.1 hc with rfl | hc
    · exact fun hends => hm (Call.mem_pending hd hends)
    · refine ih h hc (d.made_subset s hmade) fun hp => ?_
      exact Call.not_mem_made hd (Call.makes_of_mem_pending hp hm) hmade

theorem pairwise_makes (h : isOrderly cs s = true) : cs.Pairwise (Call.Apart Call.makes?) := by
  induction cs generalizing s with
  | nil => exact List.Pairwise.nil
  | cons c cs ih =>
    obtain ⟨-, h⟩ := isOrderly_cons.1 h
    exact List.pairwise_cons.2
      ⟨fun d hd m hm => not_mem_made h hd hm.2 (Call.mem_made_mark hm.1), ih h⟩

theorem pairwise_ends (hs : s.Sound) (h : isOrderly cs s = true) : cs.Pairwise (Call.Apart Call.ends?) := by
  induction cs generalizing s with
  | nil => exact List.Pairwise.nil
  | cons c cs ih =>
    obtain ⟨hc, h⟩ := isOrderly_cons.1 h
    refine List.pairwise_cons.2 ⟨fun d hd m hm => ?_, ih (Call.sound_mark hs hc) h⟩
    exact not_ends h hd (c.made_subset s (hs.pending (Call.mem_pending hc hm.1))) (Call.not_mem_pending_mark hm.1) hm.2

theorem mem_abandoned {m : Nat} : m ∈ abandoned cs ↔ .abandon m ∈ cs := by
  rw [abandoned, List.mem_filterMap]
  constructor
  · rintro ⟨c, hc, h⟩
    cases c <;> simp_all
  · exact fun h => ⟨_, h, rfl⟩

theorem mem_of_wrapper? {m n : Nat} (h : wrapper? m cs = some n) : .precede m n ∈ cs := by
  induction cs with
  | nil => simp [wrapper?] at h
  | cons c cs ih =>
    rcases Option.or_eq_some_iff.1 h with h | ⟨-, h⟩
    · exact List.mem_cons_of_mem c (ih h)
    · rw [Call.eq_precede_of_wrapper? h]
      exact List.mem_cons_self

theorem around_cons {c : Call} {m : Nat} (h : c.wrapper? m = none) : around m (c :: cs) = around m cs := by
  rw [around]
  split
  · next hc => rw [h] at hc; cases hc
  · rfl

theorem wrapper?_of_makes {c d : Call} {m : Nat} (hs : s.Sound) (h : isOrderly (c :: cs) s = true) (hd : d ∈ c :: cs)
    (hm : d.makes? = some m) : c.wrapper? m = none := by
  rw [Option.eq_none_iff_forall_ne_some]
  intro n hn
  have hc := (isOrderly_cons.1 h).1
  rw [Call.eq_precede_of_wrapper? hn, Call.isAllowed, Bool.and_eq_true, decide_eq_true_eq] at hc
  exact not_mem_made h hd hm (hs.completed hc.1)

theorem around_eq (hs : s.Sound) (h : isOrderly cs s = true) (m : Nat) :
    around m cs = match wrapper? m cs with | none => [] | some n => n :: around n cs := by
  induction cs generalizing s with
  | nil => rfl
  | cons c cs ih =>
    obtain ⟨hc, ho⟩ := isOrderly_cons.1 h
    rw [wrapper?, around]
    cases hm : wrapper? m cs with
    | none =>
      cases hn : c.wrapper? m with
      | none => simp [ih (Call.sound_mark hs hc) ho, hm]
      | some n =>
        have hmade : c.makes? = some n := by
          rw [Call.eq_precede_of_wrapper? hn]
          rfl
        simp [around_cons (wrapper?_of_makes hs h List.mem_cons_self hmade)]
    | some n =>
      have hmem : .precede m n ∈ c :: cs := List.mem_cons_of_mem c (mem_of_wrapper? hm)
      simp [ih (Call.sound_mark hs hc) ho, hm, around_cons (wrapper?_of_makes hs h hmem rfl)]

theorem keeping_cons (keep : Nat → Bool) (c : Call) (cs : List Call) :
    keeping keep (c :: cs) = if c.subject?.all keep then c :: keeping keep cs else keeping keep cs := by
  rw [keeping, List.filter_cons]
  rfl

theorem isOrderly_keeping {keep : Nat → Bool} {ks : List Call} (hfit : ∀ c ∈ cs, c.Fits keep ks)
    (h : isOrderly cs s = true) : isOrderly (keeping keep cs) (s.keeping keep) = true := by
  induction cs generalizing s with
  | nil => simp_all [isOrderly, keeping, Marking.keeping]
  | cons c cs ih =>
    obtain ⟨hc, h⟩ := isOrderly_cons.1 h
    have hcs := ih (fun d hd => hfit d (List.mem_cons_of_mem c hd)) h
    rw [Call.keeping_mark (hfit c List.mem_cons_self)] at hcs
    rw [keeping_cons]
    split
    · next hk =>
      rw [if_pos hk] at hcs
      exact isOrderly_cons.2 ⟨Call.isAllowed_keeping (hfit c List.mem_cons_self) hk hc, hcs⟩
    · next hk => rwa [if_neg hk] at hcs

theorem wrapper?_keeping {keep : Nat → Bool} {m : Nat} (h : ∀ n, wrapper? m cs = some n → keep n = true) :
    wrapper? m (keeping keep cs) = wrapper? m cs := by
  induction cs with
  | nil => rfl
  | cons c cs ih =>
    rw [wrapper?] at h
    rw [keeping_cons, wrapper?]
    cases hm : wrapper? m cs with
    | some n =>
      rw [hm] at h
      rw [hm] at ih
      split <;> simp [wrapper?, ih h]
    | none =>
      rw [hm] at h
      rw [hm] at ih
      cases hc : c.wrapper? m with
      | some n =>
        have hk : keep n = true := h n hc
        have hkept : c.subject?.all keep = true := by
          rw [Call.eq_precede_of_wrapper? hc]
          exact hk
        simp [hkept, wrapper?, ih, hc]
      | none => split <;> simp [wrapper?, ih, hc]

theorem fits_kept (h : isOrderly cs {} = true) {c : Call} (hc : c ∈ cs) :
    c.Fits (· ∉ abandoned cs) (kept cs) := by
  have hmade : ∀ {x n : Nat}, wrapper? x (kept cs) = some n → c.makes? = some n → c = .precede x n :=
    fun hx hn => Call.eq_of_apart (pairwise_makes h) hc (List.mem_filter.1 (mem_of_wrapper? hx)).1 hn rfl
  cases c with
  | start m =>
    intro x hx
    cases hmade hx rfl
  | bump => trivial
  | complete m k =>
    rw [Call.Fits, decide_eq_true_eq]
    intro hm
    cases Call.eq_of_apart (pairwise_ends Marking.sound_empty h) hc (mem_abandoned.1 hm) rfl rfl
  | precede m n =>
    intro x hx
    cases hmade hx rfl
    rfl
  | abandon m => simpa [Call.Fits] using mem_abandoned.2 hc

end Run

end LosslessYaml
