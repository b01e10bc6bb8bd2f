import LosslessYaml.Host.Files
import LosslessYaml.Proofs.Text.Utf8
import LosslessYaml.Proofs.Toml.Assignment
import LosslessYaml.Settings

namespace LosslessYaml.Settings

open Toml (Entries assigned assignments)
open Toml.Reader (IsBare)

def Fits (s : Settings) : Prop := s.indentUnit < columnLimit ∧ s.tabSize < columnLimit

def Positive (s : Settings) : Prop := 1 ≤ s.indentUnit ∧ 1 ≤ s.tabSize

instance (s : Settings) : Decidable s.Fits := inferInstanceAs (Decidable (_ ∧ _))

instance (s : Settings) : Decidable s.Positive := inferInstanceAs (Decidable (_ ∧ _))

def values (s : Settings) : List (Toml.Key × Nat) :=
  [(Field.indentUnit.name.toList, s.indentUnit), (Field.tabSize.name.toList, s.tabSize)]

variable {s : Settings}

theorem toToml_eq (s : Settings) : s.toToml = assignments s.values := by
  rw [assignments, values, List.flatMap_cons, List.flatMap_cons, List.flatMap_nil, List.append_nil]
  rfl

theorem isBare_name (f : Field) : IsBare f.name.toList := by
  cases f with
  | indentUnit => exact ⟨by decide, List.all_eq_true.1 (by decide)⟩
  | tabSize => exact ⟨by decide, List.all_eq_true.1 (by decide)⟩

theorem read_toToml (hs : s.Fits) : Toml.read s.toToml = some (assigned s.values) := by
  have hsmall {n : Nat} (hn : n < columnLimit) : n < Nat.pow 2 128 := Nat.lt_of_lt_of_le hn (by decide)
  have hkeys : [Field.indentUnit.name.toList, Field.tabSize.name.toList].Nodup := by decide
  rw [toToml_eq]
  refine Toml.read_assignments ?_ hkeys
  rw [values, List.forall_mem_cons, List.forall_mem_singleton]
  exact ⟨⟨isBare_name _, hsmall hs.1⟩, isBare_name _, hsmall hs.2⟩

theorem field?_of_lookup {es : Entries} {f : Field} {n : Nat} (h : es.lookup f.name.toList = some (.integer n))
    (hn : n < columnLimit) (default : Nat) : field? es f default = some n := by
  rw [field?, h]
  exact if_pos hn

theorem ofEntries?_assigned (hs : s.Fits) : ofEntries? (assigned s.values) = some s := by
  have hunit : (assigned s.values).lookup Field.indentUnit.name.toList = some (.integer s.indentUnit) := rfl
  have htab : (assigned s.values).lookup Field.tabSize.name.toList = some (.integer s.tabSize) := rfl
  simp [ofEntries?, field?_of_lookup hunit hs.1, field?_of_lookup htab hs.2]

theorem ofText?_toToml (hs : s.Fits) : ofText? s.toToml = some s := by
  rw [ofText?, read_toToml hs]
  exact ofEntries?_assigned hs

theorem ofBytes_encode (hs : s.Fits) (path : String) : ofBytes path (Utf8.encode s.toToml) =
    match s.zeroField? with
    | some f => .error (.zeroWidth path f)
    | none => .ok s := by
  cases hzero : s.zeroField? with
  | some f => simp only [ofBytes, Utf8.decode_encode, ofText?_toToml hs, hzero]
  | none => simp only [ofBytes, Utf8.decode_encode, ofText?_toToml hs, hzero]

theorem load?_of_file {h : Host} {path : String} {bs : List UInt8} (hfile : h.look path = .file bs) :
    load? h path = (ofBytes path bs).map some := by
  rw [load?, hfile]
  rfl

theorem lt_of_field? {es : Entries} {f : Field} {default n : Nat} (hdefault : default < columnLimit)
    (h : field? es f default = some n) : n < columnLimit := by
  unfold field? at h
  split at h
  · exact Option.some.inj h ▸ hdefault
  · split at h
    · next hn => exact Option.some.inj h ▸ hn
    · cases h
  · cases h

theorem fits_of_ofText? {text : List Char} (h : ofText? text = some s) : s.Fits := by
  simp only [ofText?, ofEntries?, Option.bind_eq_bind, Option.bind_eq_some_iff, Option.pure_def, Option.some.injEq] at h
  obtain ⟨es, -, unit, hunit, tab, htab, rfl⟩ := h
  exact ⟨lt_of_field? (by decide) hunit, lt_of_field? (by decide) htab⟩

theorem positive_of_zeroField? (h : s.zeroField? = none) : s.Positive := by
  unfold zeroField? at h
  split at h
  · cases h
  · next hunit =>
    split at h
    · cases h
    · next htab => exact ⟨Nat.pos_of_ne_zero hunit, Nat.pos_of_ne_zero htab⟩

theorem usable_of_ofBytes {path : String} {bs : List UInt8} (h : ofBytes path bs = .ok s) : s.Fits ∧ s.Positive := by
  unfold ofBytes at h
  split at h
  · cases h
  · split at h
    · cases h
    · next hs =>
      split at h
      · cases h
      · next hzero =>
        obtain rfl := Except.ok.inj h
        exact ⟨fits_of_ofText? hs, positive_of_zeroField? hzero⟩

theorem usable_of_load? {h : Host} {path : String} (hload : load? h path = .ok (some s)) : s.Fits ∧ s.Positive := by
  unfold load? at hload
  dsimp only at hload
  split at hload
  · split at hload
    · cases hload
    · next bs _ =>
      cases hs : ofBytes path bs with
      | error e =>
        rw [hs] at hload
        cases hload
      | ok t =>
        rw [hs] at hload
        cases hload
        exact usable_of_ofBytes hs
  · cases hload

theorem usable_usual : Fits {} ∧ Positive {} := by decide

theorem usable_of_load {h : Host} {path : String} (hload : load h path = .ok s) : s.Fits ∧ s.Positive := by
  rw [load] at hload
  cases hs : load? h path with
  | error e =>
    rw [hs] at hload
    cases hload
  | ok t =>
    rw [hs] at hload
    obtain rfl := Except.ok.inj hload
    cases t with
    | none => exact usable_usual
    | some t => exact usable_of_load? hs

theorem load?_toToml (hs : s.Fits) {h : Host} {path : String} (hfile : h.look path = .file (Utf8.encode s.toToml)) :
    load? h path =
      match s.zeroField? with
      | some f => .error (.zeroWidth path f)
      | none => .ok (some s) := by
  rw [load?_of_file hfile, ofBytes_encode hs]
  cases s.zeroField? <;> rfl

/-- A file that settings were written to gives them back, unless a width is zero, which is an error that names the first
such field. Whatever there is under a path, settings that are loaded from it have no width of zero. -/
theorem load_toToml :
    (∀ s h path, Fits s → h.look path = .file (Utf8.encode s.toToml) →
      (s.Positive → load? h path = .ok (some s)) ∧
        (s.indentUnit = 0 → load? h path = .error (.zeroWidth path .indentUnit)) ∧
        (1 ≤ s.indentUnit → s.tabSize = 0 → load? h path = .error (.zeroWidth path .tabSize))) ∧
      ∀ h path s, load? h path = .ok (some s) ∨ load h path = .ok s → s.Fits ∧ s.Positive := by
  refine ⟨fun s h path hs hfile => ?_, fun h path s hload => hload.elim usable_of_load? usable_of_load⟩
  rw [load?_toToml hs hfile, zeroField?]
  refine ⟨fun ⟨hunit, htab⟩ => ?_, fun hunit => ?_, fun hunit htab => ?_⟩
  · rw [if_neg (Nat.ne_of_gt hunit), if_neg (Nat.ne_of_gt htab)]
  · rw [if_pos hunit]
  · rw [if_neg (Nat.ne_of_gt hunit), if_pos htab]

theorem load_toToml_widest : ∃ h : Host,
    h.look "a.toml" = .file (Utf8.encode (toToml ⟨4294967295, 1⟩)) ∧
      h.look "b.toml" = .file (Utf8.encode (toToml ⟨10, 0⟩)) ∧ Fits ⟨4294967295, 1⟩ ∧ Fits ⟨10, 0⟩ ∧
      load? h "a.toml" = .ok (some ⟨4294967295, 1⟩) ∧ load? h "b.toml" = .error (.zeroWidth "b.toml" .tabSize) ∧
      Positive ⟨4294967295, 1⟩ := by
  obtain ⟨h, ha, hb⟩ : ∃ h : Host, h.look "a.toml" = .file (Utf8.encode (toToml ⟨4294967295, 1⟩)) ∧
      h.look "b.toml" = .file (Utf8.encode (toToml ⟨10, 0⟩)) :=
    ⟨(Files.ofList [("a.toml", .file (Utf8.encode (toToml ⟨4294967295, 1⟩))),
      ("b.toml", .file (Utf8.encode (toToml ⟨10, 0⟩)))]).host [], rfl, rfl⟩
  have hwide : Fits ⟨4294967295, 1⟩ := by decide
  have hnarrow : Fits ⟨10, 0⟩ := by decide
  obtain ⟨hwritten, husable⟩ := load_toToml
  have hsome := (hwritten _ h _ hwide ha).1 (by decide)
  have hzero := (hwritten _ h _ hnarrow hb).2.2 (by decide) rfl
  exact ⟨h, ha, hb, hwide, hnarrow, hsome, hzero, (husable _ _ _ (.inl hsome)).2⟩

end LosslessYaml.Settings
