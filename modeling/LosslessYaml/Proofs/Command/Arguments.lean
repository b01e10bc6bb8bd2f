import LosslessYaml.Command

/-! Lists of arguments that are accepted. Behind the command they fall into groups, read from left to right: a path of a
settings file belongs to the option in front of it, whatever the path looks like. What the groups ask for does not
depend on their order, unless several of them name settings files. -/

namespace LosslessYaml

def Command.word : Command → String
  | .regions => "regions"
  | .folds => "folds"
  | .indent => "indent"
  | .config => "config"

theorem Command.ofWord?_eq_some_iff {w : String} {c : Command} : ofWord? w = some c ↔ w = c.word := by
  constructor
  · intro h
    unfold ofWord? at h
    split at h <;> cases h <;> rfl
  · rintro rfl
    cases c <;> rfl

namespace Options

inductive Group : Type
  | frontmatter
  | settings (path : String)
  | file (path : String) (plain : isOption path = false)
  deriving DecidableEq

namespace Group

def words : Group → List String
  | .frontmatter => ["--frontmatter"]
  | .settings path => ["--config", path]
  | .file path _ => [path]

def settings? : Group → Option String
  | .settings path => some path
  | _ => none

def file? : Group → Option String
  | .file path _ => some path
  | _ => none

theorem isOption_frontmatter : isOption "--frontmatter" = true := by decide

theorem isOption_config : isOption "--config" = true := by decide

theorem words_append_inj {g h : Group} {xs ys : List String} (e : g.words ++ xs = h.words ++ ys) :
    g = h ∧ xs = ys := by
  cases g <;> cases h <;> grind [words, isOption_frontmatter, isOption_config]

theorem words_ne_nil (g : Group) : g.words ≠ [] := by cases g <;> exact List.cons_ne_nil _ _

theorem flatMap_words_inj {gs hs : List Group} (e : gs.flatMap words = hs.flatMap words) : gs = hs := by
  induction gs generalizing hs with
  | nil =>
    cases hs with
    | nil => rfl
    | cons h hs => exact absurd (List.append_eq_nil_iff.1 e.symm).1 h.words_ne_nil
  | cons g gs ih =>
    cases hs with
    | nil => exact absurd (List.append_eq_nil_iff.1 e).1 g.words_ne_nil
    | cons h hs =>
      obtain ⟨rfl, hs⟩ := words_append_inj e
      rw [ih hs]

end Group

def argsOf (c : Command) (gs : List Group) : List String := c.word :: gs.flatMap Group.words

theorem argsOf_inj {c c' : Command} {gs hs : List Group} (e : argsOf c gs = argsOf c' hs) : c = c' ∧ gs = hs := by
  obtain ⟨hword, hgroups⟩ := List.cons.inj e
  have hc : Command.ofWord? c'.word = some c := Command.ofWord?_eq_some_iff.2 hword.symm
  exact ⟨Option.some.inj (hc.symm.trans (Command.ofWord?_eq_some_iff.2 rfl)), Group.flatMap_words_inj hgroups⟩

def filesOf (gs : List Group) : List String := gs.filterMap Group.file?

def settingsOf (gs : List Group) : List String := gs.filterMap Group.settings?

def ofGroups (c : Command) (gs : List Group) : Options where
  command := c
  file := (filesOf gs).head?
  frontmatter := decide (.frontmatter ∈ gs)
  configPath := (settingsOf gs).getLast?

structure Accepts (c : Command) (gs : List Group) : Prop where
  oneFile : (filesOf gs).length ≤ 1
  needed : c = .config ∨ filesOf gs ≠ []

def add (o : Options) : Group → Options
  | .frontmatter => { o with frontmatter := true }
  | .settings path => { o with configPath := some path }
  | .file path _ => { o with file := some path }

theorem readFrom_file {path : String} (plain : isOption path = false) (o : Options) (args : List String) :
    readFrom o (path :: args) =
      if o.file.isSome then .error (.unexpected path) else readFrom { o with file := some path } args := by
  have hne {word : String} (h : isOption word = true) : path ≠ word := by
    rintro rfl
    rw [plain] at h
    cases h
  rw [readFrom, plain]
  · rfl
  · exact fun h _ => hne Group.isOption_config h
  · exact fun _ _ h _ => hne Group.isOption_config h
  · exact hne Group.isOption_frontmatter

theorem readFrom_flatMap_words {o : Options} {gs : List Group} (h : o.file.toList.length + (filesOf gs).length ≤ 1) :
    readFrom o (gs.flatMap Group.words) = .ok (gs.foldl add o) := by
  induction gs generalizing o with
  | nil => rfl
  | cons g gs ih =>
    cases g with
    | frontmatter => exact ih h
    | settings path => exact ih h
    | file path plain =>
      have hfiles : filesOf (.file path plain :: gs) = path :: filesOf gs := rfl
      rw [hfiles, List.length_cons] at h
      have hnone : o.file = none := by
        cases ho : o.file with
        | none => rfl
        | some file =>
          rw [ho, Option.toList_some, List.length_singleton] at h
          omega
      rw [hnone, Option.toList_none, List.length_nil] at h
      have hrest := readFrom_file plain o (gs.flatMap Group.words)
      rw [hnone] at hrest
      refine hrest.trans (ih ?_)
      rw [Option.toList_some, List.length_singleton]
      omega

theorem exists_groups_of_readFrom {o r : Options} {args : List String} (h : readFrom o args = .ok r) :
    ∃ gs : List Group, args = gs.flatMap Group.words ∧ o.file.toList.length + (filesOf gs).length ≤ 1 := by
  fun_induction readFrom o args with
  | case1 o => exact ⟨[], rfl, by cases o.file <;> simp [filesOf]⟩
  | case2 o => cases h
  | case3 o path args ih =>
    obtain ⟨gs, rfl, hfiles⟩ := ih h
    exact ⟨.settings path :: gs, rfl, hfiles⟩
  | case4 o args ih =>
    obtain ⟨gs, rfl, hfiles⟩ := ih h
    exact ⟨.frontmatter :: gs, rfl, hfiles⟩
  | case5 => cases h
  | case6 => cases h
  | case7 o word args _ _ _ hplain hnone ih =>
    obtain ⟨gs, rfl, hfiles⟩ := ih h
    have hplain : isOption word = false := Bool.eq_false_iff.2 hplain
    refine ⟨.file word hplain :: gs, rfl, ?_⟩
    have hword : filesOf (.file word hplain :: gs) = word :: filesOf gs := rfl
    rw [Option.not_isSome_iff_eq_none] at hnone
    rw [Option.toList_some, List.length_singleton] at hfiles
    rw [hword, hnone, Option.toList_none, List.length_nil, List.length_cons]
    omega

theorem foldl_add (o : Options) (gs : List Group) : gs.foldl add o =
    { command := o.command
      file := (filesOf gs).getLast?.or o.file
      frontmatter := o.frontmatter || decide (.frontmatter ∈ gs)
      configPath := (settingsOf gs).getLast?.or o.configPath } := by
  induction gs generalizing o with
  | nil => simp [filesOf, settingsOf]
  | cons g gs ih =>
    rw [List.foldl_cons, ih]
    cases g with
    | frontmatter => simp [add, filesOf, settingsOf, Group.file?, Group.settings?]
    | settings path => simp [add, filesOf, settingsOf, Group.file?, Group.settings?, List.getLast?_cons]
    | file path plain => simp [add, filesOf, settingsOf, Group.file?, Group.settings?, List.getLast?_cons]

theorem foldl_add_ofGroups {c : Command} {gs : List Group} (h : (filesOf gs).length ≤ 1) :
    gs.foldl add { command := c } = ofGroups c gs := by
  have hfile : (filesOf gs).getLast? = (filesOf gs).head? := by
    match filesOf gs, h with
    | [], _ => rfl
    | [_], _ => rfl
  rw [foldl_add, hfile, Option.or_none, Option.or_none, Bool.false_or, ofGroups]

theorem readFrom_eq_ok_iff {c : Command} {args : List String} {o : Options} :
    readFrom { command := c } args = .ok o ↔
      ∃ gs : List Group, args = gs.flatMap Group.words ∧ (filesOf gs).length ≤ 1 ∧ o = ofGroups c gs := by
  have hread {gs : List Group} (h : (filesOf gs).length ≤ 1) :
      readFrom { command := c } (gs.flatMap Group.words) = .ok (ofGroups c gs) := by
    rw [readFrom_flatMap_words, foldl_add_ofGroups h]
    rwa [Option.toList_none, List.length_nil, Nat.zero_add]
  constructor
  · intro h
    obtain ⟨gs, rfl, hfiles⟩ := exists_groups_of_readFrom h
    rw [Option.toList_none, List.length_nil, Nat.zero_add] at hfiles
    exact ⟨gs, rfl, hfiles, Except.ok.inj (h.symm.trans (hread hfiles))⟩
  · rintro ⟨gs, rfl, hfiles, rfl⟩
    exact hread hfiles

theorem check_eq_ok_iff {o r : Options} : o.check = .ok r ↔ (o.command = .config ∨ o.file ≠ none) ∧ r = o := by
  rw [check]
  split
  · next h =>
    rw [Bool.and_eq_true, decide_eq_true_eq, Option.isNone_iff_eq_none] at h
    refine iff_of_false nofun fun hr => ?_
    exact hr.1.elim h.1 fun hfile => hfile h.2
  · next h =>
    rw [Bool.and_eq_true, decide_eq_true_eq, Option.isNone_iff_eq_none,
      Decidable.not_and_iff_not_or_not, Decidable.not_not] at h
    exact ⟨fun hr => ⟨h, (Except.ok.inj hr).symm⟩, fun hr => congrArg _ hr.2.symm⟩

theorem file_ofGroups_ne_none {c : Command} {gs : List Group} : (ofGroups c gs).file ≠ none ↔ filesOf gs ≠ [] :=
  not_congr List.head?_eq_none_iff

theorem ofArgs_eq_ok_iff {args : List String} {o : Options} :
    ofArgs args = .ok o ↔ ∃ c gs, args = argsOf c gs ∧ Accepts c gs ∧ o = ofGroups c gs := by
  constructor
  · intro h
    cases args with
    | nil => cases h
    | cons word args =>
      rw [ofArgs] at h
      cases hword : Command.ofWord? word with
      | none =>
        rw [hword] at h
        cases h
      | some c =>
        obtain rfl := Command.ofWord?_eq_some_iff.1 hword
        cases hread : readFrom { command := c } args with
        | error e =>
          simp only [hword, hread] at h
          cases h
        | ok r =>
          simp only [hword, hread] at h
          obtain ⟨hneeded, rfl⟩ := check_eq_ok_iff.1 h
          obtain ⟨gs, rfl, hfiles, rfl⟩ := readFrom_eq_ok_iff.1 hread
          exact ⟨c, gs, rfl, ⟨hfiles, hneeded.imp_right file_ofGroups_ne_none.1⟩, rfl⟩
  · rintro ⟨c, gs, rfl, h, rfl⟩
    have hword : Command.ofWord? c.word = some c := Command.ofWord?_eq_some_iff.2 rfl
    have hread : readFrom { command := c } (gs.flatMap Group.words) = .ok (ofGroups c gs) :=
      readFrom_eq_ok_iff.2 ⟨gs, rfl, h.oneFile, rfl⟩
    rw [argsOf, ofArgs]
    simp only [hword, hread]
    exact check_eq_ok_iff.2 ⟨h.needed.imp_right file_ofGroups_ne_none.2, rfl⟩

theorem eq_of_perm {α : Type} {xs ys : List α} (hp : xs.Perm ys) (hlen : xs.length ≤ 1) : xs = ys := by
  match xs, hlen with
  | [], _ => exact hp.nil_eq
  | [x], _ => exact List.singleton_perm.1 hp

section Perm

variable {c : Command} {gs hs : List Group} (h : gs.Perm hs)
include h

theorem Accepts.perm (ha : Accepts c gs) : Accepts c hs := by
  have hfiles : filesOf gs = filesOf hs := eq_of_perm (h.filterMap _) ha.oneFile
  exact ⟨hfiles ▸ ha.oneFile, hfiles ▸ ha.needed⟩

theorem ofGroups_perm (ha : Accepts c gs) (hone : (settingsOf gs).length ≤ 1) : ofGroups c gs = ofGroups c hs := by
  have hfiles : filesOf gs = filesOf hs := eq_of_perm (h.filterMap _) ha.oneFile
  have hsettings : settingsOf gs = settingsOf hs := eq_of_perm (h.filterMap _) hone
  rw [ofGroups, ofGroups, hfiles, hsettings, decide_eq_decide.2 h.mem_iff]

end Perm

/-- Arguments are accepted exactly if they are a command and groups with one file at most, and one unless the command
does without; there is only one way to see them so. They ask for what the groups say, the last settings file counting,
and for the same in every order of the groups if these name one settings file at most. -/
theorem ofArgs_groups :
    (∀ args o, ofArgs args = .ok o ↔ ∃ c gs, args = argsOf c gs ∧ Accepts c gs ∧ o = ofGroups c gs) ∧
      (∀ c c' gs hs, argsOf c gs = argsOf c' hs → c = c' ∧ gs = hs) ∧
      ∀ c gs hs o, gs.Perm hs → (settingsOf gs).length ≤ 1 → ofArgs (argsOf c gs) = .ok o →
        ofArgs (argsOf c hs) = .ok o := by
  refine ⟨fun _ _ => ofArgs_eq_ok_iff, fun _ _ _ _ => argsOf_inj, fun c gs hs o hp hone h => ?_⟩
  obtain ⟨c', gs', hargs, ha, rfl⟩ := ofArgs_eq_ok_iff.1 h
  obtain ⟨rfl, rfl⟩ := argsOf_inj hargs
  exact ofArgs_eq_ok_iff.2 ⟨c, hs, rfl, ha.perm hp, ofGroups_perm hp ha hone⟩

theorem ofArgs_groups_reordered :
    [Group.settings "--frontmatter", .file "a.yaml" (by decide)].Perm
        [.file "a.yaml" (by decide), .settings "--frontmatter"] ∧
      (settingsOf [.settings "--frontmatter", .file "a.yaml" (by decide)]).length ≤ 1 ∧
      ofArgs ["indent", "--config", "--frontmatter", "a.yaml"] =
        .ok { command := .indent, file := some "a.yaml", configPath := some "--frontmatter" } ∧
      ofArgs ["indent", "a.yaml", "--config", "--frontmatter"] =
        .ok { command := .indent, file := some "a.yaml", configPath := some "--frontmatter" } := by
  have hp : [Group.settings "--frontmatter", .file "a.yaml" (by decide)].Perm
      [.file "a.yaml" (by decide), .settings "--frontmatter"] := .swap _ _ _
  have hone : (settingsOf [.settings "--frontmatter", .file "a.yaml" (by decide)]).length ≤ 1 := by decide
  have h : ofArgs ["indent", "--config", "--frontmatter", "a.yaml"] =
      .ok { command := .indent, file := some "a.yaml", configPath := some "--frontmatter" } := rfl
  exact ⟨hp, hone, h, ofArgs_groups.2.2 .indent _ _ _ hp hone h⟩

end Options

end LosslessYaml
