import LosslessYaml.Command.Run
import LosslessYaml.Host.Files

namespace LosslessYaml

inductive Host.Denies (h : Host) (file : String) : RunError → Prop
  | unreadable {e : ReadError} : (h.look file).contents = .error e → Denies h file (.unreadable file e)
  | undecodable {bs : List UInt8} {e : Utf8.Malformed} : (h.look file).contents = .ok bs →
      Document.ofBytes bs = .error e → Denies h file (.undecodable file e)

def Host.Grants (h : Host) (file : String) : Prop :=
  ∃ bs d, (h.look file).contents = .ok bs ∧ Document.ofBytes bs = .ok d

theorem Host.grants_or_denies (h : Host) (file : String) : h.Grants file ∨ ∃ e, h.Denies file e := by
  cases hcontents : (h.look file).contents with
  | error e => exact .inr ⟨_, .unreadable hcontents⟩
  | ok bs =>
    cases hd : Document.ofBytes bs with
    | error e => exact .inr ⟨_, .undecodable hcontents hd⟩
    | ok d => exact .inl ⟨bs, d, hcontents, hd⟩

theorem Host.grants_of_empty {h : Host} {file : String} (he : h.look file = .file []) : h.Grants file := by
  refine ⟨[], .ofText [], by rw [he, Entry.contents], ?_⟩
  rw [Document.ofBytes, Utf8.decode, Utf8.decodeFrom]
  rfl

theorem Settings.toToml_usual : String.ofList ({} : Settings).toToml = "indent_unit = 2\ntab_size = 4\n" := by
  decide +kernel

theorem Settings.load_congr {h : Host} {look : String → Entry} {path : String} (hlook : look path = h.look path) :
    load { h with look } path = load h path := by
  simp only [load, load?, hlook]

namespace Options

theorem settingsPath_congr {o o' : Options} (hpath : o'.configPath = o.configPath) (h : Host) (look : String → Entry) :
    o'.settingsPath { h with look } = o.settingsPath h := by
  rw [settingsPath, settingsPath, hpath]
  rfl

/-- The file that is named, if there is one, can be read as a document. -/
def Readable (o : Options) (h : Host) : Prop := ∀ file, o.file = some file → h.Grants file

variable {o : Options} {h : Host}

theorem readable_or_denies (o : Options) (h : Host) :
    o.Readable h ∨ ∃ file e, o.file = some file ∧ h.Denies file e := by
  cases hf : o.file with
  | none =>
    refine .inl fun file hfile => ?_
    rw [hf] at hfile
    cases hfile
  | some file =>
    refine (h.grants_or_denies file).imp (fun hg file' hfile => ?_) fun ⟨e, he⟩ => ⟨file, e, rfl, he⟩
    obtain rfl := Option.some.inj (hf.symm.trans hfile)
    exact hg

theorem readable_of_empty {file : String} (hf : o.file = some file) (he : h.look file = .file []) : o.Readable h := by
  intro file' hfile
  obtain rfl := Option.some.inj (hf.symm.trans hfile)
  exact Host.grants_of_empty he

theorem run_of_denies {file : String} {e : RunError} (s : Settings) (hf : o.file = some file) (hd : h.Denies file e) :
    o.run s h = .error e := by
  cases hd with
  | unreadable hcontents => simp only [run, hf, hcontents]
  | undecodable hcontents hd => simp only [run, hf, hcontents, hd]

section Config

variable (hc : o.command = .config) (s : Settings)
include hc

theorem run_of_readable (hr : o.Readable h) : o.run s h = .ok (String.ofList s.toToml) := by
  cases hf : o.file with
  | none => rw [run, hf]
  | some file =>
    obtain ⟨bs, d, hcontents, hd⟩ := hr file hf
    simp only [run, hf, hcontents, hd, render, hc]

theorem run_eq_ok_iff {out : String} :
    o.run s h = .ok out ↔ o.Readable h ∧ out = String.ofList s.toToml := by
  constructor
  · intro hrun
    rcases readable_or_denies o h with hr | ⟨file, e, hf, hd⟩
    · exact ⟨hr, Except.ok.inj (hrun.symm.trans (run_of_readable hc s hr))⟩
    · cases hrun.symm.trans (run_of_denies s hf hd)
  · rintro ⟨hr, rfl⟩
    exact run_of_readable hc s hr

theorem run_eq_error_iff {e : RunError} :
    o.run s h = .error e ↔ ∃ file, o.file = some file ∧ h.Denies file e := by
  constructor
  · intro hrun
    rcases readable_or_denies o h with hr | ⟨file, e', hf, hd⟩
    · cases hrun.symm.trans (run_of_readable hc s hr)
    · obtain rfl := Except.error.inj (hrun.symm.trans (run_of_denies s hf hd))
      exact ⟨file, hf, hd⟩
  · rintro ⟨file, hf, hd⟩
    exact run_of_denies s hf hd

end Config

end Options

theorem Report.ofArgs_config {args : List String} {o : Options} {h : Host} (ho : Options.ofArgs args = .ok o)
    (hc : o.command = .config) (hr : o.Readable h) : ofArgs h args =
      match Settings.load h (o.settingsPath h) with
      | .error e => ofChain e.chain
      | .ok s => { stdout := String.ofList s.toToml } := by
  rw [ofArgs, ho]
  cases hs : Settings.load h (o.settingsPath h) with
  | error e => simp only [hs]
  | ok s => simp only [hs, Options.run_of_readable hc s hr]

/-- Asked for the settings, the program succeeds exactly if the file that is named, if there is one, can be read as a
document, and what it writes are the settings. With such files the outcome is told by the settings file alone, whatever
else is found on the command line and under other paths. -/
theorem Options.run_config {args : List String} {o : Options} (ho : ofArgs args = .ok o) (hc : o.command = .config)
    (h : Host) :
    (∀ s out, o.run s h = .ok out ↔ o.Readable h ∧ out = String.ofList s.toToml) ∧
      (∀ s e, o.run s h = .error e ↔ ∃ file, o.file = some file ∧ h.Denies file e) ∧
      ∀ args' o' look, ofArgs args' = .ok o' → o'.command = .config → o'.configPath = o.configPath →
        look (o.settingsPath h) = h.look (o.settingsPath h) → o.Readable h → o'.Readable { h with look } →
        Report.ofArgs { h with look } args' = Report.ofArgs h args := by
  refine ⟨fun s _ => run_eq_ok_iff hc s, fun s _ => run_eq_error_iff hc s, ?_⟩
  intro args' o' look ho' hc' hpath hlook hr hr'
  rw [Report.ofArgs_config ho hc hr, Report.ofArgs_config ho' hc' hr', settingsPath_congr hpath,
    Settings.load_congr hlook]

theorem Options.run_config_empty_file :
    ofArgs ["config", "a.yaml"] = .ok { command := .config, file := some "a.yaml" } ∧
      Readable { command := .config, file := some "a.yaml" } ((Files.ofList [("a.yaml", .file [])]).host []) ∧
      run { command := .config, file := some "a.yaml" } {} ((Files.ofList [("a.yaml", .file [])]).host []) =
        .ok "indent_unit = 2\ntab_size = 4\n" ∧
      Report.ofArgs ((Files.ofList []).host []) ["config"] =
        Report.ofArgs ((Files.ofList [("a.yaml", .file [])]).host []) ["config", "a.yaml"] := by
  have ho : ofArgs ["config", "a.yaml"] = .ok { command := .config, file := some "a.yaml" } := rfl
  have hr : Readable { command := .config, file := some "a.yaml" } ((Files.ofList [("a.yaml", .file [])]).host []) :=
    readable_of_empty rfl rfl
  obtain ⟨hok, -, hsame⟩ := run_config ho rfl ((Files.ofList [("a.yaml", .file [])]).host [])
  refine ⟨ho, hr, (hok {} _).2 ⟨hr, Settings.toToml_usual.symm⟩, ?_⟩
  exact hsame ["config"] { command := .config } (Files.ofList []).look rfl rfl rfl rfl hr nofun

/-- A file that is not there is in the way of the settings, though these are the same with and without it. -/
theorem Options.config_needs_file :
    ofArgs ["config", "a.yaml"] = .ok { command := .config, file := some "a.yaml" } ∧
      Settings.load ((Files.ofList []).host [])
        (settingsPath { command := .config, file := some "a.yaml" } ((Files.ofList []).host [])) = .ok {} ∧
      run { command := .config, file := some "a.yaml" } {} ((Files.ofList []).host []) =
        .error (.unreadable "a.yaml" .notFound) ∧
      (Files.ofList []).look (settingsPath { command := .config } ((Files.ofList []).host [])) =
        (Files.ofList [("a.yaml", .file [])]).look
          (settingsPath { command := .config } ((Files.ofList []).host [])) ∧
      run { command := .config, file := some "a.yaml" } {} ((Files.ofList [("a.yaml", .file [])]).host []) =
        .ok "indent_unit = 2\ntab_size = 4\n" := by
  have hr : Readable { command := .config, file := some "a.yaml" } ((Files.ofList [("a.yaml", .file [])]).host []) :=
    readable_of_empty rfl rfl
  exact ⟨rfl, rfl, rfl, rfl, (run_of_readable rfl {} hr).trans (congrArg _ Settings.toToml_usual)⟩

end LosslessYaml
