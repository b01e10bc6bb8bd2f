import LosslessYaml.Command.Run

namespace LosslessYaml

def readEntry (path : String) : IO Entry := do
  try
    return .file (← IO.FS.readBinFile path).toList
  catch
    | .noFileOrDirectory .. => return .missing
    | .inappropriateType _ code _ => return if code = 21 then .directory else .blocked
    | _ => return .denied

def readVariables (names : List String) : IO (List (String × String)) :=
  names.filterMapM fun name => return (← IO.getEnv name).map fun value => (name, value)

def readHost (args : List String) : IO Host := do
  let base ← readVariables ["HOME", Settings.pathVariable]
  match Options.ofArgs args with
  | .error _ => return ⟨fun _ => none, fun _ => .missing⟩
  | .ok o =>
    let custom := o.configPath <|> List.lookup Settings.pathVariable base
    let asked ← readVariables ((custom.map fun s => Template.references s.toList).getD [])
    let values := base ++ asked
    let bare : Host := ⟨fun name => List.lookup name values, fun _ => .missing⟩
    let paths := o.settingsPath bare :: o.file.toList
    let entries ← paths.mapM fun path => return (path, ← readEntry path)
    return { bare with look := fun path => (List.lookup path entries).getD .missing }

end LosslessYaml

def main (args : List String) : IO UInt32 := do
  let report := LosslessYaml.Report.ofArgs (← LosslessYaml.readHost args) args
  IO.print report.stdout
  IO.eprint report.stderr
  return report.exitCode.toUInt32
