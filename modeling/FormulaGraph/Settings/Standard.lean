import FormulaGraph.Settings.Quoted
import FormulaGraph.Settings.Setting

/-!
The standard format of settings texts. Every field is written on a line of its
own, indented by four blanks; variables stand one level deeper. The record may
carry its name in reading, and attributes before it may enable extensions, one
of which asks for the name. The value of a field that no option has is passed
over, by a reader that is told the extensions.
-/

namespace FormulaGraph

namespace Settings

/-! ### Writing -/

def kindsText (entries : List (String × Kind)) : String :=
  if entries.isEmpty then "\x7b\x7d"
  else
    let line (e : String × Kind) : String := "        " ++ quoted e.1 ++ ": " ++ e.2.name ++ ",\n"
    "\x7b\n" ++ String.join (entries.map line) ++ "    \x7d"

def valueText : Setting → String
  | .dialect d => d.name
  | .algebraic b | .expandNames b | .constantNodes b => toString b
  | .outputName s => quoted s
  | .variableKinds entries => kindsText entries

def recordText (settings : List Setting) : String :=
  let line (s : Setting) : String := "    " ++ s.field ++ ": " ++ valueText s ++ ",\n"
  "(\n" ++ String.join (settings.map line) ++ ")"

/-! ### Reading -/

def recordName : String := "CompileOptions"

/-- The extension that asks for the name of the record. -/
def namedRecords : String := "explicit_struct_names"

def extensions : List String :=
  [namedRecords, "implicit_some", "unwrap_variant_newtypes", "unwrap_newtypes"]

def boolean : Read Bool := do
  if (← Read.optional (word "true")).isSome then return true
  word "false"
  return false

def dialect : Read Dialect := do Dialect.ofName? (← wholeName)

def kind : Read Kind := do Kind.ofName? (← wholeName)

def kinds : Read (List (String × Kind)) := do
  Read.char '\x7b'
  items (entry text fun name => return (name, ← kind)) '\x7d'

/-- The value of a field, or nothing if no option has its name. -/
def settingOf (pass : Read Unit) (field : String) : Read (Option Setting) :=
  match field with
  | "variant" => return some (.dialect (← dialect))
  | "algebraic" => return some (.algebraic (← boolean))
  | "macros" => return some (.expandNames (← boolean))
  | "constant_nodes" => return some (.constantNodes (← boolean))
  | "output_name" => return some (.outputName (← text))
  | "variable_kinds" => return some (.variableKinds (← kinds))
  | _ => do
    pass
    return none

/-- One attribute, with the extensions that it enables. -/
def enabling : Read (List String) := do
  for sign in ["#", "!", "[", "enable", "("] do
    Read.literal sign
    gap
  let names ← items wholeName ')'
  if names.isEmpty || !names.all extensions.contains then failure
  gap
  Read.char ']'
  gap
  return names

/-- The extensions that attributes enable, `limit` attributes at most. -/
def enabledUpTo : (limit : Nat) → Read (List String)
  | 0 => failure
  | limit + 1 => do
    if (← Read.next?) == some '#' then
      return (← enabling) ++ (← enabledUpTo limit)
    return []

def enabled : Read (List String) := fun cs => enabledUpTo (cs.length + 1) cs

/-- The record of options, with the settings in the order of its fields. -/
def record (pass : List String → Read Unit) : Read (List Setting) := do
  gap
  let extras ← enabled
  if (← Read.next?).any Text.isIdentifierChar then
    if (← wholeName) != recordName then failure
  else if extras.contains namedRecords then failure
  gap
  Read.char '('
  let settings ← items (entry wholeName (settingOf (pass extras))) ')'
  gap
  return settings.filterMap id

end Settings

def SettingsFormat.standard (pass : List String → Settings.Read Unit) : SettingsFormat :=
  ⟨fun settings => some (Settings.recordText settings), (Settings.record pass).whole?⟩

end FormulaGraph
