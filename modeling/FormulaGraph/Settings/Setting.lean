import FormulaGraph.Options

/-!
Options in a settings text: a record with a field for each option. A field may
be given once, and one that is left out means the default. How a record is
written and read is up to the format of the text.
-/

namespace FormulaGraph

inductive Setting where
  | dialect (value : Dialect)
  | algebraic (value : Bool)
  | expandNames (value : Bool)
  | constantNodes (value : Bool)
  | outputName (value : String)
  | variableKinds (entries : List (String × Kind))

namespace Setting

def field : Setting → String
  | dialect _ => "variant"
  | algebraic _ => "algebraic"
  | expandNames _ => "macros"
  | constantNodes _ => "constant_nodes"
  | outputName _ => "output_name"
  | variableKinds _ => "variable_kinds"

def apply (o : Options) : Setting → Options
  | dialect d => { o with dialect := d }
  | algebraic b => { o with algebraic := b }
  | expandNames b => { o with expandNames := b }
  | constantNodes b => { o with constantNodes := b }
  | outputName s => { o with outputName := s }
  | variableKinds entries => { o with variableKinds := Ordered.empty.insertAll entries }

end Setting

/-- A format of settings texts: how the fields of a record are written, and how
those that options have are read. -/
structure SettingsFormat where
  write : List Setting → Option String
  read : String → Option (List Setting)

namespace Options

/-- The fields that options are written in. -/
def settings (o : Options) : List Setting :=
  [.dialect o.dialect, .algebraic o.algebraic, .expandNames o.expandNames,
    .constantNodes o.constantNodes, .outputName o.outputName,
    .variableKinds o.variableKinds.entries]

/-- The options that settings make of the defaults, if no field is repeated. -/
def ofSettings? (settings : List Setting) : Option Options :=
  if (settings.map Setting.field).Nodup then some (settings.foldl Setting.apply {}) else none

def write (f : SettingsFormat) (o : Options) : Except OptionsFault String :=
  match f.write o.settings with
  | none => throw .unwritable
  | some text => return text

/-- The usable options that a text holds. -/
def read (f : SettingsFormat) (text : String) : Except OptionsFault Options :=
  match (f.read text).bind ofSettings? with
  | none => throw .unreadable
  | some o =>
    match o.fault? with
    | some fault => throw fault
    | none => return o

end Options

end FormulaGraph
