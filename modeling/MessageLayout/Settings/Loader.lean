import MessageLayout.Settings.Configuration
import MessageLayout.Settings.KeyPath
import MessageLayout.Settings.Toml.Document

/-!
# Layered settings

Settings come in layers over built-in defaults: files, each over the ones before it, and overrides,
which stand above all files wherever they were added. `Loader.build` puts the layers together and
reads off the configuration.
-/

namespace MessageLayout

/-! ## Files -/

structure SettingsFile where
  name : String
  required : Bool
  /-- The texts of the files that are there, by name. -/
  directory : Fields String

namespace SettingsFile

/-- The name of a file without what stands behind its last point, and the names of its folders. A
point at the very start does not count. -/
def stem (name : List Char) : List Char :=
  let base := (name.reverse.takeWhile (· ≠ '/')).reverse
  let folders := name.take (name.length - base.length)
  let reversed := (base.drop 1).reverse
  if '.' ∈ reversed then
    folders ++ base.take 1 ++ ((reversed.dropWhile (· ≠ '.')).drop 1).reverse
  else name

def alternative (name : String) : String :=
  String.ofList (stem name.toList ++ ".toml".toList)

def text? (f : SettingsFile) : Option String :=
  (f.directory.get? f.name).or (f.directory.get? (alternative f.name))

/-- The settings in the file. A file that is not there has none, unless it has to be there. -/
def read (f : SettingsFile) : Except SettingsError (Fields Setting) :=
  match f.text? with
  | none => if f.required then .error (.missingFile f.name) else .ok ∅
  | some text =>
    match Toml.read? text with
    | none => .error (.malformedFile f.name)
    | some fields => .ok fields

example : alternative "app.json" = "app.toml" ∧ alternative "app" = "app.toml" := by decide +kernel

end SettingsFile

/-! ## Loaders -/

structure Loader where
  /-- The files, lowest layer first. -/
  files : List SettingsFile := []
  /-- The settings above all files, lowest layer first. -/
  overrides : List (KeyPath × Setting) := []

namespace Loader

instance : Inhabited Loader := ⟨{}⟩

/-- The document with the settings below all layers. -/
def defaultText : String :=
  "# Default configuration for blockkit renderers.\n" ++
  "#\n" ++
  "# Applications layer their own files and overrides on top of these values.\n" ++
  "\n" ++
  "[mrkdwn]\n" ++
  "# Surround emphasis delimiters with zero-width spaces so styles also apply\n" ++
  "# in the middle of a word (\x60foo*bar*baz\x60).\n" ++
  "exact_mode = false\n"

def defaults : Setting :=
  .table ((Toml.read? defaultText).getD ∅)

theorem isSome_read?_defaultText : (Toml.read? defaultText).isSome = true := by decide +kernel

def withFile (l : Loader) (name : String) (directory : Fields String) : Loader :=
  { l with files := l.files ++ [⟨name, true, directory⟩] }

def withOptionalFile (l : Loader) (name : String) (directory : Fields String) : Loader :=
  { l with files := l.files ++ [⟨name, false, directory⟩] }

def setOverride (l : Loader) (key : String) (value : Setting) : Except SettingsError Loader :=
  match KeyPath.read? key with
  | none => .error (.malformedKey key)
  | some path => .ok { l with overrides := l.overrides ++ [(path, value)] }

def layFile (s : Setting) (f : SettingsFile) : Except SettingsError Setting :=
  return s.overlay (← f.read)

def settings (l : Loader) : Except SettingsError Setting := do
  let s ← l.files.foldlM layFile defaults
  return l.overrides.foldl (fun s (path, value) => s.setAt path value) s

def build (l : Loader) : Except SettingsError Configuration := do
  Configuration.ofSettings (← l.settings)

end Loader

def Configuration.ofDefaults : Except SettingsError Configuration :=
  Loader.build {}

end MessageLayout
