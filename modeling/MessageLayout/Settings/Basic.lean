import MessageLayout.Fields
import MessageLayout.Text.Lowercase

/-!
# Settings

A setting is a plain value, a list or a table. Names in tables do not tell capitals from small
letters: they are kept in lower case. Giving a table as the value of a field merges it into the
table that is there, field by field; any other value replaces what is there.
-/

namespace MessageLayout

inductive Setting where
  | empty
  | bool (b : Bool)
  | int (n : Int)
  | float (x : Float)
  | str (s : String)
  | list (items : List Setting)
  | table (fields : Fields Setting)

namespace Setting

instance : Inhabited Setting := ⟨.empty⟩

/-- The fields of a table; a setting that is no table has none. -/
def fields : Setting → Fields Setting
  | .table fields => fields
  | _ => ∅

def items : Setting → List Setting
  | .list items => items
  | _ => []

/-- The field of a table, whatever the case of its name. -/
def field? (s : Setting) (name : String) : Option Setting :=
  s.fields.get? (Text.lowercase name)

def withField (s : Setting) (name : String) (value : Setting) : Setting :=
  .table (s.fields.insert (Text.lowercase name) value)

mutual

/-- The setting as a table in which a field was given a value. A table is merged into the value
that the field has, which becomes a table as soon as there is something to merge. -/
def put (s : Setting) (name : String) : Setting → Setting
  | .table ⟨entries⟩ => s.withField name (((s.field? name).getD (.table ∅)).putAll entries)
  | .empty => s.withField name .empty
  | .bool b => s.withField name (.bool b)
  | .int n => s.withField name (.int n)
  | .float x => s.withField name (.float x)
  | .str t => s.withField name (.str t)
  | .list items => s.withField name (.list items)

def putAll (s : Setting) : List (String × Setting) → Setting
  | [] => s
  | e :: entries => (s.putEntry e).putAll entries

def putEntry (s : Setting) : String × Setting → Setting
  | (name, value) => s.put name value

end

/-! ## Lemmas -/

@[simp] theorem fields_table (f : Fields Setting) : (table f).fields = f := rfl

@[simp] theorem field?_withField_self (s : Setting) (name : String) (value : Setting) :
    (s.withField name value).field? name = some value := by
  simp [field?, withField]

theorem field?_withField_of_ne (s : Setting) {name other : String}
    (h : Text.lowercase other ≠ Text.lowercase name) (value : Setting) :
    (s.withField name value).field? other = s.field? other := by
  simp [field?, withField, Fields.get?_insert_of_ne _ h]

end Setting

end MessageLayout
