import MessageLayout.Settings.Basic

/-!
# Tables under construction

A TOML document names each table once: by a header of its own, by a longer header that leads through
it, or by a dotted key. `insertPair`, `openTable` and `openElement` are the steps that build a
document, and fail where a name is given twice or a table is given in two ways.
-/

namespace MessageLayout.Toml

/-- How a table came into being. -/
inductive Origin where
  | header
  /-- By a header that leads through it. -/
  | implied
  | dotted
deriving DecidableEq, Repr

/-- What stands under a name while a document is read. -/
inductive Node where
  /-- A value, to which nothing can be added. -/
  | leaf (value : Setting)
  | table (origin : Origin) (fields : Fields Node)
  /-- A list of tables with headers of their own: the last one, and those before it. -/
  | tables (last : Fields Node) (earlier : List Setting)

/-- The name that a value or a table has, and the names of the tables that lead to it. -/
structure Key where
  parents : List String
  name : String
deriving DecidableEq, Repr

namespace Node

mutual

def toSetting : Node → Setting
  | .leaf value => value
  | .table _ ⟨entries⟩ => .table ⟨settings entries⟩
  | .tables ⟨entries⟩ earlier => .list (earlier ++ [.table ⟨settings entries⟩])

def settings : List (String × Node) → List (String × Setting)
  | [] => []
  | e :: entries => settingEntry e :: settings entries

def settingEntry : String × Node → String × Setting
  | (name, node) => (name, node.toSetting)

end

/-- A way into a table: its origin, its fields, and the node with the fields that it has
afterwards. -/
structure Entrance where
  origin : Origin
  fields : Fields Node
  /-- The node with other fields. -/
  close : Fields Node → Node

/-- The way into what a name stands for, on the way to a key: of a dotted key if `dotted` holds, of
a header otherwise. A name that is new becomes a table, and the way into a list of tables is into
its last one. A dotted key does not lead into a table with a header of its own. -/
def enter (dotted : Bool) : Option Node → Option Entrance
  | none =>
    let origin := if dotted then Origin.dotted else .implied
    some ⟨origin, ∅, .table origin⟩
  | some (.leaf _) => none
  | some (.table origin fields) =>
    if dotted && origin = .header then none else some ⟨origin, fields, .table origin⟩
  | some (.tables last earlier) => some ⟨.header, last, (.tables · earlier)⟩

/-- The fields of a table after `edit` was done to the table to which the names lead, given its
origin and its fields. -/
def alterAt (dotted : Bool) (edit : Origin → Fields Node → Option (Fields Node)) :
    List String → Origin → Fields Node → Option (Fields Node)
  | [], origin, fields => edit origin fields
  | name :: names, _, fields => do
    let inner ← enter dotted (fields.get? name)
    let changed ← alterAt dotted edit names inner.origin inner.fields
    some (fields.insert name (inner.close changed))

/-- The fields of a table with a value under a key, which has to be new. A dotted key adds to tables
of dotted keys only. -/
def insertPair (key : Key) (value : Setting) (origin : Origin) (fields : Fields Node) :
    Option (Fields Node) :=
  alterAt true
    (fun origin fields =>
      if (origin == .dotted) == key.parents.isEmpty then none
      else if (fields.get? key.name).isSome then none
      else some (fields.insert key.name (.leaf value)))
    key.parents origin fields

/-- The fields of a document with the table of a header. A table through which headers lead may get
a header of its own, once. -/
def openTable (key : Key) (fields : Fields Node) : Option (Fields Node) :=
  alterAt false
    (fun _ fields =>
      match fields.get? key.name with
      | none => some (fields.insert key.name (.table .header ∅))
      | some (.table .implied inner) => some (fields.insert key.name (.table .header inner))
      | some _ => none)
    key.parents .header fields

def openElement (key : Key) (fields : Fields Node) : Option (Fields Node) :=
  alterAt false
    (fun _ fields =>
      match fields.get? key.name with
      | none => some (fields.insert key.name (.tables ∅ []))
      | some (.tables ⟨entries⟩ earlier) =>
        some (fields.insert key.name (.tables ∅ (earlier ++ [.table ⟨settings entries⟩])))
      | some _ => none)
    key.parents .header fields

end Node

def tableOfPairs (pairs : List (Key × Setting)) : Option (Fields Setting) := do
  let fields ← pairs.foldlM (fun fields (key, value) => Node.insertPair key value .header fields) ∅
  some ⟨Node.settings fields.entries⟩

end MessageLayout.Toml
