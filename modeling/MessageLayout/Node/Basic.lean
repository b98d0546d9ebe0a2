import MessageLayout.Json.Printer
import MessageLayout.Surface

/-!
# Node trees

A tree of nodes describes a message. A node has a kind, which says what it renders into, named
attributes, and children; it may carry a check on its output. Attributes hold JSON, further nodes,
or lists of both.

Builders accept their children as `Content`: nested lists of nodes and texts with gaps. `normalize`
flattens content into the list of children that a node stores. A node always counts as one child,
also one that stands for a list.
-/

namespace MessageLayout

inductive Kind where
  /-- The attributes as a JSON object; children are ignored. -/
  | object
  | array
  | text
  /-- The children converted to mrkdwn. -/
  | markup
  /-- The children joined, with entities escaped. -/
  | escaped
  | tag (name : String)
deriving DecidableEq, Repr

def Kind.tagName? : Kind → Option String
  | .tag name => some name
  | _ => none

mutual

inductive AttrValue where
  /-- An optional value that is left out. -/
  | absent
  | json (value : Json)
  /-- A node, rendered in place. -/
  | node (node : Node)
  | list (items : List AttrValue)

structure Node where
  kind : Kind
  attributes : Fields AttrValue
  /-- The children, flattened. -/
  children : List Child
  /-- The check on the output. -/
  hook : Option Check

inductive Child where
  | node (node : Node)
  | text (content : String)

end

abbrev Attributes := Fields AttrValue

namespace AttrValue

instance : Inhabited AttrValue := ⟨.absent⟩

def ofString (s : String) : AttrValue :=
  .json (.str s)

def ofOption : Option AttrValue → AttrValue
  | some v => v
  | none => .absent

def ofString? (s : Option String) : AttrValue :=
  ofOption (s.map ofString)

def ofBool? (b : Option Bool) : AttrValue :=
  ofOption (b.map fun b => .json (.bool b))

def isAbsent : AttrValue → Bool
  | .absent => true
  | _ => false

def str? : AttrValue → Option String
  | .json v => v.str?
  | _ => none

/-- The text of a value inside an element's start tag: a string itself, other JSON in compact form.
Null, nodes and lists have none. -/
def attrText? : AttrValue → Option (List Char)
  | .json (.str s) => some s.toList
  | .json .null => none
  | .json v => some v.write
  | _ => none

end AttrValue

def Fields.str? (attrs : Attributes) (name : String) : Option String :=
  (attrs.get? name).bind AttrValue.str?

/-- What builders accept as children. -/
inductive Content where
  | node (node : Node)
  | text (content : String)
  | list (items : List Content)
  | empty

namespace Content

instance : Inhabited Content := ⟨.empty⟩

mutual

/-- The nodes and texts of a content in order. -/
def normalize : Content → List Child
  | .node n => [.node n]
  | .text s => [.text s]
  | .list items => normalizeAll items
  | .empty => []

def normalizeAll : List Content → List Child
  | [] => []
  | c :: cs => c.normalize ++ normalizeAll cs

end

def ofInt (n : Int) : Content :=
  .text (String.ofList (Text.ofInt n))

/-- A float as text, without exponent and without a point if it is whole. -/
def ofFloat (x : Float) : Content :=
  .text (String.ofList (Decimal.Layout.plain.writeFloat x))

def ofChild : Child → Content
  | .node n => .node n
  | .text s => .text s

def ofChildren (cs : List Child) : Content :=
  .list (cs.map ofChild)

@[simp] theorem normalize_ofChild (c : Child) : (ofChild c).normalize = [c] := by
  cases c <;> rfl

theorem normalizeAll_map_ofChild (cs : List Child) : normalizeAll (cs.map ofChild) = cs := by
  induction cs with
  | nil => rfl
  | cons c cs ih => simp [normalizeAll, ih]

/-- Flattening what is flat already changes nothing. -/
@[simp] theorem normalize_ofChildren (cs : List Child) : (ofChildren cs).normalize = cs :=
  normalizeAll_map_ofChild cs

end Content

namespace Node

def new (kind : Kind) (attributes : Attributes) (content : Content) : Node :=
  ⟨kind, attributes, content.normalize, none⟩

def object : Node := new .object ∅ .empty

def array (content : Content) : Node := new .array ∅ content

def text (content : Content) : Node := new .text ∅ content

def markup (content : Content) : Node := new .markup ∅ content

def escaped (content : Content) : Node := new .escaped ∅ content

def tag (name : String) : Node := new (.tag name) ∅ .empty

def attr (n : Node) (name : String) (value : AttrValue) : Node :=
  { n with attributes := n.attributes.insert name value }

def child (n : Node) (content : Content) : Node :=
  { n with children := n.children ++ content.normalize }

def withHook (n : Node) (hook : Check) : Node :=
  { n with hook := some hook }

def tagName? (n : Node) : Option String :=
  n.kind.tagName?

def objectType? (n : Node) : Option String :=
  match n.kind with
  | .object => n.attributes.str? "type"
  | _ => none

end Node

end MessageLayout
