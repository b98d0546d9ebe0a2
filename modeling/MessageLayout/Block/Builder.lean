import MessageLayout.Node.Basic

/-!
# Building blocks

Nodes for the blocks, the containers and the parts of a payload. Optional fields that are not given
are left out of the output. Containers and context blocks carry a check of their own.

Directly in a container the inline elements `hr`, `img`, `section` and `input` stand for blocks. In
a context block, children that follow each other are one text, unless one of them is an element on
its own.
-/

namespace MessageLayout.Block

open AttrValue

/-- A string that may be missing, as an attribute that holds the node built from it. -/
def nodeOf? (build : String → Node) (s : Option String) : AttrValue :=
  ofOption (s.map fun s => .node (build s))

def plainText (content : Content) : Node :=
  Node.object
    |>.attr "type" (ofString "plain_text")
    |>.attr "text" (.node (.text content))
    |>.attr "emoji" (.json (.bool true))

def plainTextOf (s : String) : Node :=
  plainText (.text s)

def mrkdwn (content : Content) : Node :=
  Node.object
    |>.attr "type" (ofString "mrkdwn")
    |>.attr "text" (.node (.markup content))
    |>.attr "verbatim" (.json (.bool true))

/-- A dialog that asks for confirmation, with the labels of its title and its buttons. -/
def confirm (title confirm deny : Option String) (content : Content) : Node :=
  Node.object
    |>.attr "title" (nodeOf? plainTextOf title)
    |>.attr "text" (.node (mrkdwn content))
    |>.attr "confirm" (nodeOf? plainTextOf confirm)
    |>.attr "deny" (nodeOf? plainTextOf deny)

def divider : Node :=
  Node.object |>.attr "type" (ofString "divider")

def image (url altText : String) : Node :=
  Node.object
    |>.attr "type" (ofString "image")
    |>.attr "image_url" (ofString url)
    |>.attr "alt_text" (ofString altText)

def header (content : Content) : Node :=
  Node.object
    |>.attr "type" (ofString "header")
    |>.attr "text" (.node (plainText content))

def textSection (blockId : AttrValue) (content : Content) : Node :=
  Node.object
    |>.attr "type" (ofString "section")
    |>.attr "block_id" blockId
    |>.attr "text" (.node (mrkdwn content))

def actions (blockId : AttrValue) (elements : Content) : Node :=
  Node.object
    |>.attr "type" (ofString "actions")
    |>.attr "block_id" blockId
    |>.attr "elements" (.node (.array elements))

def button (actionId : AttrValue) (content : Content) : Node :=
  Node.object
    |>.attr "type" (ofString "button")
    |>.attr "text" (.node (plainText content))
    |>.attr "action_id" actionId

def plainTextInput (actionId : AttrValue) : Node :=
  Node.object
    |>.attr "type" (ofString "plain_text_input")
    |>.attr "action_id" actionId

def input (label : Content) (element : Node) : Node :=
  Node.object
    |>.attr "type" (ofString "input")
    |>.attr "label" (.node (plainText label))
    |>.attr "element" (.node element)

/-! ## Containers -/

/-- The value of an attribute, absent if the node does not have it. -/
def given (n : Node) (name : String) : AttrValue :=
  ofOption (n.attributes.get? name)

/-- The value of the first of two attributes that the node has. -/
def givenAs (n : Node) (name other : String) : AttrValue :=
  ofOption ((n.attributes.get? name).or (n.attributes.get? other))

def givenText (n : Node) (name : String) : AttrValue :=
  nodeOf? plainTextOf (n.attributes.str? name)

def imageOf (n : Node) : Node :=
  Node.object
    |>.attr "type" (ofString "image")
    |>.attr "block_id" (givenAs n "block_id" "id")
    |>.attr "image_url" (given n "src")
    |>.attr "alt_text" (given n "alt")
    |>.attr "title" (givenText n "title")

def inputOf (n : Node) : Node :=
  let element := plainTextInput .absent
    |>.attr "action_id" (givenAs n "action_id" "name")
    |>.attr "placeholder" (givenText n "placeholder")
    |>.attr "initial_value" (given n "value")
  Node.object
    |>.attr "type" (ofString "input")
    |>.attr "block_id" (givenAs n "block_id" "id")
    |>.attr "label" (givenText n "label")
    |>.attr "element" (.node element)
    |>.attr "hint" (givenText n "hint")

/-- The block that a node directly in a container stands for. -/
def blockOf (n : Node) : Node :=
  match n.tagName? with
  | some "hr" => divider |>.attr "block_id" (givenAs n "block_id" "id")
  | some "img" => imageOf n
  | some "section" => textSection (givenAs n "block_id" "id") (.ofChildren n.children)
  | some "input" => inputOf n
  | _ => n

def blockChild : Child → Child
  | .node n => .node (blockOf n)
  | .text s => .text s

def blockList (surface : Surface) (content : Content) : Node :=
  Node.array (.ofChildren (content.normalize.map blockChild))
    |>.withHook (.container surface)

def blocks (content : Content) : Node :=
  blockList .message content

/-- The fields of a modal view next to its blocks. -/
structure ModalFields where
  title : String := ""
  submit : Option String := none
  close : Option String := none
  callbackId : Option String := none
  externalId : Option String := none
  privateMetadata : Option String := none
  /-- Whether closing clears all views. -/
  clearOnClose : Option Bool := none
  /-- Whether closing is reported. -/
  notifyOnClose : Option Bool := none

def modal (fields : ModalFields) (content : Content) : Node :=
  Node.object
    |>.attr "type" (ofString "modal")
    |>.attr "callback_id" (ofString? fields.callbackId)
    |>.attr "external_id" (ofString? fields.externalId)
    |>.attr "title" (.node (plainTextOf fields.title))
    |>.attr "submit" (nodeOf? plainTextOf fields.submit)
    |>.attr "close" (nodeOf? plainTextOf fields.close)
    |>.attr "private_metadata" (ofString? fields.privateMetadata)
    |>.attr "clear_on_close" (ofBool? fields.clearOnClose)
    |>.attr "notify_on_close" (ofBool? fields.notifyOnClose)
    |>.attr "blocks" (.node (blockList .modal content))

structure HomeFields where
  callbackId : Option String := none
  externalId : Option String := none
  privateMetadata : Option String := none

def home (fields : HomeFields) (content : Content) : Node :=
  Node.object
    |>.attr "type" (ofString "home")
    |>.attr "callback_id" (ofString? fields.callbackId)
    |>.attr "external_id" (ofString? fields.externalId)
    |>.attr "private_metadata" (ofString? fields.privateMetadata)
    |>.attr "blocks" (.node (blockList .home content))

/-! ## Context blocks -/

/-- Whether a child of a context block is an element on its own: a typed object, a `span` or an
`img`. -/
def standsAlone : Child → Bool
  | .node n =>
    n.objectType?.isSome || n.tagName? == some "span" || n.tagName? == some "img"
  | .text _ => false

def contextElement (n : Node) : Node :=
  match n.tagName? with
  | some "img" =>
    Node.object
      |>.attr "type" (ofString "image")
      |>.attr "image_url" (given n "src")
      |>.attr "alt_text" (given n "alt")
  | some "span" => mrkdwn (.node n)
  | _ => n

/-- A run of children that belong to one text, or a child on its own. -/
inductive ContextGroup where
  | run (children : List Child)
  | alone (node : Node)

/-- The children of a context block in groups: a child that does not stand alone joins the run
that follows it. -/
def contextGroups : List Child → List ContextGroup
  | [] => []
  | .node n :: cs =>
    if standsAlone (.node n) then .alone n :: contextGroups cs
    else joinRun (.node n) (contextGroups cs)
  | .text s :: cs => joinRun (.text s) (contextGroups cs)
where
  /-- Puts a child before groups: into the run they start with, or as a new run. -/
  joinRun (c : Child) : List ContextGroup → List ContextGroup
    | .run cs :: gs => .run (c :: cs) :: gs
    | gs => .run [c] :: gs

def ContextGroup.element : ContextGroup → Node
  | run cs => mrkdwn (.ofChildren cs)
  | alone n => contextElement n

def context (blockId : AttrValue) (content : Content) : Node :=
  let elements := (contextGroups content.normalize).map ContextGroup.element
  Node.object
    |>.attr "type" (ofString "context")
    |>.attr "block_id" blockId
    |>.attr "elements" (.node (.array (.list (elements.map .node))))
    |>.withHook .contextElements

end MessageLayout.Block
