import MessageLayout.Proofs.LiteralText
import MessageLayout.Proofs.SoundContainers

/-!
# Absent attributes

An optional attribute that is left out stands in a node as an absent value. Rendering reads it as if
it were not there: an object leaves it out, a start tag writes nothing, and no look-up finds a text.

The builders look attributes up as well. Where one attribute stands in for another, as `id` does for
`block_id`, the absent one is found first and hides its stand-in, so there, and nowhere else, it
makes a difference.

    n.isWellNamed → renderNode c n.present = renderNode c n                  (renderNode_present)
    no absent attribute hides its stand-in →
      render options (b.node content.present) = render options (b.node content)  (render_present)
-/

namespace MessageLayout

/-! ## Attributes that are present -/

mutual

/-- The node without its absent attributes, at every depth. -/
def Node.present : Node → Node
  | ⟨kind, ⟨entries⟩, children, hook⟩ =>
    ⟨kind, ⟨presentEntries entries⟩, presentChildren children, hook⟩

/-- The value with the nodes in it without their absent attributes. -/
def AttrValue.present : AttrValue → AttrValue
  | .absent => .absent
  | .json v => .json v
  | .node n => .node n.present
  | .list items => .list (presentValues items)

/-- The values with the nodes in them without their absent attributes. -/
def presentValues : List AttrValue → List AttrValue
  | [] => []
  | v :: vs => v.present :: presentValues vs

/-- The attributes that are not absent. -/
def presentEntries : List (String × AttrValue) → List (String × AttrValue)
  | [] => []
  | (name, v) :: es =>
    if v.isAbsent then presentEntries es else (name, v.present) :: presentEntries es

/-- The children with the nodes among them without their absent attributes. -/
def presentChildren : List Child → List Child
  | [] => []
  | .node n :: ds => .node n.present :: presentChildren ds
  | .text s :: ds => .text s :: presentChildren ds

end

mutual

/-- Whether the attributes of the node, and of each node in it, have different names. -/
def Node.isWellNamed : Node → Bool
  | ⟨_, ⟨entries⟩, children, _⟩ =>
    decide (entries.map (·.1)).Nodup && entriesWellNamed entries && childrenWellNamed children

/-- Whether the attributes of each node in the value have different names. -/
def AttrValue.isWellNamed : AttrValue → Bool
  | .absent => true
  | .json _ => true
  | .node n => n.isWellNamed
  | .list items => valuesWellNamed items

/-- Whether the attributes of each node in the values have different names. -/
def valuesWellNamed : List AttrValue → Bool
  | [] => true
  | v :: vs => v.isWellNamed && valuesWellNamed vs

/-- Whether the attributes of each node in the attributes have different names. -/
def entriesWellNamed : List (String × AttrValue) → Bool
  | [] => true
  | (_, v) :: es => v.isWellNamed && entriesWellNamed es

/-- Whether the attributes of each node in the children have different names. -/
def childrenWellNamed : List Child → Bool
  | [] => true
  | .node n :: ds => n.isWellNamed && childrenWellNamed ds
  | .text _ :: ds => childrenWellNamed ds

end

section Lookup

variable {v : AttrValue} {es : List (String × AttrValue)}

@[simp] theorem AttrValue.isAbsent_present (v : AttrValue) : v.present.isAbsent = v.isAbsent := by
  cases v <;> simp only [AttrValue.present, AttrValue.isAbsent]

@[simp] theorem AttrValue.str?_present (v : AttrValue) : v.present.str? = v.str? := by
  cases v <;> simp only [AttrValue.present, AttrValue.str?]

@[simp] theorem AttrValue.attrText?_present (v : AttrValue) :
    v.present.attrText? = v.attrText? := by
  cases v <;> simp only [AttrValue.present, AttrValue.attrText?]

/-- The value that is found among the attributes that are present. -/
def AttrValue.present? (v : AttrValue) : Option AttrValue :=
  if v.isAbsent then none else some v.present

theorem AttrValue.eq_absent_of_isAbsent (h : v.isAbsent = true) : v = .absent := by
  cases v <;> first | rfl | cases h

/-- An absent value has no text, so a look-up for one does not notice whether it is there. -/
theorem AttrValue.present?_bind {α : Type} (f : AttrValue → Option α) (habsent : f .absent = none)
    (hf : ∀ v, f v.present = f v) (v : AttrValue) : v.present?.bind f = f v := by
  unfold AttrValue.present?
  split
  next h => rw [AttrValue.eq_absent_of_isAbsent h, habsent, Option.bind_none]
  · exact hf v

/-- If names are different, a present attribute is found as before and an absent one is not. -/
theorem lookup_presentEntries (h : (es.map (·.1)).Nodup) (name : String) :
    (presentEntries es).lookup name = (es.lookup name).bind AttrValue.present? := by
  induction es with
  | nil => rfl
  | cons e es ih =>
    obtain ⟨n, v⟩ := e
    rw [List.map_cons, List.nodup_cons] at h
    rw [presentEntries, List.lookup_cons]
    split
    next hv =>
      rw [ih h.2]
      split
      next hn =>
        have hnone : es.lookup name = none := by
          rw [List.lookup_eq_none_iff]
          intro e he
          rw [eq_of_beq hn]
          exact bne_iff_ne.mpr fun hne => h.1 (List.mem_map.mpr ⟨e, he, hne.symm⟩)
        rw [hnone, Option.bind_some, AttrValue.present?, if_pos hv, Option.bind_none]
      · rfl
    next hv =>
      rw [List.lookup_cons]
      split
      · rw [Option.bind_some, AttrValue.present?, if_neg hv]
      · exact ih h.2

/-- A look-up that reads a text of the value does not notice the absent attributes. -/
theorem lookup_presentEntries_bind {α : Type} (h : (es.map (·.1)).Nodup) (name : String)
    (f : AttrValue → Option α) (habsent : f .absent = none) (hf : ∀ v, f v.present = f v) :
    ((presentEntries es).lookup name).bind f = (es.lookup name).bind f := by
  rw [lookup_presentEntries h, Option.bind_assoc]
  exact Option.bind_congr fun v _ => AttrValue.present?_bind f habsent hf v

theorem str?_presentEntries (h : (es.map (·.1)).Nodup) (name : String) :
    Fields.str? ⟨presentEntries es⟩ name = Fields.str? ⟨es⟩ name :=
  lookup_presentEntries_bind h name _ rfl AttrValue.str?_present

theorem attrText?_presentEntries (h : (es.map (·.1)).Nodup) (name : String) :
    Markup.attrText? ⟨presentEntries es⟩ name = Markup.attrText? ⟨es⟩ name :=
  lookup_presentEntries_bind h name _ rfl AttrValue.attrText?_present

end Lookup

namespace Render

/-! ## Rendering a node -/

/-- A start tag has no trace of an absent attribute. -/
theorem writeAttrs_presentEntries (es : List (String × AttrValue)) :
    Markup.writeAttrs ⟨presentEntries es⟩ = Markup.writeAttrs ⟨es⟩ := by
  induction es with
  | nil => rfl
  | cons e es ih =>
    obtain ⟨name, v⟩ := e
    simp only [Markup.writeAttrs] at ih
    rw [presentEntries]
    split
    next hv =>
      rw [AttrValue.eq_absent_of_isAbsent hv]
      simpa only [Markup.writeAttrs, List.flatMap_cons, AttrValue.attrText?, List.nil_append] using ih
    · simp only [Markup.writeAttrs, List.flatMap_cons, AttrValue.attrText?_present, ih]

theorem renderTag_presentEntries (name : String) {es : List (String × AttrValue)}
    (h : (es.map (·.1)).Nodup) (content : List Char) (ancestry : Ancestry) :
    Markup.renderTag name ⟨presentEntries es⟩ content ancestry
      = Markup.renderTag name ⟨es⟩ content ancestry := by
  have hwrite : ∀ kind : Markup.Inline, kind.write name ⟨presentEntries es⟩ content ancestry
      = kind.write name ⟨es⟩ content ancestry := by
    intro kind
    cases kind with
    | link =>
      simp only [Markup.Inline.write, writeAttrs_presentEntries, Markup.linkContent,
        str?_presentEntries h]
    | numberedList => simp only [Markup.Inline.write, writeAttrs_presentEntries]
    | time =>
      simp only [Markup.Inline.write, Markup.timeElement, Markup.fallbackAttr,
        attrText?_presentEntries h]
    | _ => rfl
  simp only [Markup.renderTag, hwrite]

@[simp] theorem tagName?_present (n : Node) : n.present.tagName? = n.tagName? := by
  obtain ⟨kind, ⟨entries⟩, children, hook⟩ := n
  rfl

mutual

/-- A node renders the same without its absent attributes, and fails with the same error. -/
theorem renderNode_present (c : Context) :
    (n : Node) → n.isWellNamed = true → renderNode c n.present = renderNode c n
  | ⟨kind, ⟨entries⟩, children, hook⟩, h => by
    simp only [Node.isWellNamed, Bool.and_eq_true, decide_eq_true_eq] at h
    obtain ⟨⟨hnames, hentries⟩, hchildren⟩ := h
    rw [Node.present]
    cases kind with
    | object => simp only [renderNode, renderFields_present _ entries hentries]
    | array => simp only [renderNode, renderItems_present _ hook children hchildren]
    | text => simp only [renderNode, renderText_present _ children hchildren]
    | markup => simp only [renderNode, renderText_present _ children hchildren]
    | escaped => simp only [renderNode, renderText_present _ children hchildren]
    | tag name =>
      simp only [renderNode, renderText_present _ children hchildren,
        renderTag_presentEntries name hnames]

theorem renderFields_present (c : Context) : (es : List (String × AttrValue)) →
    entriesWellNamed es = true → renderFields c (presentEntries es) = renderFields c es
  | [], _ => by rw [presentEntries]
  | (name, v) :: es, h => by
    simp only [entriesWellNamed, Bool.and_eq_true] at h
    have hes := renderFields_present c es h.2
    rw [presentEntries]
    split
    next hv =>
      simp only [renderFields, renderField, hv, if_true, pure_bind, hes, List.nil_append, bind_pure]
    · simp only [renderFields, renderField, AttrValue.isAbsent_present,
        renderValue_present c v h.1, hes]

theorem renderValue_present (c : Context) : (v : AttrValue) →
    v.isWellNamed = true → renderValue c v.present = renderValue c v
  | .absent, _ => by rw [AttrValue.present]
  | .json _, _ => by rw [AttrValue.present]
  | .node n, h => by
    simp only [AttrValue.isWellNamed] at h
    simp only [AttrValue.present, renderValue, renderNode_present c n h]
  | .list items, h => by
    simp only [AttrValue.isWellNamed] at h
    simp only [AttrValue.present, renderValue, renderValues_present c items h]

theorem renderValues_present (c : Context) : (vs : List AttrValue) →
    valuesWellNamed vs = true → renderValues c (presentValues vs) = renderValues c vs
  | [], _ => by rw [presentValues]
  | v :: vs, h => by
    simp only [valuesWellNamed, Bool.and_eq_true] at h
    simp only [presentValues, renderValues, AttrValue.isAbsent_present,
      renderValue_present c v h.1, renderValues_present c vs h.2]

theorem renderItems_present (c : Context) (hook : Option Check) : (ds : List Child) →
    childrenWellNamed ds = true → renderItems c hook (presentChildren ds) = renderItems c hook ds
  | [], _ => by rw [presentChildren]
  | .node n :: ds, h => by
    simp only [childrenWellNamed, Bool.and_eq_true] at h
    simp only [presentChildren, renderItems, renderItem, tagName?_present,
      renderNode_present c n h.1, renderItems_present c hook ds h.2]
  | .text s :: ds, h => by
    simp only [childrenWellNamed] at h
    simp only [presentChildren, renderItems, renderItem, renderItems_present c hook ds h]

theorem renderText_present (c : Context) : (ds : List Child) →
    childrenWellNamed ds = true → renderText c (presentChildren ds) = renderText c ds
  | [], _ => by rw [presentChildren]
  | .node n :: ds, h => by
    simp only [childrenWellNamed, Bool.and_eq_true] at h
    simp only [presentChildren, renderText, renderChild, renderNode_present c n h.1,
      renderText_present c ds h.2]
  | .text s :: ds, h => by
    simp only [childrenWellNamed] at h
    simp only [presentChildren, renderText, renderChild, renderText_present c ds h]

end

/-! ## Nodes that render alike -/

/-- Two attribute values that render alike, and that are both left out or both not. -/
structure ValuesAlike (u v : AttrValue) : Prop where
  absent : u.isAbsent = v.isAbsent
  value : ∀ c, renderValue c u = renderValue c v

/-- Two objects with the same names and with values that render alike. -/
structure ObjectsAlike (n m : Node) : Prop where
  left : n.kind = .object
  right : m.kind = .object
  hook : n.hook = m.hook
  entries : List.Forall₂ (fun e f => e.1 = f.1 ∧ ValuesAlike e.2 f.2)
    n.attributes.entries m.attributes.entries

namespace ValuesAlike

theorem refl (v : AttrValue) : ValuesAlike v v :=
  ⟨rfl, fun _ => rfl⟩

theorem node {n m : Node} (h : ∀ c, renderNode c n = renderNode c m) :
    ValuesAlike (.node n) (.node m) :=
  ⟨rfl, fun c => by simp only [renderValue, h c]⟩

theorem present {v : AttrValue} (h : v.isWellNamed = true) : ValuesAlike v.present v :=
  ⟨v.isAbsent_present, fun c => renderValue_present c v h⟩

end ValuesAlike

namespace ObjectsAlike

variable {n m : Node}

theorem refl (h : n.kind = .object) : ObjectsAlike n n :=
  ⟨h, h, rfl, List.forall₂_same.mpr fun _ _ => ⟨rfl, .refl _⟩⟩

theorem object : ObjectsAlike .object .object :=
  .refl rfl

theorem attr (h : ObjectsAlike n m) (name : String) {u v : AttrValue} (hv : ValuesAlike u v) :
    ObjectsAlike (n.attr name u) (m.attr name v) := by
  refine ⟨h.left, h.right, h.hook, ?_⟩
  show List.Forall₂ _ (Fields.insertEntry name u n.attributes.entries)
    (Fields.insertEntry name v m.attributes.entries)
  have hentries := h.entries
  revert hentries
  generalize n.attributes.entries = es
  generalize m.attributes.entries = fs
  intro hentries
  induction hentries with
  | nil => exact .cons ⟨rfl, hv⟩ .nil
  | @cons e f es fs he hes ih =>
    obtain ⟨a, x⟩ := e
    obtain ⟨b, y⟩ := f
    obtain ⟨rfl, hxy⟩ := he
    simp only [Fields.insertEntry]
    split
    · exact .cons ⟨rfl, hv⟩ hes
    · exact .cons ⟨rfl, hxy⟩ ih

theorem withHook (h : ObjectsAlike n m) (hook : Check) :
    ObjectsAlike (n.withHook hook) (m.withHook hook) :=
  ⟨h.left, h.right, rfl, h.entries⟩

theorem tagName? (h : ObjectsAlike n m) : n.tagName? = m.tagName? := by
  simp only [Node.tagName?, h.left, h.right]

theorem renderNode (h : ObjectsAlike n m) (c : Context) :
    Render.renderNode c n = Render.renderNode c m := by
  obtain ⟨hn, hm, hhook, hentries⟩ := h
  obtain ⟨kind, ⟨es⟩, children, hook⟩ := n
  obtain ⟨kind', ⟨fs⟩, children', hook'⟩ := m
  obtain rfl : kind = .object := hn
  obtain rfl : kind' = .object := hm
  obtain rfl : hook = hook' := hhook
  have hfields : ∀ c, renderFields c es = renderFields c fs := by
    intro c
    simp only at hentries
    induction hentries with
    | nil => rfl
    | @cons e f es fs he _ ih =>
      obtain ⟨a, x⟩ := e
      obtain ⟨b, y⟩ := f
      obtain ⟨rfl, hxy⟩ := he
      simp only [renderFields, renderField, hxy.absent, hxy.value c, ih]
  simp only [Render.renderNode, hfields]

end ObjectsAlike

variable {m : Mode}

theorem alikeIn_refl (x : Child) : AlikeIn m x x :=
  ⟨fun _ _ => rfl, fun _ _ _ => rfl⟩

theorem AlikeIn.of_nodes {n n' : Node} (htag : n.tagName? = n'.tagName?)
    (h : ∀ c, renderNode c n = renderNode c n') : AlikeIn m (.node n) (.node n') where
  child c _ := by simp only [renderChild, h c]
  item c _ hook := by simp only [renderItem, htag, h c]

theorem ObjectsAlike.alikeIn {n n' : Node} (h : ObjectsAlike n n') : AlikeIn m (.node n) (.node n') :=
  .of_nodes h.tagName? h.renderNode

theorem AlikeIn.cons {x y : Child} {ds es : List Child} (h : AlikeIn m x y)
    (hs : AllAlikeIn m ds es) : AllAlikeIn m (x :: ds) (y :: es) where
  text c hc := by simp only [renderText, h.child c hc, hs.text c hc]
  items c hc hook := by simp only [renderItems, h.item c hc, hs.items c hc]

theorem allAlikeIn_nil : AllAlikeIn m [] [] :=
  ⟨fun _ _ => rfl, fun _ _ _ => rfl⟩

theorem allAlikeIn_presentChildren {ds : List Child} (h : childrenWellNamed ds = true) :
    AllAlikeIn m (presentChildren ds) ds :=
  ⟨fun c _ => renderText_present c ds h, fun c _ hook => renderItems_present c hook ds h⟩

end Render

/-! ## Builders -/

mutual

/-- The content with the nodes in it without their absent attributes. -/
def Content.present : Content → Content
  | .node n => .node n.present
  | .text s => .text s
  | .list items => .list (presentContents items)
  | .empty => .empty

/-- The contents with the nodes in them without their absent attributes. -/
def presentContents : List Content → List Content
  | [] => []
  | c :: cs => c.present :: presentContents cs

end

theorem presentChildren_append (ds es : List Child) :
    presentChildren (ds ++ es) = presentChildren ds ++ presentChildren es := by
  induction ds with
  | nil => rfl
  | cons d ds ih =>
    cases d with
    | node n => simp only [List.cons_append, presentChildren, ih]
    | text s => simp only [List.cons_append, presentChildren, ih]

mutual

theorem Content.normalize_present :
    (c : Content) → c.present.normalize = presentChildren c.normalize
  | .node n => by simp only [Content.present, Content.normalize, presentChildren]
  | .text s => by simp only [Content.present, Content.normalize, presentChildren]
  | .list items => by
    simp only [Content.present, Content.normalize, normalizeAll_presentContents items]
  | .empty => by simp only [Content.present, Content.normalize, presentChildren]

theorem normalizeAll_presentContents : (cs : List Content) →
    Content.normalizeAll (presentContents cs) = presentChildren (Content.normalizeAll cs)
  | [] => by simp only [presentContents, Content.normalizeAll, presentChildren]
  | c :: cs => by
    simp only [presentContents, Content.normalizeAll, presentChildren_append,
      Content.normalize_present c, normalizeAll_presentContents cs]

end

namespace Block

open Render

section BlockOf

variable {n : Node}

/-- Whether an attribute that is there but absent hides another one, which stands in for it. -/
def hidesStandIn (n : Node) (name other : String) : Bool :=
  (n.attributes.get? name).any AttrValue.isAbsent && !(given n other).isAbsent

/-- Whether an absent attribute of a node hides its stand-in when the node is taken for a block. -/
def hidesInBlock (n : Node) : Bool :=
  match n.tagName? with
  | some "hr" | some "img" | some "section" => hidesStandIn n "block_id" "id"
  | some "input" => hidesStandIn n "block_id" "id" || hidesStandIn n "action_id" "name"
  | _ => false

theorem isWellNamed_given (h : n.isWellNamed = true) (name : String) :
    (given n name).isWellNamed = true := by
  obtain ⟨kind, ⟨entries⟩, children, hook⟩ := n
  simp only [Node.isWellNamed, Bool.and_eq_true] at h
  have hentries : ∀ {es : List (String × AttrValue)}, entriesWellNamed es = true →
      (AttrValue.ofOption (es.lookup name)).isWellNamed = true := by
    intro es hes
    induction es with
    | nil => rfl
    | cons e es ih =>
      obtain ⟨a, v⟩ := e
      simp only [entriesWellNamed, Bool.and_eq_true] at hes
      rw [List.lookup_cons]
      split
      · exact hes.1
      · exact ih hes.2
  exact hentries h.1.2

theorem get?_present (h : n.isWellNamed = true) (name : String) :
    n.present.attributes.get? name = (n.attributes.get? name).bind AttrValue.present? := by
  obtain ⟨kind, ⟨entries⟩, children, hook⟩ := n
  simp only [Node.isWellNamed, Bool.and_eq_true, decide_eq_true_eq] at h
  exact lookup_presentEntries h.1.1 name

theorem str?_present (h : n.isWellNamed = true) (name : String) :
    n.present.attributes.str? name = n.attributes.str? name := by
  obtain ⟨kind, ⟨entries⟩, children, hook⟩ := n
  simp only [Node.isWellNamed, Bool.and_eq_true, decide_eq_true_eq] at h
  exact str?_presentEntries h.1.1 name

theorem given_present (h : n.isWellNamed = true) (name : String) :
    given n.present name = (given n name).present := by
  unfold given
  rw [get?_present h]
  cases n.attributes.get? name with
  | none => simp only [Option.bind_none, AttrValue.ofOption, AttrValue.present]
  | some v =>
    rw [Option.bind_some, AttrValue.present?]
    split
    next hv =>
      rw [AttrValue.eq_absent_of_isAbsent hv]
      simp only [AttrValue.ofOption, AttrValue.present]
    · rfl

theorem valuesAlike_given (h : n.isWellNamed = true) (name : String) :
    ValuesAlike (given n.present name) (given n name) := by
  rw [given_present h]
  exact .present (isWellNamed_given h name)

theorem valuesAlike_givenAs (h : n.isWellNamed = true) {name other : String}
    (hhides : hidesStandIn n name other = false) :
    ValuesAlike (givenAs n.present name other) (givenAs n name other) := by
  have hother := valuesAlike_given h other
  have hname := valuesAlike_given h name
  simp only [given, get?_present h] at hother hname
  simp only [givenAs, get?_present h]
  cases hget : n.attributes.get? name with
  | none => simpa only [Option.bind_none, Option.none_or] using hother
  | some v =>
    rw [hget, Option.bind_some] at hname
    rw [Option.bind_some, Option.some_or]
    unfold AttrValue.present? at hname ⊢
    split
    next hv =>
      -- what stands in for the absent attribute must be absent too
      simp only [hidesStandIn, hget, Option.any_some, hv, Bool.true_and, Bool.not_eq_false'] at hhides
      have hstandIn : AttrValue.ofOption (n.attributes.get? other) = .absent :=
        AttrValue.eq_absent_of_isAbsent hhides
      rw [hstandIn] at hother
      rwa [Option.none_or, AttrValue.eq_absent_of_isAbsent hv]
    next hv =>
      rw [if_neg hv] at hname
      rwa [Option.some_or]

theorem givenText_present (h : n.isWellNamed = true) (name : String) :
    givenText n.present name = givenText n name := by
  rw [givenText, givenText, str?_present h]

theorem objectsAlike_mrkdwn {content content' : Content}
    (h : ∀ m, AllAlikeIn m content.normalize content'.normalize) :
    ObjectsAlike (mrkdwn content) (mrkdwn content') := by
  have hmarkup : ∀ c, renderNode c (.markup content) = renderNode c (.markup content') :=
    fun c => renderNode_congr (.markup content) c (h _)
  exact ((ObjectsAlike.object.attr _ (.refl _)).attr _ (.node hmarkup)).attr _ (.refl _)

theorem allAlikeIn_children_present (h : n.isWellNamed = true) (m : Mode) :
    AllAlikeIn m n.present.children n.children := by
  obtain ⟨kind, ⟨entries⟩, children, hook⟩ := n
  simp only [Node.isWellNamed, Bool.and_eq_true] at h
  exact allAlikeIn_presentChildren h.2

theorem objectsAlike_textSection (h : n.isWellNamed = true) {blockId blockId' : AttrValue}
    (hid : ValuesAlike blockId blockId') :
    ObjectsAlike (textSection blockId (.ofChildren n.present.children))
      (textSection blockId' (.ofChildren n.children)) := by
  have htext : ObjectsAlike (mrkdwn (.ofChildren n.present.children))
      (mrkdwn (.ofChildren n.children)) := by
    refine objectsAlike_mrkdwn fun m => ?_
    rw [Content.normalize_ofChildren, Content.normalize_ofChildren]
    exact allAlikeIn_children_present h m
  exact ((ObjectsAlike.object.attr _ (.refl _)).attr _ hid).attr _ (.node htext.renderNode)

theorem objectsAlike_imageOf (h : n.isWellNamed = true)
    (hid : ValuesAlike (givenAs n.present "block_id" "id") (givenAs n "block_id" "id")) :
    ObjectsAlike (imageOf n.present) (imageOf n) := by
  unfold imageOf
  rw [givenText_present h]
  exact ((((ObjectsAlike.object.attr _ (.refl _)).attr _ hid).attr _ (valuesAlike_given h _)).attr _
    (valuesAlike_given h _)).attr _ (.refl _)

theorem objectsAlike_inputOf (h : n.isWellNamed = true)
    (hid : ValuesAlike (givenAs n.present "block_id" "id") (givenAs n "block_id" "id"))
    (haction : ValuesAlike (givenAs n.present "action_id" "name") (givenAs n "action_id" "name")) :
    ObjectsAlike (inputOf n.present) (inputOf n) := by
  have helement := (((ObjectsAlike.refl (n := plainTextInput .absent) rfl).attr "action_id"
    haction).attr "placeholder" (.refl (givenText n "placeholder"))).attr "initial_value"
      (valuesAlike_given h "value")
  unfold inputOf
  simp only [givenText_present h]
  exact ((((ObjectsAlike.object.attr _ (.refl _)).attr _ hid).attr _ (.refl _)).attr _
    (.node helement.renderNode)).attr _ (.refl _)

/-- The block that a node stands for renders the same without the node's absent attributes, unless
one of them hides its stand-in. -/
theorem alikeIn_blockOf {m : Mode} (h : n.isWellNamed = true) (hhides : hidesInBlock n = false) :
    AlikeIn m (.node (blockOf n.present)) (.node (blockOf n)) := by
  unfold hidesInBlock at hhides
  unfold blockOf
  rw [tagName?_present]
  split
  next htag =>
    rw [htag] at hhides
    have hdivider := (ObjectsAlike.refl (n := divider) rfl).attr "block_id"
      (valuesAlike_givenAs h hhides)
    exact hdivider.alikeIn
  next htag =>
    rw [htag] at hhides
    exact (objectsAlike_imageOf h (valuesAlike_givenAs h hhides)).alikeIn
  next htag =>
    rw [htag] at hhides
    exact (objectsAlike_textSection h (valuesAlike_givenAs h hhides)).alikeIn
  next htag =>
    rw [htag] at hhides
    simp only [Bool.or_eq_false_iff] at hhides
    exact (objectsAlike_inputOf h (valuesAlike_givenAs h hhides.1)
      (valuesAlike_givenAs h hhides.2)).alikeIn
  · exact .of_nodes (tagName?_present n) fun c => renderNode_present c n h

end BlockOf

/-! ## Containers -/

/-- Whether an absent attribute of a child hides its stand-in when the child is taken for a block. -/
def hidesInContainer : Child → Bool
  | .node n => hidesInBlock n
  | .text _ => false

theorem allAlikeIn_blockChild {m : Mode} {ds : List Child} (h : childrenWellNamed ds = true)
    (hhides : ds.any hidesInContainer = false) :
    AllAlikeIn m ((presentChildren ds).map blockChild) (ds.map blockChild) := by
  induction ds with
  | nil => exact allAlikeIn_nil
  | cons d ds ih =>
    rw [List.any_cons, Bool.or_eq_false_iff] at hhides
    cases d with
    | node n =>
      simp only [childrenWellNamed, Bool.and_eq_true] at h
      simp only [presentChildren, List.map_cons]
      exact (alikeIn_blockOf h.1 hhides.1).cons (ih h.2 hhides.2)
    | text s =>
      simp only [childrenWellNamed] at h
      simp only [presentChildren, List.map_cons]
      exact (alikeIn_refl _).cons (ih h hhides.2)

theorem renderNode_blockList_present (surface : Surface) {content : Content}
    (h : childrenWellNamed content.normalize = true)
    (hhides : content.normalize.any hidesInContainer = false) (c : Context) :
    renderNode c (blockList surface content.present) = renderNode c (blockList surface content) := by
  rw [blockList_eq, blockList_eq, Content.normalize_present]
  exact renderNode_congr ⟨.array, ⟨[]⟩, [], some (.container surface)⟩ c
    (allAlikeIn_blockChild h hhides)

/-! ## Context blocks -/

theorem standsAlone_present {n : Node} (h : n.isWellNamed = true) :
    standsAlone (.node n.present) = standsAlone (.node n) := by
  have htype : n.present.objectType? = n.objectType? := by
    have hstr := str?_present h "type"
    obtain ⟨kind, ⟨entries⟩, children, hook⟩ := n
    cases kind with
    | object => exact hstr
    | _ => rfl
  simp only [standsAlone, htype, tagName?_present]

theorem alikeIn_contextElement {m : Mode} {n : Node} (h : n.isWellNamed = true) :
    AlikeIn m (.node (contextElement n.present)) (.node (contextElement n)) := by
  unfold contextElement
  rw [tagName?_present]
  split
  · exact (((ObjectsAlike.object.attr _ (.refl _)).attr _ (valuesAlike_given h _)).attr _
      (valuesAlike_given h _)).alikeIn
  · refine (objectsAlike_mrkdwn fun m => ?_).alikeIn
    exact AlikeIn.cons (.of_nodes (tagName?_present n) fun c => renderNode_present c n h)
      allAlikeIn_nil
  · exact .of_nodes (tagName?_present n) fun c => renderNode_present c n h

/-- Two groups of children of a context block whose members render alike. -/
inductive GroupsAlike : ContextGroup → ContextGroup → Prop
  | run {ds es : List Child} : (∀ m, AllAlikeIn m ds es) → GroupsAlike (.run ds) (.run es)
  | alone {n : Node} : n.isWellNamed = true → GroupsAlike (.alone n.present) (.alone n)

theorem GroupsAlike.element {g g' : ContextGroup} (h : GroupsAlike g g') {m : Mode} :
    AlikeIn m (.node g.element) (.node g'.element) := by
  cases h with
  | run h =>
    refine (objectsAlike_mrkdwn fun m => ?_).alikeIn
    rw [Content.normalize_ofChildren, Content.normalize_ofChildren]
    exact h m
  | alone h => exact alikeIn_contextElement h

theorem forall₂_joinRun {x y : Child} {gs gs' : List ContextGroup} (h : ∀ m, AlikeIn m x y)
    (hs : List.Forall₂ GroupsAlike gs gs') :
    List.Forall₂ GroupsAlike (contextGroups.joinRun x gs) (contextGroups.joinRun y gs') := by
  cases hs with
  | nil => exact .cons (.run fun m => (h m).cons allAlikeIn_nil) .nil
  | cons hg hs =>
    cases hg with
    | run hrun => exact .cons (.run fun m => (h m).cons (hrun m)) hs
    | alone hn => exact .cons (.run fun m => (h m).cons allAlikeIn_nil) (.cons (.alone hn) hs)

theorem forall₂_contextGroups {ds : List Child} (h : childrenWellNamed ds = true) :
    List.Forall₂ GroupsAlike (contextGroups (presentChildren ds)) (contextGroups ds) := by
  induction ds with
  | nil => exact .nil
  | cons d ds ih =>
    cases d with
    | node n =>
      simp only [childrenWellNamed, Bool.and_eq_true] at h
      simp only [presentChildren, contextGroups, standsAlone_present h.1]
      split
      · exact .cons (.alone h.1) (ih h.2)
      · exact forall₂_joinRun (fun m => .of_nodes (tagName?_present n) fun c =>
          renderNode_present c n h.1) (ih h.2)
    | text s =>
      simp only [childrenWellNamed] at h
      simp only [presentChildren, contextGroups]
      exact forall₂_joinRun (fun m => alikeIn_refl _) (ih h)

theorem renderNode_context_present (blockId : AttrValue) {content : Content}
    (h : childrenWellNamed content.normalize = true) (c : Context) :
    renderNode c (context blockId content.present) = renderNode c (context blockId content) := by
  have hgroups := forall₂_contextGroups h
  have hchildren : ∀ {gs gs' : List ContextGroup}, List.Forall₂ GroupsAlike gs gs' → ∀ m,
      AllAlikeIn m (Content.normalizeAll ((gs.map ContextGroup.element).map .node))
        (Content.normalizeAll ((gs'.map ContextGroup.element).map .node)) := by
    intro gs gs' hgs m
    induction hgs with
    | nil => exact allAlikeIn_nil
    | cons hg _ ih => exact hg.element.cons ih
  have harray : ∀ c, renderNode c (.array (.list (((contextGroups content.present.normalize).map
      ContextGroup.element).map .node))) = renderNode c (.array (.list (((contextGroups
        content.normalize).map ContextGroup.element).map .node))) := by
    intro c
    rw [Content.normalize_present]
    exact renderNode_congr ⟨.array, ⟨[]⟩, [], none⟩ c (hchildren hgroups _)
  have hcontext := (((ObjectsAlike.object.attr "type" (.refl (.ofString "context"))).attr "block_id"
    (.refl blockId)).attr "elements" (.node harray)).withHook .contextElements
  exact hcontext.renderNode c

/-! ## Rendering what is built -/

/-- The builders that take the content of a payload. -/
inductive Builder where
  /-- A container of blocks. -/
  | container (k : Container)
  /-- A context block. -/
  | context (blockId : AttrValue)

namespace Builder

/-- The node that is built. -/
def node (b : Builder) (content : Content) : Node :=
  match b with
  | container k => k.node content
  | context blockId => Block.context blockId content

/-- Whether an absent attribute hides its stand-in, which it does right in a container only. -/
def hides (b : Builder) (content : Content) : Bool :=
  match b with
  | container _ => content.normalize.any hidesInContainer
  | context _ => false

end Builder

/-- What a builder makes of content renders the same without the absent attributes of the nodes in
it, at every depth, and fails with the same error, unless one of them hides its stand-in. -/
theorem render_present (options : FormatOptions) (b : Builder) {content : Content}
    (h : childrenWellNamed content.normalize = true) (hhides : b.hides content = false) :
    render options (b.node content.present) = render options (b.node content) := by
  have hnode : renderNode (.ofOptions options) (b.node content.present)
      = renderNode (.ofOptions options) (b.node content) := by
    cases b with
    | context blockId => exact renderNode_context_present blockId h _
    | container k =>
      have hblocks := fun surface => renderNode_blockList_present surface h hhides
      cases k with
      | message => exact hblocks .message _
      | modal fields =>
        exact ((ObjectsAlike.refl rfl).attr "blocks" (.node (hblocks .modal))).renderNode _
      | home fields =>
        exact ((ObjectsAlike.refl rfl).attr "blocks" (.node (hblocks .home))).renderNode _
  simp only [render, hnode]

/-- An absent attribute of a section in a home tab, and two of a mention in the text of the section. -/
theorem render_present_section :
    let link : Node := ⟨.tag "a", ⟨[("title", .absent), ("href", .json (.str "@here")),
      ("rel", .absent)]⟩, [], none⟩
    let content : Content := .node ⟨.tag "section", ⟨[("id", .json (.str "x")), ("rank", .absent)]⟩,
      [.node link, .text "a"], none⟩
    childrenWellNamed content.normalize = true ∧
      (Builder.container (.home {})).hides content = false ∧
        render {} ((Builder.container (.home {})).node content.present)
          = render {} ((Builder.container (.home {})).node content) := by
  intro link content
  have h : childrenWellNamed content.normalize = true := by decide
  have hhides : (Builder.container (.home {})).hides content = false := by decide
  exact ⟨h, hhides, render_present {} (.container (.home {})) h hhides⟩

/-- The identifier of a line between blocks is lost where the one that it stands in for is absent. -/
theorem render_present_hidden :
    let content : Content := .node ⟨.tag "hr", ⟨[("block_id", .absent), ("id", .json (.str "x"))]⟩, [],
      none⟩
    childrenWellNamed content.normalize = true ∧
      render {} (blocks content) = .ok (.arr [.obj ⟨[("type", .str "divider")]⟩]) ∧
        render {} (blocks content.present)
          = .ok (.arr [.obj ⟨[("type", .str "divider"), ("block_id", .str "x")]⟩]) := by
  intro content
  exact ⟨by decide, by rfl, by rfl⟩

end Block

end MessageLayout
