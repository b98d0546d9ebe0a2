import Mathlib.Data.List.Chain
import MessageLayout.Proofs.SoundContainers

/-!
# Groups of a context block

The children of a context block are cut into groups. A child that is an element on its own is a group
by itself, and the children between such ones are one text. `Grouping` says this of a list of groups
without saying how it is found, and only one list of groups is a grouping of given children. Each
group gives one element, and no element is left out when the block is rendered.

    Grouping ds gs ↔ gs = contextGroups ds                               (grouping_iff)
    checkContext finds too many elements ↔ there are more than ten groups (context_elements)
-/

namespace MessageLayout.Block

open Render

/-! ## Groups -/

/-- A child that is an element on its own: an object with a string as its type, or an inline element
named `span` or `img`. -/
inductive Independent : Child → Prop
  | object {n : Node} {type : String} :
      n.kind = .object → n.attributes.get? "type" = some (.json (.str type)) → Independent (.node n)
  | span {n : Node} : n.kind = .tag "span" → Independent (.node n)
  | image {n : Node} : n.kind = .tag "img" → Independent (.node n)

/-- The children in a group. -/
def ContextGroup.members : ContextGroup → List Child
  | run cs => cs
  | alone n => [.node n]

/-- Whether a group is a text. -/
def ContextGroup.isRun : ContextGroup → Bool
  | run _ => true
  | alone _ => false

/-- The children cut into groups: the independent ones by themselves, and between them runs that are
not empty and as long as they can be. -/
structure Grouping (ds : List Child) (gs : List ContextGroup) : Prop where
  members : gs.flatMap ContextGroup.members = ds
  alone : ∀ n, .alone n ∈ gs → Independent (.node n)
  run : ∀ cs, .run cs ∈ gs → cs ≠ [] ∧ ∀ d ∈ cs, ¬Independent d
  apart : gs.IsChain fun g h => ¬(g.isRun = true ∧ h.isRun = true)

theorem objectType?_isSome_iff {n : Node} :
    n.objectType?.isSome = true ↔
      n.kind = .object ∧ ∃ type, n.attributes.get? "type" = some (.json (.str type)) := by
  obtain ⟨kind, attributes, children, hook⟩ := n
  cases kind with
  | object =>
    simp only [Node.objectType?, Fields.str?, Option.isSome_iff_exists, Option.bind_eq_some_iff,
      true_and]
    constructor
    · rintro ⟨type, v, hv, hs⟩
      cases v with
      | json v =>
        cases v with
        | str s => exact ⟨s, hv⟩
        | _ => cases hs
      | _ => cases hs
    · rintro ⟨type, hv⟩
      exact ⟨type, _, hv, rfl⟩
  | _ => simp [Node.objectType?]

theorem tagName?_eq_some_iff {n : Node} {name : String} :
    n.tagName? = some name ↔ n.kind = .tag name := by
  obtain ⟨kind, attributes, children, hook⟩ := n
  cases kind <;> simp [Node.tagName?, Kind.tagName?]

theorem standsAlone_iff {d : Child} : standsAlone d = true ↔ Independent d := by
  cases d with
  | text s => exact ⟨nofun, nofun⟩
  | node n =>
    simp only [standsAlone, Bool.or_eq_true, objectType?_isSome_iff, beq_iff_eq, tagName?_eq_some_iff]
    constructor
    · rintro ((⟨hk, type, ht⟩ | hk) | hk)
      · exact .object hk ht
      · exact .span hk
      · exact .image hk
    · rintro (⟨hk, ht⟩ | hk | hk)
      · exact .inl (.inl ⟨hk, _, ht⟩)
      · exact .inl (.inr hk)
      · exact .inr hk

theorem contextGroups_cons_independent {n : Node} (h : Independent (.node n)) (ds : List Child) :
    contextGroups (.node n :: ds) = .alone n :: contextGroups ds := by
  rw [contextGroups, if_pos (standsAlone_iff.mpr h)]

theorem contextGroups_cons {d : Child} (h : ¬Independent d) (ds : List Child) :
    contextGroups (d :: ds) = contextGroups.joinRun d (contextGroups ds) := by
  cases d with
  | text s => rfl
  | node n => rw [contextGroups, if_neg (mt standsAlone_iff.mp h)]

/-! ## The only grouping -/

section Groupings

variable {d : Child} {ds : List Child} {gs : List ContextGroup}

theorem Grouping.cons_alone (h : Grouping ds gs) {n : Node} (hn : Independent (.node n)) :
    Grouping (.node n :: ds) (.alone n :: gs) where
  members := congrArg (Child.node n :: ·) h.members
  alone m hm := by
    rcases List.mem_cons.mp hm with he | hm
    · obtain rfl := ContextGroup.alone.inj he
      exact hn
    · exact h.alone m hm
  run cs hm := h.run cs (by simpa using hm)
  apart := List.isChain_cons.mpr ⟨fun _ _ hand => Bool.false_ne_true hand.1, h.apart⟩

/-- A child that is no element on its own starts a run, or the run behind it starts with it. -/
theorem Grouping.cons_joinRun (h : Grouping ds gs) (hd : ¬Independent d) :
    Grouping (d :: ds) (contextGroups.joinRun d gs) := by
  have hstart : (∀ g ∈ gs.head?, g.isRun = false) → Grouping (d :: ds) (.run [d] :: gs) := by
    intro hhead
    refine ⟨congrArg (d :: ·) h.members, fun n hn => h.alone n (by simpa using hn), ?_, ?_⟩
    · intro cs hm
      rcases List.mem_cons.mp hm with he | hm
      · obtain rfl := ContextGroup.run.inj he
        exact ⟨List.cons_ne_nil _ _, by simpa using hd⟩
      · exact h.run cs hm
    · exact List.isChain_cons.mpr
        ⟨fun g hg hand => Bool.false_ne_true ((hhead g hg).symm.trans hand.2), h.apart⟩
  cases gs with
  | nil => exact hstart nofun
  | cons g gs =>
    cases g with
    | alone n => exact hstart fun g hg => by obtain rfl := Option.some.inj hg; rfl
    | run cs =>
      refine ⟨congrArg (d :: ·) h.members, fun n hn => h.alone n ?_, ?_, ?_⟩
      · exact List.mem_cons_of_mem _ (by simpa [contextGroups.joinRun] using hn)
      · intro cs' hm
        rcases List.mem_cons.mp hm with he | hm
        · obtain rfl := ContextGroup.run.inj he
          exact ⟨List.cons_ne_nil _ _,
            List.forall_mem_cons.mpr ⟨hd, (h.run cs List.mem_cons_self).2⟩⟩
        · exact h.run cs' (List.mem_cons_of_mem _ hm)
      · obtain ⟨hhead, htail⟩ := List.isChain_cons.mp h.apart
        exact List.isChain_cons.mpr ⟨fun g hg hand => hhead g hg ⟨rfl, hand.2⟩, htail⟩

theorem grouping_contextGroups (ds : List Child) : Grouping ds (contextGroups ds) := by
  induction ds with
  | nil => exact ⟨rfl, nofun, nofun, .nil⟩
  | cons d ds ih =>
    by_cases hd : Independent d
    · cases d with
      | text s => cases hd
      | node n =>
        rw [contextGroups_cons_independent hd]
        exact ih.cons_alone hd
    · rw [contextGroups_cons hd]
      exact ih.cons_joinRun hd

/-- A run and what follows it are cut where the run ends. -/
theorem contextGroups_append {cs : List Child} (hne : cs ≠ []) (hcs : ∀ d ∈ cs, ¬Independent d)
    (hgs : contextGroups ds = gs) (hhead : ∀ g ∈ gs.head?, g.isRun = false) :
    contextGroups (cs ++ ds) = .run cs :: gs := by
  induction cs with
  | nil => exact absurd rfl hne
  | cons d cs ih =>
    obtain ⟨hd, hcs⟩ := List.forall_mem_cons.mp hcs
    rw [List.cons_append, contextGroups_cons hd]
    cases cs with
    | nil =>
      rw [List.nil_append, hgs]
      cases gs with
      | nil => rfl
      | cons g gs =>
        cases g with
        | run cs => exact absurd (hhead _ rfl) Bool.true_eq_false.mp
        | alone n => rfl
    | cons e cs =>
      rw [ih (List.cons_ne_nil _ _) hcs]
      rfl

theorem Grouping.eq_contextGroups (h : Grouping ds gs) : gs = contextGroups ds := by
  induction gs generalizing ds with
  | nil =>
    obtain rfl := h.members
    rfl
  | cons g gs ih =>
    obtain ⟨hhead, htail⟩ := List.isChain_cons.mp h.apart
    have hrest : Grouping (gs.flatMap ContextGroup.members) gs :=
      ⟨rfl, fun n hn => h.alone n (List.mem_cons_of_mem _ hn),
        fun cs hcs => h.run cs (List.mem_cons_of_mem _ hcs), htail⟩
    have hds : g.members ++ gs.flatMap ContextGroup.members = ds := h.members
    rw [← hds]
    cases g with
    | alone n =>
      have hn := h.alone n List.mem_cons_self
      rw [ContextGroup.members, List.singleton_append, contextGroups_cons_independent hn, ← ih hrest]
    | run cs =>
      obtain ⟨hne, hcs⟩ := h.run cs List.mem_cons_self
      refine (contextGroups_append hne hcs (ih hrest).symm fun g hg => ?_).symm
      exact Bool.eq_false_iff.mpr fun hrun => hhead g hg ⟨rfl, hrun⟩

/-- Children have one grouping. -/
theorem grouping_iff : Grouping ds gs ↔ gs = contextGroups ds :=
  ⟨Grouping.eq_contextGroups, fun h => h ▸ grouping_contextGroups ds⟩

end Groupings

/-! ## Elements -/

/-- The node is an mrkdwn object whose text holds the given children and nothing else. -/
structure HoldsText (children : List Child) (e : Node) : Prop where
  kind : e.kind = .object
  type : e.attributes.get? "type" = some (.json (.str "mrkdwn"))
  text : e.attributes.get? "text" = some (.node ⟨.markup, ∅, children, none⟩)

/-- What a group of a context block gives: the typed object itself, an image, or an mrkdwn object that
holds the members unchanged and in their order. -/
inductive Gives : ContextGroup → Node → Prop
  | object {n : Node} : n.kind = .object → Gives (.alone n) n
  | image {n e : Node} :
      n.kind = .tag "img" → e.kind = .object →
        e.attributes.get? "type" = some (.json (.str "image")) →
          e.attributes.get? "image_url" = some (given n "src") →
            e.attributes.get? "alt_text" = some (given n "alt") → Gives (.alone n) e
  | span {n e : Node} : n.kind = .tag "span" → HoldsText [.node n] e → Gives (.alone n) e
  | run {cs : List Child} {e : Node} : HoldsText cs e → Gives (.run cs) e

theorem Gives.kind {g : ContextGroup} {e : Node} (h : Gives g e) : e.kind = .object := by
  cases h with
  | object hk => exact hk
  | image _ hk => exact hk
  | span _ ht => exact ht.kind
  | run ht => exact ht.kind

theorem holdsText_mrkdwn (content : Content) : HoldsText content.normalize (mrkdwn content) :=
  ⟨rfl, rfl, rfl⟩

theorem gives_element {g : ContextGroup} (h : ∀ n, g = .alone n → Independent (.node n)) :
    Gives g g.element := by
  cases g with
  | run cs =>
    have ht := holdsText_mrkdwn (.ofChildren cs)
    rw [Content.normalize_ofChildren] at ht
    exact .run ht
  | alone n =>
    show Gives (.alone n) (contextElement n)
    rcases h n rfl with ⟨hk, -⟩ | hk | hk
    · have hself : contextElement n = n := by simp [contextElement, Node.tagName?, hk, Kind.tagName?]
      rw [hself]
      exact .object hk
    · have hspan : contextElement n = mrkdwn (.node n) := by
        simp [contextElement, tagName?_eq_some_iff.mpr hk]
      rw [hspan]
      exact .span hk (holdsText_mrkdwn (.node n))
    · have himage : contextElement n = (Node.object
          |>.attr "type" (.ofString "image")
          |>.attr "image_url" (given n "src")
          |>.attr "alt_text" (given n "alt")) := by
        simp [contextElement, tagName?_eq_some_iff.mpr hk]
      rw [himage]
      exact .image hk rfl rfl rfl rfl

theorem Grouping.gives {ds : List Child} {gs : List ContextGroup} (h : Grouping ds gs) :
    List.Forall₂ Gives gs (gs.map ContextGroup.element) := by
  refine List.forall₂_map_right_iff.mpr (List.forall₂_same.mpr fun g hg => gives_element ?_)
  rintro n rfl
  exact h.alone n hg

theorem normalizeAll_map_node (es : List Node) :
    Content.normalizeAll (es.map .node) = es.map .node := by
  induction es with
  | nil => rfl
  | cons e es ih => exact congrArg (.node e :: ·) ih

/-- The list of elements in a context block. -/
theorem get?_elements_context (blockId : AttrValue) (content : Content) :
    (context blockId content).attributes.get? "elements"
      = some (.node ⟨.array, ∅,
          ((contextGroups content.normalize).map ContextGroup.element).map .node, none⟩) := by
  have helements := normalizeAll_map_node ((contextGroups content.normalize).map ContextGroup.element)
  rw [← helements]
  exact Fields.get?_insert_self _ _ _

/-! ## Rendering -/

/-- What a node of a list renders to in a context, as an item of the list. -/
def RendersTo (c : Context) (e : Node) (item : Json) : Prop :=
  ∃ r, renderNode c e = .ok r ∧ r.output.toJson = item

theorem isOmitted_of_kind {c : Context} {n : Node} (hkind : n.kind = .object) {r : Rendered Output}
    (h : renderNode c n = .ok r) : r.output.isOmitted = false := by
  obtain ⟨kind, ⟨entries⟩, children, hook⟩ := n
  obtain rfl : kind = .object := hkind
  simp only [renderNode, pure_bind] at h
  obtain ⟨fields, -, ho, -⟩ := finish_eq_ok h
  rw [ho]
  rfl

/-- No object is left out of a list. -/
theorem forall₂_shownItems {c : Context} {es : List Node} (hes : ∀ e ∈ es, e.kind = .object)
    {outputs : List Output} (h : List.Forall₂ (fun e o => ∃ item,
      renderItem c none (.node e) = .ok item ∧ item.output = o) es outputs) :
    List.Forall₂ (RendersTo c) es (shownItems outputs) := by
  induction h with
  | nil => exact .nil
  | @cons e o es outputs he _ ih =>
    obtain ⟨hkind, hes⟩ := List.forall_mem_cons.mp hes
    obtain ⟨item, hitem, rfl⟩ := he
    have hrenders : renderNode c e = .ok item := hitem ▸ (pure_bind (m := RenderM) _ _).symm
    rw [← withItem_shownItems, withItem, isOmitted_of_kind hkind hrenders, if_neg Bool.false_ne_true]
    exact .cons ⟨item, hrenders, rfl⟩ (ih hes)

/-- A list of objects renders to as many items. -/
theorem exists_items_of_renderNode {c : Context} {es : List Node} (hes : ∀ e ∈ es, e.kind = .object)
    {r : Rendered Output} (h : renderNode c ⟨.array, ∅, es.map .node, none⟩ = .ok r) :
    ∃ items, r.output.toJson = .arr items ∧ List.Forall₂ (RendersTo c) es items := by
  have h' : renderNode c ⟨.array, ⟨[]⟩, es.map .node, none⟩ = .ok r := h
  simp only [renderNode, pure_bind] at h'
  obtain ⟨items, hitems, ho, -⟩ := finish_eq_ok h'
  obtain ⟨outputs, houtputs, hshown⟩ := exists_outputs_of_renderItems hitems
  refine ⟨items.output, by rw [ho]; rfl, ?_⟩
  rw [hshown]
  exact forall₂_shownItems hes (List.forall₂_map_left_iff.mp houtputs)

/-! ## The limit -/

theorem checkContext_eq_tooManyElements_iff {surface : Surface} {block : Json} {count limit : Nat} :
    checkContext surface block = .error (.tooManyElements count limit) ↔
      ∃ elements, block.get? "elements" = some (.arr elements) ∧ 10 < elements.length ∧
        count = elements.length ∧ limit = 10 := by
  unfold checkContext
  rcases block.get? "elements" with _ | _ | _ | _ | _ | _ | elements | _ <;>
    simp only [Option.bind_none, Option.bind_some, Json.arr?, Option.some.injEq, reduceCtorEq,
      Json.arr.injEq, false_and, exists_false, exists_eq_left', Except.error.injEq]
  split
  next hmany =>
    simp only [Except.error.injEq, RenderError.tooManyElements.injEq]
    constructor
    · rintro ⟨hc, hl⟩
      exact ⟨hmany, hc.symm, hl.symm⟩
    · rintro ⟨-, hc, hl⟩
      exact ⟨hc.symm, hl.symm⟩
  next hfew =>
    refine ⟨fun h => ?_, fun h => absurd h.1 hfew⟩
    obtain ⟨-, v, -, -, -, hv⟩ := forM_eq_error h
    rcases requireType_eq_error hv with he | ⟨type, he⟩ <;> cases he

/-! ## Context blocks -/

/-- A context block loses none of its children and has an element for each group of them: its children
have one grouping, the elements are what the groups give, the block that is rendered has one item for
each group in the same order, and the check of the block finds too many elements just if there are more
than ten groups. -/
theorem context_elements (blockId : AttrValue) (content : Content) :
    ∃ groups elements, (∀ gs, Grouping content.normalize gs ↔ gs = groups) ∧
      (context blockId content).attributes.get? "elements"
        = some (.node ⟨.array, ∅, elements.map .node, none⟩) ∧
      List.Forall₂ Gives groups elements ∧
      ∀ c r, renderNode c (context blockId content) = .ok r →
        ∃ items, r.output.toJson.get? "elements" = some (.arr items) ∧
          List.Forall₂ (RendersTo c) elements items ∧
          ∀ surface count limit,
            checkContext surface r.output.toJson = .error (.tooManyElements count limit) ↔
              10 < groups.length ∧ count = groups.length ∧ limit = 10 := by
  have hgives := (grouping_contextGroups content.normalize).gives
  refine ⟨contextGroups content.normalize, _, fun gs => grouping_iff,
    get?_elements_context blockId content, hgives, fun c r h => ?_⟩
  obtain ⟨list, hlist, hfield⟩ :=
    exists_nodeField_of_renderNode rfl h (get?_elements_context blockId content)
  have hkinds : ∀ e ∈ (contextGroups content.normalize).map ContextGroup.element,
      e.kind = .object := by
    intro e he
    obtain ⟨g, hg, rfl⟩ := List.mem_map.mp he
    exact (List.forall₂_same.mp (List.forall₂_map_right_iff.mp hgives) g hg).kind
  obtain ⟨items, hitems, hrenders⟩ := exists_items_of_renderNode hkinds hlist
  rw [hitems] at hfield
  refine ⟨items, hfield, hrenders, fun surface count limit => ?_⟩
  have hlength : (contextGroups content.normalize).length = items.length :=
    hgives.length_eq.trans hrenders.length_eq
  rw [checkContext_eq_tooManyElements_iff, hlength]
  simp [hfield]

/-- Texts, an object without type and an empty text are one run each time, and twelve groups are too
many on every surface. -/
theorem context_elements_many :
    let span : Node := ⟨.tag "span", ⟨[]⟩, [.text "s"], none⟩
    let image : Node := ⟨.tag "img", ⟨[("alt", .json (.str "i"))]⟩, [], none⟩
    let content : Content := .list (List.replicate 3 (.list [.text "a", .list [.node .object, .text ""],
      .node divider, .node span, .node image]))
    (∃ gs, Grouping content.normalize gs ∧ gs.take 4 = [.run [.text "a", .node .object, .text ""],
      .alone divider, .alone span, .alone image]) ∧
    ∃ r, renderNode {} (context .absent content) = .ok r ∧
      ∀ surface, checkContext surface r.output.toJson = .error (.tooManyElements 12 10) := by
  intro span image content
  obtain ⟨r, hr⟩ : ∃ r, renderNode {} (context .absent content) = .ok r := ⟨_, rfl⟩
  obtain ⟨groups, elements, hone, -, -, hrender⟩ := context_elements .absent content
  obtain ⟨items, -, -, hcheck⟩ := hrender {} r hr
  have hgroups : contextGroups content.normalize = groups :=
    (hone _).mp (grouping_contextGroups content.normalize)
  have hlength : groups.length = 12 := by rw [← hgroups]; rfl
  refine ⟨⟨groups, (hone groups).mpr rfl, by rw [← hgroups]; rfl⟩, r, hr, fun surface => ?_⟩
  exact (hcheck surface 12 10).mpr ⟨by omega, hlength.symm, rfl⟩

end MessageLayout.Block
