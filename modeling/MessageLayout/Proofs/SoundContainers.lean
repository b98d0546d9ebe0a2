import MessageLayout.Block.Builder
import MessageLayout.Payload
import MessageLayout.Proofs.RecordedChecks

/-!
# Sound containers

A payload that renders is one that its surface accepts: the checks run on recorded copies, and these
are the values that end up in the payload. `Fits` and `ContextFits` say what a surface accepts of a
block and of a context block; each check holds exactly where they do. A rendering whose checks do not
all hold fails with the error of the first that does not.

    d.run = .ok () ↔ d.Holds                                             (run_eq_ok_iff)
    render options (k.node content) = .ok v → the blocks in v fit        (render_container)
-/

namespace MessageLayout

namespace Block

open Render

/-! ## What surfaces accept -/

/-- The value has a string as its type, and it is one of the given. -/
def HasType (types : List String) (v : Json) : Prop :=
  ∃ type ∈ types, v.get? "type" = some (.str type)

/-- A surface accepts the block. -/
structure Fits (surface : Surface) (block : Json) : Prop where
  type : HasType surface.blocks block
  actions : block.get? "type" = some (.str "actions") →
    ∀ elements, block.get? "elements" = some (.arr elements) →
      ∀ e ∈ elements, HasType surface.actions e
  accessory : block.get? "type" = some (.str "section") →
    ∀ v, block.get? "accessory" = some v → v ≠ .null → HasType surface.accessories v

/-- A surface accepts the elements of the context block. -/
def ContextFits (surface : Surface) (block : Json) : Prop :=
  ∃ elements, block.get? "elements" = some (.arr elements) ∧ elements.length ≤ 10 ∧
    ∀ e ∈ elements, HasType surface.contextElements e

/-! ## What checks decide -/

theorem typeOf_eq_ok_iff {v : Json} {type : String} :
    typeOf v = .ok type ↔ v.get? "type" = some (.str type) := by
  unfold typeOf
  rcases v.get? "type" with _ | _ | _ | _ | _ | s | _ | _ <;> simp [Json.str?]

theorem requireType_eq_ok_iff {types : List String} {refuse : String → RenderError} {v : Json} :
    requireType types refuse v = .ok () ↔ HasType types v := by
  simp only [requireType, bind_eq_ok_iff, typeOf_eq_ok_iff, HasType]
  constructor
  · rintro ⟨type, htype, h⟩
    split at h
    next hmem => exact ⟨type, List.contains_iff_mem.mp hmem, htype⟩
    · cases h
  · rintro ⟨type, hmem, htype⟩
    exact ⟨type, htype, if_pos (List.contains_iff_mem.mpr hmem)⟩

theorem typeOf_eq_error {v : Json} {e : RenderError} (h : typeOf v = .error e) :
    e = .malformedBlock (.untyped v) := by
  unfold typeOf at h
  split at h
  · cases h
  · exact (Except.error.inj h).symm

theorem requireType_eq_error {types : List String} {refuse : String → RenderError} {v : Json}
    {e : RenderError} (h : requireType types refuse v = .error e) :
    e = .malformedBlock (.untyped v) ∨ ∃ type, e = refuse type := by
  unfold requireType at h
  cases hv : typeOf v with
  | error e' =>
    rw [hv] at h
    obtain rfl := Except.error.inj h
    exact .inl (typeOf_eq_error hv)
  | ok type =>
    rw [hv] at h
    simp only [bind, Except.bind] at h
    split at h
    · cases h
    · exact .inr ⟨type, (Except.error.inj h).symm⟩

theorem forM_eq_ok_iff {α : Type} {f : α → Except RenderError Unit} {l : List α} :
    forM l f = .ok () ↔ ∀ x ∈ l, f x = .ok () := by
  induction l with
  | nil => simp [pure, Except.pure]
  | cons x l ih =>
    simp only [List.forM_cons, bind_eq_ok_iff, ih, List.mem_cons, forall_eq_or_imp]
    exact ⟨fun ⟨_, hx, hl⟩ => ⟨hx, hl⟩, fun ⟨hx, hl⟩ => ⟨(), hx, hl⟩⟩

/-- A check of a list fails with the error of the first item that fails. -/
theorem forM_eq_error {α : Type} {f : α → Except RenderError Unit} {l : List α} {e : RenderError}
    (h : forM l f = .error e) :
    ∃ before x after, l = before ++ x :: after ∧ (∀ y ∈ before, f y = .ok ()) ∧ f x = .error e := by
  induction l with
  | nil => cases h
  | cons x l ih =>
    rw [List.forM_cons] at h
    cases hx : f x with
    | error e' =>
      rw [hx] at h
      obtain rfl := Except.error.inj h
      exact ⟨[], x, l, rfl, nofun, hx⟩
    | ok u =>
      rw [hx] at h
      obtain ⟨before, y, after, rfl, hbefore, hy⟩ := ih h
      exact ⟨x :: before, y, after, rfl, List.forall_mem_cons.mpr ⟨hx, hbefore⟩, hy⟩

theorem checkActions_eq_ok_iff {surface : Surface} {block : Json} :
    checkActions surface block = .ok () ↔ ∀ elements, block.get? "elements" = some (.arr elements) →
      ∀ e ∈ elements, HasType surface.actions e := by
  unfold checkActions
  rcases block.get? "elements" with _ | _ | _ | _ | _ | _ | elements | _ <;>
    simp [Json.arr?, forM_eq_ok_iff, requireType_eq_ok_iff, pure, Except.pure]

theorem checkAccessory_eq_ok_iff {surface : Surface} {block : Json} :
    checkAccessory surface block = .ok () ↔
      ∀ v, block.get? "accessory" = some v → v ≠ .null → HasType surface.accessories v := by
  unfold checkAccessory
  split
  next h => simp [h]
  next h => simp [h]
  next v hne h =>
    rw [requireType_eq_ok_iff, h]
    exact ⟨fun ht w hw _ => Option.some.inj hw ▸ ht, fun hv => hv v rfl hne⟩

theorem checkBlock_eq_ok_iff {surface : Surface} {block : Json} :
    checkBlock surface block = .ok () ↔ Fits surface block := by
  simp only [checkBlock, bind_eq_ok_iff, typeOf_eq_ok_iff]
  constructor
  · rintro ⟨type, htype, h⟩
    have htypes : ∀ t, block.get? "type" = some (.str t) → type = t := by
      intro t ht
      simpa [htype] using ht
    split at h
    · cases h
    next hmem =>
      have hmem' : type ∈ surface.blocks := by simpa using hmem
      refine ⟨⟨type, hmem', htype⟩, fun ht => ?_, fun ht => ?_⟩
      · rw [if_pos (htypes _ ht)] at h
        exact checkActions_eq_ok_iff.mp h
      · obtain rfl := htypes _ ht
        rw [if_neg (by decide), if_pos rfl] at h
        exact checkAccessory_eq_ok_iff.mp h
  · intro h
    obtain ⟨type, hmem, htype⟩ := h.type
    refine ⟨type, htype, ?_⟩
    rw [if_neg (by simpa using hmem)]
    split
    next ht => exact checkActions_eq_ok_iff.mpr (h.actions (ht ▸ htype))
    · split
      next ht => exact checkAccessory_eq_ok_iff.mpr (h.accessory (ht ▸ htype))
      · rfl

theorem checkContext_eq_ok_iff {surface : Surface} {block : Json} :
    checkContext surface block = .ok () ↔ ContextFits surface block := by
  unfold checkContext ContextFits
  rcases block.get? "elements" with _ | _ | _ | _ | _ | _ | elements | _ <;>
    simp only [Option.bind_none, Option.bind_some, Json.arr?, Option.some.injEq, reduceCtorEq,
      Json.arr.injEq, false_and, exists_false, exists_eq_left']
  split
  next h => simp [contextLimit] at h ⊢; omega
  next h =>
    have hle : elements.length ≤ 10 := by simpa [contextLimit] using h
    simp [forM_eq_ok_iff, requireType_eq_ok_iff, hle]

theorem checkContainer_eq_ok_iff {surface : Surface} {output : Json} :
    checkContainer surface output = .ok () ↔
      ∃ blocks, output = .arr blocks ∧ ∀ block ∈ blocks, Fits surface block := by
  unfold checkContainer
  cases output <;> simp [Json.arr?, forM_eq_ok_iff, checkBlock_eq_ok_iff]

end Block

namespace Render

open Block

/-- The recorded check holds of the recorded output. -/
def Deferred.Holds (d : Deferred) : Prop :=
  match d.check with
  | .container surface => ∃ blocks, d.output = .arr blocks ∧ ∀ block ∈ blocks, Fits surface block
  | .contextElements => ContextFits d.surface d.output

theorem Deferred.run_eq_ok_iff {d : Deferred} : d.run = .ok () ↔ d.Holds := by
  obtain ⟨check, output, surface⟩ := d
  cases check with
  | container surface => exact checkContainer_eq_ok_iff
  | contextElements => exact checkContext_eq_ok_iff

/-! ## Runs of checks -/

theorem runChecks_eq_ok_iff {ds : List Deferred} :
    runChecks ds = .ok () ↔ ∀ d ∈ ds, d.Holds := by
  simp only [← Deferred.run_eq_ok_iff]
  exact forM_eq_ok_iff

/-- Checks that do not all hold end with the error of the first that does not. -/
theorem runChecks_eq_error {ds : List Deferred} {e : RenderError} (h : runChecks ds = .error e) :
    ∃ before d after, ds = before ++ d :: after ∧ (∀ x ∈ before, x.Holds) ∧ d.run = .error e := by
  obtain ⟨before, d, after, hsplit, hbefore, hd⟩ := forM_eq_error h
  exact ⟨before, d, after, hsplit, fun x hx => Deferred.run_eq_ok_iff.mp (hbefore x hx), hd⟩

theorem render_eq {options : FormatOptions} {n : Node} {r : Rendered Output}
    (h : renderNode (.ofOptions options) n = .ok r) :
    render options n = do runChecks r.deferred; return r.output.toJson := by
  unfold render RenderM.checked RenderM.run
  rw [h]
  cases hr : runChecks r.deferred <;> simp [bind, Except.bind, pure, Except.pure, hr]

/-- A payload is what the tree renders to, and then all recorded checks hold. -/
theorem exists_of_render {options : FormatOptions} {n : Node} {payload : Json}
    (h : render options n = .ok payload) :
    ∃ r, renderNode (.ofOptions options) n = .ok r ∧ payload = r.output.toJson ∧
      ∀ d ∈ r.deferred, d.Holds := by
  obtain ⟨output, houtput, hpayload⟩ := bind_eq_ok_iff.mp h
  obtain ⟨r, hr, hchecks, rfl⟩ := exists_of_checked houtput
  exact ⟨r, hr, (Except.ok.inj hpayload).symm, runChecks_eq_ok_iff.mp hchecks⟩

/-! ## Children and fields -/

variable {c : Context} {around : List Node}

/-- What a list shows of the outputs of its children: the empty ones are left out. -/
def shownItems (outputs : List Output) : List Json :=
  (outputs.filter fun o => !o.isOmitted).map Output.toJson

theorem withItem_shownItems (o : Output) (outputs : List Output) :
    withItem o (shownItems outputs) = shownItems (o :: outputs) := by
  cases h : o.isOmitted <;> simp [withItem, shownItems, h]

theorem exists_outputs_of_renderItems {hook : Option Check} {ds : List Child}
    {r : Rendered (List Json)} (h : renderItems c hook ds = .ok r) :
    ∃ outputs, List.Forall₂ (fun d o => ∃ item, renderItem c hook d = .ok item ∧ item.output = o)
        ds outputs ∧ r.output = shownItems outputs := by
  induction ds generalizing r with
  | nil =>
    simp only [renderItems] at h
    obtain rfl := Except.ok.inj h
    exact ⟨[], .nil, rfl⟩
  | cons d ds ih =>
    simp only [renderItems] at h
    obtain ⟨item, rest, hitem, hrest, rfl⟩ := RenderM.bind_eq_ok h
    obtain ⟨items, hitems, ho, -⟩ := map_eq_ok hrest
    obtain ⟨outputs, houtputs, hshown⟩ := ih hitems
    refine ⟨item.output :: outputs, .cons ⟨item, hitem, rfl⟩ houtputs, ?_⟩
    show rest.output = _
    rw [ho, hshown, withItem_shownItems]

/-- The field of a rendered object is what the attribute renders to. -/
theorem lookup_renderFields {es : List (String × AttrValue)} {r : Rendered (List (String × Json))}
    (h : renderFields c es = .ok r) {name : String} {v : AttrValue}
    (hv : es.lookup name = some v) (hpresent : v.isAbsent = false) :
    ∃ value, renderValue c v = .ok value ∧ r.output.lookup name = some value.output := by
  induction es generalizing r with
  | nil => cases hv
  | cons e es ih =>
    obtain ⟨other, w⟩ := e
    simp only [renderFields, renderField] at h
    obtain ⟨field, rest, hfield, hrest, rfl⟩ := RenderM.bind_eq_ok h
    obtain ⟨fields, hfields, ho, -⟩ := map_eq_ok hrest
    rw [List.lookup_cons] at hv
    cases hname : name == other with
    | true =>
      rw [hname] at hv
      obtain rfl := Option.some.inj hv
      rw [hpresent, if_neg Bool.false_ne_true] at hfield
      obtain ⟨value, hvalue, hf, -⟩ := map_eq_ok hfield
      exact ⟨value, hvalue, by simp [ho, hf, List.lookup_cons, hname]⟩
    | false =>
      rw [hname] at hv
      obtain ⟨value, hvalue, hlookup⟩ := ih hfields hv
      refine ⟨value, hvalue, ?_⟩
      show rest.output.lookup name = _
      rw [ho, ← hlookup]
      split at hfield
      · obtain rfl := Except.ok.inj hfield
        rfl
      · obtain ⟨value, -, hf, -⟩ := map_eq_ok hfield
        simp [hf, List.lookup_cons, hname]

/-- The field of a rendered object node is what the attribute renders to within the node. -/
theorem exists_field_of_renderNode {n : Node} (hkind : n.kind = .object) {r : Rendered Output}
    (h : renderNode c n = .ok r) {name : String} {v : AttrValue}
    (hv : n.attributes.get? name = some v) (hpresent : v.isAbsent = false) :
    ∃ value, renderValue (c.scope n.hook) v = .ok value ∧
      r.output.toJson.get? name = some value.output := by
  obtain ⟨kind, ⟨entries⟩, children, hook⟩ := n
  obtain rfl : kind = .object := hkind
  simp only [renderNode, pure_bind] at h
  obtain ⟨fields, hfields, ho, -⟩ := finish_eq_ok h
  obtain ⟨value, hvalue, hlookup⟩ := lookup_renderFields hfields hv hpresent
  exact ⟨value, hvalue, by rw [ho]; exact hlookup⟩

/-- A node in an attribute renders to its field. -/
theorem exists_nodeField_of_renderNode {n : Node} (hkind : n.kind = .object) {r : Rendered Output}
    (h : renderNode c n = .ok r) {name : String} {m : Node}
    (hm : n.attributes.get? name = some (.node m)) :
    ∃ output, renderNode (c.scope n.hook) m = .ok output ∧
      r.output.toJson.get? name = some output.output.toJson := by
  obtain ⟨value, hvalue, hfield⟩ := exists_field_of_renderNode hkind h hm rfl
  simp only [renderValue] at hvalue
  obtain ⟨output, houtput, hv, -⟩ := map_eq_ok hvalue
  exact ⟨output, houtput, by rw [hfield, hv]⟩

theorem mem_visits_self (c : Context) (around : List Node) (n : Node) :
    ⟨n, around⟩ ∈ n.visits c around := by
  obtain ⟨kind, ⟨entries⟩, children, hook⟩ := n
  simp [Node.visits]

theorem mem_childVisits {n : Node} {ds : List Child} (h : .node n ∈ ds) {v : Visit}
    (hv : v ∈ n.visits c around) : v ∈ childVisits c around ds := by
  induction ds with
  | nil => cases h
  | cons d ds ih =>
    rcases List.mem_cons.mp h with rfl | hds
    · exact List.mem_append_left _ hv
    · cases d with
      | node _ => exact List.mem_append_right _ (ih hds)
      | text _ => exact ih hds

theorem mem_entryVisits {n : Node} {name : String} {es : List (String × AttrValue)}
    (h : es.lookup name = some (.node n)) {v : Visit} (hv : v ∈ n.visits c around) :
    v ∈ entryVisits c around es := by
  induction es with
  | nil => cases h
  | cons e es ih =>
    obtain ⟨other, w⟩ := e
    rw [List.lookup_cons] at h
    split at h
    · obtain rfl := Option.some.inj h
      exact List.mem_append_left _ hv
    · exact List.mem_append_right _ (ih h)

/-- A checked node that is visited has its check among the recorded ones. -/
theorem Recorded.exists_records {vs : List Visit} {ds : List Deferred} (h : Recorded c vs ds)
    {v : Visit} (hv : v ∈ vs) (hchecked : v.isChecked = true) : ∃ d ∈ ds, Records c v d := by
  have hmem : v ∈ vs.filter Visit.isChecked := List.mem_filter.mpr ⟨hv, hchecked⟩
  unfold Recorded at h
  generalize vs.filter Visit.isChecked = checked at h hmem
  induction h with
  | nil => cases hmem
  | cons hr _ ih =>
    rcases List.mem_cons.mp hmem with rfl | hmem
    · exact ⟨_, List.mem_cons_self, hr⟩
    · obtain ⟨d, hd, hrec⟩ := ih hmem
      exact ⟨d, List.mem_cons_of_mem _ hd, hrec⟩

end Render

/-! ## Containers -/

namespace Block

open Render

/-- A builder of containers with the fields that stand next to the blocks. -/
inductive Container where
  /-- The blocks of a message. -/
  | message
  /-- A modal view. -/
  | modal (fields : ModalFields)
  /-- A home tab. -/
  | home (fields : HomeFields)

namespace Container

/-- The surface of a container. -/
def surface : Container → Surface
  | message => .message
  | modal _ => .modal
  | home _ => .home

/-- The container of the children. -/
def node (k : Container) (content : Content) : Node :=
  match k with
  | message => blocks content
  | modal fields => Block.modal fields content
  | home fields => Block.home fields content

/-- The list of blocks in a payload. -/
def blocksOf? (k : Container) (payload : Json) : Option Json :=
  match k with
  | message => some payload
  | modal _ | home _ => payload.get? "blocks"

/-- The nodes around the list of blocks. -/
def around (k : Container) (content : Content) : List Node :=
  match k with
  | message => []
  | modal _ | home _ => [k.node content]

end Container

variable {options : FormatOptions} {k : Container} {content : Content}

theorem blockList_eq (surface : Surface) (content : Content) :
    blockList surface content
      = ⟨.array, ⟨[]⟩, content.normalize.map blockChild, some (.container surface)⟩ := by
  simp only [blockList, Node.array, Node.new, Content.normalize_ofChildren, Node.withHook]
  rfl

/-- The context in which the list of blocks of a container on a surface renders its children. -/
def containerContext (options : FormatOptions) (surface : Surface) : Context :=
  (Context.ofOptions options).within surface

/-- The children of a container one by one: each comes to an output, and the empty ones are left
out. -/
theorem exists_outputs_of_blockList {surface : Surface} {r : Rendered Output}
    (h : renderNode (.ofOptions options) (blockList surface content) = .ok r) :
    ∃ outputs, List.Forall₂ (fun d o => ∃ item,
        renderItem (containerContext options surface) (some (.container surface)) (blockChild d)
          = .ok item ∧ item.output = o) content.normalize outputs ∧
      r.output = .json (.arr (shownItems outputs)) := by
  rw [blockList_eq] at h
  simp only [renderNode, pure_bind] at h
  obtain ⟨items, hitems, ho, -⟩ := finish_eq_ok h
  obtain ⟨outputs, houtputs, hshown⟩ := exists_outputs_of_renderItems hitems
  exact ⟨outputs, List.forall₂_map_left_iff.mp houtputs, by rw [ho, hshown]⟩

/-- The list of blocks in a payload is what the list of blocks of the container renders to. -/
theorem exists_blockList_of_renderNode {r : Rendered Output}
    (h : renderNode (.ofOptions options) (k.node content) = .ok r) :
    ∃ list, renderNode (.ofOptions options) (blockList k.surface content) = .ok list ∧
      k.blocksOf? r.output.toJson = some list.output.toJson := by
  cases k with
  | message => exact ⟨r, h, rfl⟩
  | modal fields => exact exists_nodeField_of_renderNode rfl h (Fields.get?_insert_self _ _ _)
  | home fields => exact exists_nodeField_of_renderNode rfl h (Fields.get?_insert_self _ _ _)

theorem visits_blockList_subset {c : Context} :
    (blockList k.surface content).visits c (k.around content) ⊆ (k.node content).visits c [] := by
  have hview : ∀ {attributes : Attributes} {children : List Child} {list : Node},
      attributes.get? "blocks" = some (.node list) →
      list.visits c [⟨.object, attributes, children, none⟩]
        ⊆ Node.visits c [] ⟨.object, attributes, children, none⟩ := by
    rintro ⟨entries⟩ children list hlist v hv
    simp only [Node.visits]
    exact List.mem_append_left _ (mem_entryVisits hlist hv)
  cases k with
  | message => exact List.Subset.refl _
  | modal fields => exact hview (Fields.get?_insert_self _ _ _)
  | home fields => exact hview (Fields.get?_insert_self _ _ _)

theorem inside_around (c : Context) : c.inside (k.around content) = c := by
  cases k <;> rfl

/-- What a child of a container comes to: what it renders to in the context of the container, and, if
it is an object with the check of context blocks, a block that the surface accepts as one. -/
structure ComesTo (options : FormatOptions) (surface : Surface) (child : Child) (o : Output) :
    Prop where
  renders : ∃ item, renderItem (containerContext options surface) (some (.container surface))
    (blockChild child) = .ok item ∧ item.output = o
  context : ∀ n, child = .node n → n.kind = .object → n.hook = some .contextElements →
    ∃ block, o = .json block ∧ ContextFits surface block

theorem inside_blockList (options : FormatOptions) (k : Container) (content : Content) :
    (Context.ofOptions options).inside (blockList k.surface content :: k.around content)
      = containerContext options k.surface := by
  rw [Context.inside_cons, inside_around]
  rfl

/-- A context block among the children of a container is visited within the container. -/
theorem mem_visits_of_mem {c : Context} {n : Node} (hmem : .node n ∈ content.normalize)
    (hkind : n.kind = .object) :
    ⟨n, blockList k.surface content :: k.around content⟩ ∈ (k.node content).visits c [] := by
  have hblock : blockChild (.node n) = .node n := by
    simp [blockChild, blockOf, Node.tagName?, hkind, Kind.tagName?]
  have hchild : .node n ∈ content.normalize.map blockChild :=
    List.mem_map.mpr ⟨.node n, hmem, hblock⟩
  refine visits_blockList_subset ?_
  rw [blockList_eq]
  exact List.mem_append_left _ (mem_childVisits hchild (mem_visits_self _ _ n))

theorem contextFits_of_mem {r : Rendered Output} {n : Node} {item : Rendered Output}
    (h : renderNode (.ofOptions options) (k.node content) = .ok r)
    (hholds : ∀ d ∈ r.deferred, d.Holds) (hmem : .node n ∈ content.normalize)
    (hkind : n.kind = .object) (hhook : n.hook = some .contextElements)
    (hitem : renderItem (containerContext options k.surface) (some (.container k.surface))
      (blockChild (.node n)) = .ok item) :
    ∃ block, item.output = .json block ∧ ContextFits k.surface block := by
  have hchecked : (⟨n, blockList k.surface content :: k.around content⟩ : Visit).isChecked = true := by
    simp [Visit.isChecked, hhook]
  have hrecorded : Recorded (.ofOptions options) ((k.node content).visits (.ofOptions options) [])
      r.deferred := recorded_renderNode _ h
  obtain ⟨d, hd, hcheck, hsurface, r', hr', houtput⟩ :=
    hrecorded.exists_records (mem_visits_of_mem hmem hkind) hchecked
  obtain ⟨check, output, surface⟩ := d
  obtain rfl : check = .contextElements := Option.some.inj (hcheck.symm.trans hhook)
  have hfits : ContextFits surface output := hholds _ hd
  obtain ⟨kind, ⟨entries⟩, children, hook⟩ := n
  obtain rfl : kind = .object := hkind
  obtain rfl : hook = some .contextElements := hhook
  rw [Context.inside_cons, inside_blockList] at hsurface
  rw [inside_blockList] at hr'
  have hsame : renderItem (containerContext options k.surface) (some (.container k.surface))
      (blockChild (.node ⟨.object, ⟨entries⟩, children, some .contextElements⟩)) = .ok r' := by
    rw [← hr']
    exact pure_bind (m := RenderM) _ _
  obtain rfl := Except.ok.inj (hsame.symm.trans hitem)
  simp only [renderNode, pure_bind] at hr'
  obtain ⟨fields, -, ho, -⟩ := finish_eq_ok hr'
  refine ⟨_, ho, ?_⟩
  rw [← show surface = k.surface from hsurface]
  rwa [show output = _ from houtput, ho] at hfits

theorem fits_of_mem {r list : Rendered Output}
    (h : renderNode (.ofOptions options) (k.node content) = .ok r)
    (hholds : ∀ d ∈ r.deferred, d.Holds)
    (hlist : renderNode (.ofOptions options) (blockList k.surface content) = .ok list)
    {blocks : List Json} (hblocks : list.output = .json (.arr blocks)) :
    ∀ block ∈ blocks, Fits k.surface block := by
  have hrecorded : Recorded (.ofOptions options) ((k.node content).visits (.ofOptions options) [])
      r.deferred := recorded_renderNode _ h
  obtain ⟨d, hd, hcheck, -, list', hlist', houtput⟩ :=
    hrecorded.exists_records (visits_blockList_subset (mem_visits_self _ _ _)) rfl
  rw [inside_around] at hlist'
  obtain rfl := Except.ok.inj (hlist.symm.trans hlist')
  obtain ⟨check, output, surface⟩ := d
  obtain rfl : .container k.surface = check := Option.some.inj hcheck
  obtain ⟨blocks', houtput', hfits⟩ : ∃ blocks', output = .arr blocks' ∧
      ∀ block ∈ blocks', Fits k.surface block := hholds _ hd
  rw [hblocks, houtput'] at houtput
  obtain rfl := Json.arr.inj houtput
  exact hfits

/-- Containers are sound: the blocks of a payload are what the children come to, and the surface
accepts them. A container that renders gives its payload if all recorded checks hold, and otherwise
the error of the first that does not, in the order in which the nodes are finished. -/
theorem render_container (options : FormatOptions) (k : Container) (content : Content) :
    (∀ payload, render options (k.node content) = .ok payload →
      ∃ outputs, List.Forall₂ (ComesTo options k.surface) content.normalize outputs ∧
        k.blocksOf? payload = some (.arr (shownItems outputs)) ∧
        ∀ block ∈ shownItems outputs, Fits k.surface block) ∧
    ∀ r, renderNode (.ofOptions options) (k.node content) = .ok r →
      List.Forall₂ (Records (.ofOptions options))
        (((k.node content).visits (.ofOptions options) []).filter Visit.isChecked) r.deferred ∧
      ((∀ d ∈ r.deferred, d.Holds) ∧ render options (k.node content) = .ok r.output.toJson ∨
        ∃ before d after e, r.deferred = before ++ d :: after ∧ (∀ x ∈ before, x.Holds) ∧
          ¬d.Holds ∧ d.run = .error e ∧ render options (k.node content) = .error e) := by
  refine ⟨fun payload h => ?_, fun r h => ⟨recorded_renderNode (k.node content) h, ?_⟩⟩
  · obtain ⟨r, hr, rfl, hholds⟩ := exists_of_render h
    obtain ⟨list, hlist, hpayload⟩ := exists_blockList_of_renderNode hr
    obtain ⟨outputs, houtputs, hshown⟩ := exists_outputs_of_blockList hlist
    refine ⟨outputs, ?_, by rw [hpayload, hshown]; rfl, fits_of_mem hr hholds hlist hshown⟩
    have hmembers := (List.forall₂_and_left _ _).mpr
      ⟨fun (d : Child) (hd : d ∈ content.normalize) => hd, houtputs⟩
    refine hmembers.imp fun d o ⟨hmem, item, hitem, ho⟩ => ⟨⟨item, hitem, ho⟩, ?_⟩
    rintro n rfl hkind hhook
    rw [← ho]
    exact contextFits_of_mem hr hholds hmem hkind hhook hitem
  · cases hchecks : runChecks r.deferred with
    | ok u =>
      refine .inl ⟨runChecks_eq_ok_iff.mp hchecks, ?_⟩
      rw [render_eq h, hchecks]
      rfl
    | error e =>
      obtain ⟨before, d, after, hsplit, hbefore, hd⟩ := runChecks_eq_error hchecks
      have hfails : ¬d.Holds := fun hholds => by
        rw [Deferred.run_eq_ok_iff.mpr hholds] at hd
        cases hd
      refine .inr ⟨before, d, after, e, hsplit, hbefore, hfails, hd, ?_⟩
      rw [render_eq h, hchecks]
      rfl

/-- A context block with a field for input: a modal view takes it, and a message refuses it. -/
theorem render_container_input :
    let content : Content := .list [.text "", .node (context .absent (.node (plainTextInput .absent)))]
    let element : Json := .obj ⟨[("type", .str "plain_text_input")]⟩
    let block : Json := .obj ⟨[("type", .str "context"), ("elements", .arr [element])]⟩
    (∃ payload, render {} ((Container.modal {}).node content) = .ok payload ∧
      payload.get? "blocks" = some (.arr [block]) ∧ Fits .modal block) ∧
    ∃ r, renderNode {} (Container.message.node content) = .ok r ∧
      render {} (Container.message.node content)
        = .error (.incompatibleContextElement .message "plain_text_input") := by
  intro content element block
  constructor
  · obtain ⟨payload, hpayload, hblocks⟩ : ∃ payload,
        render {} ((Container.modal {}).node content) = .ok payload ∧
          payload.get? "blocks" = some (.arr [block]) := ⟨_, rfl, rfl⟩
    obtain ⟨outputs, -, hshown, hfits⟩ :=
      (render_container {} (.modal {}) content).1 payload hpayload
    have hitems : Json.arr [block] = .arr (shownItems outputs) :=
      Option.some.inj (hblocks.symm.trans hshown)
    exact ⟨payload, hpayload, hblocks, hfits block (by rw [← Json.arr.inj hitems]; simp)⟩
  · exact ⟨_, rfl, rfl⟩

end Block

end MessageLayout
