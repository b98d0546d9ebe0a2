import MessageLayout.Proofs.SoundContainers

/-!
# Where errors are raised

A rendering that fails does so at a visited node, and one that succeeds has rendered every visited
node. `Raises` says what a node can fail with where it stands: an inline element outside of a text,
one that cannot be written, or one directly in a container. A mode other than the normal one is never
left, so an inline element is unexpected only outside of every text.

    renderNode c n = .ok r → every node of n.visits c [] renders         (accounts_renderNode)
    renderNode c n = .error e → some node of n.visits c [] raises e      (accounts_renderNode)
-/

namespace MessageLayout

/-- Whether an error is the finding of a check. -/
def RenderError.isFinding : RenderError → Bool
  | malformedBlock _ | incompatibleBlock .. | incompatibleAction .. | incompatibleAccessory ..
  | incompatibleContextElement .. | tooManyElements .. => true
  | _ => false

namespace Block

/-! ## Checks -/

theorem isFinding_of_requireType {types : List String} {refuse : String → RenderError}
    (hrefuse : ∀ type, (refuse type).isFinding = true) {v : Json} {e : RenderError}
    (h : requireType types refuse v = .error e) : e.isFinding = true := by
  rcases requireType_eq_error h with rfl | ⟨type, rfl⟩
  · rfl
  · exact hrefuse type

theorem isFinding_of_checkBlock {surface : Surface} {block : Json} {e : RenderError}
    (h : checkBlock surface block = .error e) : e.isFinding = true := by
  unfold checkBlock at h
  cases hv : typeOf block with
  | error e' =>
    rw [hv] at h
    obtain rfl := Except.error.inj h
    rw [typeOf_eq_error hv]
    rfl
  | ok type =>
    rw [hv] at h
    simp only [bind, Except.bind] at h
    split at h
    · obtain rfl := Except.error.inj h
      rfl
    · split at h
      · obtain ⟨-, element, -, -, -, hx⟩ := forM_eq_error h
        exact isFinding_of_requireType (fun _ => rfl) hx
      · split at h
        · unfold checkAccessory at h
          split at h
          · cases h
          · cases h
          · exact isFinding_of_requireType (fun _ => rfl) h
        · cases h

theorem isFinding_of_checkContext {surface : Surface} {block : Json} {e : RenderError}
    (h : checkContext surface block = .error e) : e.isFinding = true := by
  unfold checkContext at h
  split at h
  · split at h
    · obtain rfl := Except.error.inj h
      rfl
    · obtain ⟨-, element, -, -, -, hx⟩ := forM_eq_error h
      exact isFinding_of_requireType (fun _ => rfl) hx
  · obtain rfl := Except.error.inj h
    rfl

theorem isFinding_of_checkContainer {surface : Surface} {output : Json} {e : RenderError}
    (h : checkContainer surface output = .error e) : e.isFinding = true := by
  unfold checkContainer at h
  split at h
  · obtain ⟨-, block, -, -, -, hx⟩ := forM_eq_error h
    exact isFinding_of_checkBlock hx
  · obtain rfl := Except.error.inj h
    rfl

end Block

namespace Markup

theorem timeElement_eq_error {attrs : Attributes} {content : List Char} {e : RenderError}
    (h : timeElement attrs content = .error e) : ∃ text, e = .invalidDatetime text := by
  unfold timeElement readInstant at h
  split at h
  · cases h
  · exact ⟨_, (Except.error.inj h).symm⟩

/-- An element that cannot be written has an unknown name or a date that cannot be read. -/
theorem renderTag_eq_error {name : String} {attrs : Attributes} {content : List Char}
    {ancestry : Ancestry} {e : RenderError} (h : renderTag name attrs content ancestry = .error e) :
    e = .unknownElement name ∨ ∃ text, e = .invalidDatetime text := by
  unfold renderTag at h
  split at h
  · cases h
  · split at h
    · cases h
    · split at h
      · exact .inl (Except.error.inj h).symm
      next kind _ =>
        split at h
        · cases h
        · cases kind with
          | time => exact .inr (timeElement_eq_error h)
          | _ => cases h

end Markup

namespace Render

open Block

theorem isFinding_of_run {d : Deferred} {e : RenderError} (h : d.run = .error e) :
    e.isFinding = true := by
  obtain ⟨check, output, surface⟩ := d
  cases check with
  | container surface => exact isFinding_of_checkContainer h
  | contextElements => exact isFinding_of_checkContext h

theorem bind_eq_error {α β : Type} {x : RenderM α} {f : α → RenderM β} {e : RenderError}
    (h : x >>= f = .error e) : x = .error e ∨ ∃ a, x = .ok a ∧ f a.output = .error e := by
  have h : x.andThen f = .error e := h
  cases x with
  | error e' =>
    obtain rfl := Except.error.inj (show (Except.error e' : RenderM β) = .error e from h)
    exact .inl rfl
  | ok a =>
    refine .inr ⟨a, rfl, ?_⟩
    simp only [RenderM.andThen] at h
    cases hf : f a.output with
    | error e' =>
      rw [hf] at h
      exact congrArg Except.error (Except.error.inj h)
    | ok b =>
      rw [hf] at h
      cases h

theorem ofExcept_eq_error {α : Type} {x : Except RenderError α} {e : RenderError}
    (h : RenderM.ofExcept x = .error e) : x = .error e := by
  cases x with
  | error e' =>
    obtain rfl := Except.error.inj (show (Except.error e' : RenderM α) = .error e from h)
    rfl
  | ok a => cases h

/-- A rendering fails as such or with the finding of a check. -/
theorem checked_eq_error {α : Type} {x : RenderM α} {e : RenderError} (h : x.checked = .error e) :
    x = .error e ∨ e.isFinding = true := by
  unfold RenderM.checked RenderM.run at h
  match x with
  | .error e' =>
    obtain rfl := Except.error.inj (show (Except.error e' : Except RenderError α) = .error e from h)
    exact .inl rfl
  | .ok r =>
    refine .inr ?_
    cases hr : runChecks r.deferred with
    | ok u => simp [bind, Except.bind, pure, Except.pure, hr] at h
    | error e' =>
      simp only [bind, Except.bind, hr] at h
      obtain rfl := Except.error.inj h
      obtain ⟨-, d, -, -, -, hd⟩ := runChecks_eq_error hr
      exact isFinding_of_run hd

theorem map_eq_error {α β : Type} {x : Except RenderError α} {f : α → β} {e : RenderError}
    (h : (do let a ← x; pure (f a)) = .error e) : x = .error e := by
  cases x with
  | error e' =>
    obtain rfl := Except.error.inj (show (Except.error e' : Except RenderError β) = .error e from h)
    rfl
  | ok a => cases h

/-! ## Visited nodes -/

/-- The visited node renders in the context of the nodes around it. -/
def Renders (c : Context) (v : Visit) : Prop :=
  ∃ r, renderNode (c.inside v.around) v.node = .ok r

/-- The errors that a visited node raises where it stands. Those of the nodes below it are not among
them. -/
inductive Raises (c : Context) (v : Visit) : RenderError → Prop
  | unexpected {name : String} :
      v.node.kind = .tag name → (c.inside v.around).mode = .normal →
        Raises c v (.unexpectedElement name)
  | unwritable {name : String} {content : List Char} {e : RenderError} :
      v.node.kind = .tag name → (c.inside v.around).mode = .html →
        Markup.renderTag name v.node.attributes content (c.inside v.around).ancestry = .error e →
          Raises c v e
  | refused {name : String} {surface : Surface} {parent : Node} {rest : List Node} :
      v.node.kind = .tag name → v.around = parent :: rest → parent.kind = .array →
        parent.hook = some (.container surface) → Raises c v (.notABlock surface name)

/-- The rendering comes to an end with the given visits: if it succeeds all of them render, and if it
fails one of them raises the error. -/
structure Accounts {α : Type} (c : Context) (vs : List Visit) (x : RenderM α) : Prop where
  renders : ∀ r, x = .ok r → ∀ v ∈ vs, Renders c v
  raises : ∀ e, x = .error e → ∃ v ∈ vs, Raises c v e

variable {c : Context} {around : List Node}

theorem Accounts.pure {α : Type} (a : α) : Accounts c [] (pure a : RenderM α) :=
  ⟨fun _ _ => nofun, fun _ h => by cases h⟩

theorem Accounts.bind {α β : Type} {vs ws : List Visit} {x : RenderM α} {f : α → RenderM β}
    (h : Accounts c vs x) (hf : ∀ a, Accounts c ws (f a)) : Accounts c (vs ++ ws) (x >>= f) where
  renders r hr := by
    obtain ⟨a, b, ha, hb, -⟩ := RenderM.bind_eq_ok hr
    exact List.forall_mem_append.mpr ⟨h.renders a ha, (hf a.output).renders b hb⟩
  raises e he := by
    rcases bind_eq_error he with hx | ⟨a, -, ha⟩
    · obtain ⟨v, hv, hraises⟩ := h.raises e hx
      exact ⟨v, List.mem_append_left _ hv, hraises⟩
    · obtain ⟨v, hv, hraises⟩ := (hf a.output).raises e ha
      exact ⟨v, List.mem_append_right _ hv, hraises⟩

theorem Accounts.map {α β : Type} {vs : List Visit} {x : RenderM α} (h : Accounts c vs x)
    (f : α → β) : Accounts c vs (do let a ← x; Pure.pure (f a)) := by
  rw [← List.append_nil vs]
  exact h.bind fun a => .pure (f a)

/-- A node is finished when what it holds is: what is visited below it renders, or the error is one
that is raised below it or that the node raises itself. -/
theorem Accounts.finish {α : Type} {n : Node} {below : List Visit} {x : RenderM α} {f : α → Output}
    (hn : renderNode (c.inside around) n = do
      let a ← x
      recordCheck n.hook (f a) ((c.inside around).scope n.hook).surface
      Pure.pure (f a))
    (hrenders : ∀ r, x = .ok r → ∀ v ∈ below, Renders c v)
    (hraises : ∀ e, x = .error e → (∃ v ∈ below, Raises c v e) ∨ Raises c ⟨n, around⟩ e) :
    Accounts c (below ++ [⟨n, around⟩]) (renderNode (c.inside around) n) where
  renders r hr := by
    have hself : Renders c ⟨n, around⟩ := ⟨r, hr⟩
    rw [hn] at hr
    obtain ⟨a, -, ha, -, -⟩ := RenderM.bind_eq_ok hr
    exact List.forall_mem_append.mpr ⟨hrenders a ha, by simpa using hself⟩
  raises e he := by
    rw [hn] at he
    rcases bind_eq_error he with hx | ⟨a, -, ha⟩
    · rcases hraises e hx with ⟨v, hv, hr⟩ | hr
      · exact ⟨v, List.mem_append_left _ hv, hr⟩
      · exact ⟨_, List.mem_append_right _ List.mem_cons_self, hr⟩
    · cases hhook : n.hook <;> rw [hhook] at ha <;> cases ha

/-- A node that raises no error itself is accounted for by what is below it. -/
theorem Accounts.enclose {α : Type} {n : Node} {below : List Visit} {x : RenderM α} {f : α → Output}
    (h : Accounts c below x)
    (hn : renderNode (c.inside around) n = do
      let a ← x
      recordCheck n.hook (f a) ((c.inside around).scope n.hook).surface
      Pure.pure (f a)) :
    Accounts c (below ++ [⟨n, around⟩]) (renderNode (c.inside around) n) :=
  .finish hn h.renders fun e he => .inl (h.raises e he)

/-- Directly in a container an inline element is refused; anything else is left to be rendered. -/
theorem Accounts.item {n parent : Node} {rest : List Node} (hkind : parent.kind = .array)
    (h : Accounts c (n.visits c (parent :: rest)) (renderNode (c.inside (parent :: rest)) n)) :
    Accounts c (n.visits c (parent :: rest))
      (renderItem (c.inside (parent :: rest)) parent.hook (.node n)) := by
  simp only [renderItem]
  unfold refuseTag
  split
  next surface name hhook htag =>
    have htag : n.kind = .tag name := by
      obtain ⟨kind, attributes, children, hook⟩ := n
      cases kind with
      | tag other => exact congrArg Kind.tag (Option.some.inj htag)
      | _ => cases htag
    refine ⟨fun r hr => (by cases hr), fun e he => ⟨_, mem_visits_self c (parent :: rest) n, ?_⟩⟩
    obtain rfl := Except.error.inj (show (Except.error _ : RenderM Output) = .error e from he)
    exact .refused htag rfl hkind hhook
  · rw [pure_bind]
    exact h

/-! ## Whole trees -/

mutual

theorem accounts_renderNode : (n : Node) → {around : List Node} →
    Accounts c (n.visits c around) (renderNode (c.inside around) n)
  | ⟨kind, ⟨entries⟩, children, hook⟩, around => by
    have hc := (c.inside_cons ⟨kind, ⟨entries⟩, children, hook⟩ around).symm
    cases kind with
    | object =>
      refine (accounts_renderFields entries hc).enclose
        (f := fun fields => .json (.obj ⟨fields⟩)) ?_
      simp only [renderNode, pure_bind]
      rfl
    | array =>
      refine (accounts_renderItems children rfl hc).enclose
        (f := fun items => .json (.arr items)) ?_
      simp only [renderNode, pure_bind]
      rfl
    | text =>
      refine (accounts_renderText children hc).enclose (f := .text) ?_
      simp only [renderNode, pure_bind]
      rfl
    | markup =>
      refine (accounts_renderText children hc).enclose
        (f := fun html => .text (Mrkdwn.ofHtml ((c.inside around).scope hook).options html)) ?_
      simp only [renderNode, pure_bind]
      rfl
    | escaped =>
      refine (accounts_renderText children hc).enclose
        (f := fun s => .text (Text.escapeEntity s)) ?_
      simp only [renderNode, pure_bind]
      rfl
    | tag name =>
      simp only [Node.visits]
      cases hmode : (c.inside around).mode with
      | normal =>
        refine Accounts.finish (x := .fail (.unexpectedElement name)) (f := id) ?_
          (fun r hr => by cases hr) fun e he => ?_
        · simp only [renderNode, Context.mode_scope, hmode]
          rfl
        · obtain rfl := Except.error.inj (show (Except.error _ : RenderM Output) = .error e from he)
          exact .inr (.unexpected rfl hmode)
      | plainText =>
        by_cases hbr : name = "br"
        · rw [if_pos ⟨hbr, rfl⟩]
          refine (Accounts.pure ['\n']).enclose (f := .text) ?_
          simp only [renderNode, Context.mode_scope, hmode, if_pos hbr, pure_bind]
        · rw [if_neg fun hand => hbr hand.1]
          refine (accounts_renderText children hc).enclose (f := .text) ?_
          simp only [renderNode, Context.mode_scope, hmode, if_neg hbr, pure_bind]
          rfl
      | html =>
        rw [if_neg fun hand => by cases hand.2]
        have hcontent := accounts_renderText children hc
        refine Accounts.finish (x := do
          let content ← renderText (((c.inside around).scope hook).enter name) children
          .ofExcept (Markup.renderTag name ⟨entries⟩ content (c.inside around).ancestry))
          (f := .text) ?_ (fun r hr => ?_) fun e he => ?_
        · simp only [renderNode, Context.mode_scope, Context.ancestry_scope, hmode, pure_bind,
            bind_assoc]
        · obtain ⟨content, -, hr, -, -⟩ := RenderM.bind_eq_ok hr
          exact hcontent.renders content hr
        · rcases bind_eq_error he with htext | ⟨content, -, hfails⟩
          · exact .inl (hcontent.raises e htext)
          · exact .inr (.unwritable rfl hmode (ofExcept_eq_error hfails))

theorem accounts_renderFields : (es : List (String × AttrValue)) → {around : List Node} →
    {c' : Context} → c' = c.inside around →
      Accounts c (entryVisits c around es) (renderFields c' es)
  | [], _, _, rfl => by
    simp only [renderFields]
    exact .pure []
  | (name, v) :: es, _, _, rfl => by
    simp only [renderFields, renderField]
    refine Accounts.bind ?_ fun field => (accounts_renderFields es rfl).map _
    cases hv : v.isAbsent with
    | true =>
      rw [if_pos rfl, visits_of_isAbsent hv]
      exact .pure []
    | false =>
      rw [if_neg Bool.false_ne_true]
      exact (accounts_renderValue v rfl).map _

theorem accounts_renderValue : (v : AttrValue) → {around : List Node} → {c' : Context} →
    c' = c.inside around → Accounts c (v.visits c around) (renderValue c' v)
  | .absent, _, _, rfl => by
    simp only [renderValue]
    exact .pure _
  | .json v, _, _, rfl => by
    simp only [renderValue]
    exact .pure v
  | .node n, _, _, rfl => by
    simp only [renderValue]
    exact (accounts_renderNode n).map _
  | .list items, _, _, rfl => by
    simp only [renderValue]
    exact (accounts_renderValues items rfl).map _

theorem accounts_renderValues : (vs : List AttrValue) → {around : List Node} → {c' : Context} →
    c' = c.inside around → Accounts c (valueVisits c around vs) (renderValues c' vs)
  | [], _, _, rfl => by
    simp only [renderValues]
    exact .pure []
  | v :: vs, _, _, rfl => by
    simp only [renderValues]
    cases hv : v.isAbsent with
    | true =>
      rw [if_pos rfl, valueVisits, visits_of_isAbsent hv]
      exact accounts_renderValues vs rfl
    | false =>
      rw [if_neg Bool.false_ne_true]
      exact (accounts_renderValue v rfl).bind fun _ => (accounts_renderValues vs rfl).map _

theorem accounts_renderItems : (ds : List Child) → {parent : Node} → {rest : List Node} →
    {c' : Context} → parent.kind = .array → c' = c.inside (parent :: rest) →
      Accounts c (childVisits c (parent :: rest) ds) (renderItems c' parent.hook ds)
  | [], _, _, _, _, rfl => by
    simp only [renderItems]
    exact .pure []
  | .node n :: ds, _, _, _, hkind, rfl => by
    rw [renderItems]
    exact ((accounts_renderNode n).item hkind).bind fun _ =>
      (accounts_renderItems ds hkind rfl).map _
  | .text s :: ds, _, _, _, hkind, rfl => by
    simp only [renderItems, renderItem, pure_bind]
    exact (accounts_renderItems ds hkind rfl).map _

theorem accounts_renderText : (ds : List Child) → {around : List Node} → {c' : Context} →
    c' = c.inside around → Accounts c (childVisits c around ds) (renderText c' ds)
  | [], _, _, rfl => by
    simp only [renderText]
    exact .pure []
  | .node n :: ds, _, _, rfl => by
    simp only [renderText, renderChild]
    exact (accounts_renderNode n).bind fun _ => (accounts_renderText ds rfl).map _
  | .text s :: ds, _, _, rfl => by
    simp only [renderText, renderChild, pure_bind]
    exact (accounts_renderText ds rfl).map _

end

/-! ## Inline elements -/

theorem Context.inside_nil (c : Context) : c.inside [] = c :=
  rfl

theorem mode?_eq_some {n : Node} {mode : Mode} (h : n.mode? = some mode) :
    mode ≠ .normal ∧ (n.kind = .text ∨ n.kind = .markup) := by
  obtain ⟨kind, attributes, children, hook⟩ := n
  cases kind with
  | text =>
    obtain rfl := Option.some.inj (show some Mode.plainText = some mode from h)
    exact ⟨nofun, .inl rfl⟩
  | markup =>
    obtain rfl := Option.some.inj (show some Mode.html = some mode from h)
    exact ⟨nofun, .inr rfl⟩
  | _ => cases h

/-- The mode within nodes is that of the nearest text, or else the one outside. -/
theorem mode_inside (c : Context) (around : List Node) :
    (c.inside around).mode = c.mode ∨
      (c.inside around).mode ≠ .normal ∧ ∃ m ∈ around, m.kind = .text ∨ m.kind = .markup := by
  show (around.findSome? Node.mode?).getD c.mode = c.mode ∨ _
  cases h : around.findSome? Node.mode? with
  | none => exact .inl rfl
  | some mode =>
    obtain ⟨m, hmem, hm⟩ := List.exists_of_findSome?_eq_some h
    obtain ⟨hmode, hkind⟩ := mode?_eq_some hm
    refine .inr ⟨?_, m, hmem, hkind⟩
    show (around.findSome? Node.mode?).getD c.mode ≠ .normal
    rw [h]
    exact hmode

theorem Raises.mode_eq_normal {v : Visit} {name : String}
    (h : Raises c v (.unexpectedElement name)) : (c.inside v.around).mode = .normal := by
  cases h with
  | unexpected _ hmode => exact hmode
  | unwritable _ _ hfails =>
    rcases Markup.renderTag_eq_error hfails with h | ⟨text, h⟩ <;> cases h

/-- In a text no inline element is unexpected. -/
theorem Raises.ne_unexpectedElement {v : Visit} {e : RenderError} (h : Raises c v e)
    (hc : c.mode ≠ .normal) (name : String) : e ≠ .unexpectedElement name := by
  rintro rfl
  rcases mode_inside c v.around with hmode | ⟨hmode, -⟩
  · exact hc (hmode ▸ h.mode_eq_normal)
  · exact hmode h.mode_eq_normal

theorem Accounts.ne_unexpectedElement {α : Type} {vs : List Visit} {x : RenderM α}
    (h : Accounts c vs x) (hc : c.mode ≠ .normal) (name : String) :
    x ≠ .error (.unexpectedElement name) := by
  intro hx
  obtain ⟨v, -, hv⟩ := h.raises _ hx
  exact hv.ne_unexpectedElement hc name rfl

/-- What a text holds raises no unexpected element, and neither does a check of it. -/
theorem checked_renderText_ne_unexpectedElement (hc : c.mode ≠ .normal) (ds : List Child)
    (name : String) : (renderText c ds).checked ≠ .error (.unexpectedElement name) := by
  intro h
  rcases checked_eq_error h with h | h
  · exact (accounts_renderText ds c.inside_nil.symm).ne_unexpectedElement hc name h
  · cases h

theorem renderFragment_ne_unexpectedElement (options : FormatOptions) (content : Content)
    (name : String) : renderFragment options content ≠ .error (.unexpectedElement name) := by
  intro h
  have hmode : ((Context.ofOptions options).withMode .html).mode ≠ .normal := nofun
  exact checked_renderText_ne_unexpectedElement hmode _ name (map_eq_error h)

theorem renderMrkdwn_ne_unexpectedElement (options : FormatOptions) (content : Content)
    (name : String) : renderMrkdwn options content ≠ .error (.unexpectedElement name) := by
  intro h
  rw [renderMrkdwn_eq_map_renderFragment] at h
  cases hfragment : renderFragment options content with
  | ok html =>
    rw [hfragment] at h
    cases h
  | error e =>
    rw [hfragment] at h
    obtain rfl := Except.error.inj h
    exact renderFragment_ne_unexpectedElement options content name hfragment

theorem renderPlainText_ne_unexpectedElement (content : Content) (name : String) :
    renderPlainText content ≠ .error (.unexpectedElement name) := by
  intro h
  have hmode : (Context.withMode {} .plainText).mode ≠ .normal := by decide
  have hnode : renderNode {} (.text content)
      = (renderText (Context.withMode {} .plainText) content.normalize >>= fun s =>
          pure (.text s)) := by
    show renderNode {} ⟨.text, ⟨[]⟩, content.normalize, none⟩ = _
    simp only [renderNode, Context.scope, recordCheck, pure_bind]
  rcases checked_eq_error (map_eq_error h) with h | h
  · rw [hnode] at h
    exact ((accounts_renderText content.normalize (Context.inside_nil _).symm).map
      Output.text).ne_unexpectedElement hmode name h
  · cases h

/-- Where an inline element renders although the mode outside is the normal one, a text is around
it. -/
theorem exists_text_of_renders {v : Visit} (h : Renders c v) {name : String}
    (hkind : v.node.kind = .tag name) (hc : c.mode = .normal) :
    ∃ m ∈ v.around, m.kind = .text ∨ m.kind = .markup := by
  rcases mode_inside c v.around with hmode | ⟨-, hexists⟩
  · obtain ⟨r, hr⟩ := h
    obtain ⟨⟨kind, ⟨entries⟩, children, hook⟩, around⟩ := v
    obtain rfl : kind = .tag name := hkind
    simp only [renderNode, Context.mode_scope, hmode, hc] at hr
    cases hr
  · exact hexists

theorem refuseTag_container_eq_ok {surface : Surface} {tag? : Option String} {r : Rendered Unit}
    (h : refuseTag (some (.container surface)) tag? = .ok r) : tag? = none := by
  cases tag? with
  | none => rfl
  | some name => cases h

/-- Every child of a list that renders does. -/
theorem exists_renderItem_of_mem {hook : Option Check} {ds : List Child} {r : Rendered (List Json)}
    (h : renderItems c hook ds = .ok r) {d : Child} (hd : d ∈ ds) :
    ∃ item, renderItem c hook d = .ok item := by
  induction ds generalizing r with
  | nil => cases hd
  | cons first ds ih =>
    simp only [renderItems] at h
    obtain ⟨item, rest, hitem, hrest, -⟩ := RenderM.bind_eq_ok h
    obtain ⟨items, hitems, -⟩ := map_eq_ok hrest
    rcases List.mem_cons.mp hd with rfl | hd
    · exact ⟨item, hitem⟩
    · exact ih hitems hd

/-- A container that renders has no inline element directly in it. -/
theorem kind_ne_tag_of_renders {v : Visit} (h : Renders c v) (hkind : v.node.kind = .array)
    {surface : Surface} (hhook : v.node.hook = some (.container surface)) {m : Node}
    (hm : .node m ∈ v.node.children) (name : String) : m.kind ≠ .tag name := by
  intro hname
  obtain ⟨r, hr⟩ := h
  obtain ⟨⟨kind, ⟨entries⟩, children, hook⟩, around⟩ := v
  obtain rfl : kind = .array := hkind
  obtain rfl : hook = some (.container surface) := hhook
  simp only [renderNode] at hr
  obtain ⟨items, -, hitems, -⟩ := RenderM.bind_eq_ok hr
  obtain ⟨item, hitem⟩ := exists_renderItem_of_mem hitems hm
  simp only [renderItem] at hitem
  obtain ⟨r', -, hrefuse, -⟩ := RenderM.bind_eq_ok hitem
  have hnone := refuseTag_container_eq_ok hrefuse
  rw [Node.tagName?, hname] at hnone
  cases hnone

/-- Inline elements only render in texts. In a text, and by whatever renders to text, no inline
element is found unexpected. Elsewhere, every inline element that is visited by a rendering that
succeeds has a text around it, and none is directly in a container. -/
theorem elements_within_texts :
    (∀ (c : Context) (n : Node) (name : String), c.mode ≠ .normal →
      renderNode c n ≠ .error (.unexpectedElement name)) ∧
    (∀ (options : FormatOptions) (content : Content) (name : String),
      renderMrkdwn options content ≠ .error (.unexpectedElement name) ∧
      renderPlainText content ≠ .error (.unexpectedElement name) ∧
      renderFragment options content ≠ .error (.unexpectedElement name)) ∧
    ∀ (c : Context) (n : Node) (r : Rendered Output), c.mode = .normal → renderNode c n = .ok r →
      ∀ v ∈ n.visits c [],
        (∀ name, v.node.kind = .tag name → ∃ m ∈ v.around, m.kind = .text ∨ m.kind = .markup) ∧
        ∀ surface, v.node.kind = .array → v.node.hook = some (.container surface) →
          ∀ m name, .node m ∈ v.node.children → m.kind ≠ .tag name := by
  refine ⟨fun c n name hc => ?_, fun options content name => ⟨?_, ?_, ?_⟩,
    fun c n r hc hr v hv => ?_⟩
  · rw [← c.inside_nil]
    exact (accounts_renderNode n).ne_unexpectedElement hc name
  · exact renderMrkdwn_ne_unexpectedElement options content name
  · exact renderPlainText_ne_unexpectedElement content name
  · exact renderFragment_ne_unexpectedElement options content name
  · rw [← c.inside_nil] at hr
    have hrenders : Renders c v := (accounts_renderNode n).renders r hr v hv
    exact ⟨fun name hkind => exists_text_of_renders hrenders hkind hc,
      fun surface hkind hhook m name hm => kind_ne_tag_of_renders hrenders hkind hhook hm name⟩

/-- Bold text in a header of a message, which is in the text of the header and not directly in the
message; and within a fragment, where nothing needs to be around it. -/
theorem elements_within_texts_header :
    let bold : Node := ⟨.tag "b", ⟨[]⟩, [.text "news"], none⟩
    let text : Node := ⟨.text, ⟨[]⟩, [.text "Old ", .node bold], none⟩
    let header : Node := ⟨.object, ⟨[("text", .node text)]⟩, [.node bold], none⟩
    let blocks : Node := ⟨.array, ⟨[]⟩, [.node header], some (.container .message)⟩
    let html : Context := { mode := .html }
    (html.mode ≠ .normal ∧ renderNode html bold ≠ .error (.unexpectedElement "b")) ∧
      (∃ r, renderNode {} blocks = .ok r) ∧
      blocks.visits {} [] = [⟨bold, [text, header, blocks]⟩, ⟨text, [header, blocks]⟩,
        ⟨header, [blocks]⟩, ⟨blocks, []⟩] ∧
      (∃ m ∈ [text, header, blocks], m.kind = .text ∨ m.kind = .markup) ∧
      ∀ m name, .node m ∈ blocks.children → m.kind ≠ .tag name := by
  intro bold text header blocks html
  have hhtml : html.mode ≠ .normal := nofun
  have hvisits : blocks.visits {} [] = [⟨bold, [text, header, blocks]⟩, ⟨text, [header, blocks]⟩,
      ⟨header, [blocks]⟩, ⟨blocks, []⟩] := by cbv
  obtain ⟨r, hr⟩ : ∃ r, renderNode {} blocks = .ok r := ⟨_, rfl⟩
  have hwithin := elements_within_texts.2.2 {} blocks r rfl hr
  rw [hvisits] at hwithin
  exact ⟨⟨hhtml, elements_within_texts.1 html bold "b" hhtml⟩, ⟨r, hr⟩, hvisits,
    (hwithin ⟨bold, [text, header, blocks]⟩ (by simp)).1 "b" rfl,
    (hwithin ⟨blocks, []⟩ (by simp)).2 .message rfl rfl⟩

end Render

end MessageLayout
