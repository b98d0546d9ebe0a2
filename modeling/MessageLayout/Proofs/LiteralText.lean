import Mathlib
import MessageLayout.Payload
import MessageLayout.Proofs.EscapedText
import MessageLayout.Proofs.RecordedChecks

/-!
# Literal text

A string in inline content is text: its reserved characters are escaped on the way into the
fragment. A text node is a plain label, and what it comes to is put into the fragment as it is. So a
string in a fragment is the text node of the escaped string, and the two are interchangeable where
there is nothing to escape; elsewhere the text node is read as markup.

    renderMrkdwn o (gap.fill (string s)) = renderMrkdwn o (gap.fill (text node of gap.written s))
    gap.written s = s ↔ gap is in a plain text, or s holds no reserved character
                                                                        (renderMrkdwn_literal)
-/

namespace MessageLayout

open Render

namespace Text

/-- The characters that are written as entities. -/
def reserved : List Char := ['&', '<', '>']

theorem length_le_escapeEntity (s : List Char) : s.length ≤ (escapeEntity s).length := by
  induction s with
  | nil => exact Nat.le_refl 0
  | cons c s ih =>
    have hpos := List.length_pos_iff.mpr (entity_ne_nil c)
    rw [escapeEntity_cons, List.length_append, List.length_cons]
    omega

theorem length_entity {c : Char} (hc : c ∈ reserved) : 1 < (entity c).length :=
  forall_mem_of_all (p := fun c => 1 < (entity c).length) (by decide) c hc

/-- Escaping changes exactly the texts that hold a reserved character. -/
theorem escapeEntity_eq_self_iff {s : List Char} :
    escapeEntity s = s ↔ ∀ c ∈ s, c ∉ reserved := by
  induction s with
  | nil => simp
  | cons c s ih =>
    rw [escapeEntity_cons, List.forall_mem_cons, ← ih]
    by_cases hc : c ∈ reserved
    · refine iff_of_false (fun h => ?_) fun h => h.1 hc
      have hlong := length_entity hc
      have hrest := length_le_escapeEntity s
      have hsum := congrArg List.length h
      rw [List.length_append, List.length_cons] at hsum
      omega
    · have he : entity c = [c] := by
        simp only [reserved, List.mem_cons, List.not_mem_nil, or_false, not_or] at hc
        exact entity_of_ne hc.1 hc.2.1 hc.2.2
      rw [he, List.singleton_append, List.cons.injEq]
      exact ⟨fun h => ⟨hc, h.2⟩, fun h => ⟨rfl, h.2⟩⟩

end Text

/-! ## Gaps -/

/-- A list of children with a gap for one more, among them or anywhere below them. -/
inductive Gap where
  /-- A gap between children. -/
  | here (left right : List Child)
  /-- A gap in the children of a node, which stand in for the node's own. -/
  | within (left : List Child) (around : Node) (gap : Gap) (right : List Child)

namespace Gap

/-- The children with the given child in the gap. -/
def fill (x : Child) : Gap → List Child
  | here left right => left ++ x :: right
  | within left around gap right =>
    left ++ .node { around with children := gap.fill x } :: right

/-- The mode in which the gap is rendered if the children are rendered in the given one. -/
def mode (m : Mode) : Gap → Mode
  | here _ _ => m
  | within _ around gap _ => gap.mode (around.mode?.getD m)

/-- What a string in the gap of inline content writes into the text around it. -/
def written (gap : Gap) (s : String) : String :=
  if gap.mode .html = .html then String.ofList (Text.escapeEntity s.toList) else s

theorem written_eq_self_iff {gap : Gap} {s : String} :
    gap.written s = s ↔ (gap.mode .html = .html → ∀ c ∈ s.toList, c ∉ Text.reserved) := by
  unfold written
  split
  next hm =>
    rw [← Text.escapeEntity_eq_self_iff, String.ext_iff, String.toList_ofList]
    exact ⟨fun h _ => h, fun h => h hm⟩
  next hm => exact iff_of_true rfl fun h => absurd h hm

end Gap

namespace Render

/-! ## Rendering with a gap -/

/-- Two children that render alike in a mode, among texts and among the items of a list. -/
structure AlikeIn (m : Mode) (x y : Child) : Prop where
  child : ∀ c : Context, c.mode = m → renderChild c x = renderChild c y
  item : ∀ c : Context, c.mode = m → ∀ hook, renderItem c hook x = renderItem c hook y

/-- Two lists of children that render alike in a mode. -/
structure AllAlikeIn (m : Mode) (ds es : List Child) : Prop where
  text : ∀ c : Context, c.mode = m → renderText c ds = renderText c es
  items : ∀ c : Context, c.mode = m → ∀ hook, renderItems c hook ds = renderItems c hook es

variable {m : Mode} {x y : Child} {ds es : List Child}

theorem AlikeIn.between (h : AlikeIn m x y) (left right : List Child) :
    AllAlikeIn m (left ++ x :: right) (left ++ y :: right) := by
  induction left with
  | nil =>
    refine ⟨fun c hc => ?_, fun c hc hook => ?_⟩
    · simp only [List.nil_append, renderText, h.child c hc]
    · simp only [List.nil_append, renderItems, h.item c hc]
  | cons d left ih =>
    refine ⟨fun c hc => ?_, fun c hc hook => ?_⟩
    · simp only [List.cons_append, renderText, ih.text c hc]
    · simp only [List.cons_append, renderItems, ih.items c hc]

/-- A node renders alike around children that render alike in the mode that it gives them. -/
theorem renderNode_congr (n : Node) (c : Context) (h : AllAlikeIn (n.mode?.getD c.mode) ds es) :
    renderNode c { n with children := ds } = renderNode c { n with children := es } := by
  obtain ⟨kind, ⟨entries⟩, children, hook⟩ := n
  have hscope := c.mode_scope hook
  cases kind with
  | object => simp only [renderNode]
  | array => simp only [renderNode, h.items _ hscope]
  | text => simp only [renderNode, h.text ((c.scope hook).withMode .plainText) rfl]
  | markup => simp only [renderNode, h.text ((c.scope hook).withMode .html) rfl]
  | escaped => simp only [renderNode, h.text _ hscope]
  | tag name => simp only [renderNode, h.text ((c.scope hook).enter name) hscope]

theorem alikeIn_node (n : Node) (h : AllAlikeIn (n.mode?.getD m) ds es) :
    AlikeIn m (.node { n with children := ds }) (.node { n with children := es }) := by
  refine ⟨fun c hc => ?_, fun c hc hook => ?_⟩
  · subst hc
    exact renderNode_congr n c h
  · subst hc
    simp only [renderItem, renderNode_congr n c h, Node.tagName?]

theorem allAlikeIn_fill (gap : Gap) (h : AlikeIn (gap.mode m) x y) :
    AllAlikeIn m (gap.fill x) (gap.fill y) := by
  induction gap generalizing m with
  | here left right => exact h.between left right
  | within left around gap right ih => exact (alikeIn_node around (ih h)).between left right

/-- A text node of a string renders to the string as it is. -/
theorem renderNode_textNode (c : Context) (s : String) :
    renderNode c (Node.text (.text s)) = pure (.text s.toList) := by
  show renderNode c ⟨.text, ⟨[]⟩, [.text s], none⟩ = _
  simp only [renderNode, renderText, renderChild, leaf, Context.withMode, recordCheck, pure_bind,
    Output.toText, List.append_nil, reduceCtorEq, if_false]

/-- In a mode that does not escape, a string is its text node. -/
theorem alikeIn_textNode (s : String) {t : String} (ht : leaf m s = .text t.toList) :
    AlikeIn m (.text s) (.node (Node.text (.text t))) := by
  refine ⟨fun c hc => ?_, fun c hc hook => ?_⟩
  · simp only [renderChild, renderNode_textNode, hc, ht]
  · have hr : refuseTag hook (Node.text (.text t)).tagName? = pure () := by
      unfold refuseTag
      split <;> first | rfl | contradiction
    simp only [renderItem, renderNode_textNode, hc, ht, hr, pure_bind]

end Render

/-! ## Rendering to mrkdwn -/

theorem renderMrkdwn_congr (options : FormatOptions) {ds es : List Child}
    (h : AllAlikeIn .html ds es) :
    renderMrkdwn options (.ofChildren ds) = renderMrkdwn options (.ofChildren es) := by
  simp only [renderMrkdwn_eq_map_renderFragment, renderFragment, Content.normalize_ofChildren,
    h.text ((Context.ofOptions options).withMode .html) rfl]

theorem renderMrkdwn_textNode (options : FormatOptions) (s : String) :
    renderMrkdwn options (.node (Node.text (.text s)))
      = .ok (String.ofList (Mrkdwn.ofHtml options s.toList)) := by
  have hf : renderFragment options (.node (Node.text (.text s))) = .ok s := by
    simp only [renderFragment, Content.normalize, renderText, renderChild, renderNode_textNode,
      pure_bind, Output.toText, List.append_nil]
    exact congrArg Except.ok String.ofList_toList
  rw [renderMrkdwn_eq_map_renderFragment, hf, Except.map]

/-- A string anywhere in inline content renders like the text node of what the string writes there:
of itself within a plain text, and of the escaped string elsewhere. So the two may replace each
other where nothing is escaped, and only there do they write the same. By itself, a text node is
read as a fragment, and a string as the fragment of its text. -/
theorem renderMrkdwn_literal (options : FormatOptions) (gap : Gap) (s : String) :
    let withString := renderMrkdwn options (.ofChildren (gap.fill (.text s)))
    let withNode (t : String) :=
      renderMrkdwn options (.ofChildren (gap.fill (.node (Node.text (.text t)))))
    ((gap.mode .html = .html → ∀ c ∈ s.toList, c ∉ Text.reserved) → withNode s = withString) ∧
      withString = withNode (gap.written s) ∧
      (gap.written s = s ↔ (gap.mode .html = .html → ∀ c ∈ s.toList, c ∉ Text.reserved)) ∧
      renderMrkdwn options (.node (Node.text (.text s)))
        = .ok (String.ofList (Mrkdwn.ofHtml options s.toList)) ∧
      renderMrkdwn options (.text s)
        = .ok (String.ofList (Mrkdwn.ofHtml options (Text.escapeEntity s.toList))) := by
  have hwritten : ∀ (gap : Gap), renderMrkdwn options (.ofChildren (gap.fill (.text s)))
      = renderMrkdwn options (.ofChildren (gap.fill (.node (Node.text (.text (gap.written s)))))) := by
    intro gap
    refine renderMrkdwn_congr options (allAlikeIn_fill gap (alikeIn_textNode s ?_))
    unfold leaf Gap.written
    split
    · rw [String.toList_ofList]
    · rfl
  refine ⟨fun h => ?_, hwritten gap, Gap.written_eq_self_iff, renderMrkdwn_textNode options s, ?_⟩
  · rw [hwritten gap, Gap.written_eq_self_iff.mpr h]
  · have hescaped : (Gap.here [] []).written s = String.ofList (Text.escapeEntity s.toList) :=
      if_pos rfl
    have htop := (hwritten (.here [] [])).trans (renderMrkdwn_textNode options _)
    rw [hescaped, String.toList_ofList] at htop
    exact htop

/-- The text node of a string that spells an element is that element; the string itself is text. -/
theorem renderMrkdwn_literal_element :
    renderMrkdwn {} (.node (Node.text (.text "<b>x</b>"))) = .ok "*x*" ∧
      renderMrkdwn {} (.text "<b>x</b>") = .ok "&lt;b&gt;x&lt;/b&gt;" ∧
      ¬∀ (options : FormatOptions) (gap : Gap) (s : String),
        renderMrkdwn options (.ofChildren (gap.fill (.node (Node.text (.text s)))))
          = renderMrkdwn options (.ofChildren (gap.fill (.text s))) := by
  have hnode : renderMrkdwn {} (.node (Node.text (.text "<b>x</b>"))) = .ok "*x*" := by cbv
  have hstring : renderMrkdwn {} (.text "<b>x</b>") = .ok "&lt;b&gt;x&lt;/b&gt;" := by cbv
  refine ⟨hnode, hstring, fun h => ?_⟩
  have heq : renderMrkdwn {} (.node (Node.text (.text "<b>x</b>")))
      = renderMrkdwn {} (.text "<b>x</b>") := h {} (.here [] []) "<b>x</b>"
  rw [hnode, hstring] at heq
  exact absurd (Except.ok.inj heq) (by decide)

end MessageLayout
