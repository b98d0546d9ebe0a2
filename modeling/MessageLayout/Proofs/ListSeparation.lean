import Mathlib
import MessageLayout.Payload
import MessageLayout.Proofs.ListLayout

/-!
# What separates a list from what follows it

Nodes are laid out from left to right, and line feeds are merged where two texts meet. So what was
laid out stays as it is but for the line feeds at its end, and these are settled as soon as something
else follows. A list brings line feeds at its end along, unless it closes the item that it is nested
in. Whether it does is judged by the elements behind it alone: a text behind the last list of an item
comes to stand right behind the last line of the list.

    layNodes … (ns ++ ms) = layNodes … (layFirst … ns) … ms             (layNodes_append)
    Separated u n t s → Separated u n' t' (join s r)                    (Separated.join)
    no line feed stands behind the list ↔ it ends in none, and closes its item or is thought to
                                                                        (layNodes_list)
-/

namespace MessageLayout.Mrkdwn

open Html

/-! ## Joining -/

section Ends

variable {c : Char} {s t : List Char}

theorem head?_dropWhile_ne (c : Char) (s : List Char) : (s.dropWhile (· = c)).head? ≠ some c := by
  intro h
  have hhead := List.head?_dropWhile_not (fun x : Char => decide (x = c)) s
  rw [h] at hhead
  simp at hhead

theorem getLast?_trimEndWhile (c : Char) (s : List Char) :
    (Text.trimEndWhile (· = c) s).getLast? ≠ some c := by
  rw [Text.trimEndWhile, List.getLast?_reverse]
  exact head?_dropWhile_ne c s.reverse

theorem head?_trimEndWhile_ne {p : Char → Bool} (h : s.head? ≠ some c) :
    (Text.trimEndWhile p s).head? ≠ some c := by
  intro hhead
  obtain ⟨t, ht⟩ := List.head?_eq_some_iff.mp hhead
  have hcut := Text.trimEndWhile_append_takeEndWhile p s
  rw [ht] at hcut
  exact h (hcut ▸ rfl)

theorem ends_trimSpaces (s : List Char) :
    (Text.trimWhile (· = ' ') s).head? ≠ some ' ' ∧ (Text.trimWhile (· = ' ') s).getLast? ≠ some ' ' :=
  ⟨head?_trimEndWhile_ne (head?_dropWhile_ne ' ' s), getLast?_trimEndWhile ' ' _⟩

theorem dropWhile_of_head?_ne (h : s.head? ≠ some c) : s.dropWhile (· = c) = s := by
  cases s with
  | nil => rfl
  | cons d s =>
    have hd : d ≠ c := fun hd => h (congrArg some hd)
    simp [hd]

theorem trimEndWhile_of_getLast?_ne (h : s.getLast? ≠ some c) : Text.trimEndWhile (· = c) s = s := by
  rw [Text.trimEndWhile, dropWhile_of_head?_ne (by rwa [List.head?_reverse]), List.reverse_reverse]

/-- A text without such characters at its end is all that is left of it with some behind it. -/
theorem trimEndWhile_append_replicate (h : s.getLast? ≠ some c) (n : Nat) :
    Text.trimEndWhile (· = c) (s ++ List.replicate n c) = s := by
  induction n with
  | zero => simpa using trimEndWhile_of_getLast?_ne h
  | succ n ih =>
    rw [List.replicate_succ', ← List.append_assoc, Text.trimEndWhile_concat_of_pos (by simp), ih]

theorem trimEndWhile_append_of_ne_nil {p : Char → Bool} (h : Text.trimEndWhile p t ≠ [])
    (s : List Char) :
    Text.trimEndWhile p (s ++ t) = s ++ Text.trimEndWhile p t := by
  have h' : t.reverse.dropWhile p ≠ [] := fun he => h (by rw [Text.trimEndWhile, he]; rfl)
  rw [Text.trimEndWhile, Text.trimEndWhile, List.reverse_append, List.dropWhile_append]
  simp [h']

/-- Up to its last character that is kept a text stays as it is. -/
theorem trimEndWhile_append_of_getLast? {q : Char → Bool} {c : Char} (hc : s.getLast? = some c)
    (hq : q c = false) (t : List Char) :
    Text.trimEndWhile q (s ++ t) = s ++ Text.trimEndWhile q t := by
  by_cases ht : Text.trimEndWhile q t = []
  · have hall := Text.trimEndWhile_append_takeEndWhile q t
    rw [ht, List.nil_append] at hall
    obtain ⟨u, rfl⟩ := List.getLast?_eq_some_iff.mp hc
    rw [ht, List.append_nil, Text.trimEndWhile_append_of_forall, Text.trimEndWhile_concat_of_neg hq]
    rw [← hall]
    exact fun _ => Text.of_mem_takeEndWhile
  · exact trimEndWhile_append_of_ne_nil ht s

end Ends

theorem takeEndWhile_eq_replicate (c : Char) (s : List Char) :
    Text.takeEndWhile (· = c) s = List.replicate (Text.takeEndWhile (· = c) s).length c :=
  List.eq_replicate_iff.mpr ⟨rfl, fun _ h => Text.eq_of_mem_takeEndWhile h⟩

/-- A text is what it is without the line feeds at its end, and these. -/
theorem trimEndWhile_append_trailingNewlines (s : List Char) :
    Text.trimEndWhile (· = '\n') s ++ List.replicate (trailingNewlines s) '\n' = s := by
  rw [trailingNewlines, ← takeEndWhile_eq_replicate, Text.trimEndWhile_append_takeEndWhile]

theorem trailingNewlines_append_replicate {s : List Char} (h : s.getLast? ≠ some '\n') (n : Nat) :
    trailingNewlines (s ++ List.replicate n '\n') = n := by
  have hs := trimEndWhile_append_trailingNewlines (s ++ List.replicate n '\n')
  rw [trimEndWhile_append_replicate h, List.append_cancel_left_eq] at hs
  simpa using congrArg List.length hs

theorem trailingNewlines_eq_zero {s : List Char} :
    trailingNewlines s = 0 ↔ s.getLast? ≠ some '\n' := by
  refine ⟨fun h hlast => ?_, fun h => by simpa using trailingNewlines_append_replicate h 0⟩
  have hs := trimEndWhile_append_trailingNewlines s
  rw [h, List.replicate_zero, List.append_nil] at hs
  rw [← hs] at hlast
  exact getLast?_trimEndWhile '\n' s hlast

theorem leadingNewlines_eq_zero {s : List Char} :
    leadingNewlines s = 0 ↔ s.head? ≠ some '\n' := by
  cases s with
  | nil => simp [leadingNewlines]
  | cons c s => by_cases hc : c = '\n' <;> simp [leadingNewlines, hc]

/-- A text is the line feeds at its start and what follows them. -/
theorem replicate_leadingNewlines_append (s : List Char) :
    List.replicate (leadingNewlines s) '\n' ++ s.dropWhile (· = '\n') = s := by
  have htake : s.takeWhile (· = '\n') = List.replicate (leadingNewlines s) '\n' :=
    List.eq_replicate_iff.mpr ⟨rfl, fun _ h => Text.eq_of_mem_takeWhile h⟩
  rw [← htake, List.takeWhile_append_dropWhile]

/-- A text is a settled part, line feeds, and a tail that does not begin with one. -/
structure Separated (upTo : List Char) (n : Nat) (tail s : List Char) : Prop where
  eq : s = upTo ++ List.replicate n '\n' ++ tail
  last : upTo.getLast? ≠ some '\n'
  first : tail.head? ≠ some '\n'

/-- What is not a line feed at either end. -/
def withoutNewlines (s : List Char) : List Char :=
  Text.trimWhile (· = '\n') s

theorem getLast?_withoutNewlines (s : List Char) : (withoutNewlines s).getLast? ≠ some '\n' :=
  getLast?_trimEndWhile '\n' _

theorem withoutNewlines_isInfix (s : List Char) :
    withoutNewlines s <:+: s.dropWhile (· = '\n') :=
  ⟨[], _, Text.trimEndWhile_append_takeEndWhile _ _⟩

theorem infix_trimEndWhile {s w : List Char} (hw : w.getLast? ≠ some '\n') (h : w <:+: s) :
    w <:+: Text.trimEndWhile (· = '\n') s := by
  obtain ⟨a, b, rfl⟩ := h
  by_cases hb : Text.trimEndWhile (· = '\n') b = []
  · have htext := trimEndWhile_append_trailingNewlines b
    rw [hb, List.nil_append] at htext
    cases w with
    | nil => exact List.nil_infix
    | cons c w =>
      have hlast : (a ++ c :: w).getLast? ≠ some '\n' := by
        rwa [List.getLast?_append_of_ne_nil _ (by simp)]
      rw [← htext, trimEndWhile_append_replicate hlast]
      exact (List.suffix_append a _).isInfix
  · rw [trimEndWhile_append_of_ne_nil hb]
    exact List.infix_append a w _

namespace Separated

variable {upTo tail s t : List Char} {n : Nat}

theorem of_text (s : List Char) :
    Separated (Text.trimEndWhile (· = '\n') s) (trailingNewlines s) [] s :=
  ⟨by rw [List.append_nil, trimEndWhile_append_trailingNewlines], getLast?_trimEndWhile '\n' s, by simp⟩

/-- Before anything else, more line feeds may come behind the settled part. -/
theorem join_nil (h : Separated upTo n [] s) (t : List Char) :
    Separated upTo (min 2 (max n (leadingNewlines t))) (t.dropWhile (· = '\n')) (join s t) := by
  have hs : s = upTo ++ List.replicate n '\n' := by simpa using h.eq
  refine ⟨?_, h.last, head?_dropWhile_ne '\n' t⟩
  rw [join, hs, trimEndWhile_append_replicate h.last, trailingNewlines_append_replicate h.last]

/-- Behind something else the line feeds behind the settled part stay as they are. -/
theorem join_cons (h : Separated upTo n tail s) (htail : tail ≠ []) (t : List Char) :
    ∃ u, Separated upTo n (Text.trimEndWhile (· = '\n') tail ++ u ++ t.dropWhile (· = '\n')) (join s t) := by
  have hcore : Text.trimEndWhile (· = '\n') tail ≠ [] := by
    intro he
    have htext := trimEndWhile_append_trailingNewlines tail
    rw [he, List.nil_append] at htext
    cases hn : trailingNewlines tail with
    | zero => exact htail (by rw [← htext, hn]; rfl)
    | succ m => exact h.first (by rw [← htext, hn]; rfl)
  have hhead : (Text.trimEndWhile (· = '\n') tail).head? ≠ some '\n' := by
    intro he
    obtain ⟨v, hv⟩ := List.head?_eq_some_iff.mp he
    have htext := trimEndWhile_append_trailingNewlines tail
    exact h.first (by rw [← htext, hv]; rfl)
  obtain ⟨c, v, hv⟩ := List.exists_cons_of_ne_nil hcore
  refine ⟨List.replicate (min 2 (max (trailingNewlines s) (leadingNewlines t))) '\n', ?_, h.last, ?_⟩
  · rw [join]
    conv_lhs => rw [h.eq, trimEndWhile_append_of_ne_nil hcore, ← h.eq]
    simp only [List.append_assoc]
  · rw [hv] at hhead ⊢
    exact hhead

/-- What is joined behind a text leaves its settled part alone and comes behind it. Line feeds behind
that part stay, and none come to be there if the text has something behind it or the other text does
not begin with one. -/
theorem join (h : Separated upTo n tail s) (t : List Char) :
    ∃ n' tail', Separated upTo n' tail' (Mrkdwn.join s t) ∧ withoutNewlines t <:+: tail' ∧
      (∀ w : List Char, w.getLast? ≠ some '\n' → w <:+: tail → w <:+: tail') ∧ (0 < n → 0 < n') ∧
      (leadingNewlines t = 0 → n = 0 → n' = 0) := by
  by_cases htail : tail = []
  · subst htail
    refine ⟨_, _, h.join_nil t, ?_, fun w _ hw => ?_, by omega, by omega⟩
    · exact withoutNewlines_isInfix t
    · rw [List.infix_nil.mp hw]
      exact List.nil_infix
  · obtain ⟨u, hs⟩ := h.join_cons htail t
    refine ⟨n, _, hs, ?_, fun w hw hi => ?_, id, fun _ h => h⟩
    · exact (withoutNewlines_isInfix t).trans (List.suffix_append _ _).isInfix
    · rw [List.append_assoc]
      exact (infix_trimEndWhile hw hi).trans (List.prefix_append _ _).isInfix

end Separated

/-! ## Nodes from left to right -/

/-- The first of several nodes laid out behind `laid`, when `others` follow them. -/
def layFirst (d : Delimiters) (parent : String) (parentAttrs : Attrs) (isBlock : Bool)
    (others : List Dom) (elementsBefore : Nat) (laid : Laid) : List Dom → Laid
  | [] => laid
  | n :: ns =>
    let place : Place :=
      ⟨parent, parentAttrs, elementsBefore, !(ns ++ others).isEmpty, (ns ++ others).any Dom.isElement⟩
    let next := layNode d (afterSpace laid.text isBlock) place laid.fences n
    layFirst d parent parentAttrs isBlock others
      (if n.isElement then elementsBefore + 1 else elementsBefore)
      ⟨join laid.text next.text, next.fences⟩ ns

theorem layNodes_append (d : Delimiters) (parent : String) (parentAttrs : Attrs) (isBlock : Bool)
    (elementsBefore : Nat) (laid : Laid) (ns others : List Dom) :
    layNodes d parent parentAttrs isBlock elementsBefore laid (ns ++ others)
      = layNodes d parent parentAttrs isBlock (elementsBefore + ns.countP Dom.isElement)
          (layFirst d parent parentAttrs isBlock others elementsBefore laid ns) others := by
  induction ns generalizing elementsBefore laid with
  | nil => rfl
  | cons n ns ih =>
    rw [List.cons_append, layNodes, layFirst, ih]
    congr 1
    cases hn : n.isElement with
    | true =>
      rw [List.countP_cons_of_pos hn, if_pos rfl]
      omega
    | false => rw [List.countP_cons_of_neg (by simp [hn]), if_neg (by simp)]

/-- Text and comments begin with no line feed. -/
theorem leadingNewlines_layNode (d : Delimiters) (trims : Bool) (place : Place) (F : Fences) {n : Dom}
    (h : n.isElement = false) : leadingNewlines (layNode d trims place F n).text = 0 := by
  cases n with
  | element name attrs children => cases h
  | comment => rfl
  | text content =>
    have hsqueeze : '\n' ∉ Text.squeeze isSpace ' ' content :=
      Text.not_mem_squeeze (by decide) (by decide) content
    have hn : '\n' ∉ layText trims content := by
      rw [layText, Text.mem_escapeEntity (by decide)]
      intro hm
      cases trims with
      | false => exact hsqueeze hm
      | true => exact hsqueeze ((List.dropWhile_sublist _).subset hm)
    exact leadingNewlines_eq_zero.mpr fun hhead => hn (List.mem_of_head? hhead)

/-- What follows a text leaves its settled part alone and comes behind it. -/
theorem Separated.layNodes (d : Delimiters) (parent : String) (parentAttrs : Attrs) (isBlock : Bool)
    (elementsBefore : Nat) (laid : Laid) {upTo : List Char} (ns : List Dom) {n : Nat} {tail : List Char}
    (h : Separated upTo n tail laid.text) :
    ∃ n' tail', Separated upTo n' tail'
        (Mrkdwn.layNodes d parent parentAttrs isBlock elementsBefore laid ns).text ∧
      (∀ next ∈ ns, ∃ trims place F,
        withoutNewlines (layNode d trims place F next).text <:+: tail') ∧
      (∀ w : List Char, w.getLast? ≠ some '\n' → w <:+: tail → w <:+: tail') ∧ (0 < n → 0 < n') ∧
      (ns.any Dom.isElement = false → n = 0 → n' = 0) := by
  induction ns generalizing elementsBefore n laid tail with
  | nil => exact ⟨n, tail, h, fun _ hn => absurd hn List.not_mem_nil, fun _ _ hw => hw, id, fun _ h => h⟩
  | cons m ns ih =>
    let place : Place := ⟨parent, parentAttrs, elementsBefore, !ns.isEmpty, ns.any Dom.isElement⟩
    obtain ⟨n₁, tail₁, h₁, hnext, hkept₁, hpos₁, hzero₁⟩ :=
      h.join (layNode d (afterSpace laid.text isBlock) place laid.fences m).text
    obtain ⟨n₂, tail₂, h₂, hlater, hkept₂, hpos₂, hzero₂⟩ :=
      ih (if m.isElement then elementsBefore + 1 else elementsBefore) ⟨Mrkdwn.join laid.text _, _⟩ h₁
    refine ⟨n₂, tail₂, h₂, List.forall_mem_cons.mpr ⟨?_, hlater⟩,
      fun w hw hi => hkept₂ w hw (hkept₁ w hw hi), fun hn => hpos₂ (hpos₁ hn), fun he hn => ?_⟩
    · exact ⟨_, _, _, hkept₂ _ (getLast?_withoutNewlines _) hnext⟩
    · rw [List.any_cons, Bool.or_eq_false_iff] at he
      exact hzero₂ he.2 (hzero₁ (leadingNewlines_layNode d _ place _ he.1) hn)

/-! ## Lists -/

theorem getLast?_join {s t : List Char} (ht : t ≠ []) :
    (join s t).getLast? = some '\n' ↔ t.getLast? = some '\n' := by
  by_cases hd : t.dropWhile (· = '\n') = []
  · have hall : ∀ c ∈ t, c = '\n' := fun c hc =>
      of_decide_eq_true (List.dropWhile_eq_nil_iff.mp hd c hc)
    have hlead : leadingNewlines t ≠ 0 := by
      obtain ⟨c, u, rfl⟩ := List.exists_cons_of_ne_nil ht
      simp [leadingNewlines, hall c List.mem_cons_self]
    obtain ⟨n, hn⟩ := Nat.exists_eq_succ_of_ne_zero
      (show min 2 (max (trailingNewlines s) (leadingNewlines t)) ≠ 0 by omega)
    have hjoin : join s t = Text.trimEndWhile (· = '\n') s ++ List.replicate n '\n' ++ ['\n'] := by
      rw [join, hd, hn, List.append_nil, List.replicate_succ', List.append_assoc]
    obtain ⟨u, c, rfl⟩ := (List.eq_nil_or_concat t).resolve_left ht
    rw [hjoin]
    simp [hall c (by simp)]
  · rw [join, List.getLast?_append_of_ne_nil _ hd]
    conv_rhs => rw [← List.takeWhile_append_dropWhile (p := fun c => decide (c = '\n')) (l := t)]
    rw [List.getLast?_append_of_ne_nil _ hd]

/-- A list that closes no item ends in a line feed. -/
theorem getLast?_list (content : List Char) : (list content false).getLast? = some '\n' := by
  have hlist : list content false = '\n' :: '\n' :: content ++ ['\n'] ++ ['\n'] := by
    simp [list, paragraph]
  rw [hlist, List.getLast?_concat]

/-- The text of a list as it stands between line feeds. -/
theorem withoutNewlines_list (content : List Char) (nestedLast : Bool) :
    withoutNewlines (list content nestedLast) = withoutNewlines content := by
  cases nestedLast with
  | true => rfl
  | false =>
    have hdrop : (list content false).dropWhile (· = '\n')
        = (content ++ ['\n', '\n']).dropWhile (· = '\n') :=
      rfl
    simp only [withoutNewlines, Text.trimWhile, hdrop, List.dropWhile_append]
    split
    next he =>
      rw [List.isEmpty_iff.mp he]
      rfl
    · rw [List.append_cons, Text.trimEndWhile_concat_of_pos rfl, Text.trimEndWhile_concat_of_pos rfl]

/-- A text that something is joined to ends in it, but for line feeds. -/
theorem withoutNewlines_isSuffix_join (s t : List Char) :
    withoutNewlines t <:+ Text.trimEndWhile (· = '\n') (join s t) := by
  by_cases ht : withoutNewlines t = []
  · rw [ht]
    exact List.nil_suffix
  · rw [join, trimEndWhile_append_of_ne_nil ht]
    exact List.suffix_append _ _

theorem text_layNode_list (d : Delimiters) (trims : Bool) (place : Place) (F : Fences) {name : String}
    {attrs : Attrs} {items : List Dom} (hname : name = "ul" ∨ name = "ol")
    (hblank : (Dom.element name attrs items).isBlank = false) :
    (layNode d trims place F (.element name attrs items)).text
      = list (Text.trimWhile (· = ' ') (layNodes d name attrs true 0 ⟨[], F⟩ items).text)
          (place.parent == "li" && !place.hasNextElement) := by
  rcases hname with rfl | rfl
  all_goals
    rw [layNode_block d trims place F rfl (by decide) hblank]
    exact trimStartIf_list trims _ _

/-- A list and what follows it in the same element: the text of the list ends in no line feed, and the
line feeds behind it come before all that follows. There are none exactly if the list ends in none
and is nested in an item with no element behind it. -/
theorem layNodes_list (d : Delimiters) (parent : String) (parentAttrs : Attrs) (isBlock : Bool)
    (F : Fences) (before after : List Dom) {name : String} {attrs : Attrs} {items : List Dom}
    (hname : name = "ul" ∨ name = "ol") (hblank : (Dom.element name attrs items).isBlank = false) :
    let l : Dom := .element name attrs items
    let fences := (layFirst d parent parentAttrs isBlock (l :: after) 0 ⟨[], F⟩ before).fences
    let content := Text.trimWhile (· = ' ') (layNodes d name attrs true 0 ⟨[], fences⟩ items).text
    ∃ upTo newlines tail,
      (layNodes d parent parentAttrs isBlock 0 ⟨[], F⟩ (before ++ l :: after)).text
          = upTo ++ newlines ++ tail ∧
        withoutNewlines content <:+ upTo ∧ upTo.getLast? ≠ some '\n' ∧
        (∀ c ∈ newlines, c = '\n') ∧ tail.head? ≠ some '\n' ∧
        (∀ next ∈ after, ∃ trims place F,
          withoutNewlines (layNode d trims place F next).text <:+: tail) ∧
        (newlines = [] ↔ parent = "li" ∧ after.any Dom.isElement = false ∧
          ('\n' :: content).getLast? ≠ some '\n') := by
  intro l fences content
  let laid := layFirst d parent parentAttrs isBlock (l :: after) 0 ⟨[], F⟩ before
  let place : Place :=
    ⟨parent, parentAttrs, before.countP Dom.isElement, !after.isEmpty, after.any Dom.isElement⟩
  let nestedLast := parent == "li" && !after.any Dom.isElement
  let next := layNode d (afterSpace laid.text isBlock) place fences l
  have hlist : next.text = list content nestedLast := text_layNode_list d _ place fences hname hblank
  have hne : list content nestedLast ≠ [] := by
    cases nestedLast <;> exact List.cons_ne_nil _ _
  have hlaid : layNodes d parent parentAttrs isBlock 0 ⟨[], F⟩ (before ++ l :: after)
      = layNodes d parent parentAttrs isBlock (before.countP Dom.isElement + 1)
          ⟨join laid.text next.text, next.fences⟩ after := by
    rw [layNodes_append, layNodes, Nat.zero_add]
    rfl
  rw [hlaid]
  have hstart := Separated.of_text (join laid.text next.text)
  obtain ⟨n, tail, hsep, hfollow, -, hpos, hzero⟩ := Separated.layNodes d parent parentAttrs isBlock
    (before.countP Dom.isElement + 1) ⟨_, next.fences⟩ after hstart
  refine ⟨_, List.replicate n '\n', tail, hsep.eq, ?_, hsep.last,
    fun c hc => List.eq_of_mem_replicate hc, hsep.first, hfollow, ?_⟩
  · rw [← withoutNewlines_list content nestedLast, ← hlist]
    exact withoutNewlines_isSuffix_join _ _
  · have hstart : trailingNewlines (join laid.text next.text) = 0
        ↔ (list content nestedLast).getLast? ≠ some '\n' := by
      rw [trailingNewlines_eq_zero, hlist, Ne, getLast?_join hne]
    rw [List.replicate_eq_nil_iff]
    constructor
    · intro hn
      have hlast := hstart.mp (Nat.eq_zero_of_not_pos fun h => absurd (hpos h) (by omega))
      cases hnested : nestedLast with
      | false =>
        rw [hnested] at hlast
        exact absurd (getLast?_list content) hlast
      | true =>
        rw [hnested] at hlast
        simp only [nestedLast, Bool.and_eq_true, beq_iff_eq, Bool.not_eq_true'] at hnested
        exact ⟨hnested.1, hnested.2, hlast⟩
    · rintro ⟨hparent, hafter, hlast⟩
      have hnested : nestedLast = true := by simp [nestedLast, hparent, hafter]
      exact hzero hafter (hstart.mpr (by rwa [hnested]))

/-- A list within an item, and an element behind it. -/
theorem layNodes_list_before_element :
    let l : Dom := .element "ul" [] [.element "li" [] [.text "b".toList]]
    let c : Dom := .element "span" [] [.text "c".toList]
    l.isBlank = false ∧ ∃ upTo newlines tail,
      (layNodes (delimiters {}) "li" [] true 0 ⟨[], []⟩ ([.text "a".toList] ++ l :: [c])).text
          = upTo ++ newlines ++ tail ∧
        "\u2022 b".toList <:+ upTo ∧ (∀ c ∈ newlines, c = '\n') ∧ newlines ≠ [] ∧
        "c".toList <:+: tail := by
  intro l c
  have hblank : l.isBlank = false := rfl
  obtain ⟨upTo, newlines, tail, htext, hup, -, hnewlines, -, hafter, hnil⟩ :=
    layNodes_list (delimiters {}) "li" [] true [] [.text "a".toList] [c] (.inl rfl) hblank
  obtain ⟨trims, place, F, hc⟩ := hafter c List.mem_cons_self
  have hspan : withoutNewlines (layNode (delimiters {}) trims place F c).text = "c".toList := by
    cases trims <;> cbv
  have hitems : ∀ F, withoutNewlines (Text.trimWhile (· = ' ') (layNodes (delimiters {}) "ul" [] true 0
      ⟨[], F⟩ [.element "li" [] [.text "b".toList]]).text) = "\u2022 b".toList := by
    intro F
    cbv
  rw [hitems] at hup
  rw [hspan] at hc
  exact ⟨hblank, upTo, newlines, tail, htext, hup, hnewlines, fun h => absurd (hnil.mp h).2.1 (by decide), hc⟩

/-- A text behind the last list of an item stands on the last line of the list. -/
theorem renderMrkdwn_list_glued :
    let tag (name : String) (children : List Child) : Child := .node ⟨.tag name, ⟨[]⟩, children, none⟩
    let content : Content := .ofChild
      (tag "ul" [tag "li" [.text "a", tag "ul" [tag "li" [.text "b"]], .text "c"]])
    let l : Dom := .element "ul" [] [.element "li" [] [.text "b".toList]]
    let item : List Dom := [.text "a".toList, l, .text "c".toList]
    renderFragment {} content = .ok "<ul><li>a<ul><li>b</li></ul>c</li></ul>" ∧
      parse "<ul><li>a<ul><li>b</li></ul>c</li></ul>".toList
        = [.element "ul" [] [.element "li" [] item]] ∧
      l.isBlank = false ∧ Text.isAllBlank "c".toList = false ∧
      (layNodes (delimiters {}) "li" [] true 0 ⟨[], []⟩ item).text = "a\n\u2022 bc".toList ∧
      ¬"b\n".toList <:+: (layNodes (delimiters {}) "li" [] true 0 ⟨[], []⟩ item).text ∧
      renderMrkdwn {} content = .ok "\u2022 a\n\u2007 \u2022 bc" := by
  intro tag content l item
  refine ⟨?_, ?_, rfl, rfl, ?_, ?_, ?_⟩
  · cbv
  · cbv
  · decide
  · decide
  · cbv

end MessageLayout.Mrkdwn
