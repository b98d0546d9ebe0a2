import MessageLayout.Proofs.CodeFences
import MessageLayout.Proofs.HuggedText
import MessageLayout.Proofs.PlainText

/-!
# Collapsed space

Space is laid out piece by piece: each text collapses its own, drops it behind space that is
already there, and an element moves the space at its ends out of its delimiters. Across any nesting
of styles this comes to collapsing the space of the whole text at once.

    squeezeFrom p c b (s ++ t) = squeezeFrom p c b s ++ squeezeFrom p c (endsInRun p b s) t
                                                                    (squeezeFrom_append)
    Collapses b n.textContent (layNode d b … n).text                (collapses_layNode)
    undelimited (ofDoms … body) = escapeEntity (collapsed (Dom.textOf body))
                                                                    (undelimited_ofDoms)
-/

namespace MessageLayout

namespace Text

/-! ## Runs -/

/-- Whether a text ends in a character of class `p`; the flag tells so of the text before it. -/
def endsInRun (p : Char → Bool) (inRun : Bool) (s : List Char) : Bool :=
  s.foldl (fun _ c => p c) inRun

/-- Whether a run goes on in a second text is all that its squeezing needs to know of the first. -/
theorem squeezeFrom_append (p : Char → Bool) (c : Char) (inRun : Bool) (s t : List Char) :
    squeezeFrom p c inRun (s ++ t)
      = squeezeFrom p c inRun s ++ squeezeFrom p c (endsInRun p inRun s) t := by
  induction s generalizing inRun with
  | nil => rfl
  | cons x s ih =>
    simp only [List.cons_append, squeezeFrom]
    have hstate : endsInRun p inRun (x :: s) = endsInRun p (p x) s := rfl
    cases hx : p x <;> simp [hstate, hx, ih]

/-- Dropping what a run at the start is written as leaves a text that goes on with a run. -/
theorem dropWhile_squeezeFrom {p : Char → Bool} {c : Char} (hc : p c = true) (inRun : Bool)
    (s : List Char) : (squeezeFrom p c inRun s).dropWhile (· = c) = squeezeFrom p c true s := by
  induction s generalizing inRun with
  | nil => rfl
  | cons x s ih =>
    simp only [squeezeFrom]
    split
    · cases inRun <;> simp [ih]
    next hx =>
      have hne : x ≠ c := fun e => hx (e ▸ hc)
      simp [hne]

theorem mem_squeezeFrom_of_neg {p : Char → Bool} {c x : Char} {s : List Char} (hx : p x = false)
    (hm : x ∈ s) (inRun : Bool) : x ∈ squeezeFrom p c inRun s := by
  induction s generalizing inRun with
  | nil => cases hm
  | cons y s ih =>
    simp only [squeezeFrom]
    rcases List.mem_cons.mp hm with rfl | hm
    · simp [hx]
    · split
      · exact List.mem_append_right _ (ih hm true)
      · exact List.mem_cons_of_mem _ (ih hm false)

/-- A text of class `p` only is one character if it begins a run, and none if it goes on with one. -/
theorem squeezeFrom_of_forall {p : Char → Bool} {s : List Char} (hs : ∀ x ∈ s, p x = true)
    (c : Char) (inRun : Bool) :
    squeezeFrom p c inRun s = if inRun || s.isEmpty then [] else [c] := by
  induction s generalizing inRun with
  | nil => simp [squeezeFrom]
  | cons x s ih =>
    have ih := ih (fun y hy => hs y (List.mem_cons_of_mem _ hy)) true
    cases inRun <;> simp [squeezeFrom, hs x List.mem_cons_self, ih]

theorem dropWhile_escapeEntity (s : List Char) :
    (escapeEntity s).dropWhile (· = ' ') = escapeEntity (s.dropWhile (· = ' ')) := by
  induction s with
  | nil => rfl
  | cons c s ih =>
    rw [escapeEntity_cons]
    by_cases hc : c = ' '
    · subst hc
      exact ih
    · have hm : ' ' ∉ entity c := fun h => hc ((mem_entity (by decide)).mp h).symm
      cases he : entity c with
      | nil => exact absurd he (entity_ne_nil c)
      | cons x w =>
        rw [he, List.mem_cons, not_or] at hm
        simp [hc, Ne.symm hm.1, escapeEntity_cons, he]

end Text

namespace Mrkdwn

open Html
open Text (escapeEntity squeezeFrom endsInRun)

/-! ## Inline styles -/

/-- The names of the elements that style text within a line, or leave it as it is. -/
def styleNames : List String :=
  ["b", "strong", "i", "em", "s", "strike", "del", "code", "span", "small"]

theorem isInline_of_mem_styleNames {name : String} (hn : name ∈ styleNames) :
    isBlockName name = false ∧ name ≠ "br" ∧ name ≠ "pre" ∧ showsBlank name = false := by
  have hall : ∀ n ∈ styleNames,
      isBlockName n = false ∧ n ≠ "br" ∧ n ≠ "pre" ∧ showsBlank n = false := by decide
  exact hall name hn

/-- An element that styles text within a line. -/
def StyleElement (name : String) (_ : Attrs) (_ : List Dom) : Prop :=
  name ∈ styleNames

/-- A text that holds no delimiter, and no blanks but those that collapse. -/
def CollapsibleText (s : List Char) : Prop :=
  ∀ c ∈ s, c ∉ zeroWidthSpace :: delimiterChars ∧ (Text.isBlank c = true → isSpace c = true)

/-- The text with each run of space written as one space, and without the spaces at its ends. -/
def collapsed (s : List Char) : List Char :=
  Text.trimWhile (· = ' ') (Text.squeeze isSpace ' ' s)

theorem collapsibleText_append {s t : List Char} :
    CollapsibleText (s ++ t) ↔ CollapsibleText s ∧ CollapsibleText t :=
  List.forall_mem_append

/-- Space that comes next is dropped as if it collapsed with the space before. -/
theorem trimStartIf_squeeze (trims : Bool) (s : List Char) :
    trimStartIf trims (Text.squeeze isSpace ' ' s) = squeezeFrom isSpace ' ' trims s := by
  cases trims
  · rfl
  · exact Text.dropWhile_squeezeFrom rfl false s

theorem trimStartIf_squeezeFrom (trims : Bool) (s : List Char) :
    trimStartIf trims (escapeEntity (Text.squeeze isSpace ' ' s))
      = escapeEntity (squeezeFrom isSpace ' ' trims s) := by
  rw [← trimStartIf_squeeze]
  cases trims
  · rfl
  · exact Text.dropWhile_escapeEntity _

theorem isBlank_eq_of_imp {c : Char} (h : Text.isBlank c = true → c = ' ') :
    Text.isBlank c = decide (c = ' ') := by
  rw [Bool.eq_iff_iff, decide_eq_true_iff]
  exact ⟨h, by rintro rfl; rfl⟩

/-- What squeezing a collapsible text leaves: no delimiter, and no blank but the space. -/
theorem CollapsibleText.of_mem_squeezeFrom {s : List Char} (h : CollapsibleText s) {inRun : Bool}
    {c : Char} (hc : c ∈ squeezeFrom isSpace ' ' inRun s) :
    c ∉ zeroWidthSpace :: delimiterChars ∧ (Text.isBlank c = true → c = ' ') := by
  have hc : c ∈ Text.squeeze isSpace ' ' s := by
    rw [← trimStartIf_squeeze] at hc
    cases inRun
    · exact hc
    · exact (List.dropWhile_sublist _).subset hc
  rcases Text.mem_of_mem_squeeze hc with rfl | hs
  · exact ⟨by decide, fun _ => rfl⟩
  · refine ⟨(h c hs).1, fun hb => Classical.byContradiction fun hne => ?_⟩
    exact Text.not_mem_squeeze ((h c hs).2 hb) hne s hc

/-- Such a text holds, once it is escaped, no delimiter, no mark and no blank but the space. -/
theorem CollapsibleText.of_mem_escapeEntity {s : List Char} (h : CollapsibleText s) {inRun : Bool}
    {c : Char} (hc : c ∈ escapeEntity (squeezeFrom isSpace ' ' inRun s)) :
    c ∉ zeroWidthSpace :: delimiterChars ∧ c ≠ '<' ∧ (Text.isBlank c = true → c = ' ') := by
  have hlt : c ≠ '<' := fun e => Text.lt_not_mem_escapeEntity _ (e ▸ hc)
  by_cases he : c ∈ "&ampltg;<>".toList
  · have hentity : c ∉ zeroWidthSpace :: delimiterChars ∧ Text.isBlank c = false :=
      Text.forall_mem_of_all
        (p := fun c => c ∉ zeroWidthSpace :: delimiterChars ∧ Text.isBlank c = false)
        (by decide) c he
    exact ⟨hentity.1, hlt, fun hb => by simp [hentity.2] at hb⟩
  · rw [Text.mem_escapeEntity he] at hc
    exact ⟨(h.of_mem_squeezeFrom hc).1, hlt, (h.of_mem_squeezeFrom hc).2⟩

theorem afterSpace_concat (s : List Char) (c : Char) (isBlock : Bool) :
    afterSpace (s ++ [c]) isBlock = (c == '\n' || c == ' ') := by
  have hne : (s ++ [c]).isEmpty = false := by
    cases s <;> rfl
  simp [afterSpace, hne]

/-- A text so laid out ends in space where the text that it is made of ends in a run. -/
theorem afterSpace_escapeEntity (isBlock : Bool) (s : List Char) :
    afterSpace (escapeEntity (squeezeFrom isSpace ' ' isBlock s)) isBlock
      = endsInRun isSpace isBlock s := by
  induction s using List.reverseRecOn with
  | nil => simp [afterSpace, squeezeFrom, endsInRun]
  | append_singleton s x ih =>
    have hstate : endsInRun isSpace isBlock (s ++ [x]) = isSpace x := by simp [endsInRun]
    rw [Text.squeezeFrom_append, Text.escapeEntity_append, hstate]
    cases hx : isSpace x with
    | true =>
      cases hrun : endsInRun isSpace isBlock s with
      | true =>
        rw [hrun] at ih
        simpa [squeezeFrom, hx] using ih
      | false =>
        have hspace : escapeEntity (squeezeFrom isSpace ' ' false [x]) = [' '] := by
          simp [squeezeFrom, hx]
          rfl
        rw [hspace, afterSpace_concat]
        rfl
    | false =>
      have hlast : escapeEntity (squeezeFrom isSpace ' ' (endsInRun isSpace isBlock s) [x])
          = Text.entity x := by
        simp [squeezeFrom, hx, Text.escapeEntity_cons]
      obtain he | ⟨w, y, he⟩ := List.eq_nil_or_concat (Text.entity x)
      · exact absurd he (Text.entity_ne_nil x)
      · -- the last character of an entity is a space only if the entity is
        have hy : ∀ c, isSpace c = true → c ∉ "&ampltg;<>".toList → y ≠ c := by
          rintro c hc hm rfl
          rw [(Text.mem_entity hm).mp (by rw [he]; simp), hx] at hc
          cases hc
        rw [hlast, he, List.concat_eq_append, ← List.append_assoc, afterSpace_concat]
        simp [hy '\n' (by decide) (by decide), hy ' ' (by decide) (by decide)]

/-! ## Lines in delimiters -/

theorem wrapLines_of_not_mem {s : List Char} (h : '\n' ∉ s) (delimiter : List Char)
    (wrapsFences : Bool) : wrapLines delimiter wrapsFences s = wrapLine delimiter wrapsFences s := by
  simp [wrapLines, Text.lines_of_not_mem h]

section WrapLine

variable {delimiter s : List Char}

theorem undelimited_wrapLine (hd : ∀ c ∈ delimiter, c ∈ zeroWidthSpace :: delimiterChars)
    (wrapsFences : Bool) : undelimited (wrapLine delimiter wrapsFences s) = undelimited s := by
  have hnil : undelimited delimiter = [] :=
    List.filter_eq_nil_iff.mpr fun c hc => by simp [hd c hc]
  simp only [wrapLine]
  split
  · rfl
  · conv_rhs => rw [← splitQuoteMark_append s]
    simp [hnil]

/-- A line in delimiters ends in them, and begins with them or with its quote mark. -/
theorem tight_wrapLine (hne : delimiter ≠ [])
    (hd : ∀ c ∈ delimiter, c ∈ zeroWidthSpace :: delimiterChars) (wrapsFences : Bool)
    (h : Tight s) : Tight (wrapLine delimiter wrapsFences s) := by
  have hspace : ∀ c ∈ delimiter, c ≠ ' ' := by
    rintro c hc rfl
    exact absurd (hd ' ' hc) (by decide)
  simp only [wrapLine]
  split
  · exact h
  · constructor
    · obtain ⟨c, t, hs, hc⟩ := h.first
      rw [← splitQuoteMark_append s] at hs
      cases hq : (splitQuoteMark s).1 with
      | nil =>
        obtain ⟨x, u, rfl⟩ := List.exists_cons_of_ne_nil hne
        exact ⟨x, _, rfl, hspace x List.mem_cons_self⟩
      | cons y q =>
        rw [hq, List.cons_append, List.cons.injEq] at hs
        exact ⟨y, _, rfl, hs.1 ▸ hc⟩
    · obtain he | ⟨w, x, he⟩ := List.eq_nil_or_concat delimiter
      · exact absurd he hne
      · rw [List.concat_eq_append] at he
        have hx : x ≠ ' ' := hspace x (by simp [he])
        refine ⟨(splitQuoteMark s).1 ++ delimiter ++ (splitQuoteMark s).2 ++ w, x, ?_, hx⟩
        conv_lhs => rw [he]
        simp [he]

end WrapLine

/-! ## Layout -/

/-- A laid out text that is the given text squeezed and escaped, but for delimiters close to it. -/
structure Collapses (inRun : Bool) (content laid : List Char) : Prop where
  text : undelimited laid = escapeEntity (squeezeFrom isSpace ' ' inRun content)
  hugged : Hugged laid

namespace Collapses

variable {inRun : Bool} {content laid content' laid' : List Char}

theorem not_mem (h : Collapses inRun content laid) (hc : CollapsibleText content) {c : Char}
    (hd : c ∉ zeroWidthSpace :: delimiterChars)
    (hne : c = '<' ∨ Text.isBlank c = true ∧ c ≠ ' ') : c ∉ laid := by
  intro hm
  have hm := mem_undelimited_of_mem hd hm
  rw [h.text] at hm
  obtain ⟨-, hlt, hb⟩ := hc.of_mem_escapeEntity hm
  exact hne.elim hlt fun ⟨hblank, hspace⟩ => hspace (hb hblank)

theorem eq_space_of_isBlank (h : Collapses inRun content laid) (hc : CollapsibleText content)
    {c : Char} (hm : c ∈ laid) (hb : Text.isBlank c = true) : c = ' ' := by
  by_contra hne
  refine h.not_mem hc (fun hd => ?_) (.inr ⟨hb, hne⟩) hm
  rw [unguarded_isBlank c hd] at hb
  cases hb

theorem newline_not_mem (h : Collapses inRun content laid) (hc : CollapsibleText content) :
    '\n' ∉ laid :=
  h.not_mem hc (by decide) (.inr (by decide))

theorem append (h : Collapses inRun content laid)
    (h' : Collapses (endsInRun isSpace inRun content) content' laid') :
    Collapses inRun (content ++ content') (laid ++ laid') := by
  refine ⟨?_, h.hugged.append h'.hugged⟩
  rw [undelimited_append, h.text, h'.text, Text.squeezeFrom_append, Text.escapeEntity_append]

theorem of_escapeEntity (inRun : Bool) (hc : CollapsibleText content) :
    Collapses inRun content (escapeEntity (squeezeFrom isSpace ' ' inRun content)) := by
  have hu : undelimited (escapeEntity (squeezeFrom isSpace ' ' inRun content)) = _ :=
    undelimited_eq_self fun c hm => (hc.of_mem_escapeEntity hm).1
  exact ⟨hu, .of_undelimited_eq hu⟩

theorem trimStartIf (trims : Bool) (h : Collapses false content laid) :
    Collapses trims content (Mrkdwn.trimStartIf trims laid) := by
  cases trims with
  | false => exact h
  | true =>
    refine ⟨?_, h.hugged.dropWhile⟩
    show undelimited (laid.dropWhile (· = ' ')) = _
    rw [h.hugged.undelimited_dropWhile, h.text]
    exact trimStartIf_squeezeFrom true content

/-- The space that a laid out text ends in is that of the text it is made of. -/
theorem afterSpace_eq (h : Collapses inRun content laid) (hc : CollapsibleText content) :
    afterSpace laid inRun = endsInRun isSpace inRun content := by
  rw [← afterSpace_escapeEntity, ← h.text]
  have hn : ∀ {s : List Char}, '\n' ∉ s → (s.getLast? == some '\n') = false := by
    intro s hs
    simp only [beq_eq_false_iff_ne]
    exact fun he => hs (List.mem_of_getLast? he)
  have hm := h.newline_not_mem hc
  have hm' : '\n' ∉ undelimited laid := fun hu => hm (mem_undelimited.mp hu).1
  have hempty : laid.isEmpty = (undelimited laid).isEmpty := by
    rw [Bool.eq_iff_iff, List.isEmpty_iff, List.isEmpty_iff]
    exact h.hugged.eq_nil_iff
  have hlast : (laid.getLast? == some ' ') = ((undelimited laid).getLast? == some ' ') := by
    rw [Bool.eq_iff_iff, beq_iff_eq, beq_iff_eq]
    exact h.hugged.getLast?_eq_space_iff
  simp only [afterSpace, hn hm, hn hm', hempty, hlast]

end Collapses

variable {d : Delimiters}

theorem layInline_of_mem (hd : Delimiting d) {name : String} (hname : name ∈ styleNames)
    (attrs : Attrs) (inner : List Char) :
    layInline d name attrs inner = inner ∨ ∃ delimiter wrapsFences,
      (delimiter ≠ [] ∧ ∀ c ∈ delimiter, c ∈ zeroWidthSpace :: delimiterChars) ∧
        layInline d name attrs inner = wrapLines delimiter wrapsFences inner := by
  simp only [styleNames, List.mem_cons, List.not_mem_nil, or_false] at hname
  rcases hname with rfl | rfl | rfl | rfl | rfl | rfl | rfl | rfl | rfl | rfl
  · exact .inr ⟨_, _, hd.strong, rfl⟩
  · exact .inr ⟨_, _, hd.strong, rfl⟩
  · exact .inr ⟨_, _, hd.emphasis, rfl⟩
  · exact .inr ⟨_, _, hd.emphasis, rfl⟩
  · exact .inr ⟨_, _, hd.strike, rfl⟩
  · exact .inr ⟨_, _, hd.strike, rfl⟩
  · exact .inr ⟨_, _, hd.strike, rfl⟩
  · exact .inr ⟨_, _, hd.code, rfl⟩
  · exact .inl rfl
  · exact .inl rfl

/-- A style puts its delimiters around its text and nothing else. -/
theorem tight_layInline (hd : Delimiting d) {name : String} (hname : name ∈ styleNames)
    (attrs : Attrs) {inner : List Char} (hn : '\n' ∉ inner) (h : Tight inner) :
    undelimited (layInline d name attrs inner) = undelimited inner ∧
      Tight (layInline d name attrs inner) := by
  obtain he | ⟨delimiter, wrapsFences, ⟨hne, hc⟩, he⟩ := layInline_of_mem hd hname attrs inner
  · rw [he]
    exact ⟨rfl, h⟩
  · rw [he, wrapLines_of_not_mem hn]
    exact ⟨undelimited_wrapLine hc wrapsFences, tight_wrapLine hne hc wrapsFences h⟩

/-- A style is laid out around its content with its spaces outside. -/
theorem layAround_of_mem {name : String} (hname : name ∈ styleNames) (attrs : Attrs)
    (place : Mrkdwn.Place) (content : List Char) :
    layAround d name attrs place content
      = content.takeWhile (· = ' ')
          ++ layInline d name attrs (Text.trimWhile (· = ' ') content)
          ++ Text.takeEndWhile (· = ' ') content := by
  obtain ⟨hblock, hbr, -⟩ := isInline_of_mem_styleNames hname
  exact layAround_inline d hblock hbr attrs place content

namespace Collapses

variable {content laid : List Char}

/-- A style around a text that shows something leaves the text and the space around it. -/
theorem layAround (hd : Delimiting d) {name : String} (hname : name ∈ styleNames) (attrs : Attrs)
    (place : Mrkdwn.Place) (hc : CollapsibleText content) (hshown : ∃ c ∈ content, isSpace c = false)
    (h : Collapses false content laid) :
    Collapses false content (Mrkdwn.layAround d name attrs place laid) := by
  obtain ⟨x, hx, hne⟩ : ∃ x ∈ undelimited laid, x ≠ ' ' := by
    obtain ⟨c, hm, hs⟩ := hshown
    obtain ⟨x, hx⟩ := List.exists_mem_of_ne_nil _ (Text.entity_ne_nil c)
    refine ⟨x, ?_, ?_⟩
    · rw [h.text]
      exact List.mem_flatMap.mpr ⟨c, Text.mem_squeezeFrom_of_neg hs hm false, hx⟩
    · rintro rfl
      rw [← (Text.mem_entity (by decide)).mp hx] at hs
      exact absurd hs (by decide)
  have hlaid := Text.takeWhile_append_trimWhile_append_takeEndWhile
    (p := (· = ' ')) (mem_undelimited.mp hx).1 (decide_eq_false hne)
  have hn : '\n' ∉ Text.trimWhile (· = ' ') laid := by
    intro hm
    refine h.newline_not_mem hc ?_
    rw [← hlaid]
    exact List.mem_append_left _ (List.mem_append_right _ hm)
  have hfirst : ∀ c ∈ laid.takeWhile (· = ' '), c = ' ' := fun _ => Text.eq_of_mem_takeWhile
  have hlast : ∀ c ∈ Text.takeEndWhile (· = ' ') laid, c = ' ' :=
    fun _ => Text.eq_of_mem_takeEndWhile
  obtain ⟨hu, ht⟩ := tight_layInline hd hname attrs hn (.trimWhile (mem_undelimited.mp hx).1 hne)
  rw [layAround_of_mem hname]
  constructor
  · rw [undelimited_append, undelimited_append, hu, ← undelimited_append, ← undelimited_append,
      hlaid, h.text]
  · refine .of_tight hfirst hlast ht ?_
    rw [hu, h.hugged.undelimited_trimWhile]
    exact .trimWhile hx hne

end Collapses

mutual

theorem mentions_of_every {P : String → Attrs → List Dom → Prop} {name : String}
    (hP : ∀ attrs children, ¬P name attrs children) :
    (n : Dom) → n.Every P → n.mentions name = false
  | .text _, _ => rfl
  | .comment, _ => rfl
  | .element other attrs children, h => by
    have hne : other ≠ name := by
      rintro rfl
      exact hP attrs children h.1
    simp [Dom.mentions, hne, anyMentions_of_everyOf hP children h.2]

/-- A name that no element may have is not among the names of the elements. -/
theorem anyMentions_of_everyOf {P : String → Attrs → List Dom → Prop} {name : String}
    (hP : ∀ attrs children, ¬P name attrs children) :
    (ns : List Dom) → Dom.EveryOf P ns → Dom.anyMentions name ns = false
  | [], _ => rfl
  | n :: ns, h => by
    simp [Dom.anyMentions, mentions_of_every hP n h.1, anyMentions_of_everyOf hP ns h.2]

end

/-- A style is blank if all of its text collapses. -/
theorem isBlank_eq_of_everyOf {name : String} {attrs : Attrs} {children : List Dom}
    (h : Dom.EveryOf StyleElement children) (hc : CollapsibleText (Dom.textOf children)) :
    (Dom.element name attrs children).isBlank = (Dom.textOf children).all isSpace := by
  have hbr : Dom.anyMentions "br" children = false :=
    anyMentions_of_everyOf (fun _ _ => by simp [StyleElement, styleNames]) children h
  have hblank : ∀ c ∈ Dom.textOf children, Text.isBlank c = isSpace c := by
    intro c hm
    rw [Bool.eq_iff_iff]
    exact ⟨(hc c hm).2, isBlank_of_isSpace⟩
  simp only [Dom.isBlank, hbr, Text.isAllBlank, Bool.not_false, Bool.true_and]
  rw [Bool.eq_iff_iff, List.all_eq_true, List.all_eq_true]
  exact forall₂_congr fun c hm => by rw [hblank c hm]

mutual

/-- A node is laid out as its text, squeezed behind what stands before it. -/
theorem collapses_layNode (hd : Delimiting d) (trims : Bool) (place : Mrkdwn.Place)
    (fences : Fences) : (n : Dom) → n.Every StyleElement → CollapsibleText n.textContent →
    Collapses trims n.textContent (layNode d trims place fences n).text
  | .text content, _, hc => by
    rw [Dom.textContent_text] at hc ⊢
    simp only [layNode, layText, trimStartIf_squeeze]
    exact .of_escapeEntity trims hc
  | .comment, _, _ => .of_escapeEntity trims (List.forall_mem_nil _)
  | .element name attrs children, h, hc => by
    obtain ⟨hname, hchildren⟩ := h
    rw [Dom.textContent_element] at hc ⊢
    obtain ⟨hblock, -, hpre, hshows⟩ := isInline_of_mem_styleNames hname
    simp only [layNode, hshows, Bool.not_false, Bool.true_and,
      isBlank_eq_of_everyOf hchildren hc]
    split
    next hall =>
      have hspaces := List.all_eq_true.mp hall
      have he : Mrkdwn.trimStartIf trims (layBlank name children)
          = escapeEntity (squeezeFrom isSpace ' ' trims (Dom.textOf children)) := by
        rw [Text.squeezeFrom_of_forall hspaces, layBlank, hblock]
        cases trims <;> cases (Dom.textOf children).isEmpty <;> rfl
      rw [he]
      exact .of_escapeEntity trims hc
    next hall =>
      split
      next hcode => exact absurd (name_of_fencedCode? hcode) hpre
      next =>
        have hinner := collapses_layNodes hd name attrs false 0 ⟨[], fences⟩ []
          (.of_escapeEntity false (List.forall_mem_nil _)) (List.forall_mem_nil _) children
          hchildren hc
        have hshown : ∃ c ∈ Dom.textOf children, isSpace c = false := by
          simpa [List.all_eq_true] using hall
        rw [hblock]
        exact (hinner.layAround hd hname attrs place hc hshown).trimStartIf trims

/-- Nodes are laid out as their text, squeezed with the text before it. -/
theorem collapses_layNodes (hd : Delimiting d) (parent : String) (parentAttrs : Attrs)
    (isBlock : Bool) (elementsBefore : Nat) (laid : Laid) (before : List Char)
    (hl : Collapses isBlock before laid.text) (hb : CollapsibleText before) :
    (ns : List Dom) → Dom.EveryOf StyleElement ns → CollapsibleText (Dom.textOf ns) →
    Collapses isBlock (before ++ Dom.textOf ns)
      (layNodes d parent parentAttrs isBlock elementsBefore laid ns).text
  | [], _, _ => by simpa [layNodes] using hl
  | n :: ns, h, hc => by
    rw [Dom.textOf_cons, collapsibleText_append] at hc
    have hn := collapses_layNode hd (afterSpace laid.text isBlock)
      ⟨parent, parentAttrs, elementsBefore, !ns.isEmpty, ns.any Dom.isElement⟩ laid.fences n
      h.1 hc.1
    simp only [layNodes]
    generalize layNode d _ _ laid.fences n = next at hn ⊢
    rw [hl.afterSpace_eq hb] at hn
    have hj : join laid.text next.text = laid.text ++ next.text :=
      join_of_not_mem (hl.newline_not_mem hb) (hn.newline_not_mem hc.1)
    rw [Dom.textOf_cons, ← List.append_assoc]
    refine collapses_layNodes hd parent parentAttrs isBlock _ ⟨_, next.fences⟩ _ ?_
      (collapsibleText_append.mpr ⟨hb, hc.1⟩) ns h.2 hc.2
    rw [hj]
    exact hl.append hn

end

/-- In a collapsed text the blanks at the end are spaces. -/
theorem CollapsibleText.trimEndWhile_escapeEntity {content : List Char}
    (hc : CollapsibleText content) :
    Text.trimEndWhile (· = ' ') (escapeEntity (squeezeFrom isSpace ' ' true content))
      = escapeEntity (collapsed content) := by
  rw [← Text.trimEndWhile_congr fun c hm =>
      isBlank_eq_of_imp (hc.of_mem_escapeEntity hm).2.2,
    Text.trimEndWhile_escapeEntity,
    Text.trimEndWhile_congr fun c hm => isBlank_eq_of_imp (hc.of_mem_squeezeFrom hm).2,
    collapsed, Text.trimWhile, Text.squeeze, Text.dropWhile_squeezeFrom rfl]

/-- Styles only insert delimiters: without them, what is written for texts in styles at any depth is
the text of all of them, with each run of space written as one space, trimmed, and escaped once. -/
theorem undelimited_ofDoms (options : FormatOptions) (body : List Dom)
    (hstyles : Dom.EveryOf StyleElement body) (htext : CollapsibleText (Dom.textOf body)) :
    undelimited (ofDoms (delimiters options) body)
      = escapeEntity (collapsed (Dom.textOf body)) := by
  have h := collapses_layNodes (delimiting_delimiters options) "body" [] true 0 ⟨[], []⟩ []
    (.of_escapeEntity true (List.forall_mem_nil _)) (List.forall_mem_nil _) body hstyles htext
  change Collapses true (Dom.textOf body) (layBody (delimiters options) body).text at h
  simp only [ofDoms]
  generalize layBody (delimiters options) body = laid at h ⊢
  have hends : trimEnds laid.text = Text.trimEndWhile (· = ' ') laid.text := by
    rw [trimEnds_of_not_mem (h.not_mem htext (by decide) (.inr (by decide)))
        (h.not_mem htext (by decide) (.inr (by decide))) (h.newline_not_mem htext),
      Text.trimEndWhile_congr fun c hm => isBlank_eq_of_imp (h.eq_space_of_isBlank htext hm)]
  have hlt : '<' ∉ Text.trimEndWhile (· = ' ') laid.text := by
    intro hm
    refine h.not_mem htext (by decide) (.inl rfl) ?_
    rw [← Text.trimEndWhile_append_takeEndWhile (· = ' ') laid.text]
    exact List.mem_append_left _ hm
  rw [hends, dropBreakMarks_of_not_mem hlt, restore_of_not_mem hlt,
    h.hugged.undelimited_trimEndWhile, h.text, htext.trimEndWhile_escapeEntity]

/-- Spaces within, around and between styles in styles, one of them blank and one around a sign that
begins a quotation. -/
theorem undelimited_ofDoms_nested :
    let body : List Dom := [.text " a\n".toList, .element "b" [] [.text " ".toList,
      .element "i" [] [.text ">  & ".toList], .element "span" [] [.text "\t".toList]],
      .element "code" [] [.text " <c>".toList], .text "\r\n".toList]
    (Dom.EveryOf StyleElement body ∧ CollapsibleText (Dom.textOf body)) ∧
      undelimited (ofDoms (delimiters ⟨true⟩) body)
        = escapeEntity (collapsed (Dom.textOf body)) ∧
      escapeEntity (collapsed (Dom.textOf body)) = "a &gt; &amp; &lt;c&gt;".toList := by
  intro body
  have hstyles : Dom.EveryOf StyleElement body := by
    simp [body, Dom.EveryOf, Dom.Every, StyleElement, styleNames]
  have htext : CollapsibleText (Dom.textOf body) := by
    unfold CollapsibleText
    exact Text.forall_mem_of_all (by decide)
  exact ⟨⟨hstyles, htext⟩, undelimited_ofDoms _ body hstyles htext, by decide⟩

end Mrkdwn

end MessageLayout
