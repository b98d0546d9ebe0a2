import MessageLayout.Proofs.CarriedText
import MessageLayout.Proofs.HuggedText

/-!
# What a document carries

The layout of a tree carries the characters of its texts and of its code that are not blank, each
text escaped, and a pair of brackets around what each link and each date shows; a mention is a pair
of brackets alone. `carried` says so by recursion on the tree.

    Carries … (carried parent n) (layNode d … n).text …                  (carries_layNode)
    Carries F ⟨_, False, False⟩ … (carriedOf "body" body) (ofDoms … body) …  (carries_ofDoms)
-/

namespace MessageLayout

namespace Text

/-! ## Characters that are not blank -/

@[simp] theorem nonblanks_append (s t : List Char) :
    nonblanks (s ++ t) = nonblanks s ++ nonblanks t :=
  List.filter_append _ _

theorem nonblanks_cons_of_blank {c : Char} (hc : isBlank c = true) (s : List Char) :
    nonblanks (c :: s) = nonblanks s := by
  simp [nonblanks, hc]

theorem nonblanks_cons_of_shown {c : Char} (hc : isBlank c = false) (s : List Char) :
    nonblanks (c :: s) = c :: nonblanks s := by
  simp [nonblanks, hc]

theorem nonblanks_of_isBlank {s : List Char} (hs : ∀ c ∈ s, isBlank c = true) :
    nonblanks s = [] :=
  List.filter_eq_nil_iff.mpr fun c hc => by simp [hs c hc]

theorem nonblanks_escapeEntity (s : List Char) :
    nonblanks (escapeEntity s) = escapeEntity (nonblanks s) := by
  induction s with
  | nil => rfl
  | cons c s ih =>
    rw [escapeEntity_cons, nonblanks_append, ih]
    cases hc : isBlank c with
    | true =>
      rw [entity_of_isBlank hc, nonblanks_cons_of_blank hc, nonblanks_cons_of_blank hc]
      rfl
    | false =>
      have hentity : nonblanks (entity c) = entity c := by
        refine List.filter_eq_self.mpr fun d hd => ?_
        cases hb : isBlank d with
        | false => rfl
        | true =>
          have he : d ∉ "&ampltg;<>".toList := fun hm =>
            absurd (forall_mem_of_all (p := fun d => isBlank d = false) (by decide) d hm) (by simp [hb])
          rw [(mem_entity he).mp hd, hc] at hb
          cases hb
      rw [hentity, nonblanks_cons_of_shown hc, escapeEntity_cons]

section Blanks

variable {p : Char → Bool} (hp : ∀ c, p c = true → isBlank c = true)

include hp

theorem nonblanks_dropWhile (s : List Char) : nonblanks (s.dropWhile p) = nonblanks s := by
  have hs := congrArg nonblanks (List.takeWhile_append_dropWhile (p := p) (l := s))
  rw [nonblanks_append, nonblanks_of_isBlank fun c hc =>
    hp c (List.mem_takeWhile_imp hc)] at hs
  exact hs

theorem nonblanks_squeeze {c : Char} (hc : isBlank c = true) (s : List Char) :
    nonblanks (squeeze p c s) = nonblanks s := by
  suffices h : ∀ inRun, nonblanks (squeezeFrom p c inRun s) = nonblanks s from h false
  induction s with
  | nil => exact fun _ => rfl
  | cons x s ih =>
    intro inRun
    simp only [squeezeFrom]
    split
    next hx =>
      rw [nonblanks_append, ih true, nonblanks_cons_of_blank (hp x hx)]
      cases inRun
      · rw [if_neg (by decide), nonblanks_cons_of_blank hc]
        rfl
      · rfl
    next hx =>
      have ih := ih false
      simp only [nonblanks, List.filter_cons] at ih ⊢
      rw [ih]

end Blanks

end Text

namespace Mrkdwn

open Html
open Text (nonblanks escapeEntity)

/-- How an element shows what it holds. -/
inductive Framing where
  /-- As it is, but for marks and blanks. -/
  | bare
  /-- In the brackets of a link or a date. -/
  | token
  /-- As a mention, which has a text of its own. -/
  | mention
  /-- As a line break, which holds nothing. -/
  | lineBreak

/-- What is carried by an element whose content carries `a`. -/
def Framing.around : Framing → List Char → List Char
  | bare, a => a
  | token, a => '<' :: a ++ ['>']
  | mention, _ => ['<', '>']
  | lineBreak, _ => []

/-- How a link with the given target shows what it holds. -/
def linkFraming (href : List Char) : Framing :=
  if href.isEmpty then .bare else if (Mention.ofHref? href).isSome then .mention else .token

/-- How an element shows what it holds. -/
def framing (name : String) (attrs : Attrs) : Framing :=
  if name = "br" then .lineBreak
  else if name = "a" then ((attrs.lookup "href").map linkFraming).getD .bare
  else if name = "time" then ((attrs.lookup "datetime").map fun _ => .token).getD .bare
  else .bare

mutual

/-- What a node carries that is no blank, within an element of the given name. -/
def carried (parent : String) : Dom → List Char
  | .text content => nonblanks (escapeEntity content)
  | .comment => []
  | .element name attrs children =>
    if !showsBlank name && (Dom.element name attrs children).isBlank then []
    else
      match fencedCode? name children with
      | some code => nonblanks (fenced (escapeEntity (codeOf code)) (parent == "a"))
      | none => (framing name attrs).around (carriedOf name children)

/-- What several nodes carry, within an element of the given name. -/
def carriedOf (parent : String) : List Dom → List Char
  | [] => []
  | n :: ns => carried parent n ++ carriedOf parent ns

end

/-- A date whose timestamp holds brackets only if timestamps may. -/
def AllowedDate (brackets : Prop) (name : String) (attrs : Attrs) (_ : List Dom) : Prop :=
  name = "time" → ∀ timestamp, attrs.lookup "datetime" = some timestamp →
    ∀ c ∈ timestamp, c = '<' ∨ c = '>' → brackets

/-! ## Code put aside -/

mutual

theorem prefix_fences_layNode (d : Delimiters) (trims : Bool) (place : Mrkdwn.Place)
    (fences : Fences) : (n : Dom) → fences <+: (layNode d trims place fences n).fences
  | .text _ => List.prefix_rfl
  | .comment => List.prefix_rfl
  | .element name attrs children => by
    simp only [layNode]
    split
    · exact List.prefix_rfl
    · split
      · exact List.prefix_append _ _
      · exact prefix_fences_layNodes d name attrs (isBlockName name) 0 ⟨[], fences⟩ children

/-- The code that was put aside before stays in its place. -/
theorem prefix_fences_layNodes (d : Delimiters) (parent : String) (parentAttrs : Attrs)
    (isBlock : Bool) (elementsBefore : Nat) (laid : Laid) : (ns : List Dom) →
    laid.fences <+: (layNodes d parent parentAttrs isBlock elementsBefore laid ns).fences
  | [] => List.prefix_rfl
  | n :: ns => by
    simp only [layNodes]
    refine List.IsPrefix.trans ?_ (prefix_fences_layNodes d parent parentAttrs isBlock _ _ ns)
    exact prefix_fences_layNode d _ _ laid.fences n

end

/-- The placeholder of code that is put aside stands for that code. -/
theorem restored_of_prefix {F fences : Fences} {code : List Char} (h : fences ++ [code] <+: F)
    (singleLine : Bool) : Mark.restored F (fences.length, singleLine) = fenced code singleLine := by
  obtain ⟨rest, rfl⟩ := h
  simp [Mark.restored, Piece.restore, Text.readNat?_ofNat]

/-! ## Layout -/

section Layout

variable {d : Delimiters} {F : Fences} {p : Allowance} {a s : List Char}

theorem nonblanks_layText (trims : Bool) (content : List Char) :
    nonblanks (layText trims content) = nonblanks (escapeEntity content) := by
  rw [layText, Text.nonblanks_escapeEntity, Text.nonblanks_escapeEntity, trimStartIf]
  split
  · rw [Text.nonblanks_dropWhile Text.isBlank_of_eq_space,
      Text.nonblanks_squeeze (fun _ => isBlank_of_isSpace) rfl]
  · rw [Text.nonblanks_squeeze (fun _ => isBlank_of_isSpace) rfl]

theorem unbracketed_escapeEntity (s : List Char) : Unbracketed (escapeEntity s) :=
  fun _ hc => ⟨fun e => Text.lt_not_mem_escapeEntity s (e ▸ hc),
    fun e => Text.gt_not_mem_escapeEntity s (e ▸ hc)⟩

theorem carries_layInline_link (attrs : Attrs) (h : Carries F p .plain a s .plain) :
    Carries F p .plain ((framing "a" attrs).around a) (layInline d "a" attrs s) .plain := by
  simp only [layInline, framing]
  cases attrs.lookup "href" with
  | none => exact h
  | some href =>
    simp only [String.reduceEq, if_false, if_true, Option.map_some, Option.getD_some, linkFraming]
    split
    · exact h
    · cases hm : Mention.ofHref? href with
      | none => exact h.link hm
      | some m =>
        simp only [link, hm]
        exact .mention hm

theorem carries_layInline_date (attrs : Attrs) (ht : AllowedDate p.brackets "time" attrs [])
    (h : Carries F p .plain a s .plain) :
    Carries F p .plain ((framing "time" attrs).around a) (layInline d "time" attrs s) .plain := by
  simp only [layInline, framing]
  cases hl : attrs.lookup "datetime" with
  | none => exact h
  | some timestamp =>
    exact h.dateToken (ht rfl timestamp hl) (unbracketed_escapeEntity _)

theorem carries_layInline (hd : Delimiting d) {name : String} (hbr : name ≠ "br") (attrs : Attrs)
    (ht : AllowedDate p.brackets name attrs []) (h : Carries F p .plain a s .plain) :
    Carries F p .plain ((framing name attrs).around a) (layInline d name attrs s) .plain := by
  by_cases ha : name = "a"
  · subst ha
    exact carries_layInline_link attrs h
  · by_cases htime : name = "time"
    · subst htime
      exact carries_layInline_date attrs ht h
    · simp only [framing, hbr, ha, htime, if_false, Framing.around]
      exact Carries.isReading.layInline hd ha htime attrs h

theorem framing_of_isBlockName {name : String} (h : isBlockName name = true) (attrs : Attrs) :
    framing name attrs = .bare := by
  obtain ⟨hbr, ha⟩ := isBlockName_ne h
  have ht : name ≠ "time" := by
    rintro rfl
    exact absurd h (by decide)
  simp [framing, hbr, ha, ht]

theorem carries_layAround (hd : Delimiting d) (hb : p.breaks) {name : String} {attrs : Attrs}
    (place : Mrkdwn.Place) (ht : AllowedDate p.brackets name attrs [])
    (h : Carries F p .plain a s .plain) :
    Carries F p .plain ((framing name attrs).around a) (layAround d name attrs place s) .plain := by
  refine Carries.isReading.layAround place (fun hblock => ?_) (fun hbr => ?_)
    (fun hbr hi => carries_layInline hd hbr attrs ht hi) h
  · rw [framing_of_isBlockName hblock]
    rfl
  · rw [hbr]
    exact (Carries.of_step (.breakMark hb)).append_noise (by decide)

mutual

theorem carries_layNode (hd : Delimiting d) (hb : p.breaks) (hp : p.placeholders) (trims : Bool)
    (place : Mrkdwn.Place) (fences : Fences) : (n : Dom) → n.Every (AllowedDate p.brackets) →
    (layNode d trims place fences n).fences <+: F →
    Carries F p .plain (carried place.parent n) (layNode d trims place fences n).text .plain
  | .text content, _, _ => by
    simp only [layNode, carried, ← nonblanks_layText trims content]
    exact .of_shown (Text.lt_not_mem_escapeEntity _)
  | .comment, _, _ => .nil _
  | .element name attrs children, h, hF => by
    obtain ⟨hdate, hc⟩ := h
    simp only [layNode, carried] at hF ⊢
    split
    next hblank =>
      exact Carries.isReading.trimStartIf trims (Carries.isReading.layBlank name children)
    next hblank =>
      rw [if_neg hblank] at hF
      cases hcode : fencedCode? name children with
      | some code =>
        simp only [hcode] at hF ⊢
        have hm := restored_of_prefix hF (place.parent == "a")
        have hlt : '<' ∉ fenced (escapeEntity (codeOf code)) (place.parent == "a") :=
          not_mem_text ⟨codeOf code, place.parent == "a"⟩
        have hmark := Carries.of_step (F := F) (.mark hp (hm ▸ hlt))
        rw [hm] at hmark
        exact Carries.isReading.placeholder _ _ hmark
      | none =>
        simp only [hcode] at hF ⊢
        have hm := carries_layNodes hd hb hp name attrs (isBlockName name) 0 [] ⟨[], fences⟩
          (.nil _) children hc hF
        exact Carries.isReading.trimStartIf trims (carries_layAround hd hb place hdate hm)

/-- Nodes carry what each of them carries, behind what is carried before them. -/
theorem carries_layNodes (hd : Delimiting d) (hb : p.breaks) (hp : p.placeholders)
    (parent : String) (parentAttrs : Attrs) (isBlock : Bool) (elementsBefore : Nat)
    (before : List Char) (laid : Laid) (hl : Carries F p .plain before laid.text .plain) :
    (ns : List Dom) → Dom.EveryOf (AllowedDate p.brackets) ns →
    (layNodes d parent parentAttrs isBlock elementsBefore laid ns).fences <+: F →
    Carries F p .plain (before ++ carriedOf parent ns)
      (layNodes d parent parentAttrs isBlock elementsBefore laid ns).text .plain
  | [], _, _ => by simpa only [layNodes, carriedOf, List.append_nil] using hl
  | n :: ns, h, hF => by
    simp only [layNodes, carriedOf, ← List.append_assoc] at hF ⊢
    have hF' := (prefix_fences_layNodes d parent parentAttrs isBlock _ _ ns).trans hF
    have hn := carries_layNode hd hb hp _ _ laid.fences n h.1 hF'
    exact carries_layNodes hd hb hp parent parentAttrs isBlock _ _ _
      (Carries.isReading.join hl hn) ns h.2 hF

end

end Layout

/-- The mrkdwn of a document carries what the document carries, and holds no marks of the layout. -/
theorem carries_ofDoms (options : FormatOptions) {brackets : Prop} {body : List Dom}
    (hdates : Dom.EveryOf (AllowedDate brackets) body) :
    ∃ F, Carries F ⟨brackets, False, False⟩ .plain (carriedOf "body" body)
      (ofDoms (delimiters options) body) .plain := by
  have h := carries_layNodes (p := ⟨brackets, True, True⟩) (delimiting_delimiters options) trivial
    trivial "body" [] true 0 [] ⟨[], []⟩ (.nil _) body hdates List.prefix_rfl
  exact ⟨_, (Carries.isReading.trimEnds h).dropBreakMarks.restore⟩

end Mrkdwn

end MessageLayout
