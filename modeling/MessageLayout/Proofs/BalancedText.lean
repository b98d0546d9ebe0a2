import MessageLayout.Html.Token
import MessageLayout.Html.Vocabulary
import MessageLayout.Markup.Element

/-!
# Balanced fragments

The text of inline elements nests: each start tag has its end tag, and between them stands balanced
text again. `Opened names s` is the text before a place within elements of the given names. The
guards, the substitution of bars and the reading of line ends change such a text in harmless ways
only, which `Alike` collects: they put look-alikes for a few characters, and soft hyphens in front of
entities, and never touch what makes a tag.

    Balanced l s → Alike s t → Balanced l t                              (Balanced.alike)
    Opened names s → Alike s t → Opened names t                          (Opened.alike)
    Alike html (guardStrong html) and so on for every guard              (alike_guardText)
-/

namespace MessageLayout.Markup

/-! ## Harmless changes -/

/-- Characters with those that are written for them. -/
def lookalikes : List (Char × Char) :=
  [('*', '\u2217'), ('_', '\u02cd'), ('~', '\u223c'), ('\x60', '\u02cb'), ('|', '\u01c0'),
    ('\r', '\n')]

/-- The second text is the first with look-alikes for some characters, some line ends written as one
character, and soft hyphens before some ampersands. -/
inductive Alike : List Char → List Char → Prop
  | nil : Alike [] []
  | char (c : Char) {s t : List Char} : Alike s t → Alike (c :: s) (c :: t)
  | swap {c d : Char} {s t : List Char} : (c, d) ∈ lookalikes → Alike s t → Alike (c :: s) (d :: t)
  | lineEnd {s t : List Char} : Alike s t → Alike ('\r' :: '\n' :: s) ('\n' :: t)
  | hyphen {s t : List Char} : Alike ('&' :: s) t → Alike ('&' :: s) ('\u00ad' :: t)

/-- A character that no change touches and no line end holds. -/
def Firm (c : Char) : Prop :=
  c ∉ "*_~\x60|\r\n&".toList

instance (c : Char) : Decidable (Firm c) :=
  inferInstanceAs (Decidable (¬_))

namespace Alike

variable {s t u s' t' : List Char}

theorem refl : ∀ s : List Char, Alike s s
  | [] => nil
  | c :: s => char c (refl s)

theorem append (h : Alike s t) (h' : Alike s' t') : Alike (s ++ s') (t ++ t') := by
  induction h with
  | nil => exact h'
  | char c _ ih => exact char c ih
  | swap hc _ ih => exact swap hc ih
  | lineEnd _ ih => exact lineEnd ih
  | hyphen _ ih => exact hyphen ih

theorem ne_of_mem_lookalikes {c d x : Char} (h : (c, d) ∈ lookalikes) (hx : Firm x) : c ≠ x := by
  rintro rfl
  refine hx ?_
  simp only [lookalikes, List.mem_cons, Prod.mk.injEq, List.not_mem_nil, or_false] at h
  rcases h with h | h | h | h | h | h <;> (rw [h.1]; decide)

/-- A character that no change touches stays where it is. -/
theorem exists_cons {c : Char} (hc : Firm c) (h : Alike (c :: s) t) :
    ∃ t', t = c :: t' ∧ Alike s t' := by
  generalize hx : c :: s = x at h
  cases h with
  | nil => cases hx
  | char d h =>
    obtain ⟨rfl, rfl⟩ := List.cons.inj hx
    exact ⟨_, rfl, h⟩
  | swap hd _ => exact absurd (List.cons.inj hx).1.symm (ne_of_mem_lookalikes hd hc)
  | lineEnd _ =>
    obtain ⟨rfl, -⟩ := List.cons.inj hx
    exact absurd hc (by decide)
  | hyphen _ =>
    obtain ⟨rfl, -⟩ := List.cons.inj hx
    exact absurd hc (by decide)

theorem exists_append {w : List Char} (hw : ∀ c ∈ w, Firm c) (h : Alike (w ++ s) t) :
    ∃ t', t = w ++ t' ∧ Alike s t' := by
  induction w generalizing t with
  | nil => exact ⟨t, rfl, h⟩
  | cons c w ih =>
    obtain ⟨t₁, rfl, h₁⟩ := h.exists_cons (hw c List.mem_cons_self)
    obtain ⟨t', rfl, h'⟩ := ih (fun d hd => hw d (List.mem_cons_of_mem _ hd)) h₁
    exact ⟨t', rfl, h'⟩

/-- A class of characters that holds the look-alikes of its members still holds all of a text. -/
theorem forall_mem {p : Char → Prop} (hswap : ∀ c d, (c, d) ∈ lookalikes → p c → p d)
    (hhyphen : p '\u00ad') (h : Alike s t) (hs : ∀ c ∈ s, p c) : ∀ c ∈ t, p c := by
  induction h with
  | nil => exact hs
  | char d _ ih =>
    obtain ⟨hd, hs⟩ := List.forall_mem_cons.mp hs
    exact List.forall_mem_cons.mpr ⟨hd, ih hs⟩
  | swap hd _ ih =>
    obtain ⟨hc, hs⟩ := List.forall_mem_cons.mp hs
    exact List.forall_mem_cons.mpr ⟨hswap _ _ hd hc, ih hs⟩
  | lineEnd _ ih =>
    exact List.forall_mem_cons.mpr ⟨hs '\n' (by simp), ih fun c hc => hs c (by simp [hc])⟩
  | hyphen _ ih => exact List.forall_mem_cons.mpr ⟨hhyphen, ih hs⟩

/-- A text up to a character that no change touches changes by itself, within every class of
characters that holds the look-alikes of its members. -/
theorem exists_span {p : Char → Prop} (hswap : ∀ c d, (c, d) ∈ lookalikes → p c → p d)
    (hhyphen : p '\u00ad') {w : List Char} (hw : ∀ c ∈ w, p c) {c : Char} (hc : Firm c)
    (h : Alike (w ++ c :: s) t) :
    ∃ w' t', t = w' ++ c :: t' ∧ (∀ x ∈ w', p x) ∧ (w' = [] → w = []) ∧ Alike s t' := by
  generalize hx : w ++ c :: s = x at h
  induction h generalizing w with
  | nil => cases w <;> cases hx
  | @char d x t h ih =>
    cases w with
    | nil =>
      obtain ⟨rfl, rfl⟩ := List.cons.inj hx
      exact ⟨[], t, rfl, fun _ h => absurd h List.not_mem_nil, fun _ => rfl, h⟩
    | cons e w =>
      obtain ⟨rfl, hx'⟩ := List.cons.inj hx
      obtain ⟨w', t', rfl, hw', -, h'⟩ := ih (fun y hy => hw y (List.mem_cons_of_mem _ hy)) hx'
      exact ⟨e :: w', t', rfl, List.forall_mem_cons.mpr ⟨hw e List.mem_cons_self, hw'⟩, by simp, h'⟩
  | @swap d e x t hd h ih =>
    cases w with
    | nil => exact absurd (List.cons.inj hx).1.symm (ne_of_mem_lookalikes hd hc)
    | cons b w =>
      obtain ⟨rfl, hx'⟩ := List.cons.inj hx
      obtain ⟨w', t', rfl, hw', -, h'⟩ := ih (fun y hy => hw y (List.mem_cons_of_mem _ hy)) hx'
      have he := hswap b e hd (hw b List.mem_cons_self)
      exact ⟨e :: w', t', rfl, List.forall_mem_cons.mpr ⟨he, hw'⟩, by simp, h'⟩
  | @lineEnd x t h ih =>
    match w, hx with
    | [], hx =>
      obtain ⟨rfl, -⟩ := List.cons.inj hx
      exact absurd hc (by decide)
    | [b], hx =>
      obtain ⟨rfl, -⟩ := List.cons.inj (List.cons.inj hx).2
      exact absurd hc (by decide)
    | b :: e :: w, hx =>
      simp only [List.cons_append, List.cons.injEq] at hx
      obtain ⟨rfl, rfl, hx⟩ := hx
      have hw₂ : ∀ y ∈ w, p y := fun y hy =>
        hw y (List.mem_cons_of_mem _ (List.mem_cons_of_mem _ hy))
      obtain ⟨w', t', rfl, hw', -, h'⟩ := ih hw₂ hx
      have he := hw '\n' (List.mem_cons_of_mem _ List.mem_cons_self)
      exact ⟨'\n' :: w', t', rfl, List.forall_mem_cons.mpr ⟨he, hw'⟩, by simp, h'⟩
  | @hyphen x t h ih =>
    obtain ⟨w', t', rfl, hw', -, h'⟩ := ih hw hx
    refine ⟨'\u00ad' :: w', t', rfl, List.forall_mem_cons.mpr ⟨hhyphen, hw'⟩, by simp, h'⟩

/-- Two texts change by themselves unless a line end lies across them. -/
theorem exists_split (hu : u.head? ≠ some '\n') (h : Alike (s ++ u) t) :
    ∃ t₁ t₂, t = t₁ ++ t₂ ∧ Alike s t₁ ∧ Alike u t₂ := by
  generalize hx : s ++ u = x at h
  induction h generalizing s with
  | nil =>
    obtain ⟨rfl, rfl⟩ := List.append_eq_nil_iff.mp hx
    exact ⟨[], [], rfl, nil, nil⟩
  | @char d x t h ih =>
    cases s with
    | nil =>
      subst hx
      exact ⟨[], _, rfl, nil, char d h⟩
    | cons e s =>
      obtain ⟨rfl, hx'⟩ := List.cons.inj hx
      obtain ⟨t₁, t₂, rfl, h₁, h₂⟩ := ih hx'
      exact ⟨e :: t₁, t₂, rfl, char e h₁, h₂⟩
  | @swap d e x t hd h ih =>
    cases s with
    | nil =>
      subst hx
      exact ⟨[], _, rfl, nil, swap hd h⟩
    | cons b s =>
      obtain ⟨rfl, hx'⟩ := List.cons.inj hx
      obtain ⟨t₁, t₂, rfl, h₁, h₂⟩ := ih hx'
      exact ⟨e :: t₁, t₂, rfl, swap hd h₁, h₂⟩
  | @lineEnd x t h ih =>
    match s, hx with
    | [], hx =>
      subst hx
      exact ⟨[], _, rfl, nil, lineEnd h⟩
    | [b], hx =>
      obtain ⟨-, rfl⟩ := List.cons.inj hx
      exact absurd rfl hu
    | b :: e :: s, hx =>
      simp only [List.cons_append, List.cons.injEq] at hx
      obtain ⟨rfl, rfl, hx⟩ := hx
      obtain ⟨t₁, t₂, rfl, h₁, h₂⟩ := ih hx
      exact ⟨'\n' :: t₁, t₂, rfl, lineEnd h₁, h₂⟩
  | @hyphen x t h ih =>
    cases s with
    | nil =>
      subst hx
      exact ⟨[], _, rfl, nil, hyphen h⟩
    | cons b s =>
      obtain ⟨t₁, t₂, rfl, h₁, h₂⟩ := ih hx
      obtain ⟨rfl, -⟩ := List.cons.inj hx
      exact ⟨'\u00ad' :: t₁, t₂, rfl, hyphen h₁, h₂⟩

end Alike

/-! ## Attributes -/

/-- Whether a character may stand in the name of an attribute. -/
def isNameChar (c : Char) : Bool :=
  !(Html.isSpace c || "/>=\x22\x27".toList.contains c)

/-- The text of attributes in quotation marks. -/
inductive AttrsText : List Char → Prop
  | nil : AttrsText []
  | attr {name value attrs : List Char} :
      name ≠ [] → (∀ c ∈ name, isNameChar c = true) → '"' ∉ value → AttrsText attrs →
        AttrsText (' ' :: name ++ '=' :: '"' :: value ++ '"' :: attrs)

theorem mem_lookalikes {c d : Char} (h : (c, d) ∈ lookalikes) :
    (isNameChar c = true → isNameChar d = true) ∧ d ≠ '"' ∧ d ≠ '<' ∧ d ≠ '&' ∧ c ≠ '&' := by
  simp only [lookalikes, List.mem_cons, Prod.mk.injEq, List.not_mem_nil, or_false] at h
  rcases h with ⟨rfl, rfl⟩ | ⟨rfl, rfl⟩ | ⟨rfl, rfl⟩ | ⟨rfl, rfl⟩ | ⟨rfl, rfl⟩ | ⟨rfl, rfl⟩ <;> decide

theorem AttrsText.alike {attrs s t : List Char} (ha : AttrsText attrs)
    (h : Alike (attrs ++ '>' :: s) t) :
    ∃ attrs' t', t = attrs' ++ '>' :: t' ∧ AttrsText attrs' ∧ (attrs = [] → attrs' = []) ∧
      Alike s t' := by
  induction ha generalizing t with
  | nil =>
    obtain ⟨t', rfl, h'⟩ := h.exists_cons (by decide)
    exact ⟨[], t', rfl, .nil, fun _ => rfl, h'⟩
  | @attr name value attrs hne hname hvalue _ ih =>
    simp only [List.append_assoc, List.cons_append] at h
    obtain ⟨t₁, rfl, h₁⟩ := h.exists_cons (by decide)
    obtain ⟨name', t₂, rfl, hname', hne', h₂⟩ := h₁.exists_span
      (fun c d hcd => (mem_lookalikes hcd).1) (by decide) hname (c := '=') (by decide)
    obtain ⟨t₃, rfl, h₃⟩ := h₂.exists_cons (by decide)
    obtain ⟨value', t₄, rfl, hvalue', -, h₄⟩ := h₃.exists_span (p := fun c => c ≠ '"')
      (fun c d hcd _ => (mem_lookalikes hcd).2.1) (by decide) (fun c hc e => hvalue (e ▸ hc))
      (c := '"') (by decide)
    obtain ⟨attrs', t', rfl, ha', -, h'⟩ := ih h₄
    refine ⟨' ' :: name' ++ '=' :: '"' :: value' ++ '"' :: attrs', t', by simp, ?_,
      fun e => absurd e (by simp), h'⟩
    exact .attr (fun e => hne (hne' e)) hname' (fun hm => hvalue' _ hm rfl) ha'

/-! ## Balanced text -/

/-- The names of the elements that are written into fragments, save that of the line break. -/
def writtenNames : List String :=
  ["b", "i", "s", "code", "p", "blockquote", "q", "pre", "a", "time", "ol", "small", "span", "ul",
    "li"]

/-- The attributes of a date: its timestamp comes first. -/
def DateAttrs (attrs : List Char) : Prop :=
  ∃ stamp more, (∀ c ∈ stamp, Firm c ∧ c ≠ '"' ∧ c ≠ '<' ∧ c ≠ '>') ∧ AttrsText more ∧
    attrs = ' ' :: "datetime".toList ++ '=' :: '"' :: stamp ++ '"' :: more

/-- What is written between the `<` and the `>` of a start tag. The flags tell whether blocks may be
written and whether the tag stands in a link, in which no other link is written. A style has no
attributes. -/
structure TagText (blocks inLink : Bool) (name : String) (attrs : List Char) : Prop where
  written : name ∈ writtenNames
  block : Html.isBoundary name = true → blocks = true
  text : AttrsText attrs
  style : Html.roleOf name = .style → attrs = []
  link : name = "a" → inLink = false
  date : name = "time" → DateAttrs attrs

/-- A tag needs no attributes, save those of links and dates. -/
theorem tagText_nil {blocks inLink : Bool} {name : String} (hn : name ∈ writtenNames)
    (hblock : Html.isBoundary name = true → blocks = true) (ha : name ≠ "a") (hd : name ≠ "time") :
    TagText blocks inLink name [] :=
  ⟨hn, hblock, .nil, fun _ => rfl, fun e => absurd e ha, fun e => absurd e hd⟩

/-- A text in which the elements nest. The first flag tells whether blocks are among them. -/
inductive Balanced (blocks : Bool) : Bool → List Char → Prop
  | nil {inLink : Bool} : Balanced blocks inLink []
  | char {inLink : Bool} {c : Char} {s : List Char} :
      c ≠ '<' → c ≠ '&' → Balanced blocks inLink s → Balanced blocks inLink (c :: s)
  | entity {inLink : Bool} {c : Char} {s : List Char} :
      c ∈ ['&', '<', '>'] → Balanced blocks inLink s → Balanced blocks inLink (Text.entity c ++ s)
  | lineBreak {inLink : Bool} {s : List Char} :
      Balanced blocks inLink s → Balanced blocks inLink (Markup.lineBreak ++ s)
  | element {inLink : Bool} {name : String} {attrs content s : List Char} :
      TagText blocks inLink name attrs → Balanced blocks (inLink || name == "a") content →
        Balanced blocks inLink s → Balanced blocks inLink (enclose name attrs content ++ s)

theorem DateAttrs.alike {attrs s t : List Char} (hd : DateAttrs attrs)
    (h : Alike (attrs ++ '>' :: s) t) :
    ∃ attrs' t', t = attrs' ++ '>' :: t' ∧ AttrsText attrs' ∧ DateAttrs attrs' ∧ Alike s t' := by
  obtain ⟨stamp, more, hstamp, hmore, rfl⟩ := hd
  have he : ' ' :: "datetime".toList ++ '=' :: '"' :: stamp ++ '"' :: more ++ '>' :: s
      = (" datetime=".toList ++ '"' :: stamp) ++ '"' :: (more ++ '>' :: s) := by simp
  rw [he] at h
  have hfirm : ∀ c ∈ " datetime=".toList ++ '"' :: stamp, Firm c := by
    intro c hc
    rcases List.mem_append.mp hc with hc | hc
    · exact Text.forall_mem_of_all (p := Firm) (by decide) c hc
    · rcases List.mem_cons.mp hc with rfl | hc
      · decide
      · exact (hstamp c hc).1
  obtain ⟨t₁, rfl, h₁⟩ := h.exists_append hfirm
  obtain ⟨t₂, rfl, h₂⟩ := h₁.exists_cons (by decide)
  obtain ⟨more', t', rfl, hmore', -, h'⟩ := hmore.alike h₂
  refine ⟨' ' :: "datetime".toList ++ '=' :: '"' :: stamp ++ '"' :: more', t', by simp, ?_,
    ⟨stamp, more', hstamp, hmore', rfl⟩, h'⟩
  exact .attr (by decide) (Text.forall_mem_of_all (by decide)) (fun hm => (hstamp _ hm).2.1 rfl)
    hmore'

/-- A harmless change leaves a tag a tag of the same name. -/
theorem TagText.alike {blocks inLink : Bool} {name : String} {attrs s t : List Char}
    (ht : TagText blocks inLink name attrs) (h : Alike (attrs ++ '>' :: s) t) :
    ∃ attrs' t', t = attrs' ++ '>' :: t' ∧ TagText blocks inLink name attrs' ∧ Alike s t' := by
  by_cases hn : name = "time"
  · obtain ⟨attrs', t', rfl, ha, hd, h'⟩ := (ht.date hn).alike h
    exact ⟨attrs', t', rfl, ⟨ht.written, ht.block, ha, fun hr => absurd hr (by rw [hn]; decide),
      ht.link, fun _ => hd⟩, h'⟩
  · obtain ⟨attrs', t', rfl, ha, hnil, h'⟩ := ht.text.alike h
    exact ⟨attrs', t', rfl, ⟨ht.written, ht.block, ha, fun hr => hnil (ht.style hr), ht.link,
      fun e => absurd e hn⟩, h'⟩

theorem enclose_append (name : String) (attrs content s : List Char) :
    enclose name attrs content ++ s
      = '<' :: (name.toList ++ (attrs ++ '>' :: (content ++ '<' :: '/' :: (name.toList ++ '>' :: s))))
      := by
  have h : "</".toList = ['<', '/'] := rfl
  simp [enclose, h]

theorem firm_of_mem_writtenNames {name : String} (h : name ∈ writtenNames) :
    ∀ c ∈ name.toList, Firm c := by
  have hall : ∀ n ∈ writtenNames, (n.toList.all fun c => decide (Firm c)) = true := by decide
  exact Text.forall_mem_of_all (hall name h)

theorem exists_entity {c : Char} (hc : c ∈ ['&', '<', '>']) :
    ∃ w, Text.entity c = '&' :: w ∧ (∀ x ∈ w, Firm x) := by
  simp only [List.mem_cons, List.not_mem_nil, or_false] at hc
  rcases hc with rfl | rfl | rfl
  · exact ⟨"amp;".toList, rfl, Text.forall_mem_of_all (by decide)⟩
  · exact ⟨"lt;".toList, rfl, Text.forall_mem_of_all (by decide)⟩
  · exact ⟨"gt;".toList, rfl, Text.forall_mem_of_all (by decide)⟩

theorem Alike.exists_ampersand {s t : List Char} (h : Alike ('&' :: s) t) :
    ∃ n t', t = List.replicate n '\u00ad' ++ '&' :: t' ∧ Alike s t' := by
  generalize hx : '&' :: s = x at h
  induction h with
  | nil => cases hx
  | char d h _ =>
    obtain ⟨rfl, rfl⟩ := List.cons.inj hx
    exact ⟨0, _, rfl, h⟩
  | swap hd _ _ => exact absurd (List.cons.inj hx).1.symm (mem_lookalikes hd).2.2.2.2
  | lineEnd _ _ => exact absurd (List.cons.inj hx).1 (by decide)
  | hyphen _ ih =>
    obtain ⟨n, t', rfl, h'⟩ := ih hx
    exact ⟨n + 1, t', rfl, h'⟩

/-- A harmless change of an element changes its attributes and its content, if one of its attributes
changes these only. -/
theorem alike_enclose {P : List Char → Prop} {name : String} {attrs content s t : List Char}
    (hn : name ∈ writtenNames)
    (hattrs : ∀ {u v}, Alike (attrs ++ '>' :: u) v →
      ∃ attrs' v', v = attrs' ++ '>' :: v' ∧ P attrs' ∧ Alike u v')
    (h : Alike (enclose name attrs content ++ s) t) :
    ∃ attrs' content' s', t = enclose name attrs' content' ++ s' ∧ P attrs' ∧
      Alike content content' ∧ Alike s s' := by
  have hfirm := firm_of_mem_writtenNames hn
  rw [enclose_append] at h
  obtain ⟨t₁, rfl, h₁⟩ := h.exists_cons (by decide)
  obtain ⟨t₂, rfl, h₂⟩ := h₁.exists_append hfirm
  obtain ⟨attrs', t₃, rfl, ht', h₃⟩ := hattrs h₂
  obtain ⟨content', t₄, rfl, hc, h₄⟩ := h₃.exists_split (by simp)
  obtain ⟨t₅, rfl, h₅⟩ := h₄.exists_cons (by decide)
  obtain ⟨t₆, rfl, h₆⟩ := h₅.exists_cons (by decide)
  obtain ⟨t₇, rfl, h₇⟩ := h₆.exists_append hfirm
  obtain ⟨s', rfl, h'⟩ := h₇.exists_cons (by decide)
  exact ⟨attrs', content', s', (enclose_append _ _ _ _).symm, ht', hc, h'⟩

theorem TagText.alike_enclose {blocks inLink : Bool} {name : String} {attrs content s t : List Char}
    (ht : TagText blocks inLink name attrs) (h : Alike (enclose name attrs content ++ s) t) :
    ∃ attrs' content' s', t = enclose name attrs' content' ++ s' ∧
      TagText blocks inLink name attrs' ∧ Alike content content' ∧ Alike s s' :=
  Markup.alike_enclose ht.written ht.alike h

namespace Balanced

variable {blocks inLink : Bool} {s t : List Char}

theorem append (h : Balanced blocks inLink s) (h' : Balanced blocks inLink t) :
    Balanced blocks inLink (s ++ t) := by
  induction h with
  | nil => exact h'
  | char hc ha _ ih => exact char hc ha (ih h')
  | entity hc _ ih =>
    rw [List.append_assoc]
    exact entity hc (ih h')
  | lineBreak _ ih =>
    rw [List.append_assoc]
    exact lineBreak (ih h')
  | element ht hc _ _ ih =>
    rw [List.append_assoc]
    exact element ht hc (ih h')

theorem of_plain (h : ∀ c ∈ s, c ≠ '<' ∧ c ≠ '&') : Balanced blocks inLink s := by
  induction s with
  | nil => exact nil
  | cons c s ih =>
    obtain ⟨hc, ha⟩ := h c List.mem_cons_self
    exact char hc ha (ih fun d hd => h d (List.mem_cons_of_mem _ hd))

theorem of_escapeEntity (s : List Char) : Balanced blocks inLink (Text.escapeEntity s) := by
  induction s with
  | nil => exact nil
  | cons c s ih =>
    show Balanced blocks inLink (Text.entity c ++ Text.escapeEntity s)
    by_cases hc : c ∈ ['&', '<', '>']
    · exact entity hc ih
    · simp only [List.mem_cons, List.not_mem_nil, or_false, not_or] at hc
      have he : Text.entity c = [c] := by simp [Text.entity, hc]
      rw [he]
      exact char hc.2.1 hc.1 ih

/-- What may stand in a link may stand anywhere. -/
theorem of_inLink (h : Balanced blocks true s) (inLink : Bool) : Balanced blocks inLink s := by
  generalize hx : true = x at h
  induction h generalizing inLink with
  | nil => exact nil
  | char hc ha _ ih => exact char hc ha (ih _ hx)
  | entity hc _ ih => exact entity hc (ih _ hx)
  | lineBreak _ ih => exact lineBreak (ih _ hx)
  | @element l name attrs content s ht _ _ ihc ih =>
    have hna : name ≠ "a" := fun e => absurd (ht.link e) (by simp [← hx])
    have ht' : TagText blocks inLink name attrs :=
      ⟨ht.written, ht.block, ht.text, ht.style, fun e => absurd e hna, ht.date⟩
    exact element ht' (ihc _ (by simp [← hx])) (ih _ hx)

theorem alike (h : Balanced blocks inLink s) (ha : Alike s t) : Balanced blocks inLink t := by
  induction h generalizing t with
  | nil =>
    cases ha
    exact nil
  | @char l c s hc hamp h ih =>
    generalize hx : c :: s = x at ha
    cases ha with
    | nil => cases hx
    | char d ha =>
      obtain ⟨rfl, rfl⟩ := List.cons.inj hx
      exact char hc hamp (ih ha)
    | swap hd ha =>
      obtain ⟨rfl, rfl⟩ := List.cons.inj hx
      exact char (mem_lookalikes hd).2.2.1 (mem_lookalikes hd).2.2.2.1 (ih ha)
    | lineEnd ha =>
      obtain ⟨rfl, rfl⟩ := List.cons.inj hx
      exact ih (.char '\n' ha)
    | hyphen _ => exact absurd (List.cons.inj hx).1 hamp
  | @entity l c s hc _ ih =>
    obtain ⟨w, hw, hfirm⟩ := exists_entity hc
    rw [hw] at ha
    obtain ⟨n, t₁, rfl, h₁⟩ := ha.exists_ampersand
    obtain ⟨t', rfl, h'⟩ := h₁.exists_append hfirm
    refine append (of_plain fun d hd => ?_) ?_
    · rw [List.eq_of_mem_replicate hd]
      decide
    · rw [← List.cons_append, ← hw]
      exact entity hc (ih h')
  | lineBreak _ ih =>
    obtain ⟨t', rfl, h'⟩ := ha.exists_append (Text.forall_mem_of_all (by decide))
    exact lineBreak (ih h')
  | @element l name attrs content s ht _ _ ihc ih =>
    obtain ⟨attrs', content', s', rfl, ht', hc, hs⟩ := ht.alike_enclose ha
    exact element ht' (ihc hc) (ih hs)

end Balanced

/-! ## Text before a place -/

/-- The elements that may stand around a place. -/
def placeNames : List String :=
  ["b", "i", "s", "p", "blockquote", "ol", "small", "span", "ul", "li"]

/-- A text with the start tags of elements around a place and balanced text between them. Some of
the elements, which have the given names, may be passed through. -/
inductive Opened (blocks : Bool) : List String → List Char → Prop
  | here {s : List Char} : Balanced blocks false s → Opened blocks [] s
  | passed {name : String} {names : List String} {s : List Char} :
      Opened blocks names s → Opened blocks (name :: names) s
  | within {name : String} {names : List String} {attrs s t : List Char} :
      Balanced blocks false s → name ∈ placeNames → TagText true false name attrs →
        Opened blocks names t →
          Opened blocks (name :: names) (s ++ '<' :: (name.toList ++ (attrs ++ '>' :: t)))

theorem tagText_of_mem_placeNames {name : String} (h : name ∈ placeNames) :
    TagText true false name [] := by
  have hall : (placeNames.all fun n => decide (n ∈ writtenNames ∧ n ≠ "a" ∧ n ≠ "time")) = true := by
    decide
  obtain ⟨hw, ha, hd⟩ := of_decide_eq_true (List.all_eq_true.mp hall name h)
  exact tagText_nil hw (fun _ => rfl) ha hd

namespace Opened

variable {blocks : Bool} {names : List String} {s t : List Char}

theorem balanced_append (hs : Balanced blocks false s) (h : Opened blocks names t) :
    Opened blocks names (s ++ t) := by
  induction h with
  | here ht => exact here (hs.append ht)
  | passed _ ih => exact passed ih
  | within ht hn htag h _ =>
    rw [← List.append_assoc]
    exact within (hs.append ht) hn htag h

theorem alike (h : Opened blocks names s) (ha : Alike s t) : Opened blocks names t := by
  induction h generalizing t with
  | here hs => exact here (hs.alike ha)
  | passed _ ih => exact passed (ih ha)
  | within hs hn htag _ ih =>
    obtain ⟨s', t₁, rfl, hs', h₁⟩ := ha.exists_split (by simp)
    obtain ⟨t₂, rfl, h₂⟩ := h₁.exists_cons (by decide)
    obtain ⟨t₃, rfl, h₃⟩ := h₂.exists_append (firm_of_mem_writtenNames htag.written)
    obtain ⟨attrs', t₄, rfl, htag', h₄⟩ := htag.alike h₃
    exact within (hs.alike hs') hn htag' (ih h₄)

end Opened

/-! ## Guards -/

theorem alike_substitute {c d : Char} (h : (c, d) ∈ lookalikes) (s : List Char) :
    Alike s (substitute c d s) := by
  induction s with
  | nil => exact .nil
  | cons x s ih =>
    simp only [substitute, List.map_cons] at ih ⊢
    split
    next hx =>
      rw [hx]
      exact .swap h ih
    · exact .char x ih

theorem alike_substituteUnderscores (s : List Char) : Alike s (substituteUnderscores s) := by
  fun_induction substituteUnderscores s with
  | case1 => exact .nil
  | case2 t name rest h _ ih =>
    rw [Text.eq_append_of_scanName? h]
    exact .char ':' ((Alike.refl name).append (.char ':' ih))
  | case3 t h ih => exact .char ':' ih
  | case4 c t hc ih =>
    split
    next hu =>
      rw [hu]
      exact .swap (by decide) ih
    · exact .char c ih

/-- A guard relates a fragment to one in which it did to each piece of text what it does. -/
theorem guardFrom_related {R : List Char → List Char → Prop} (hrefl : ∀ s, R s s)
    (happend : ∀ {s s' t t'}, R s s' → R t t' → R (s ++ t) (s' ++ t')) {f : List Char → List Char}
    (hf : ∀ s, R s (f s)) (depth : Nat) (sp : List Span) :
    R (sp.flatMap Span.content) (guardFrom f depth sp) := by
  induction sp generalizing depth with
  | nil => exact hrefl []
  | cons a sp ih =>
    rw [List.flatMap_cons]
    cases a with
    | text s =>
      simp only [guardFrom]
      refine happend ?_ (ih depth)
      split
      · exact hf s
      · exact hrefl s
    | tag s => exact happend (hrefl s) (ih _)

theorem guardText_related {R : List Char → List Char → Prop} (hrefl : ∀ s, R s s)
    (happend : ∀ {s s' t t'}, R s s' → R t t' → R (s ++ t) (s' ++ t')) {f : List Char → List Char}
    (hf : ∀ s, R s (f s)) (html : List Char) : R html (guardText f html) := by
  have h := guardFrom_related hrefl happend hf 0 (spans html)
  rwa [flatMap_content_spans] at h

theorem alike_guardFrom {f : List Char → List Char} (hf : ∀ s, Alike s (f s)) (depth : Nat)
    (sp : List Span) : Alike (sp.flatMap Span.content) (guardFrom f depth sp) :=
  guardFrom_related .refl .append hf depth sp

theorem alike_guardText {f : List Char → List Char} (hf : ∀ s, Alike s (f s)) (html : List Char) :
    Alike html (guardText f html) :=
  guardText_related .refl .append hf html

theorem alike_guardQuoteLine (s : List Char) : Alike s (guardQuoteLine s) := by
  unfold guardQuoteLine
  split
  · exact .hyphen (.refl _)
  · exact .refl _

theorem alike_unlines_map {f : List Char → List Char} (hf : ∀ s, Alike s (f s))
    (ls : List (List Char)) : Alike (Text.unlines ls) (Text.unlines (ls.map f)) := by
  induction ls with
  | nil => exact .nil
  | cons l ls ih =>
    cases ls with
    | nil => simpa using hf l
    | cons m ms =>
      rw [List.map_cons, Text.unlines_cons l (by simp), Text.unlines_cons (f l) (by simp)]
      exact (hf l).append (.char '\n' ih)

theorem alike_guardQuote (html : List Char) : Alike html (guardQuote html) := by
  have h := alike_unlines_map alike_guardQuoteLine (Text.lines html)
  rwa [Text.unlines_lines] at h

end MessageLayout.Markup
