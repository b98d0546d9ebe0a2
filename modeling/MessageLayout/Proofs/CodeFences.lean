import MessageLayout.Proofs.EscapedText
import MessageLayout.Proofs.LineBreaks
import MessageLayout.Proofs.MarkedText

/-!
# Code blocks in a document

`codeBlocksOf` lists the code blocks of a document in order, and `marksOf` the placeholders that the
layout leaves for them. The layout puts the code of all blocks aside, in this order, and its text
holds the placeholders. So in the end each block is written as a fence, whatever stands around it,
and no text can pass for a placeholder.

    (layNodes d p …).fences = fences ++ the code of codeBlocksOf p ns    (marked_layNodes)
    Marked (ms ++ marksOf p n ns) (layNodes d p …).text                  (marked_layNodes)
    InOrder (the fences of codeBlocksOf "body" body) (ofDoms d body)     (inOrder_ofDoms)
-/

namespace MessageLayout.Mrkdwn

open Html

/-- A code block of a document. -/
structure CodeBlock where
  /-- The text of the code. -/
  code : List Char
  /-- Whether it stands right within a link, where it is shown on one line. -/
  singleLine : Bool

/-- A code block in mrkdwn: its code between three backticks, on lines of its own or, with a space for
each run of line feeds, on one line. -/
def CodeBlock.text (b : CodeBlock) : List Char :=
  let code := Text.escapeEntity b.code
  if b.singleLine then
    "\x60\x60\x60".toList ++ Text.squeeze (· = '\n') ' ' code ++ "\x60\x60\x60".toList
  else "\x60\x60\x60\n".toList ++ code ++ "\n\x60\x60\x60".toList

theorem CodeBlock.text_eq_fenced (b : CodeBlock) :
    b.text = fenced (Text.escapeEntity b.code) b.singleLine := by
  simp [text, fenced, fenceMark]

mutual

/-- The code blocks of a node in document order, given the name of the element around it: the
`pre` elements that start with a `code` element, are not blank and lie in no other of the kind. -/
def codeBlocks (parent : String) : Dom → List CodeBlock
  | .element name attrs children =>
    match fencedCode? name children with
    | some code =>
      if (Dom.element name attrs children).isBlank then codeBlocksOf name children
      else [⟨codeOf code, parent == "a"⟩]
    | none => codeBlocksOf name children
  | _ => []

/-- The code blocks of several nodes in document order. -/
def codeBlocksOf (parent : String) : List Dom → List CodeBlock
  | [] => []
  | d :: ds => codeBlocks parent d ++ codeBlocksOf parent ds

end

/-- Whether an element is shown as a text of its own, whatever it holds. -/
def hidesContent (name : String) (attrs : Attrs) : Bool :=
  name == "br" ||
    name == "a" && (attrs.lookup "href").any fun href => (Mention.ofHref? href).isSome

/-- The placeholders that are left of those in the content of an element. -/
def keptMarks (name : String) (attrs : Attrs) (ms : List Mark) : List Mark :=
  if hidesContent name attrs then [] else ms

mutual

/-- The placeholders in the text of a node if its first code block gets the number `n`. -/
def marks (parent : String) (n : Nat) : Dom → List Mark
  | .element name attrs children =>
    match fencedCode? name children with
    | some _ =>
      if (Dom.element name attrs children).isBlank then [] else [(n, parent == "a")]
    | none => keptMarks name attrs (marksOf name n children)
  | _ => []

/-- The placeholders in the text of several nodes if their first code block gets the number `n`. -/
def marksOf (parent : String) (n : Nat) : List Dom → List Mark
  | [] => []
  | d :: ds => marks parent n d ++ marksOf parent (n + (codeBlocks parent d).length) ds

end

/-! ## Blank elements -/

theorem isAllBlank_append {s t : List Char} :
    Text.isAllBlank (s ++ t) = (Text.isAllBlank s && Text.isAllBlank t) :=
  List.all_append

mutual

theorem codeBlocks_of_isAllBlank (parent : String) :
    (d : Dom) → d.mentions "br" = false → Text.isAllBlank d.textContent = true →
      codeBlocks parent d = []
  | .text _, _, _ => rfl
  | .comment, _, _ => rfl
  | .element name attrs children, hbr, hb => by
    simp only [Dom.mentions, Bool.or_eq_false_iff] at hbr
    rw [Dom.textContent_element] at hb
    have hc := codeBlocksOf_of_isAllBlank name children hbr.2 hb
    have hblank : (Dom.element name attrs children).isBlank = true := by
      simp [Dom.isBlank, hbr.2, hb]
    simp only [codeBlocks, hblank, hc]
    split <;> rfl

/-- Blank nodes without line breaks hold no code blocks. -/
theorem codeBlocksOf_of_isAllBlank (parent : String) :
    (ds : List Dom) → Dom.anyMentions "br" ds = false → Text.isAllBlank (Dom.textOf ds) = true →
      codeBlocksOf parent ds = []
  | [], _, _ => rfl
  | d :: ds, hbr, hb => by
    simp only [Dom.anyMentions, Bool.or_eq_false_iff] at hbr
    rw [Dom.textOf_cons, isAllBlank_append, Bool.and_eq_true] at hb
    rw [codeBlocksOf, codeBlocks_of_isAllBlank parent d hbr.1 hb.1,
      codeBlocksOf_of_isAllBlank parent ds hbr.2 hb.2, List.append_nil]

end

theorem codeBlocksOf_of_isBlank {name : String} {attrs : Attrs} {children : List Dom}
    (h : (Dom.element name attrs children).isBlank = true) (parent : String) :
    codeBlocksOf parent children = [] := by
  simp only [Dom.isBlank, Bool.and_eq_true, Bool.not_eq_true'] at h
  exact codeBlocksOf_of_isAllBlank parent children h.1 h.2

theorem codeBlocks_of_isBlank {name : String} {attrs : Attrs} {children : List Dom}
    (h : (Dom.element name attrs children).isBlank = true) (parent : String) :
    codeBlocks parent (.element name attrs children) = [] := by
  simp only [codeBlocks, h, codeBlocksOf_of_isBlank h]
  split <;> rfl

/-! ## Placeholders and code blocks -/

/-- The placeholders of code blocks that are numbered from `n` on. -/
def numbered (n : Nat) : List CodeBlock → List Mark
  | [] => []
  | b :: bs => (n, b.singleLine) :: numbered (n + 1) bs

theorem numbered_append (n : Nat) (bs cs : List CodeBlock) :
    numbered n (bs ++ cs) = numbered n bs ++ numbered (n + bs.length) cs := by
  induction bs generalizing n with
  | nil => rfl
  | cons b bs ih =>
    simp only [List.cons_append, numbered, ih, List.length_cons]
    rw [Nat.add_right_comm, Nat.add_assoc n]

theorem keptMarks_sublist (name : String) (attrs : Attrs) (ms : List Mark) :
    (keptMarks name attrs ms).Sublist ms := by
  simp only [keptMarks]
  split
  · exact List.nil_sublist _
  · exact List.Sublist.refl _

theorem keptMarks_of_ne {name : String} (hbr : name ≠ "br") (ha : name ≠ "a") (attrs : Attrs)
    (ms : List Mark) : keptMarks name attrs ms = ms := by
  simp [keptMarks, hidesContent, hbr, ha]

theorem keptMarks_link (attrs : Attrs) (ms : List Mark) :
    keptMarks "a" attrs ms
      = if (attrs.lookup "href").any (fun href => (Mention.ofHref? href).isSome) then [] else ms := by
  simp [keptMarks, hidesContent]

mutual

theorem marks_sublist (parent : String) (n : Nat) :
    (d : Dom) → (marks parent n d).Sublist (numbered n (codeBlocks parent d))
  | .text _ => .slnil
  | .comment => .slnil
  | .element name attrs children => by
    simp only [marks, codeBlocks]
    split
    · split
      · exact List.nil_sublist _
      · exact List.Sublist.refl _
    · exact (keptMarks_sublist name attrs _).trans (marksOf_sublist name n children)

/-- Every placeholder in the text is that of a code block. -/
theorem marksOf_sublist (parent : String) (n : Nat) :
    (ds : List Dom) → (marksOf parent n ds).Sublist (numbered n (codeBlocksOf parent ds))
  | [] => .slnil
  | d :: ds => by
    rw [marksOf, codeBlocksOf, numbered_append]
    exact (marks_sublist parent n d).append (marksOf_sublist parent _ ds)

end

/-- An element that is shown as a text of its own holds nothing. -/
def EmptyIfHidden (name : String) (attrs : Attrs) (children : List Dom) : Prop :=
  hidesContent name attrs = true → children = []

mutual

theorem marks_eq (parent : String) (n : Nat) :
    (d : Dom) → d.Every EmptyIfHidden → marks parent n d = numbered n (codeBlocks parent d)
  | .text _, _ => rfl
  | .comment, _ => rfl
  | .element name attrs children, h => by
    have hc := marksOf_eq name n children h.2
    simp only [marks, codeBlocks]
    split
    · split
      next hb => rw [codeBlocksOf_of_isBlank hb]; rfl
      · rfl
    · rw [hc, keptMarks]
      split
      next hh => rw [h.1 hh]; rfl
      · rfl

/-- Where nothing is hidden, every code block has its placeholder in the text. -/
theorem marksOf_eq (parent : String) (n : Nat) :
    (ds : List Dom) → Dom.EveryOf EmptyIfHidden ds →
      marksOf parent n ds = numbered n (codeBlocksOf parent ds)
  | [], _ => rfl
  | d :: ds, h => by
    rw [marksOf, codeBlocksOf, numbered_append, marks_eq parent n d h.1, marksOf_eq parent _ ds h.2]

end

theorem marks_of_isBlank {name : String} {attrs : Attrs} {children : List Dom}
    (h : (Dom.element name attrs children).isBlank = true) (parent : String) (n : Nat) :
    marks parent n (.element name attrs children) = [] := by
  have hs := marks_sublist parent n (.element name attrs children)
  rw [codeBlocks_of_isBlank h] at hs
  exact List.sublist_nil.mp hs

/-- The code of a code block is in the first of its children. -/
theorem exists_of_fencedCode? {name : String} {children code : List Dom}
    (h : fencedCode? name children = some code) :
    name = "pre" ∧ ∃ codeAttrs rest, children = .element "code" codeAttrs code :: rest := by
  unfold fencedCode? at h
  split at h
  next inner codeAttrs found rest =>
    split at h
    next hn =>
      simp only [Bool.and_eq_true, beq_iff_eq] at hn
      obtain rfl := Option.some.inj h
      obtain ⟨hname, rfl⟩ := hn
      exact ⟨hname, codeAttrs, rest, rfl⟩
    · cases h
  · cases h

theorem name_of_fencedCode? {name : String} {children code : List Dom}
    (h : fencedCode? name children = some code) : name = "pre" :=
  (exists_of_fencedCode? h).1

theorem fencedCode?_of_ne {name : String} (hn : name ≠ "pre") (children : List Dom) :
    fencedCode? name children = none := by
  cases h : fencedCode? name children with
  | none => rfl
  | some code => exact absurd (name_of_fencedCode? h) hn

/-- A single node is laid out as in the element around it. -/
theorem layNodes_singleton {d : Delimiters} (parent : String) (parentAttrs : Attrs)
    (isBlock : Bool) (fences : Fences) (n : Dom) {w : List Char} {fences' : Fences} (hw : '\n' ∉ w)
    (h : layNode d isBlock ⟨parent, parentAttrs, 0, false, false⟩ fences n = ⟨w, fences'⟩) :
    layNodes d parent parentAttrs isBlock 0 ⟨[], fences⟩ [n] = ⟨w, fences'⟩ := by
  have hspace : afterSpace [] isBlock = isBlock := by simp [afterSpace]
  simp only [layNodes, hspace, List.isEmpty_nil, Bool.not_true, List.any_nil, h]
  rw [join_nil_of_not_mem hw]

/-! ## Layout -/

/-- A date whose timestamp holds nothing that could open a placeholder. -/
def PlainDate (name : String) (attrs : Attrs) (_ : List Dom) : Prop :=
  name = "time" → ∀ timestamp, attrs.lookup "datetime" = some timestamp → '<' ∉ timestamp

section Layout

variable {d : Delimiters} {ms : List Mark} {s : List Char}

/-- What a link mentions is made of the characters of identifiers and of the names of audiences. -/
theorem not_mem_target_of {c : Char} (hid : Mention.isIdChar c = false)
    (haud : ∀ word ∈ Mention.audiences, c ∉ word) {href : List Char} {m : Mention}
    (h : Mention.ofHref? href = some m) : c ∉ m.target := by
  have not_mem : ∀ {id : List Char}, Mention.isIdBody id = true → c ∉ id := by
    intro id h hm
    simp only [Mention.isIdBody, Bool.and_eq_true] at h
    rw [List.all_eq_true.mp h.2 c hm] at hid
    cases hid
  have hne : ∀ d, Mention.isIdChar d = true → c ≠ d := by
    rintro d hd rfl
    rw [hd] at hid
    cases hid
  unfold Mention.ofHref? at h
  split at h
  · split at h
    next hid =>
      obtain rfl := Option.some.inj h
      exact not_mem hid
    · cases h
  · split at h <;> split at h <;> try cases h
    next hid => simp [Mention.target, not_mem hid, hne 'U' rfl]
    next hid => simp [Mention.target, not_mem hid, hne 'W' rfl]
    next hid => simp [Mention.target, not_mem hid, hne 'S' rfl]
    next hword => exact haud _ (List.contains_iff_mem.mp hword)
  · cases h

theorem not_mem_target {href : List Char} {m : Mention} (h : Mention.ofHref? href = some m) :
    '<' ∉ m.target :=
  not_mem_target_of (by decide) (by decide) h

theorem isAlphanum_of_mem_target {href : List Char} {m : Mention}
    (h : Mention.ofHref? href = some m) {c : Char} (hc : c ∈ m.target) : c.isAlphanum = true := by
  cases ha : c.isAlphanum with
  | true => rfl
  | false =>
    have hid : Mention.isIdChar c = false := by
      have hparts : (c.isUpper || c.isLower || c.isDigit) = false := ha
      rw [Bool.or_eq_false_iff, Bool.or_eq_false_iff] at hparts
      rw [Mention.isIdChar, hparts.1.1, hparts.2]
      rfl
    have haud : ∀ word ∈ Mention.audiences, c ∉ word := by
      intro word hword hm
      have hall : ∀ w ∈ Mention.audiences, w.all Char.isAlphanum = true := by decide
      rw [List.all_eq_true.mp (hall word hword) c hm] at ha
      cases ha
    exact absurd hc (not_mem_target_of hid haud h)

/-- A link that mentions someone has a sign and the target of the mention for its own target. -/
theorem exists_cons_target {href : List Char} {m : Mention} (h : Mention.ofHref? href = some m) :
    ∃ sign ∈ ['#', '@'], href = sign :: m.target := by
  unfold Mention.ofHref? at h
  split at h
  · split at h
    · obtain rfl := Option.some.inj h
      exact ⟨'#', by decide, rfl⟩
    · cases h
  · refine ⟨'@', by decide, ?_⟩
    split at h <;> split at h <;> first | (obtain rfl := Option.some.inj h; rfl) | cases h
  · cases h

/-- A mention holds no placeholder. -/
theorem marked_mention {href : List Char} {m : Mention} (h : Mention.ofHref? href = some m) :
    Marked [] m.token := by
  have ht := not_mem_target h
  have token : ∀ {c : Char} {w : List Char}, c ≠ '<' → Text.isBlank c = false → '<' ∉ w →
      Marked [] ('<' :: c :: w ++ ['>']) :=
    fun hc hb hw => .opening hc hb (.char hc ((Marked.of_not_mem hw).append_plain (by decide)))
  cases m with
  | channel id => exact token (by decide) (by decide) ht
  | user id => exact token (by decide) (by decide) ht
  | userGroup id =>
    have hw : '<' ∉ "subteam^".toList ++ id := by simpa [Mention.target] using ht
    exact token (c := '!') (by decide) (by decide) hw
  | audience word =>
    have hw : '<' ∉ word ++ '|' :: word := by simpa [Mention.target] using ht
    have he : (Mention.audience word).token = '<' :: '!' :: (word ++ '|' :: word) ++ ['>'] := rfl
    rw [he]
    exact token (by decide) (by decide) hw

theorem marked_link {href : List Char} (hne : href ≠ []) (h : Marked ms s) :
    Marked (if (Mention.ofHref? href).isSome then [] else ms) (link s href) := by
  cases hm : Mention.ofHref? href with
  | none => exact h.link hne hm
  | some m =>
    simp only [link, hm]
    exact marked_mention hm

theorem marked_layInline_link (attrs : Attrs) (h : Marked ms s) :
    Marked (keptMarks "a" attrs ms) (layInline d "a" attrs s) := by
  rw [keptMarks_link]
  simp only [layInline]
  cases hl : attrs.lookup "href" with
  | none => simpa using h
  | some href =>
    cases href with
    | nil => simpa [Mention.ofHref?] using h
    | cons c href => simpa using marked_link (List.cons_ne_nil c href) h

theorem marked_layInline (hd : Delimiting d) {name : String} (hbr : name ≠ "br")
    (attrs : Attrs) (ht : PlainDate name attrs []) (h : Marked ms s) :
    Marked (keptMarks name attrs ms) (layInline d name attrs s) := by
  by_cases ha : name = "a"
  · subst ha
    exact marked_layInline_link attrs h
  · rw [keptMarks_of_ne hbr ha]
    by_cases htime : name = "time"
    · subst htime
      simp only [layInline]
      cases hl : attrs.lookup "datetime" with
      | none => exact h
      | some timestamp =>
        exact h.dateToken (ht rfl timestamp hl) (Text.lt_not_mem_escapeEntity _)
    · exact Marked.isReading.layInline hd ha htime attrs h

theorem marked_breakMark : Marked [] (breakMark ++ ['\n']) := by
  have h : Marked [] "br />\n".toList := .of_not_mem (by decide)
  exact .opening (by decide) (by decide) h

theorem isBlockName_ne {name : String} (h : isBlockName name = true) :
    name ≠ "br" ∧ name ≠ "a" := by
  constructor <;> (rintro rfl; exact absurd h (by decide))

theorem marked_layAround (hd : Delimiting d) {name : String} {attrs : Attrs}
    (place : Mrkdwn.Place) (ht : PlainDate name attrs []) (h : Marked ms s) :
    Marked (keptMarks name attrs ms) (layAround d name attrs place s) := by
  refine Marked.isReading.layAround place (fun hblock => ?_) (fun hbr => ?_)
    (fun hbr hi => marked_layInline hd hbr attrs ht hi) h
  · exact keptMarks_of_ne (isBlockName_ne hblock).1 (isBlockName_ne hblock).2 attrs ms
  · rw [hbr]
    exact marked_breakMark

mutual

/-- A node is laid out with the placeholders of its code blocks, whose code is put aside. -/
theorem marked_layNode (hd : Delimiting d) (trims : Bool) (place : Mrkdwn.Place)
    (fences : Fences) : (n : Dom) → n.Every PlainDate →
    (layNode d trims place fences n).fences
        = fences ++ (codeBlocks place.parent n).map (fun b => Text.escapeEntity b.code) ∧
      Marked (marks place.parent fences.length n) (layNode d trims place fences n).text
  | .text content, _ => by
    simp only [layNode, codeBlocks, marks, List.map_nil, List.append_nil, true_and]
    exact .of_not_mem (Text.lt_not_mem_escapeEntity _)
  | .comment, _ => by
    simp only [layNode, codeBlocks, marks, List.map_nil, List.append_nil, true_and]
    exact .nil
  | .element name attrs children, h => by
    obtain ⟨hdate, hc⟩ := h
    simp only [layNode]
    split
    next hblank =>
      rw [Bool.and_eq_true] at hblank
      rw [codeBlocks_of_isBlank hblank.2, marks_of_isBlank hblank.2]
      exact ⟨by simp, Marked.isReading.trimStartIf trims (Marked.isReading.layBlank name children)⟩
    next hblank =>
      split
      next code hcode =>
        have hnb : (Dom.element name attrs children).isBlank = false := by
          simpa [showsBlank, name_of_fencedCode? hcode] using hblank
        simp only [codeBlocks, marks, hcode, hnb]
        refine ⟨by simp, ?_⟩
        have hm : Marked [(fences.length, place.parent == "a")]
            (Mark.text (fences.length, place.parent == "a") ++ []) := .mark _ .nil
        rw [List.append_nil] at hm
        exact Marked.isReading.placeholder _ _ hm
      next hcode =>
        obtain ⟨hf, hm⟩ := marked_layNodes hd name attrs (isBlockName name) 0 [] ⟨[], fences⟩ .nil
          children hc
        simp only [codeBlocks, marks, hcode]
        exact ⟨hf, Marked.isReading.trimStartIf trims (marked_layAround hd place hdate hm)⟩

/-- Nodes are laid out with the placeholders of their code blocks behind those that stand before. -/
theorem marked_layNodes (hd : Delimiting d) (parent : String) (parentAttrs : Attrs)
    (isBlock : Bool) (elementsBefore : Nat) (before : List Mark) (laid : Laid)
    (hl : Marked before laid.text) : (ns : List Dom) → Dom.EveryOf PlainDate ns →
    (layNodes d parent parentAttrs isBlock elementsBefore laid ns).fences
        = laid.fences ++ (codeBlocksOf parent ns).map (fun b => Text.escapeEntity b.code) ∧
      Marked (before ++ marksOf parent laid.fences.length ns)
        (layNodes d parent parentAttrs isBlock elementsBefore laid ns).text
  | [], _ => by
    simpa only [layNodes, codeBlocksOf, marksOf, List.map_nil, List.append_nil, true_and] using hl
  | n :: ns, h => by
    obtain ⟨hf, hm⟩ := marked_layNode hd (afterSpace laid.text isBlock)
      ⟨parent, parentAttrs, elementsBefore, !ns.isEmpty, ns.any Dom.isElement⟩ laid.fences n h.1
    simp only [layNodes, codeBlocksOf, marksOf]
    generalize layNode d _ _ laid.fences n = next at hf hm ⊢
    have hj := Marked.isReading.join hl hm
    obtain ⟨hf', hm'⟩ := marked_layNodes hd parent parentAttrs isBlock
      (if n.isElement then elementsBefore + 1 else elementsBefore) _
      ⟨join laid.text next.text, next.fences⟩ hj ns h.2
    refine ⟨?_, ?_⟩
    · rw [hf', hf, List.append_assoc, List.map_append]
    · rw [← List.append_assoc]
      simpa [hf] using hm'

end

end Layout

/-! ## Putting the code back -/

/-- The code that is put aside for code blocks. -/
def fencesOf (bs : List CodeBlock) : Fences :=
  bs.map fun b => Text.escapeEntity b.code

theorem restored_numbered_append (before : Fences) (bs : List CodeBlock) :
    (numbered before.length bs).map (Mark.restored (before ++ fencesOf bs))
      = bs.map CodeBlock.text := by
  induction bs generalizing before with
  | nil => rfl
  | cons b bs ih =>
    have ih := ih (before ++ [Text.escapeEntity b.code])
    rw [List.append_assoc, List.length_append, List.length_singleton] at ih
    simp only [numbered, List.map_cons, fencesOf] at ih ⊢
    refine congrArg₂ List.cons ?_ ih
    simp [Mark.restored, Piece.restore, Text.readNat?_ofNat, CodeBlock.text_eq_fenced]

theorem restored_numbered (bs : List CodeBlock) :
    (numbered 0 bs).map (Mark.restored (fencesOf bs)) = bs.map CodeBlock.text :=
  restored_numbered_append [] bs

theorem not_mem_text (b : CodeBlock) : '<' ∉ b.text := by
  have hc := Text.lt_not_mem_escapeEntity b.code
  have hs : '<' ∉ Text.squeeze (· = '\n') ' ' (Text.escapeEntity b.code) := by
    intro hm
    rcases Text.mem_of_mem_squeeze hm with h | h
    · exact absurd h (by decide)
    · exact hc h
  rw [CodeBlock.text_eq_fenced, fenced]
  split <;> simp [fenceMark, hc, hs]

theorem not_mem_restored {m : Mark} {bs : List CodeBlock} (hm : m ∈ numbered 0 bs) :
    '<' ∉ m.restored (fencesOf bs) := by
  have hmem : m.restored (fencesOf bs) ∈ (numbered 0 bs).map (Mark.restored (fencesOf bs)) :=
    List.mem_map_of_mem hm
  rw [restored_numbered] at hmem
  obtain ⟨b, -, hb⟩ := List.mem_map.mp hmem
  rw [← hb]
  exact not_mem_text b

/-- The mrkdwn of a document holds the code of the placeholders in its text in their order, and
nothing in it opens a placeholder. -/
theorem inOrder_ofDoms (options : FormatOptions) {body : List Dom}
    (hdates : Dom.EveryOf PlainDate body) :
    Text.InOrder ((marksOf "body" 0 body).map
          (Mark.restored (fencesOf (codeBlocksOf "body" body))))
        (ofDoms (delimiters options) body) ∧
      Marked [] (ofDoms (delimiters options) body) := by
  obtain ⟨hf, hm⟩ := marked_layNodes (delimiting_delimiters options) "body" [] true 0 [] ⟨[], []⟩ .nil
    body hdates
  simp only [List.nil_append, List.length_nil] at hf hm
  have ht := (Marked.isReading.trimEnds hm).dropBreakMarks
  simp only [ofDoms, layBody, hf]
  exact ⟨ht.inOrder_restore _,
    ht.restore fun m hm => not_mem_restored ((marksOf_sublist "body" 0 body).subset hm)⟩

/-- No link is a mention. -/
def NoMention (name : String) (attrs : Attrs) (_ : List Dom) : Prop :=
  name = "a" → ∀ href, attrs.lookup "href" = some href → Mention.ofHref? href = none

/-- The code blocks of a fragment in which no link is a mention and no timestamp of a date holds `<`
are all written as fences, in their order and without overlap, and no placeholder is left. -/
theorem ofHtml_codeBlocks (options : FormatOptions) (html : List Char)
    (hlinks : Dom.EveryOf NoMention (parse html)) (hdates : Dom.EveryOf PlainDate (parse html)) :
    Text.InOrder ((codeBlocksOf "body" (parse html)).map CodeBlock.text) (ofHtml options html) ∧
      ¬"<<pre:".toList <:+: ofHtml options html := by
  have hempty : Dom.EveryOf EmptyIfHidden (parse html) := by
    refine Dom.EveryOf.mono (fun name attrs children hl hb hh => ?_) _ hlinks
      (everyOf_emptyBreak_parse html)
    simp only [hidesContent, Bool.or_eq_true, Bool.and_eq_true, beq_iff_eq] at hh
    rcases hh with hbr | ⟨ha, hm⟩
    · exact hb hbr
    · obtain ⟨href, hh, hm⟩ := (Option.any_eq_true _ _).mp hm
      rw [hl ha href hh] at hm
      cases hm
  obtain ⟨ho, hm⟩ := inOrder_ofDoms options hdates
  rw [marksOf_eq "body" 0 _ hempty, restored_numbered] at ho
  refine ⟨ho, fun hi => hm.not_infix (List.IsInfix.trans ?_ hi)⟩
  exact ⟨[], "pre:".toList, rfl⟩

/-- A placeholder that is spelled out in front of a code block and in its code is text. -/
theorem ofHtml_codeBlocks_lookalike :
    let html := "&lt;&lt;pre:0&gt;&gt;<pre><code>&lt;&lt;pre:0&gt;&gt;</code></pre>".toList
    let fence := "\x60\x60\x60\n&lt;&lt;pre:0&gt;&gt;\n\x60\x60\x60".toList
    (Dom.EveryOf NoMention (parse html) ∧ Dom.EveryOf PlainDate (parse html)) ∧
      (codeBlocksOf "body" (parse html)).map CodeBlock.text = [fence] ∧
        ofHtml {} html = "&lt;&lt;pre:0&gt;&gt;\n".toList ++ fence ∧
          Text.InOrder [fence] (ofHtml {} html) ∧ ¬"<<pre:".toList <:+: ofHtml {} html := by
  intro html fence
  have hp : parse html = [.text "<<pre:0>>".toList,
      .element "pre" [] [.element "code" [] [.text "<<pre:0>>".toList]]] := rfl
  have hlinks : Dom.EveryOf NoMention (parse html) := by
    simp [hp, Dom.EveryOf, Dom.Every, NoMention]
  have hdates : Dom.EveryOf PlainDate (parse html) := by
    simp [hp, Dom.EveryOf, Dom.Every, PlainDate]
  have hblocks : (codeBlocksOf "body" (parse html)).map CodeBlock.text = [fence] := by
    rw [hp]
    rfl
  have hout : ofHtml {} html = "&lt;&lt;pre:0&gt;&gt;\n".toList ++ fence := by decide +kernel
  have h := ofHtml_codeBlocks {} html hlinks hdates
  rw [hblocks] at h
  exact ⟨⟨hlinks, hdates⟩, hblocks, hout, h⟩

end MessageLayout.Mrkdwn
