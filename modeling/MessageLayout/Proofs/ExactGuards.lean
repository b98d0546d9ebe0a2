import MessageLayout.Proofs.SearchedText

/-!
# What the guards of styles change

Each guard replaces one character by one that looks alike, everywhere but in tags, in code, and, for
the guard of emphasised text, in short names of emoji. What is left and what is replaced is told
place by place, by searches for tags and for short names. A guard changes neither the tags nor the
short names that are found, so a guard put on twice does nothing more, and two guards can be put on
in either order.

    g.Leaves html i → (g.apply html)[i]? = html[i]?                             (Guard.apply_exact)
    Searched IsTag html parts → Searched IsTag (g.apply html) (guardParts …)   (Searched.guardParts)
-/

namespace MessageLayout.Markup

/-! ## The guards -/

/-- A guard of a style. -/
inductive Guard where
  /-- The guard of strong text. -/
  | strong
  /-- The guard of emphasised text. -/
  | emphasis
  /-- The guard of struck text. -/
  | strike
  /-- The guard of code. -/
  | code
deriving DecidableEq

namespace Guard

/-- Puts the guard on a fragment. -/
def apply : Guard → List Char → List Char
  | strong => guardStrong
  | emphasis => guardEmphasis
  | strike => guardStrike
  | code => guardCode

/-- The character that a guard replaces. -/
def mark : Guard → Char
  | strong => '*'
  | emphasis => '_'
  | strike => '~'
  | code => '\x60'

/-- The character that a guard puts in its place. -/
def glyph : Guard → Char
  | strong => '\u2217'
  | emphasis => '\u02cd'
  | strike => '\u223c'
  | code => '\u02cb'

/-- A character with the mark of the guard replaced. -/
def swap (g : Guard) (c : Char) : Char :=
  if c = g.mark then g.glyph else c

/-- What a guard does to the text between tags. -/
def onText : Guard → List Char → List Char
  | emphasis => substituteUnderscores
  | g => List.map g.swap

theorem apply_eq_guardText (g : Guard) (html : List Char) :
    g.apply html = guardText g.onText html := by
  cases g <;> rfl

theorem mem_styleLookalikes (g : Guard) : (g.mark, g.glyph) ∈ styleLookalikes := by
  cases g <;> decide

theorem onText_of_ne {g : Guard} (hg : g ≠ emphasis) (s : List Char) :
    g.onText s = s.map g.swap := by
  cases g with
  | emphasis => exact absurd rfl hg
  | _ => rfl

theorem swaps_onText (g : Guard) (s : List Char) : Swaps s (g.onText s) := by
  cases g with
  | emphasis => exact .of_substituteUnderscores s
  | strong => exact .of_substitute (mem_styleLookalikes strong) s
  | strike => exact .of_substitute (mem_styleLookalikes strike) s
  | code => exact .of_substitute (mem_styleLookalikes code) s

theorem mark_ne_glyph (g h : Guard) : g.mark ≠ h.glyph := by
  cases g <;> cases h <;> decide

theorem mark_injective {g h : Guard} (he : g.mark = h.mark) : g = h := by
  revert he
  cases g <;> cases h <;> decide

theorem swap_swap (g : Guard) (c : Char) : g.swap (g.swap c) = g.swap c := by
  unfold swap
  by_cases hc : c = g.mark
  · rw [if_pos hc, if_neg (mark_ne_glyph g g).symm]
  · rw [if_neg hc, if_neg hc]

theorem swap_comm (g h : Guard) (c : Char) : g.swap (h.swap c) = h.swap (g.swap c) := by
  have hgh := (mark_ne_glyph g h).symm
  have hhg := (mark_ne_glyph h g).symm
  unfold swap
  by_cases hg : c = g.mark
  · by_cases hh : c = h.mark
    · rw [mark_injective (hg.symm.trans hh)]
    · rw [if_neg hh, if_pos hg, if_neg hhg]
  · by_cases hh : c = h.mark
    · rw [if_neg hg, if_pos hh, if_neg hgh]
    · rw [if_neg hg, if_neg hh, if_neg hg]

theorem alters_mapGap (g : Guard) (part : Part) :
    Part.Alters part (part.mapGap (List.map g.swap)) := by
  cases part with
  | gap s => exact .gap (.of_substitute g.mem_styleLookalikes s)
  | hit m => exact .hit m

theorem alters_map_mapGap (g : Guard) (parts : List Part) :
    List.Forall₂ Part.Alters parts (parts.map (Part.mapGap (List.map g.swap))) := by
  rw [List.forall₂_map_right_iff, List.forall₂_same]
  exact fun part _ => g.alters_mapGap part

/-- No guard but that of emphasised text finds anything to replace in a short name. -/
theorem map_swap_of_isEmoji {g : Guard} (hg : g ≠ emphasis) {m : List Char} (hm : IsEmoji m) :
    m.map g.swap = m := by
  obtain ⟨name, -, hname, rfl⟩ := hm
  have hmark : isEmojiChar g.mark = false ∧ g.mark ≠ ':' := by
    cases g with
    | emphasis => exact absurd rfl hg
    | _ => decide
  refine (List.map_congr_left fun c hc => ?_).trans (List.map_id _)
  refine if_neg ?_
  rintro rfl
  have hc : g.mark ∈ name := by simpa [hmark.2] using hc
  have := hname _ hc
  rw [hmark.1] at this
  cases this

end Guard

/-- The text between tags is changed between the short names of emoji only. -/
theorem Searched.onText_eq {s : List Char} {parts : List Part} (h : Searched IsEmoji s parts)
    (g : Guard) : g.onText s = partsText (parts.map (Part.mapGap (List.map g.swap))) := by
  by_cases hg : g = .emphasis
  · rw [hg]
    exact h.substituteUnderscores_eq
  · rw [Guard.onText_of_ne hg, ← h.partsText_eq]
    have hhit : ∀ m, .hit m ∈ parts → m.map g.swap = m := fun m hm =>
      Guard.map_swap_of_isEmoji hg (h.of_hit_mem hm)
    clear h
    induction parts with
    | nil => rfl
    | cons part parts ih =>
      rw [List.map_cons, partsText_cons, partsText_cons, List.map_append,
        ih fun m hm => hhit m (List.mem_cons_of_mem _ hm)]
      cases part with
      | gap s => rfl
      | hit m => rw [Part.content, hhit m List.mem_cons_self]; rfl

theorem Searched.emoji_onText {s : List Char} {parts : List Part} (h : Searched IsEmoji s parts)
    (g : Guard) : Searched IsEmoji (g.onText s) (parts.map (Part.mapGap (List.map g.swap))) := by
  rw [h.onText_eq g]
  exact h.altered (fun m m' hm hm' => eq_of_swaps_isEmoji hm hm' ▸ hm') (g.alters_map_mapGap parts)

namespace Guard

theorem onText_onText (g h : Guard) {s : List Char} {parts : List Part}
    (hs : Searched IsEmoji s parts) :
    g.onText (h.onText s)
      = partsText (parts.map (Part.mapGap (List.map fun c => g.swap (h.swap c)))) := by
  rw [(hs.emoji_onText h).onText_eq g, List.map_map]
  refine congrArg partsText (List.map_congr_left fun part _ => ?_)
  cases part with
  | gap s => exact congrArg Part.gap List.map_map
  | hit m => rfl

theorem onText_idem (g : Guard) (s : List Char) : g.onText (g.onText s) = g.onText s := by
  obtain ⟨parts, h⟩ := exists_searched not_isEmoji_nil s
  rw [onText_onText g g h, h.onText_eq g, funext (swap_swap g)]

theorem onText_comm (g h : Guard) (s : List Char) :
    g.onText (h.onText s) = h.onText (g.onText s) := by
  obtain ⟨parts, hs⟩ := exists_searched not_isEmoji_nil s
  rw [onText_onText g h hs, onText_onText h g hs, funext (swap_comm g h)]

end Guard

/-! ## Code -/

/-- Whether a tag begins with a text and the end of a name behind it. -/
def begins (start : String) (m : List Char) : Bool :=
  start.toList.isPrefixOf m && (m.drop start.toList.length).head?.any fun c =>
    Text.isBlank c || c = '/' || c = '>'

/-- Whether a tag with the given bracket is one of an element for code. -/
def isCodeTag (bracket : String) (m : List Char) : Bool :=
  begins (bracket ++ "code") m || begins (bracket ++ "pre") m

/-- The number of elements for code that are open behind a part of a fragment, given their number
before it. An end tag where none is open counts for nothing. -/
def Part.depthBehind (depth : Nat) : Part → Nat
  | gap _ => depth
  | hit m =>
    if isCodeTag "<" m then depth + 1 else if isCodeTag "</" m then depth - 1 else depth

/-- The number of elements for code that are open behind parts of a fragment. -/
def depthBehind (depth : Nat) (parts : List Part) : Nat :=
  parts.foldl Part.depthBehind depth

theorem begins_iff {start : String} {m : List Char} : begins start m = true ↔
    ∃ c rest, m = start.toList ++ c :: rest ∧ (Text.isBlank c || c = '/' || c = '>') = true := by
  unfold begins
  rw [Bool.and_eq_true, List.isPrefixOf_iff_prefix]
  constructor
  · rintro ⟨⟨rest, rfl⟩, h⟩
    rw [List.drop_left] at h
    cases rest with
    | nil => cases h
    | cons c rest => exact ⟨c, rest, rfl, h⟩
  · rintro ⟨c, rest, rfl, h⟩
    refine ⟨List.prefix_append _ _, ?_⟩
    rw [List.drop_left]
    exact h

theorem startsCodeName_iff {s : List Char} :
    startsCodeName s = true ↔ begins "code" s = true ∨ begins "pre" s = true := by
  simp only [begins_iff]
  constructor
  · intro h
    unfold startsCodeName at h
    split at h
    · exact .inl ⟨_, _, rfl, h⟩
    · exact .inr ⟨_, _, rfl, h⟩
    · cases h
  · rintro (⟨c, rest, rfl, h⟩ | ⟨c, rest, rfl, h⟩)
    · exact h
    · exact h

theorem isCodeTag_append (bracket : String) (s : List Char) :
    isCodeTag bracket (bracket.toList ++ s) = startsCodeName s := by
  have hbegins : ∀ name, begins (bracket ++ name) (bracket.toList ++ s) = begins name s := by
    intro name
    rw [Bool.eq_iff_iff, begins_iff, begins_iff]
    simp [String.toList_append]
  rw [Bool.eq_iff_iff, startsCodeName_iff, isCodeTag, hbegins, hbegins, Bool.or_eq_true]

theorem exists_of_isCodeTag {bracket : String} {m : List Char} (h : isCodeTag bracket m = true) :
    ∃ s, m = bracket.toList ++ s := by
  rw [isCodeTag, Bool.or_eq_true, begins_iff, begins_iff] at h
  rcases h with ⟨c, rest, rfl, -⟩ | ⟨c, rest, rfl, -⟩
  · exact ⟨_, by rw [String.toList_append, List.append_assoc]⟩
  · exact ⟨_, by rw [String.toList_append, List.append_assoc]⟩

theorem codeDepth_eq (depth : Nat) (m : List Char) :
    codeDepth depth m = (Part.hit m).depthBehind depth := by
  have hopen : ∀ s, isCodeTag "<" ('<' :: s) = startsCodeName s := isCodeTag_append "<"
  have hclose : ∀ s, isCodeTag "</" ('<' :: '/' :: s) = startsCodeName s := isCodeTag_append "</"
  show codeDepth depth m
    = if isCodeTag "<" m then depth + 1 else if isCodeTag "</" m then depth - 1 else depth
  unfold codeDepth
  split
  next s =>
    rw [hopen, hclose]
    rfl
  next s hslash =>
    have hnot : isCodeTag "</" ('<' :: s) = false := by
      rw [← Bool.not_eq_true]
      intro h
      obtain ⟨t, ht⟩ := exists_of_isCodeTag h
      exact hslash t (List.cons.inj ht).2
    rw [hopen, hnot]
    rfl
  next hslash hbracket =>
    have hnot : ∀ bracket ∈ ["<", "</"], isCodeTag bracket m = false := by
      intro bracket hmem
      rw [← Bool.not_eq_true]
      intro h
      obtain ⟨t, rfl⟩ := exists_of_isCodeTag h
      simp only [List.mem_cons, List.not_mem_nil, or_false] at hmem
      rcases hmem with rfl | rfl
      · exact hbracket t rfl
      · exact hslash t rfl
    rw [hnot "<" (by simp), hnot "</" (by simp)]
    rfl

/-! ## Fragments -/

/-- A part of a fragment with `f` applied to it, unless it is a tag or is in an element for code. -/
def guardPart (f : List Char → List Char) (depth : Nat) : Part → Part :=
  Part.mapGap (if depth = 0 then f else id)

/-- The parts of a fragment with `f` applied to the text outside of tags and code. -/
def guardParts (f : List Char → List Char) : Nat → List Part → List Part
  | _, [] => []
  | depth, part :: parts =>
    guardPart f depth part :: guardParts f (part.depthBehind depth) parts

theorem depthBehind_guardPart (f : List Char → List Char) (depth depth' : Nat) (part : Part) :
    (guardPart f depth part).depthBehind depth' = part.depthBehind depth' := by
  cases part <;> rfl

theorem guardFrom_toSpan (f : List Char → List Char) (depth : Nat) (parts : List Part) :
    guardFrom f depth (parts.map Part.toSpan) = partsText (guardParts f depth parts) := by
  induction parts generalizing depth with
  | nil => rfl
  | cons part parts ih =>
    cases part with
    | gap s =>
      rw [List.map_cons, Part.toSpan, guardFrom, ih, guardParts, partsText_cons]
      refine congrArg (· ++ _) ?_
      split
      next hd => rw [guardPart, if_pos hd]; rfl
      next hd => rw [guardPart, if_neg hd]; rfl
    | hit m =>
      rw [List.map_cons, Part.toSpan, guardFrom, ih, guardParts, partsText_cons, codeDepth_eq]
      rfl

theorem guardParts_append (f : List Char → List Char) (depth : Nat) (parts parts' : List Part) :
    guardParts f depth (parts ++ parts')
      = guardParts f depth parts ++ guardParts f (depthBehind depth parts) parts' := by
  induction parts generalizing depth with
  | nil => rfl
  | cons part parts ih =>
    rw [List.cons_append, guardParts, guardParts, ih, List.cons_append]
    rfl

/-- Where a guard was put on, another one works on the same text. -/
theorem guardParts_guardParts (f f' : List Char → List Char) (depth : Nat) (parts : List Part) :
    guardParts f depth (guardParts f' depth parts) = guardParts (f ∘ f') depth parts := by
  induction parts generalizing depth with
  | nil => rfl
  | cons part parts ih =>
    rw [guardParts, guardParts, guardParts, depthBehind_guardPart, ih]
    refine congrArg (· :: _) ?_
    unfold guardPart
    split
    · cases part <;> rfl
    · cases part <;> rfl

theorem alters_guardPart {f : List Char → List Char} (hf : ∀ s, Swaps s (f s)) (depth : Nat)
    (part : Part) : Part.Alters part (guardPart f depth part) := by
  cases part with
  | gap s =>
    refine .gap ?_
    split
    · exact hf s
    · exact .refl s
  | hit m => exact .hit m

theorem alters_guardParts {f : List Char → List Char} (hf : ∀ s, Swaps s (f s)) (depth : Nat)
    (parts : List Part) : List.Forall₂ Part.Alters parts (guardParts f depth parts) := by
  induction parts generalizing depth with
  | nil => exact .nil
  | cons part parts ih => exact .cons (alters_guardPart hf depth part) (ih _)

namespace Searched

variable {html : List Char} {parts : List Part}

theorem apply_eq (h : Searched IsTag html parts) (g : Guard) :
    g.apply html = partsText (guardParts g.onText 0 parts) := by
  rw [g.apply_eq_guardText, guardText, h.spans_eq, guardFrom_toSpan]

/-- A guard leaves the tags that are found. -/
theorem guardParts (h : Searched IsTag html parts) (g : Guard) :
    Searched IsTag (g.apply html) (guardParts g.onText 0 parts) := by
  rw [h.apply_eq g]
  exact h.altered (fun _ _ => isTag_of_swaps) (alters_guardParts g.swaps_onText 0 parts)

/-- Two guards are put on by doing what both do to the same text. -/
theorem apply_apply_eq (hs : Searched IsTag html parts) (g h : Guard) :
    g.apply (h.apply html) = partsText (Markup.guardParts (g.onText ∘ h.onText) 0 parts) := by
  rw [(hs.guardParts h).apply_eq g, guardParts_guardParts]

end Searched

/-! ## Places -/

/-- Whether a place of a text is in a part that begins at another place. -/
def Part.Covers (part : Part) (start i : Nat) : Prop :=
  start ≤ i ∧ i < start + part.content.length

/-- A place of a text in a match that a search finds. -/
def InMatch (p : List Char → Prop) (s : List Char) (i : Nat) : Prop :=
  ∃ before m after, Searched p s (before ++ .hit m :: after) ∧
    (Part.hit m).Covers (partsText before).length i

/-- A place of a fragment between the start tag of an element for code and the place where no such
element is open any more. -/
def InCode (html : List Char) (i : Nat) : Prop :=
  ∃ before part after, Searched IsTag html (before ++ part :: after) ∧
    part.Covers (partsText before).length i ∧ 0 < depthBehind 0 before

/-- A place of a fragment in the short name of an emoji in the text between tags. -/
def InEmoji (html : List Char) (i : Nat) : Prop :=
  ∃ before s after, Searched IsTag html (before ++ .gap s :: after) ∧
    (Part.gap s).Covers (partsText before).length i ∧
      InMatch IsEmoji s (i - (partsText before).length)

/-- A place that a guard leaves. -/
def Guard.Leaves (g : Guard) (html : List Char) (i : Nat) : Prop :=
  InMatch IsTag html i ∨ InCode html i ∨ g = .emphasis ∧ InEmoji html i

theorem exists_covers {parts : List Part} {i : Nat} (h : i < (partsText parts).length) :
    ∃ before part after, parts = before ++ part :: after ∧
      part.Covers (partsText before).length i := by
  induction parts generalizing i with
  | nil => cases h
  | cons part parts ih =>
    rw [partsText_cons, List.length_append] at h
    by_cases hi : i < part.content.length
    · exact ⟨[], part, parts, rfl, Nat.zero_le i, by simpa using hi⟩
    · obtain ⟨before, part', after, rfl, hle, hlt⟩ := ih (i := i - part.content.length) (by omega)
      refine ⟨part :: before, part', after, rfl, ?_, ?_⟩
      · rw [partsText_cons, List.length_append]
        omega
      · rw [partsText_cons, List.length_append]
        omega

variable {before before' after : List Part} {part part' : Part} {s html : List Char} {i : Nat}

theorem getElem?_partsText (h : part.Covers (partsText before).length i) :
    (partsText (before ++ part :: after))[i]? = part.content[i - (partsText before).length]? := by
  obtain ⟨hle, hlt⟩ := h
  rw [partsText_append, partsText_cons, List.getElem?_append_right hle,
    List.getElem?_append_left (by omega)]

theorem Searched.getElem?_eq {p : List Char → Prop} (h : Searched p s (before ++ part :: after))
    (hi : part.Covers (partsText before).length i) :
    s[i]? = part.content[i - (partsText before).length]? := by
  rw [← getElem?_partsText hi, h.partsText_eq]

/-- Parts with look-alikes cover the same places. -/
theorem getElem?_altered (hbefore : List.Forall₂ Part.Alters before before')
    (hpart : Part.Alters part part') (hi : part.Covers (partsText before).length i) :
    (partsText (before' ++ part' :: after))[i]?
      = part'.content[i - (partsText before).length]? := by
  have hlength := (swaps_partsText hbefore).length_eq
  rw [hlength] at hi ⊢
  refine getElem?_partsText ⟨hi.1, ?_⟩
  rw [← hpart.swaps.length_eq]
  exact hi.2

/-- What a guard shows at a place of a part is what it makes of the part. -/
theorem Searched.getElem?_apply (h : Searched IsTag html (before ++ part :: after))
    (hi : part.Covers (partsText before).length i) (g : Guard) :
    (g.apply html)[i]? = (guardPart g.onText (depthBehind 0 before) part).content[
      i - (partsText before).length]? := by
  rw [h.apply_eq g, guardParts_append, Markup.guardParts]
  exact getElem?_altered (alters_guardParts g.swaps_onText 0 before)
    (alters_guardPart g.swaps_onText _ part) hi

theorem Searched.getElem?_onText (h : Searched IsEmoji s (before ++ part :: after))
    (hi : part.Covers (partsText before).length i) (g : Guard) :
    (g.onText s)[i]? = (part.mapGap (List.map g.swap)).content[i - (partsText before).length]? := by
  rw [h.onText_eq g, List.map_append, List.map_cons]
  exact getElem?_altered (g.alters_map_mapGap before) (g.alters_mapGap part) hi

namespace Guard

theorem guardPart_of_pos (f : List Char → List Char) {depth : Nat} (hd : 0 < depth) (part : Part) :
    guardPart f depth part = part := by
  rw [guardPart, if_neg (by omega)]
  cases part <;> rfl

theorem getElem?_onText_of_inMatch (g : Guard) (h : InMatch IsEmoji s i) :
    (g.onText s)[i]? = s[i]? := by
  obtain ⟨before, m, after, hs, hi⟩ := h
  rw [hs.getElem?_onText hi, hs.getElem?_eq hi]
  rfl

theorem getElem?_onText_of_not_inMatch {g : Guard} (h : g = emphasis → ¬InMatch IsEmoji s i) :
    (g.onText s)[i]? = s[i]?.map g.swap := by
  by_cases hg : g = emphasis
  · obtain ⟨parts, hs⟩ := exists_searched not_isEmoji_nil s
    by_cases hi : i < s.length
    · rw [← hs.partsText_eq] at hi
      obtain ⟨before, part, after, rfl, hcovers⟩ := exists_covers hi
      cases part with
      | hit m => exact absurd ⟨before, m, after, hs, hcovers⟩ (h hg)
      | gap t =>
        rw [hs.getElem?_onText hcovers, hs.getElem?_eq hcovers]
        exact List.getElem?_map ..
    · have hlength := (g.swaps_onText s).length_eq
      rw [List.getElem?_eq_none (by omega), List.getElem?_eq_none (by omega)]
      rfl
  · rw [onText_of_ne hg, List.getElem?_map]

theorem length_apply (g : Guard) (html : List Char) : (g.apply html).length = html.length := by
  obtain ⟨parts, h⟩ := exists_searched not_isTag_nil html
  rw [h.apply_eq g, ← (swaps_partsText (alters_guardParts g.swaps_onText 0 parts)).length_eq,
    h.partsText_eq]

theorem getElem?_of_leaves {g : Guard} (h : g.Leaves html i) : (g.apply html)[i]? = html[i]? := by
  rcases h with ⟨before, m, after, hs, hi⟩ | ⟨before, part, after, hs, hi, hd⟩ |
    ⟨-, before, s, after, hs, hi, hmatch⟩
  · rw [hs.getElem?_apply hi, hs.getElem?_eq hi]
    rfl
  · rw [hs.getElem?_apply hi, hs.getElem?_eq hi, guardPart_of_pos _ hd]
  · rw [hs.getElem?_apply hi, hs.getElem?_eq hi]
    by_cases hd : depthBehind 0 before = 0
    · rw [guardPart, if_pos hd]
      exact getElem?_onText_of_inMatch g hmatch
    · rw [guardPart_of_pos _ (Nat.pos_of_ne_zero hd)]

theorem getElem?_of_not_leaves {g : Guard} (h : ¬g.Leaves html i) :
    (g.apply html)[i]? = html[i]?.map g.swap := by
  obtain ⟨parts, hs⟩ := exists_searched not_isTag_nil html
  by_cases hi : i < html.length
  · rw [← hs.partsText_eq] at hi
    obtain ⟨before, part, after, rfl, hcovers⟩ := exists_covers hi
    cases part with
    | hit m => exact absurd (.inl ⟨before, m, after, hs, hcovers⟩) h
    | gap s =>
      have hd : depthBehind 0 before = 0 := by
        by_contra hd
        exact h (.inr (.inl ⟨before, .gap s, after, hs, hcovers, by omega⟩))
      have hmatch : g = emphasis → ¬InMatch IsEmoji s (i - (partsText before).length) :=
        fun hg hm => h (.inr (.inr ⟨hg, before, s, after, hs, hcovers, hm⟩))
      rw [hs.getElem?_apply hcovers, hs.getElem?_eq hcovers, guardPart, if_pos hd]
      exact getElem?_onText_of_not_inMatch hmatch
  · have hlength := g.length_apply html
    rw [List.getElem?_eq_none (by omega), List.getElem?_eq_none (by omega)]
    rfl

/-- A guard leaves every character of a tag, of code and, in emphasised text, of the short name of
an emoji, and replaces its mark in every other place and nothing else. Put on twice it does nothing
more, and two guards can be put on in either order. -/
theorem apply_exact (g : Guard) (html : List Char) :
    (∀ i, g.Leaves html i → (g.apply html)[i]? = html[i]?) ∧
      (∀ i, ¬g.Leaves html i →
        (g.apply html)[i]? = html[i]?.map fun c => if c = g.mark then g.glyph else c) ∧
      g.apply (g.apply html) = g.apply html ∧
      ∀ h : Guard, g.apply (h.apply html) = h.apply (g.apply html) := by
  obtain ⟨parts, hs⟩ := exists_searched not_isTag_nil html
  refine ⟨fun i => getElem?_of_leaves, fun i => getElem?_of_not_leaves, ?_, fun h => ?_⟩
  · have hidem : g.onText ∘ g.onText = g.onText := funext g.onText_idem
    rw [hs.apply_apply_eq, hs.apply_eq, hidem]
  · have hcomm : g.onText ∘ h.onText = h.onText ∘ g.onText := funext (onText_comm g h)
    rw [hs.apply_apply_eq, hs.apply_apply_eq, hcomm]

example : emphasis.apply "a_b :c_d:e_f: <i id=\"_\"><code>_<br>_</code></code>_".toList
    = "a\u02cdb :c_d:e\u02cdf: <i id=\"_\"><code>_<br>_</code></code>\u02cd".toList := by cbv

end Guard

end MessageLayout.Markup
