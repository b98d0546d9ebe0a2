import Mathlib.Data.List.Forall2
import MessageLayout.Proofs.Readings

/-!
# Texts with placeholders

While a document is laid out, its code blocks are placeholders in texts that are trimmed, cut into
lines, joined and searched. `Marked ms s` says that `s` holds the placeholders `ms` in this order
and that no other `<` of it could open one: each stands before a character that is neither `<` nor
blank. Every rule of the layout keeps texts marked with the same placeholders, so in the end each
placeholder is replaced by its code and none is forged, split or left.

    IsReading (fun _ ms s _ => Marked ms s) ()                           (Marked.isReading)
    Marked ms s → … → restore fences s holds the code of `ms` in order   (Marked.inOrder_restore)
    Marked [] s → ¬"<<".toList <:+: s                                    (Marked.not_infix)
-/

namespace MessageLayout

/-- Whether texts stand in a text in this order and without overlap. -/
def Text.InOrder : List (List Char) → List Char → Prop
  | [], _ => True
  | p :: ps, s => ∃ before after, s = before ++ p ++ after ∧ InOrder ps after

/-- Texts that stand in a text stand in every longer one. -/
theorem Text.InOrder.cons {ps : List (List Char)} {s : List Char} (h : InOrder ps s) (c : Char) :
    InOrder ps (c :: s) := by
  cases ps with
  | nil => trivial
  | cons p ps =>
    obtain ⟨before, after, rfl, h⟩ := h
    exact ⟨c :: before, after, rfl, h⟩

namespace Mrkdwn

/-- A placeholder by its number and whether its code is to stand on one line. -/
abbrev Mark := Nat × Bool

/-- The text of a placeholder. -/
def Mark.text (m : Mark) : List Char :=
  (⟨Text.ofNat m.1, m.2⟩ : Placeholder).text

/-- What is written for a placeholder when the code is back in its place. -/
def Mark.restored (fences : Fences) (m : Mark) : List Char :=
  (Piece.mark ⟨Text.ofNat m.1, m.2⟩).restore fences

/-- A text that holds the given placeholders and no other `<<`. -/
inductive Marked : List Mark → List Char → Prop
  | nil : Marked [] []
  | char {c : Char} {ms : List Mark} {s : List Char} :
      c ≠ '<' → Marked ms s → Marked ms (c :: s)
  | opening {c : Char} {ms : List Mark} {s : List Char} :
      c ≠ '<' → Text.isBlank c = false → Marked ms (c :: s) → Marked ms ('<' :: c :: s)
  | mark (m : Mark) {ms : List Mark} {s : List Char} :
      Marked ms s → Marked (m :: ms) (m.text ++ s)

/-- The parts of a marked text. A bracket that opens no placeholder is one with what comes next. -/
inductive MarkPart : Unit → List Mark → List Char → Unit → Prop
  | char {x y : Unit} {c : Char} : c ≠ '<' → MarkPart x [] [c] y
  | opening {x y : Unit} {c : Char} : c ≠ '<' → Text.isBlank c = false → MarkPart x [] ['<', c] y
  | mark {x y : Unit} (m : Mark) : MarkPart x [m] m.text y

/-! ## The text of a placeholder -/

theorem digit_of_mem_ofNat {n : Nat} {c : Char} (h : c ∈ Text.ofNat n) :
    Text.isDecimalDigit c = true ∧ Text.isBlank c = false ∧ c ≠ '<' ∧ c ≠ '\n' := by
  have hd : c.isDigit = true := Nat.isDigit_of_mem_toDigits (by decide) (by decide) h
  have hn : 48 ≤ c.toNat ∧ c.toNat ≤ 57 := by
    simp only [Char.isDigit, Bool.and_eq_true, decide_eq_true_eq] at hd
    exact hd
  refine ⟨?_, ?_, ?_, ?_⟩
  · refine List.any_eq_true.mpr ⟨0x30, List.mem_cons_self, ?_⟩
    rw [Bool.and_eq_true, decide_eq_true_eq, decide_eq_true_eq]
    omega
  · simp [Text.isBlank]
    omega
  · rintro rfl
    simp at hn
  · rintro rfl
    simp at hn

theorem Mark.wellFormed (m : Mark) : (⟨Text.ofNat m.1, m.2⟩ : Placeholder).WellFormed :=
  ⟨Nat.toDigits_ne_nil, fun _ hd => (digit_of_mem_ofNat hd).1⟩

/-- Behind its two brackets a placeholder holds neither brackets of this kind nor blanks. -/
theorem Mark.text_eq (m : Mark) :
    ∃ w, m.text = '<' :: '<' :: 'p' :: w ∧ ∀ c ∈ 'p' :: w, c ≠ '<' ∧ Text.isBlank c = false := by
  have hre : ∀ c ∈ "re:".toList, c ≠ '<' ∧ Text.isBlank c = false :=
    Text.forall_mem_of_all (by decide)
  refine ⟨"re:".toList ++ Text.ofNat m.1 ++ (if m.2 then ['s'] else []) ++ ['>', '>'], rfl, ?_⟩
  intro c hc
  simp only [List.append_assoc, List.mem_cons, List.mem_append] at hc
  rcases hc with rfl | hc | hc | hc | hc
  · decide
  · exact hre c hc
  · exact ⟨(digit_of_mem_ofNat hc).2.2.1, (digit_of_mem_ofNat hc).2.1⟩
  · split at hc
    · rw [List.mem_singleton.mp hc]
      decide
    · cases hc
  · rcases hc with rfl | rfl | hc
    · decide
    · decide
    · cases hc

theorem Mark.isBlank_of_mem {m : Mark} {c : Char} (hc : c ∈ m.text) : Text.isBlank c = false := by
  obtain ⟨w, hw, hb⟩ := m.text_eq
  rw [hw, List.mem_cons, List.mem_cons] at hc
  rcases hc with rfl | rfl | hc
  · rfl
  · rfl
  · exact (hb c hc).2

theorem solid_mark (m : Mark) : Solid m.text := by
  obtain ⟨w, hw, hb⟩ := m.text_eq
  obtain he | ⟨u, c, he⟩ := List.eq_nil_or_concat ('<' :: 'p' :: w)
  · cases he
  · rw [List.concat_eq_append] at he
    have hmem : ∀ d ∈ u ++ [c], Text.isBlank d = false := by
      rw [← he]
      intro d hd
      rcases List.mem_cons.mp hd with rfl | hd
      · rfl
      · exact (hb d hd).2
    refine .inr ⟨u, c, by rw [hw, he]; rfl, fun hm => ?_, hmem c (by simp)⟩
    exact absurd (hmem _ hm) (by decide)

theorem MarkPart.solid {x y : Unit} {ms : List Mark} {s : List Char} (h : MarkPart x ms s y) :
    Solid s := by
  cases h with
  | char _ => exact .inl (by simp)
  | opening _ hb =>
    refine .inr ⟨[], _, rfl, fun hm => ?_, hb⟩
    rw [← List.mem_singleton.mp hm] at hb
    cases hb
  | mark m => exact solid_mark m

theorem dropBreakMarks_mark (m : Mark) (s : List Char) :
    dropBreakMarks (m.text ++ s) = m.text ++ dropBreakMarks s := by
  obtain ⟨w, hw, hb⟩ := m.text_eq
  have h₀ : '<' ∉ 'p' :: w := fun hm => (hb _ hm).1 rfl
  have h₁ : dropBreakMarks ('<' :: 'p' :: w ++ s) = '<' :: dropBreakMarks ('p' :: w ++ s) :=
    dropBreakMarks.eq_3 _ _ fun t _ ht => by simp at ht
  have h₂ : dropBreakMarks (m.text ++ s) = '<' :: dropBreakMarks ('<' :: 'p' :: w ++ s) := by
    rw [hw]
    exact dropBreakMarks.eq_3 _ _ fun t _ ht => by simp at ht
  rw [h₂, h₁, dropBreakMarks_append_of_not_mem h₀, hw]
  rfl

theorem joinLinesFrom_mark (m : Mark) (inRun : Bool) (s : List Char) :
    joinLinesFrom inRun (m.text ++ s) = m.text ++ joinLinesFrom false s := by
  obtain ⟨w, hw, hb⟩ := m.text_eq
  have hw' : ∀ c ∈ 'p' :: w, c ≠ '\n' ∧ c ≠ '<' := by
    intro c hc
    refine ⟨?_, (hb c hc).1⟩
    rintro rfl
    exact absurd (hb _ hc).2 (by decide)
  have h₁ : joinLinesFrom false ('<' :: 'p' :: w ++ s)
      = '<' :: joinLinesFrom false ('p' :: w ++ s) :=
    joinLinesFrom.eq_4 _ _ _ (by decide) fun t _ ht => by simp at ht
  have h₂ : joinLinesFrom inRun (m.text ++ s)
      = '<' :: joinLinesFrom false ('<' :: 'p' :: w ++ s) := by
    rw [hw]
    exact joinLinesFrom.eq_4 _ _ _ (by decide) fun t _ ht => by simp at ht
  rw [h₂, h₁, joinLinesFrom_append (by simp) hw', hw]
  rfl

namespace Marked

variable {ms ms' : List Mark} {s t : List Char}

theorem append (h : Marked ms s) (h' : Marked ms' t) : Marked (ms ++ ms') (s ++ t) := by
  induction h with
  | nil => exact h'
  | char hc _ ih => exact char hc ih
  | opening hc hb _ ih => exact opening hc hb ih
  | mark m _ ih =>
    rw [List.append_assoc]
    exact mark m ih

theorem of_not_mem (h : '<' ∉ s) : Marked [] s := by
  induction s with
  | nil => exact nil
  | cons c s ih =>
    simp only [List.mem_cons, not_or] at h
    exact char (Ne.symm h.1) (ih h.2)

theorem append_plain (h : Marked ms s) (ht : '<' ∉ t) : Marked ms (s ++ t) := by
  simpa using h.append (of_not_mem ht)

theorem plain_append (hs : '<' ∉ s) (h : Marked ms t) : Marked ms (s ++ t) :=
  (of_not_mem hs).append h

/-! ### Parts -/

/-- A character that is no bracket is a part by itself. -/
theorem of_cons {c : Char} (hc : c ≠ '<') (h : Marked ms (c :: s)) : Marked ms s := by
  generalize hx : c :: s = x at h
  cases h with
  | nil => cases hx
  | char _ h =>
    obtain ⟨rfl, rfl⟩ := List.cons.inj hx
    exact h
  | opening _ _ _ => exact absurd (List.cons.inj hx).1 hc
  | mark m _ =>
    obtain ⟨w, hw, -⟩ := m.text_eq
    rw [hw] at hx
    exact absurd (List.cons.inj hx).1 hc

theorem of_plain_append (hs : '<' ∉ s) (h : Marked ms (s ++ t)) : Marked ms t := by
  induction s with
  | nil => exact h
  | cons c s ih =>
    simp only [List.mem_cons, not_or] at hs
    exact ih hs.2 (of_cons (Ne.symm hs.1) h)

/-- Blank text holds no placeholder. -/
theorem eq_nil_of_isBlank (h : Marked ms s) (hs : ∀ c ∈ s, Text.isBlank c = true) : ms = [] := by
  induction h with
  | nil => rfl
  | char _ _ ih => exact ih fun c hc => hs c (List.mem_cons_of_mem _ hc)
  | opening _ _ _ _ => exact absurd (hs '<' List.mem_cons_self) (by decide)
  | mark m _ _ =>
    obtain ⟨w, hw, -⟩ := m.text_eq
    exact absurd (hs '<' (by simp [hw])) (by decide)

theorem of_sequence {x y : Unit} (h : Sequence MarkPart x ms s y) : Marked ms s := by
  induction h with
  | nil => exact nil
  | step hp _ ih =>
    cases hp with
    | char hc => exact char hc ih
    | opening hc hb => exact opening hc hb (char hc ih)
    | mark m => exact mark m ih

theorem sequence (h : Marked ms s) (x : Unit) : Sequence MarkPart x ms s x := by
  -- behind a bracket the induction is on what comes next, which is no part by itself
  suffices hs : Sequence MarkPart x ms s x ∧
      ∀ c t, s = c :: t → c ≠ '<' → Sequence MarkPart x ms t x from hs.1
  induction h with
  | nil => exact ⟨.nil x, nofun⟩
  | char hc _ ih =>
    refine ⟨.step (.char hc) ih.1, ?_⟩
    rintro _ _ ⟨⟩ -
    exact ih.1
  | opening hc hb _ ih =>
    refine ⟨.step (.opening hc hb) (ih.2 _ _ rfl hc), ?_⟩
    rintro _ _ ⟨⟩ hlt
    exact absurd rfl hlt
  | mark m _ ih =>
    refine ⟨.step (.mark m) ih.1, fun c t ht hlt => ?_⟩
    obtain ⟨w, hw, -⟩ := m.text_eq
    rw [hw] at ht
    exact absurd (List.cons.inj ht).1.symm hlt

/-- The rules of the layout keep a text marked. -/
theorem isReading : IsReading (fun (_ : Unit) ms s (_ : Unit) => Marked ms s) () where
  nil _ := nil
  append := append
  framing hc _ _ := char (ne_bracket_of_isFraming hc).1 nil
  newline := char (by decide) nil
  blank hb h :=
    have hlt := (ne_bracket_of_isFraming (isFraming_of_isBlank hb)).1
    ⟨char hlt nil, of_cons hlt h⟩
  split h hcut := by
    obtain ⟨ms₁, ms₂, y, hms, h₁, h₂⟩ := (h.sequence ()).exists_split MarkPart.solid hcut
    exact ⟨ms₁, ms₂, y, hms, of_sequence h₁, of_sequence h₂⟩

/-! ### Lines -/

/-- The lines of a marked text share its placeholders out among them. -/
theorem lines (h : Marked ms s) :
    ∃ mss : List (List Mark), ms = mss.flatten ∧ List.Forall₂ Marked mss (Text.lines s) := by
  induction h with
  | nil => exact ⟨[[]], rfl, .cons nil .nil⟩
  | @char c _ s hc _ ih =>
    obtain ⟨mss, rfl, hl⟩ := ih
    by_cases hn : c = '\n'
    · subst hn
      exact ⟨[] :: mss, rfl, .cons nil hl⟩
    · cases hls : Text.lines s with
      | nil => exact absurd hls (Text.lines_ne_nil s)
      | cons l ls =>
        rw [hls] at hl
        cases hl with
        | cons h hs =>
          rw [Text.lines_cons hn hls]
          exact ⟨_, rfl, .cons (char hc h) hs⟩
  | @opening c _ s hc hb _ ih =>
    obtain ⟨mss, rfl, hl⟩ := ih
    have hn : c ≠ '\n' := by
      rintro rfl
      exact absurd hb (by decide)
    cases hls : Text.lines s with
    | nil => exact absurd hls (Text.lines_ne_nil s)
    | cons l ls =>
      have hls' := Text.lines_cons hn hls
      rw [hls'] at hl
      cases hl with
      | cons h hs =>
        rw [Text.lines_cons (by decide) hls']
        exact ⟨_, rfl, .cons (opening hc hb h) hs⟩
  | @mark m _ s _ ih =>
    obtain ⟨mss, rfl, hl⟩ := ih
    cases hls : Text.lines s with
    | nil => exact absurd hls (Text.lines_ne_nil s)
    | cons l ls =>
      rw [hls] at hl
      cases hl with
      | @cons ms _ mss _ h hs =>
        have hn : '\n' ∉ m.text := fun hm => absurd (Mark.isBlank_of_mem hm) (by decide)
        rw [Text.lines_append_of_not_mem hn hls]
        exact ⟨(m :: ms) :: mss, rfl, .cons (mark m h) hs⟩

/-! ### Patterns -/

theorem dropBreakMarks (h : Marked ms s) : Marked ms (Mrkdwn.dropBreakMarks s) := by
  induction h with
  | nil => exact nil
  | char hc _ ih =>
    rw [dropBreakMarks_cons hc]
    exact char hc ih
  | @opening c _ s hc hb _ ih =>
    by_cases hm : ∃ t, '<' :: c :: s = breakMark ++ t
    · obtain ⟨t, ht⟩ := hm
      have hs : c :: s = "br />".toList ++ t := (List.cons.inj ht).2
      rw [ht, dropBreakMarks_breakMark_append]
      rw [hs, dropBreakMarks_append_of_not_mem (by decide)] at ih
      exact of_plain_append (by decide) ih
    · rw [Mrkdwn.dropBreakMarks.eq_3 _ _ fun t _ ht => hm ⟨t, congrArg _ ht⟩]
      rw [dropBreakMarks_cons hc] at ih ⊢
      exact opening hc hb ih
  | mark m _ ih =>
    rw [dropBreakMarks_mark]
    exact mark m ih

theorem joinLinesFrom (inRun : Bool) (h : Marked ms s) :
    Marked ms (Mrkdwn.joinLinesFrom inRun s) := by
  have hspace : ∀ inRun : Bool, '<' ∉ (if inRun then [] else [' ']) := by decide
  induction h generalizing inRun with
  | nil => exact nil
  | @char c _ s hc _ ih =>
    by_cases hn : c = '\n'
    · subst hn
      rw [joinLinesFrom_newline]
      exact (ih true).plain_append (hspace inRun)
    · rw [joinLinesFrom_cons inRun hn hc]
      exact char hc (ih false)
  | @opening c _ s hc hb _ ih =>
    have hn : c ≠ '\n' := by
      rintro rfl
      exact absurd hb (by decide)
    by_cases hm : ∃ t, '<' :: c :: s = breakMark ++ '\n' :: t
    · obtain ⟨t, ht⟩ := hm
      have hs : c :: s = "br />".toList ++ '\n' :: t := (List.cons.inj ht).2
      have ih := ih false
      rw [hs, joinLinesFrom_append (by decide) (Text.forall_mem_of_all (by decide)),
        joinLinesFrom_newline] at ih
      rw [ht, joinLinesFrom_breakMark]
      exact ((ih.of_plain_append (by decide)).of_plain_append (hspace false)).plain_append
        (hspace inRun)
    · have ih := ih false
      rw [Mrkdwn.joinLinesFrom.eq_4 inRun _ _ (by decide) fun t _ ht => hm ⟨t, congrArg _ ht⟩]
      rw [joinLinesFrom_cons false hn hc] at ih ⊢
      exact opening hc hb ih
  | mark m _ ih =>
    rw [joinLinesFrom_mark]
    exact mark m (ih false)

/-! ### Tokens -/

/-- A character of an encoded target is neither a bracket nor blank. -/
theorem of_mem_encode {href : List Char} {c : Char} (hc : c ∈ Text.Uri.encode href) :
    c ≠ '<' ∧ Text.isBlank c = false := by
  rcases Text.Uri.isPlain_of_mem_encode hc with hp | rfl
  · refine ⟨by rintro rfl; exact absurd hp (by decide), ?_⟩
    simp only [Text.Uri.isPlain, Bool.or_eq_true] at hp
    rcases hp with ha | hm
    · exact Text.isBlank_of_isAlphanum ha
    · rw [List.contains_iff_mem] at hm
      exact Text.forall_mem_of_all (p := fun c => Text.isBlank c = false) (by decide) c hm
  · decide

theorem link {href : List Char} (hne : href ≠ []) (hm : Mention.ofHref? href = none)
    (h : Marked ms s) : Marked ms (Mrkdwn.link s href) := by
  have hlabel : Marked ms (label s) :=
    isReading.trimWhile (fun _ hb => hb) (h.joinLinesFrom false)
  have hl : Marked ms ('|' :: label s ++ ['>']) :=
    char (by decide) (hlabel.append_plain (by decide))
  have hmem := fun c (hc : c ∈ Text.Uri.encode href) => of_mem_encode hc
  have hne' : Text.Uri.encode href ≠ [] := Text.Uri.encode_ne_nil hne
  simp only [Mrkdwn.link, hm, List.append_assoc, List.cons_append]
  cases he : Text.Uri.encode href with
  | nil => exact absurd he hne'
  | cons c w =>
    rw [he] at hmem
    obtain ⟨hc, hb⟩ := hmem c List.mem_cons_self
    exact opening hc hb (hl.plain_append (s := c :: w) fun hm => (hmem _ hm).1 rfl)

theorem dateToken {timestamp fallback : List Char} (ht : '<' ∉ timestamp) (hf : '<' ∉ fallback)
    (h : Marked ms s) : Marked ms (Mrkdwn.dateToken s timestamp fallback) := by
  have hfall : '<' ∉ '|' :: fallback ++ ['>'] := by simp [hf]
  have hs : Marked ms ('^' :: s ++ ('|' :: fallback ++ ['>'])) :=
    char (by decide) (h.append_plain hfall)
  have hdate : '<' ∉ "!date^".toList ++ timestamp := by
    rw [List.mem_append, not_or]
    exact ⟨by decide, ht⟩
  have hall := opening (c := '!') (by decide) (by decide) (hs.plain_append hdate)
  unfold Mrkdwn.dateToken
  simp only [List.append_assoc, List.cons_append] at hall ⊢
  exact hall

/-! ### Putting the code back -/

theorem read?_eq_none {c : Char} (hc : c ≠ '<') (s : List Char) :
    Placeholder.read? ('<' :: c :: s) = none := by
  simp [Placeholder.read?, hc]

theorem restore_mark (m : Mark) (s : List Char) (fences : Fences) :
    Mrkdwn.restore fences (m.text ++ s) = m.restored fences ++ Mrkdwn.restore fences s := by
  rw [Mrkdwn.restore, Mark.text, pieces_of_read? (Placeholder.read?_text_append m.wellFormed s)]
  rfl

/-- With the code back no placeholder is left. -/
theorem restore {fences : Fences} (hms : ∀ m ∈ ms, '<' ∉ m.restored fences) (h : Marked ms s) :
    Marked [] (Mrkdwn.restore fences s) := by
  induction h with
  | nil =>
    rw [restore_nil]
    exact nil
  | char hc _ ih =>
    rw [restore_cons (read?_cons_of_ne hc _)]
    exact char hc (ih hms)
  | opening hc hb _ ih =>
    have ih := ih hms
    rw [restore_cons (read?_eq_none hc _)]
    rw [restore_cons (read?_cons_of_ne hc _)] at ih ⊢
    exact opening hc hb ih
  | mark m _ ih =>
    rw [restore_mark]
    exact (ih fun m hm => hms m (List.mem_cons_of_mem _ hm)).plain_append
      (hms m List.mem_cons_self)

/-- The code stands where its placeholders stood, in their order. -/
theorem inOrder_restore (fences : Fences) (h : Marked ms s) :
    Text.InOrder (ms.map fun m => m.restored fences) (Mrkdwn.restore fences s) := by
  induction h with
  | nil => trivial
  | char hc _ ih =>
    rw [restore_cons (read?_cons_of_ne hc _)]
    exact ih.cons _
  | opening hc _ _ ih =>
    rw [restore_cons (read?_eq_none hc _)]
    exact ih.cons _
  | mark m _ ih =>
    rw [restore_mark]
    exact ⟨[], _, rfl, ih⟩

/-- A text without placeholders holds no two brackets in a row. -/
theorem not_infix (h : Marked [] s) : ¬"<<".toList <:+: s := by
  rintro ⟨before, after, hs⟩
  generalize hms : ([] : List Mark) = ms at h
  induction h generalizing before with
  | nil => simp at hs
  | @char c _ s hc _ ih =>
    cases before with
    | nil => exact hc (List.cons.inj hs).1.symm
    | cons d before => exact ih before (List.cons.inj hs).2 hms
  | @opening c _ s hc _ _ ih =>
    cases before with
    | nil => exact hc (List.cons.inj (List.cons.inj hs).2).1.symm
    | cons d before => exact ih before (List.cons.inj hs).2 hms
  | mark m _ _ => cases hms

end Marked

end Mrkdwn

end MessageLayout
