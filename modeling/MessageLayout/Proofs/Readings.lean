import Mathlib.Data.List.Induction
import MessageLayout.Proofs.HuggedText

/-!
# Readings of a text

The rules of the layout move characters, tokens, break marks and placeholders about as wholes. So
what a text shows can be read off its parts, whatever they are taken to show: `R x a s y` says that
`s`, read from the state `x`, shows `a` and leads to the state `y`. The rules keep what is shown if
a reading keeps to a few laws (`IsReading`):

* `append`: texts are read one behind the other.
* `framing` and `newline`: what the layout writes by itself shows nothing. A line may begin in the
  state `base`, and wherever one began before.
* `blank`: a blank is a part by itself, so it can be trimmed off.
* `split`: no part reaches across a place where the layout cuts (`Cut`).

A text that is a `Sequence` of solid parts is split as the last law asks (`Sequence.exists_split`).

    IsReading R base → R base a s base → R base a (wrapLines d w s) base   (IsReading.wrapLines)
    IsReading R base → R base a s base → R base a (layBlock n p s) base     (IsReading.layBlock)
-/

namespace MessageLayout.Mrkdwn

/-! ## Where a text may be cut -/

/-- A text that is never cut: it begins with a bracket, holds no line feed and does not end in a
blank, or there is nothing in it to cut. -/
def Solid (s : List Char) : Prop :=
  s.length ≤ 1 ∨ ∃ t c, s = '<' :: t ++ [c] ∧ '\n' ∉ t ++ [c] ∧ Text.isBlank c = false

/-- A place that no part of several characters reaches across: behind text without brackets, before
a line feed, and before a blank that is the last character. -/
def Cut (s t : List Char) : Prop :=
  '<' ∉ s ∨ (∃ t', t = '\n' :: t') ∨ ∃ c, t = [c] ∧ Text.isBlank c = true

theorem Solid.not_cut {u v r : List Char} (h : Solid (u ++ v)) (hu : u ≠ []) (hv : v ≠ []) :
    ¬Cut u (v ++ r) := by
  obtain ⟨d, u, rfl⟩ := List.exists_cons_of_ne_nil hu
  obtain ⟨e, v, rfl⟩ := List.exists_cons_of_ne_nil hv
  rcases h with hl | ⟨t, c, hs, hn, hb⟩
  · simp at hl
  · rw [List.cons_append, List.cons_append, List.cons.injEq] at hs
    obtain ⟨rfl, hs⟩ := hs
    rintro (hlt | ⟨t', ht⟩ | ⟨c', ht, hc'⟩)
    · exact hlt List.mem_cons_self
    · obtain ⟨rfl, -⟩ := List.cons.inj ht
      exact hn (by rw [← hs]; simp)
    · rw [List.cons_append, List.cons.injEq, List.append_eq_nil_iff] at ht
      obtain ⟨rfl, rfl, -⟩ := ht
      rw [List.cons.inj (List.append_inj' hs rfl).2 |>.1, hb] at hc'
      cases hc'

/-! ## Sequences of parts -/

/-- A text made of parts, one behind the other. -/
inductive Sequence {σ α : Type} (P : σ → List α → List Char → σ → Prop) :
    σ → List α → List Char → σ → Prop
  | nil (x : σ) : Sequence P x [] [] x
  | step {x y z : σ} {a b : List α} {s t : List Char} :
      P x a s y → Sequence P y b t z → Sequence P x (a ++ b) (s ++ t) z

namespace Sequence

variable {σ α : Type} {P : σ → List α → List Char → σ → Prop} {x y z : σ} {a b : List α}
  {s t : List Char}

theorem of_part (h : P x a s y) : Sequence P x a s y := by
  simpa using step h (nil y)

theorem append (h : Sequence P x a s y) (h' : Sequence P y b t z) :
    Sequence P x (a ++ b) (s ++ t) z := by
  induction h with
  | nil => exact h'
  | step hs _ ih =>
    rw [List.append_assoc, List.append_assoc]
    exact step hs (ih h')

/-- A text of solid parts is cut between two of them. -/
theorem exists_split (solid : ∀ {x y : σ} {a : List α} {s : List Char}, P x a s y → Solid s)
    (h : Sequence P x a (s ++ t) z) (hcut : Cut s t) :
    ∃ a₁ a₂ y, a = a₁ ++ a₂ ∧ Sequence P x a₁ s y ∧ Sequence P y a₂ t z := by
  generalize hr : s ++ t = r at h
  induction h generalizing s with
  | nil z =>
    obtain ⟨rfl, rfl⟩ := List.append_eq_nil_iff.mp hr
    exact ⟨[], [], z, rfl, nil z, nil z⟩
  | @step x y z b c q r hs h ih =>
    rcases List.append_eq_append_iff.mp hr with ⟨v, rfl, rfl⟩ | ⟨s', rfl, hr'⟩
    · by_cases hs0 : s = []
      · subst hs0
        exact ⟨[], b ++ c, x, rfl, nil x, step hs h⟩
      · by_cases hv0 : v = []
        · subst hv0
          rw [List.append_nil] at hs
          exact ⟨b, c, y, rfl, of_part hs, h⟩
        · exact absurd hcut ((solid hs).not_cut hs0 hv0)
    · have hcut' : Cut s' t := hcut.imp (fun hlt hm => hlt (List.mem_append_right _ hm)) id
      obtain ⟨a₁, a₂, w, rfl, h₁, h₂⟩ := ih hcut' hr'.symm
      exact ⟨b ++ a₁, a₂, w, (List.append_assoc _ _ _).symm, step hs h₁, h₂⟩

end Sequence

/-! ## Framing -/

/-- Whether the layout puts the character around text by itself: in delimiters, marks of quotations
and markers of lists, or as space. -/
def isFraming (c : Char) : Bool :=
  Text.isBlank c || c.isDigit || (zeroWidthSpace :: delimiterChars ++ "&gt;-.\u2022".toList).contains c

theorem isFraming_of_isBlank {c : Char} (h : Text.isBlank c = true) : isFraming c = true := by
  rw [isFraming, h, Bool.true_or, Bool.true_or]

theorem ne_bracket_of_isFraming {c : Char} (h : isFraming c = true) : c ≠ '<' ∧ c ≠ '>' := by
  constructor <;> (rintro rfl; exact absurd h (by decide))

/-- Text that the layout puts around other text on a line. -/
def IsMargin (s : List Char) : Prop :=
  ∀ c ∈ s, isFraming c = true ∧ c ≠ '\n'

instance (s : List Char) : Decidable (IsMargin s) :=
  List.decidableBAll (fun c => isFraming c = true ∧ c ≠ '\n') s

theorem isMargin_of_delimiting {s : List Char} (hs : ∀ c ∈ s, c ∈ zeroWidthSpace :: delimiterChars) :
    IsMargin s := by
  have h : IsMargin (zeroWidthSpace :: delimiterChars) := by decide
  exact fun c hc => h c (hs c hc)

theorem isMargin_ofInt (n : Int) : IsMargin (Text.ofInt n) := by
  have hnat : ∀ n, IsMargin (Text.ofNat n) := by
    intro n c hc
    have hd : c.isDigit = true := Nat.isDigit_of_mem_toDigits (by decide) (by decide) hc
    refine ⟨by simp [isFraming, hd], ?_⟩
    rintro rfl
    exact absurd hd (by decide)
  cases n with
  | ofNat n => exact hnat n
  | negSucc n => exact List.forall_mem_cons.mpr ⟨by decide, hnat _⟩

theorem isMargin_marker (m : Marker) : IsMargin m.text ∧ IsMargin m.indent := by
  cases m with
  | bullet => decide
  | number n =>
    have hdot : IsMargin ['.', ' '] := by decide
    have hspaces : IsMargin [' ', ' '] := by decide
    refine ⟨List.forall_mem_append.mpr ⟨isMargin_ofInt n, hdot⟩,
      List.forall_mem_append.mpr ⟨fun c hc => ?_, hspaces⟩⟩
    rw [List.eq_of_mem_replicate hc]
    decide

/-! ## Readings -/

/-- A way to read texts that the rules of the layout keep. -/
structure IsReading {σ α : Type} (R : σ → List α → List Char → σ → Prop) (base : σ) : Prop where
  nil : ∀ x, R x [] [] x
  append : ∀ {x y z a b s t}, R x a s y → R y b t z → R x (a ++ b) (s ++ t) z
  framing : ∀ {c}, isFraming c = true → c ≠ '\n' → ∀ x, R x [] [c] x
  newline : R base [] ['\n'] base
  blank : ∀ {x z a c s}, Text.isBlank c = true → R x a (c :: s) z → R x [] [c] x ∧ R x a s z
  split : ∀ {x z a s t}, R x a (s ++ t) z → Cut s t →
    ∃ a₁ a₂ y, a = a₁ ++ a₂ ∧ R x a₁ s y ∧ R y a₂ t z

namespace IsReading

variable {σ α : Type} {R : σ → List α → List Char → σ → Prop} {base x y z : σ} {a b : List α}
  {s t : List Char} (hR : IsReading R base)

include hR

/-! ### Framing -/

theorem of_margin (hs : IsMargin s) (x : σ) : R x [] s x := by
  induction s with
  | nil => exact hR.nil x
  | cons c s ih =>
    obtain ⟨⟨hc, hn⟩, hs⟩ := List.forall_mem_cons.mp hs
    exact hR.append (hR.framing hc hn x) (ih hs)

theorem append_margin (h : R x a s y) (ht : IsMargin t) : R x a (s ++ t) y := by
  simpa using hR.append h (hR.of_margin ht y)

theorem margin_append (hs : IsMargin s) (h : R x a t y) : R x a (s ++ t) y :=
  hR.append (hR.of_margin hs x) h

theorem of_newlines (n : Nat) : R base [] (List.replicate n '\n') base := by
  induction n with
  | zero => exact hR.nil base
  | succ n ih => exact hR.append hR.newline ih

theorem append_newlines (n : Nat) (h : R base a s base) :
    R base a (s ++ List.replicate n '\n') base := by
  simpa using hR.append h (hR.of_newlines n)

theorem newlines_append (n : Nat) (h : R base a s base) :
    R base a (List.replicate n '\n' ++ s) base :=
  hR.append (hR.of_newlines n) h

/-! ### Trimming -/

theorem of_blank_append (hs : ∀ c ∈ s, Text.isBlank c = true) (h : R base a (s ++ t) base) :
    R base a t base := by
  induction s with
  | nil => exact h
  | cons c s ih =>
    obtain ⟨hc, hs⟩ := List.forall_mem_cons.mp hs
    exact ih hs (hR.blank hc h).2

theorem of_append_blank (ht : ∀ c ∈ t, Text.isBlank c = true) (h : R base a (s ++ t) base) :
    R base a s base := by
  induction t using List.reverseRecOn with
  | nil => simpa using h
  | append_singleton t c ih =>
    rw [← List.append_assoc] at h
    have hc : Text.isBlank c = true := ht c (by simp)
    obtain ⟨a₁, a₂, y, rfl, h₁, h₂⟩ := hR.split h (.inr (.inr ⟨c, rfl, hc⟩))
    refine ih (fun d hd => ht d (by simp [hd])) ?_
    simpa using hR.append h₁ (hR.blank hc h₂).2

section Trimming

variable {q : Char → Bool} (hq : ∀ c, q c = true → Text.isBlank c = true)

include hq

theorem dropWhile (h : R base a s base) : R base a (s.dropWhile q) base := by
  rw [← List.takeWhile_append_dropWhile (p := q) (l := s)] at h
  exact hR.of_blank_append (fun c hc => hq c (List.mem_takeWhile_imp hc)) h

theorem trimEndWhile (h : R base a s base) : R base a (Text.trimEndWhile q s) base := by
  rw [← Text.trimEndWhile_append_takeEndWhile q s] at h
  exact hR.of_append_blank (fun c hc => hq c (Text.of_mem_takeEndWhile hc)) h

theorem trimWhile (h : R base a s base) : R base a (Text.trimWhile q s) base :=
  hR.trimEndWhile hq (hR.dropWhile hq h)

end Trimming

theorem trimStartIf (trims : Bool) (h : R base a s base) :
    R base a (Mrkdwn.trimStartIf trims s) base := by
  simp only [Mrkdwn.trimStartIf]
  split
  · exact hR.dropWhile Text.isBlank_of_eq_space h
  · exact h

theorem trimEnds (h : R base a s base) : R base a (Mrkdwn.trimEnds s) base := by
  refine hR.trimEndWhile (fun _ hb => hb) (hR.dropWhile (fun c hc => ?_) h)
  simp only [Bool.or_eq_true, decide_eq_true_eq] at hc
  rcases hc with (rfl | rfl) | rfl <;> rfl

/-! ### Lines -/

/-- A rule for lines that keeps what a line shows keeps what a text shows. -/
theorem intercalate_map_lines {indent : List Char} (hindent : IsMargin indent)
    {f : List Char → List Char} (hf : ∀ {x y a l}, R x a l y → R x a (f l) y) (h : R x a s z) :
    R x a ((['\n'] ++ indent).intercalate ((Text.lines s).map f)) z := by
  -- the induction is on what is left behind a line that has begun
  suffices hw : ∀ w, '\n' ∉ w → ∀ {x a}, R x a (w ++ s) z →
      R x a ((['\n'] ++ indent).intercalate ((Text.lines (w ++ s)).map f)) z from
    hw [] List.not_mem_nil h
  clear h
  induction s with
  | nil =>
    intro w hw x a h
    rw [List.append_nil] at h ⊢
    simpa [Text.lines_of_not_mem hw, List.intercalate] using hf h
  | cons c s ih =>
    intro w hw x a h
    by_cases hc : c = '\n'
    · subst hc
      obtain ⟨a₁, a₂, y, rfl, h₁, h₂⟩ := hR.split h (.inr (.inl ⟨s, rfl⟩))
      obtain ⟨hnewline, h₂⟩ := hR.blank rfl h₂
      have hrest := ih [] List.not_mem_nil h₂
      rw [Text.lines_append, Text.lines_of_not_mem hw]
      cases hl : Text.lines s with
      | nil => exact absurd hl (Text.lines_ne_nil s)
      | cons l ls =>
        rw [List.nil_append, hl] at hrest
        have hbetween := hR.append_margin hnewline hindent
        have hline := hR.append (hf h₁) (hR.append hbetween hrest)
        simpa [List.intercalate] using hline
    · have hwc : '\n' ∉ w ++ [c] := by simp [hw, Ne.symm hc]
      have hcons : w ++ c :: s = (w ++ [c]) ++ s := by simp
      rw [hcons] at h ⊢
      exact ih _ hwc h

theorem wrapLine {d : List Char} (hd : IsMargin d) (wrapsFences : Bool) (h : R x a s z) :
    R x a (Mrkdwn.wrapLine d wrapsFences s) z := by
  simp only [Mrkdwn.wrapLine]
  split
  · exact h
  · rw [← splitQuoteMark_append s] at h
    obtain ⟨a₁, a₂, y, rfl, h₁, h₂⟩ := hR.split h (.inl (not_mem_splitQuoteMark s))
    exact hR.append_margin (hR.append (hR.append_margin h₁ hd) h₂) hd

theorem wrapLines {d : List Char} (hd : IsMargin d) (wrapsFences : Bool) (h : R base a s base) :
    R base a (Mrkdwn.wrapLines d wrapsFences s) base :=
  hR.intercalate_map_lines (List.forall_mem_nil _) (hR.wrapLine hd wrapsFences) h

/-! ### Blocks -/

theorem join (h : R base a s base) (h' : R base b t base) :
    R base (a ++ b) (Mrkdwn.join s t) base :=
  hR.append (hR.append_newlines _ (hR.trimEndWhile Text.isBlank_of_eq_newline h))
    (hR.dropWhile Text.isBlank_of_eq_newline h')

theorem paragraph (h : R base a s base) : R base a (Mrkdwn.paragraph s) base :=
  hR.append_newlines 2 (hR.newlines_append 2 h)

theorem blockquote (h : R base a s base) : R base a (Mrkdwn.blockquote s) base :=
  hR.paragraph (hR.intercalate_map_lines (List.forall_mem_nil _)
    (hR.margin_append (s := quoteMark) (by decide)) (hR.trimWhile Text.isBlank_of_eq_newline h))

theorem listItem (item : ItemPosition) (h : R base a s base) :
    R base a (Mrkdwn.listItem s item) base := by
  obtain ⟨hm, hi⟩ := isMargin_marker item.marker
  have hb := hR.intercalate_map_lines hi (f := id) (fun h => h)
    (hR.trimWhile Text.isBlank_of_eq_newline h)
  rw [List.map_id] at hb
  have hbody := hR.margin_append hm hb
  simp only [Mrkdwn.listItem]
  split
  · exact hR.append_newlines 1 hbody
  · exact hR.append_newlines 0 hbody

theorem list (nestedLast : Bool) (h : R base a s base) :
    R base a (Mrkdwn.list s nestedLast) base := by
  simp only [Mrkdwn.list]
  split
  · exact hR.newlines_append 1 h
  · exact hR.paragraph h

/-! ### Elements -/

theorem layBlock (name : String) (place : Mrkdwn.Place) (h : R base a s base) :
    R base a (Mrkdwn.layBlock name place s) base := by
  simp only [Mrkdwn.layBlock]
  split
  · exact hR.blockquote h
  · exact hR.list _ h
  · exact hR.list _ h
  · exact hR.listItem _ h
  · exact hR.paragraph h

theorem layBlank (name : String) (children : List Html.Dom) :
    R base [] (Mrkdwn.layBlank name children) base := by
  simp only [Mrkdwn.layBlank]
  split
  · exact hR.of_newlines 2
  · split
    · exact hR.nil base
    · exact hR.of_margin (by decide) base

theorem placeholder (n : Nat) (singleLine : Bool)
    (h : R base a (⟨Text.ofNat n, singleLine⟩ : Placeholder).text base) :
    R base a (Mrkdwn.placeholder n singleLine) base :=
  hR.append_newlines 1 (hR.newlines_append 1 h)

/-- An inline element that is neither a link nor a date keeps what its content shows. -/
theorem layInline {d : Delimiters} (hd : Delimiting d) {name : String} (ha : name ≠ "a")
    (ht : name ≠ "time") (attrs : Html.Attrs) (h : R base a s base) :
    R base a (Mrkdwn.layInline d name attrs s) base := by
  simp only [Mrkdwn.layInline]
  split
  any_goals exact hR.wrapLines (isMargin_of_delimiting hd.strong.2) true h
  any_goals exact hR.wrapLines (isMargin_of_delimiting hd.emphasis.2) true h
  any_goals exact hR.wrapLines (isMargin_of_delimiting hd.strike.2) false h
  any_goals exact hR.wrapLines (isMargin_of_delimiting hd.code.2) true h
  · exact hR.margin_append (s := quoteMark) (by decide) h
  · exact absurd rfl ha
  · exact absurd rfl ht
  · exact h

/-- An element shows `b` if a block shows what its content shows and a line break shows nothing. -/
theorem layAround {d : Delimiters} {name : String} {attrs : Html.Attrs} (place : Mrkdwn.Place)
    (block : isBlockName name = true → b = a)
    (lineBreak : name = "br" → R base b (breakMark ++ ['\n']) base)
    (inline : name ≠ "br" → R base a (Text.trimWhile (· = ' ') s) base →
      R base b (Mrkdwn.layInline d name attrs (Text.trimWhile (· = ' ') s)) base)
    (h : R base a s base) : R base b (Mrkdwn.layAround d name attrs place s) base := by
  have hi := hR.trimWhile Text.isBlank_of_eq_space h
  refine layAround_cases (P := fun t => R base b t base) (fun hblock => ?_) lineBreak
    fun before behind hbefore hbehind hbr _ => ?_
  · rw [block hblock]
    exact hR.layBlock name place hi
  · exact hR.append_margin (hR.margin_append (Text.forall_mem_of_eq (by decide) hbefore)
      (inline hbr hi)) (Text.forall_mem_of_eq (by decide) hbehind)

end IsReading

end MessageLayout.Mrkdwn
