import Mathlib.Data.List.Induction
import Mathlib.Data.List.TakeWhile
import MessageLayout.Proofs.ExactMode

/-!
# Delimiters close to their text

`undelimited s` is a text as it was before it was styled. `Hugged s` says that the delimiters in `s`
stand close to the text that they delimit: to look for space at the ends of `s` is to look for it at
the ends of that text, and trimming the one trims the other.

    Hugged s → undelimited (s.dropWhile (· = ' ')) = (undelimited s).dropWhile (· = ' ')
                                                                    (Hugged.undelimited_dropWhile)
    Hugged s → Hugged t → Hugged (s ++ t)                           (Hugged.append)
    Tight s → Tight (undelimited s) → Hugged (spaces ++ s ++ spaces) (Hugged.of_tight)
-/

namespace MessageLayout

namespace Text

/-! ## Ends -/

theorem trimEndWhile_congr {p q : Char → Bool} {s : List Char} (h : ∀ c ∈ s, p c = q c) :
    trimEndWhile p s = trimEndWhile q s := by
  induction s using List.reverseRecOn with
  | nil => rfl
  | append_singleton s c ih =>
    have hc := h c (by simp)
    cases hp : p c with
    | true =>
      rw [trimEndWhile_concat_of_pos hp, trimEndWhile_concat_of_pos (hc ▸ hp),
        ih fun d hd => h d (by simp [hd])]
    | false => rw [trimEndWhile_concat_of_neg hp, trimEndWhile_concat_of_neg (hc ▸ hp)]

theorem takeWhile_append_of_neg {p : Char → Bool} {s : List Char} {c : Char} (hc : c ∈ s)
    (hp : p c = false) (t : List Char) : (s ++ t).takeWhile p = s.takeWhile p := by
  induction s with
  | nil => cases hc
  | cons x s ih =>
    rcases List.mem_cons.mp hc with rfl | hc
    · simp [hp]
    · simp [List.takeWhile_cons, ih hc]

theorem mem_dropWhile_of_neg {p : Char → Bool} {s : List Char} {c : Char} (hc : c ∈ s)
    (hp : p c = false) : c ∈ s.dropWhile p := by
  rw [← List.takeWhile_append_dropWhile (p := p) (l := s), List.mem_append] at hc
  refine hc.resolve_left fun h => ?_
  rw [List.mem_takeWhile_imp h] at hp
  cases hp

theorem takeWhile_dropWhile (p : Char → Bool) (s : List Char) :
    (s.dropWhile p).takeWhile p = [] := by
  induction s with
  | nil => rfl
  | cons c s ih => cases hc : p c <;> simp [hc, ih]

/-- A text that does not consist of one class is its two ends around what is between them. -/
theorem takeWhile_append_trimWhile_append_takeEndWhile {p : Char → Bool} {s : List Char} {c : Char}
    (hc : c ∈ s) (hp : p c = false) :
    s.takeWhile p ++ trimWhile p s ++ takeEndWhile p s = s := by
  have hs := List.takeWhile_append_dropWhile (p := p) (l := s)
  have he : takeEndWhile p s = takeEndWhile p (s.dropWhile p) := by
    conv_lhs => rw [← hs]
    simp only [takeEndWhile, List.reverse_append]
    rw [takeWhile_append_of_neg (List.mem_reverse.mpr (mem_dropWhile_of_neg hc hp)) hp]
  rw [trimWhile, List.append_assoc, he, trimEndWhile_append_takeEndWhile, hs]

/-- A text consists of one class, or it is its two ends around what is between them. -/
theorem trimWhile_cases (p : Char → Bool) (s : List Char) :
    ((∀ c ∈ s, p c = true) ∧ trimWhile p s = []) ∨
      s.takeWhile p ++ trimWhile p s ++ takeEndWhile p s = s := by
  by_cases hall : ∀ c ∈ s, p c = true
  · refine .inl ⟨hall, ?_⟩
    rw [trimWhile, List.dropWhile_eq_nil_iff.mpr hall, trimEndWhile_nil]
  · obtain ⟨c, hc, hp⟩ := not_forall₂.mp hall
    exact .inr (takeWhile_append_trimWhile_append_takeEndWhile hc (Bool.eq_false_iff.mpr hp))

end Text

namespace Mrkdwn

/-! ## Delimiters -/

/-- The text without the characters that delimiters are made of. -/
def undelimited (s : List Char) : List Char :=
  s.filter (· ∉ zeroWidthSpace :: delimiterChars)

@[simp] theorem undelimited_append (s t : List Char) :
    undelimited (s ++ t) = undelimited s ++ undelimited t :=
  List.filter_append _ _

theorem undelimited_reverse (s : List Char) : undelimited s.reverse = (undelimited s).reverse :=
  List.filter_reverse

theorem mem_undelimited {c : Char} {s : List Char} :
    c ∈ undelimited s ↔ c ∈ s ∧ c ∉ zeroWidthSpace :: delimiterChars := by
  simp [undelimited]

theorem mem_undelimited_of_mem {c : Char} (hc : c ∉ zeroWidthSpace :: delimiterChars)
    {s : List Char} (h : c ∈ s) : c ∈ undelimited s :=
  mem_undelimited.mpr ⟨h, hc⟩

theorem undelimited_eq_self {s : List Char} (h : ∀ c ∈ s, c ∉ zeroWidthSpace :: delimiterChars) :
    undelimited s = s :=
  List.filter_eq_self.mpr fun c hc => decide_eq_true (h c hc)

theorem undelimited_of_eq_space {s : List Char} (h : ∀ c ∈ s, c = ' ') : undelimited s = s :=
  undelimited_eq_self (Text.forall_mem_of_eq (by decide) h)

/-- The delimiters are there, and are made of the characters that delimit. -/
structure Delimiting (d : Delimiters) : Prop where
  strong : d.strong ≠ [] ∧ ∀ c ∈ d.strong, c ∈ zeroWidthSpace :: delimiterChars
  emphasis : d.emphasis ≠ [] ∧ ∀ c ∈ d.emphasis, c ∈ zeroWidthSpace :: delimiterChars
  strike : d.strike ≠ [] ∧ ∀ c ∈ d.strike, c ∈ zeroWidthSpace :: delimiterChars
  code : d.code ≠ [] ∧ ∀ c ∈ d.code, c ∈ zeroWidthSpace :: delimiterChars

theorem delimiting_delimiters (options : FormatOptions) : Delimiting (delimiters options) := by
  cases options with
  | mk exact =>
    cases exact <;> constructor <;> exact ⟨by decide, Text.forall_mem_of_all (by decide)⟩

/-- A text with neither end a space. -/
structure Tight (s : List Char) : Prop where
  first : ∃ c t, s = c :: t ∧ c ≠ ' '
  last : ∃ t c, s = t ++ [c] ∧ c ≠ ' '

/-- A text whose delimiters do not stand between its space and its end: the spaces at its ends are
those of the text without delimiters, and nothing but space is not delimited. -/
structure Hugged (s : List Char) : Prop where
  first : s.takeWhile (· = ' ') = (undelimited s).takeWhile (· = ' ')
  last : s.reverse.takeWhile (· = ' ') = (undelimited s).reverse.takeWhile (· = ' ')
  bare : (∀ c ∈ undelimited s, c = ' ') → undelimited s = s

namespace Tight

variable {s t : List Char}

theorem reverse (h : Tight s) : Tight s.reverse := by
  obtain ⟨⟨c, t, hf, hc⟩, u, d, hl, hd⟩ := h
  refine ⟨⟨d, u.reverse, ?_, hd⟩, t.reverse, c, ?_, hc⟩
  · rw [hl]
    simp
  · rw [hf]
    simp

theorem takeWhile_append (h : Tight s) (t : List Char) : (s ++ t).takeWhile (· = ' ') = [] := by
  obtain ⟨c, u, rfl, hc⟩ := h.first
  simp [hc]

/-- Between its spaces a text that is not all space is tight. -/
theorem trimWhile {c : Char} (hm : c ∈ s) (hc : c ≠ ' ') : Tight (Text.trimWhile (· = ' ') s) := by
  -- what is left of a text that is not all space begins with another character
  have hdrop : ∀ {u : List Char} {x : Char}, x ∈ u → x ≠ ' ' →
      ∃ y v, u.dropWhile (· = ' ') = y :: v ∧ y ≠ ' ' := by
    intro u x hx hne
    induction u with
    | nil => cases hx
    | cons y u ih =>
      by_cases hy : y = ' '
      · subst hy
        rcases List.mem_cons.mp hx with rfl | hx
        · exact absurd rfl hne
        · simpa using ih hx
      · exact ⟨y, u, by simp [hy], hy⟩
  obtain ⟨x, v, hv, hx⟩ := hdrop hm hc
  have hlast : ∃ y w, (x :: v).reverse.dropWhile (· = ' ') = y :: w ∧ y ≠ ' ' :=
    hdrop (List.mem_reverse.mpr List.mem_cons_self) hx
  have hfirst : ∃ w, (x :: v).reverse.dropWhile (· = ' ') = w ++ [x] := by
    rw [List.reverse_cons, List.dropWhile_append]
    split
    · exact ⟨[], by simp [hx]⟩
    · exact ⟨_, rfl⟩
  obtain ⟨y, w, hw, hy⟩ := hlast
  obtain ⟨w', hw'⟩ := hfirst
  simp only [Text.trimWhile, Text.trimEndWhile, hv]
  refine ⟨⟨x, w'.reverse, ?_, hx⟩, w.reverse, y, ?_, hy⟩
  · rw [hw']
    simp
  · rw [hw]
    simp

end Tight

namespace Hugged

variable {s t : List Char}

theorem of_undelimited_eq (h : undelimited s = s) : Hugged s :=
  ⟨by rw [h], by rw [h], fun _ => h⟩

theorem reverse (h : Hugged s) : Hugged s.reverse := by
  refine ⟨?_, ?_, fun hs => ?_⟩
  · rw [undelimited_reverse]
    exact h.last
  · rw [undelimited_reverse, List.reverse_reverse, List.reverse_reverse]
    exact h.first
  · rw [undelimited_reverse] at hs ⊢
    rw [h.bare fun c hc => hs c (List.mem_reverse.mpr hc)]

theorem takeWhile_append (h : Hugged s) (h' : Hugged t) :
    (s ++ t).takeWhile (· = ' ') = (undelimited (s ++ t)).takeWhile (· = ' ') := by
  rw [undelimited_append]
  by_cases hs : ∀ c ∈ undelimited s, c = ' '
  · have hpos : ∀ c ∈ s, decide (c = ' ') = true := by
      intro c hc
      rw [← h.bare hs] at hc
      exact decide_eq_true (hs c hc)
    rw [h.bare hs, List.takeWhile_append_of_pos hpos, List.takeWhile_append_of_pos hpos, h'.first]
  · simp only [not_forall] at hs
    obtain ⟨c, hc, hne⟩ := hs
    have hp : decide (c = ' ') = false := decide_eq_false hne
    rw [Text.takeWhile_append_of_neg (mem_undelimited.mp hc).1 hp,
      Text.takeWhile_append_of_neg hc hp, h.first]

theorem append (h : Hugged s) (h' : Hugged t) : Hugged (s ++ t) := by
  refine ⟨h.takeWhile_append h', ?_, fun hst => ?_⟩
  · rw [← undelimited_reverse, List.reverse_append]
    exact h'.reverse.takeWhile_append h.reverse
  · rw [undelimited_append] at hst ⊢
    rw [h.bare fun c hc => hst c (List.mem_append_left _ hc),
      h'.bare fun c hc => hst c (List.mem_append_right _ hc)]

/-- Tight text between spaces is hugged, whatever delimiters it holds. -/
theorem of_tight {first last : List Char} (hf : ∀ c ∈ first, c = ' ') (hl : ∀ c ∈ last, c = ' ')
    (hs : Tight s) (hu : Tight (undelimited s)) : Hugged (first ++ s ++ last) := by
  have takes : ∀ {first s : List Char} (last : List Char), (∀ c ∈ first, c = ' ') → Tight s →
      (first ++ s ++ last).takeWhile (· = ' ') = first := by
    intro first s last hf hs
    rw [List.append_assoc, List.takeWhile_append_of_pos fun c hc => decide_eq_true (hf c hc),
      hs.takeWhile_append, List.append_nil]
  have hund : undelimited (first ++ s ++ last) = first ++ undelimited s ++ last := by
    rw [undelimited_append, undelimited_append, undelimited_of_eq_space hf,
      undelimited_of_eq_space hl]
  have hl' : ∀ c ∈ last.reverse, c = ' ' := fun c hc => hl c (List.mem_reverse.mp hc)
  refine ⟨?_, ?_, fun h => ?_⟩
  · rw [hund, takes last hf hs, takes last hf hu]
  · rw [hund]
    simp only [List.reverse_append, ← List.append_assoc]
    rw [takes _ hl' hs.reverse, takes _ hl' hu.reverse]
  · obtain ⟨c, t, he, hc⟩ := hu.first
    exact absurd (h c (by rw [hund, he]; simp)) hc

/-! ### Trimming -/

theorem undelimited_dropWhile (h : Hugged s) :
    undelimited (s.dropWhile (· = ' ')) = (undelimited s).dropWhile (· = ' ') := by
  have hs := congrArg undelimited (List.takeWhile_append_dropWhile (p := (· = ' ')) (l := s))
  rw [undelimited_append, undelimited_of_eq_space fun _ => Text.eq_of_mem_takeWhile, h.first] at hs
  exact List.append_cancel_left (hs.trans List.takeWhile_append_dropWhile.symm)

theorem undelimited_trimEndWhile (h : Hugged s) :
    undelimited (Text.trimEndWhile (· = ' ') s) = Text.trimEndWhile (· = ' ') (undelimited s) := by
  simp only [Text.trimEndWhile]
  rw [undelimited_reverse, h.reverse.undelimited_dropWhile, undelimited_reverse]

theorem dropWhile (h : Hugged s) : Hugged (s.dropWhile (· = ' ')) := by
  have hs := List.takeWhile_append_dropWhile (p := (· = ' ')) (l := s)
  by_cases hall : ∀ c ∈ undelimited s, c = ' '
  · refine of_undelimited_eq ?_
    rw [h.undelimited_dropWhile, h.bare hall]
  · simp only [not_forall] at hall
    obtain ⟨c, hc, hne⟩ := hall
    have hp : decide (c = ' ') = false := decide_eq_false hne
    have ends : ∀ {u : List Char}, c ∈ u →
        (u.dropWhile (· = ' ')).reverse.takeWhile (· = ' ') = u.reverse.takeWhile (· = ' ') := by
      intro u hu
      conv_rhs => rw [← List.takeWhile_append_dropWhile (p := (· = ' ')) (l := u)]
      rw [List.reverse_append,
        Text.takeWhile_append_of_neg (List.mem_reverse.mpr (Text.mem_dropWhile_of_neg hu hp)) hp]
    refine ⟨?_, ?_, fun hd => ?_⟩
    · rw [h.undelimited_dropWhile, Text.takeWhile_dropWhile, Text.takeWhile_dropWhile]
    · rw [h.undelimited_dropWhile, ends (mem_undelimited.mp hc).1, ends hc, h.last]
    · rw [h.undelimited_dropWhile] at hd
      exact absurd (hd c (Text.mem_dropWhile_of_neg hc hp)) hne

theorem undelimited_trimWhile (h : Hugged s) :
    undelimited (Text.trimWhile (· = ' ') s) = Text.trimWhile (· = ' ') (undelimited s) := by
  simp only [Text.trimWhile]
  rw [h.dropWhile.undelimited_trimEndWhile, h.undelimited_dropWhile]

/-- Delimiters do not hide the space that a text ends in. -/
theorem getLast?_eq_space_iff (h : Hugged s) :
    s.getLast? = some ' ' ↔ (undelimited s).getLast? = some ' ' := by
  have ends : ∀ u : List Char,
      u.getLast? = some ' ' ↔ u.reverse.takeWhile (· = ' ') ≠ [] := by
    intro u
    rw [List.getLast?_eq_head?_reverse]
    cases u.reverse with
    | nil => simp
    | cons x v => by_cases hx : x = ' ' <;> simp [hx]
  rw [ends, ends, h.last]

theorem eq_nil_iff (h : Hugged s) : s = [] ↔ undelimited s = [] :=
  ⟨by rintro rfl; rfl, fun e => by rw [← h.bare (by simp [e]), e]⟩

end Hugged

end Mrkdwn

end MessageLayout
