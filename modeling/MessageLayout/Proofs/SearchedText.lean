import MessageLayout.Proofs.DateFragments
import MessageLayout.Proofs.QuotedText

/-!
# Searching a text for a pattern

A search runs through a text from left to right and finds matches that do not overlap, each the
first behind the last one. `Searched p s parts` says what it finds: the matches and the gaps between
them. The guards search a fragment for tags, and the text between tags for short names of emoji; a
text in which look-alikes are put into the gaps is searched with the same matches.

    ¬p [] → ∃ parts, Searched p s parts                                            (exists_searched)
    Searched IsTag html parts → spans html is parts                             (Searched.spans_eq)
    Searched IsEmoji s parts → substituteUnderscores s replaces in the gaps
                                                               (Searched.substituteUnderscores_eq)
    Searched p s parts → look-alikes in the gaps of parts → Searched p s' parts' (Searched.altered)
-/

namespace MessageLayout.Markup

/-! ## Parts of a text -/

/-- A part of a text that was searched. -/
inductive Part where
  /-- Text without a match. -/
  | gap (content : List Char)
  /-- A match. -/
  | hit (content : List Char)

namespace Part

/-- The characters of a part. -/
def content : Part → List Char
  | gap s | hit s => s

/-- The part with a gap changed. -/
def mapGap (f : List Char → List Char) : Part → Part
  | gap s => gap (f s)
  | hit m => hit m

/-- The part of a fragment that the part is in a search for tags. -/
def toSpan : Part → Span
  | gap s => .text s
  | hit m => .tag m

/-- The second part is the first, with look-alikes for characters of a gap. -/
inductive Alters : Part → Part → Prop
  | gap {s t : List Char} : Swaps s t → Alters (gap s) (gap t)
  | hit (m : List Char) : Alters (hit m) (hit m)

theorem Alters.swaps {a b : Part} (h : Alters a b) : Swaps a.content b.content := by
  cases h with
  | gap h => exact h
  | hit m => exact .refl m

end Part

/-- The text of parts. -/
def partsText (parts : List Part) : List Char :=
  parts.flatMap Part.content

@[simp] theorem partsText_nil : partsText [] = [] := rfl

@[simp] theorem partsText_cons (part : Part) (parts : List Part) :
    partsText (part :: parts) = part.content ++ partsText parts := rfl

@[simp] theorem partsText_append (parts parts' : List Part) :
    partsText (parts ++ parts') = partsText parts ++ partsText parts' :=
  List.flatMap_append

theorem swaps_partsText {parts parts' : List Part} (h : List.Forall₂ Part.Alters parts parts') :
    Swaps (partsText parts) (partsText parts') := by
  induction h with
  | nil => exact .nil
  | cons hpart _ ih => exact hpart.swaps.append ih

/-! ## Searches -/

/-- What a search of a text for a pattern finds. Before a match that it finds none begins. -/
inductive Searched (p : List Char → Prop) : List Char → List Part → Prop
  | rest {s : List Char} : (∀ m, m <:+: s → ¬p m) → Searched p s [.gap s]
  | found {a m s : List Char} {parts : List Part} :
      (∀ b, b ≠ [] → b <:+ a → ∀ m', m' <+: b ++ (m ++ s) → ¬p m') → p m → Searched p s parts →
        Searched p (a ++ (m ++ s)) (.gap a :: .hit m :: parts)

namespace Searched

variable {p : List Char → Prop} {s : List Char} {parts parts' : List Part}

theorem partsText_eq (h : Searched p s parts) : partsText parts = s := by
  induction h with
  | rest _ => exact List.append_nil _
  | found _ _ _ ih => rw [partsText_cons, partsText_cons, ih, Part.content, Part.content]

theorem of_hit_mem (h : Searched p s parts) {m : List Char} (hm : .hit m ∈ parts) : p m := by
  induction h with
  | rest _ => simp at hm
  | found _ hp _ ih =>
    simp only [List.mem_cons, reduceCtorEq, false_or, Part.hit.injEq] at hm
    rcases hm with rfl | hm
    · exact hp
    · exact ih hm

end Searched

/-- Every text can be searched for a pattern that the empty text does not match. -/
theorem exists_searched {p : List Char → Prop} (hp : ¬p []) (s : List Char) :
    ∃ parts, Searched p s parts := by
  classical
  induction hn : s.length using Nat.strong_induction_on generalizing s with
  | _ n ih =>
    by_cases h : ∃ k m, m <+: s.drop k ∧ p m
    · obtain ⟨k, ⟨m, ⟨rest, hrest⟩, hm⟩, hfirst⟩ :
          ∃ k, (∃ m, m <+: s.drop k ∧ p m) ∧ ∀ j < k, ¬∃ m, m <+: s.drop j ∧ p m :=
        ⟨Nat.find h, Nat.find_spec h, fun j hj => Nat.find_min h hj⟩
      obtain ⟨a, rfl, ha⟩ : ∃ a, s = a ++ (m ++ rest) ∧ a.length ≤ k :=
        ⟨s.take k, by rw [hrest, List.take_append_drop], List.length_take_le k s⟩
      have hpos : 0 < m.length := List.length_pos_of_ne_nil fun e => hp (e ▸ hm)
      have hlt : rest.length < n := by
        simp only [List.length_append] at hn
        omega
      obtain ⟨parts, hparts⟩ := ih _ hlt rest rfl
      refine ⟨.gap a :: .hit m :: parts, .found ?_ hm hparts⟩
      rintro b hb ⟨u, rfl⟩ m' hbegins hm'
      have hbefore : u.length < k := by
        have := List.length_pos_of_ne_nil hb
        simp only [List.length_append] at ha
        omega
      refine hfirst u.length hbefore ⟨m', ?_, hm'⟩
      rwa [List.append_assoc, List.drop_left]
    · refine ⟨[.gap s], .rest fun m ⟨u, v, huv⟩ hm => h ⟨u.length, m, ?_, hm⟩⟩
      rw [← huv, List.append_assoc, List.drop_left]
      exact List.prefix_append m v

/-! ## Look-alikes -/

theorem Swaps.exists_split_right {s t₁ t₂ : List Char} (h : Swaps s (t₁ ++ t₂)) :
    ∃ s₁ s₂, s = s₁ ++ s₂ ∧ Swaps s₁ t₁ ∧ Swaps s₂ t₂ :=
  ⟨s.take t₁.length, s.drop t₁.length, (List.take_append_drop _ s).symm,
    List.forall₂_take_append s t₁ t₂ h, List.forall₂_drop_append s t₁ t₂ h⟩

/-- A text without characters that guards put in is the text before. -/
theorem Swaps.eq_of_forall_mem {s t : List Char} (h : Swaps s t)
    (ht : ∀ d ∈ t, d ∉ styleLookalikes.map Prod.snd) : s = t := by
  induction h with
  | nil => rfl
  | cons hcd _ ih =>
    obtain ⟨hd, ht⟩ := List.forall_mem_cons.mp ht
    rw [ih ht]
    rcases hcd with rfl | hmem
    · rfl
    · exact absurd (List.mem_map_of_mem hmem) hd

/-- A character that no guard replaces stays. -/
theorem Swaps.mem_of_mem {s t : List Char} (h : Swaps s t) {x : Char}
    (hx : x ∉ styleLookalikes.map Prod.fst) (hs : x ∈ s) : x ∈ t := by
  induction h with
  | nil => exact hs
  | cons hcd _ ih =>
    rcases List.mem_cons.mp hs with rfl | hs
    · rcases hcd with rfl | hmem
      · exact List.mem_cons_self
      · exact absurd (List.mem_map_of_mem hmem) hx
    · exact List.mem_cons_of_mem _ (ih hs)

/-- Look-alikes in the gaps leave what a search finds, if they complete no match. -/
theorem Searched.altered {p : List Char → Prop} (hp : ∀ m m', Swaps m m' → p m' → p m)
    {s : List Char} {parts parts' : List Part} (h : Searched p s parts)
    (hparts : List.Forall₂ Part.Alters parts parts') : Searched p (partsText parts') parts' := by
  induction h generalizing parts' with
  | @rest s hnone =>
    cases hparts with
    | cons hpart hnil =>
      cases hpart with
      | @gap _ t ht =>
        cases hnil
        rw [partsText_cons, partsText_nil, List.append_nil]
        refine .rest ?_
        rintro m' ⟨u, v, rfl⟩ hm'
        obtain ⟨s₁, s₂, rfl, h₁, -⟩ := Swaps.exists_split_right ht
        obtain ⟨u₀, m, rfl, -, hm⟩ := Swaps.exists_split_right h₁
        exact hnone m ⟨u₀, s₂, rfl⟩ (hp m m' hm hm')
  | @found a m s parts hfirst hm hs ih =>
    cases hparts with
    | cons hpart hparts =>
      cases hpart with
      | @gap _ a' ha =>
        cases hparts with
        | @cons _ _ _ parts' hpart hparts =>
          cases hpart
          have htext := swaps_partsText hparts
          rw [hs.partsText_eq] at htext
          refine .found ?_ hm (ih hparts)
          rintro b' hb' ⟨u', rfl⟩ m' ⟨v', hv'⟩ hm'
          obtain ⟨u, b, rfl, -, hb⟩ := Swaps.exists_split_right ha
          have hbehind : Swaps (b ++ (m ++ s)) (m' ++ v') := by
            rw [hv']
            exact hb.append ((Swaps.refl m).append htext)
          obtain ⟨m₀, v, hsplit, hm₀, -⟩ := Swaps.exists_split_right hbehind
          have hne : b ≠ [] := by
            rintro rfl
            exact hb' (List.forall₂_nil_left_iff.mp hb)
          exact hfirst b hne (List.suffix_append u b) m₀ ⟨v, hsplit.symm⟩ (hp m₀ m' hm₀ hm')

/-! ## Tags -/

/-- A tag: from a `<` to the next `>`. -/
def IsTag (m : List Char) : Prop :=
  ∃ w, '>' ∉ w ∧ m = '<' :: (w ++ ['>'])

theorem not_isTag_nil : ¬IsTag [] := by
  rintro ⟨w, -, h⟩
  cases h

/-- A `<` begins a tag if a `>` follows. -/
theorem exists_isTag_of_mem {s : List Char} (h : '>' ∈ s) : ∃ m, IsTag m ∧ m <+: '<' :: s := by
  obtain ⟨w, rest, rfl, hw⟩ := List.eq_append_cons_of_mem h
  exact ⟨'<' :: (w ++ ['>']), ⟨w, hw, rfl⟩, rest, by simp⟩

theorem spansFrom_of_untagged {s : List Char} (hs : ∀ u v, s = u ++ '<' :: v → '>' ∉ v)
    (begun : List Char) : spansFrom false begun s = [.text (begun ++ s)] := by
  induction s generalizing begun with
  | nil => simp [spansFrom]
  | cons c s ih =>
    have hopen : ¬(c = '<' ∧ '>' ∈ s) := by
      rintro ⟨rfl, hm⟩
      exact hs [] s rfl hm
    have hrest := ih (fun u v h => hs (c :: u) v (by rw [h]; rfl)) (begun ++ [c])
    simpa [spansFrom, hopen] using hrest

/-- The parts of a fragment are the tags that a search finds, with the text between them. -/
theorem Searched.spans_eq {html : List Char} {parts : List Part} (h : Searched IsTag html parts) :
    spans html = parts.map Part.toSpan := by
  unfold spans
  induction h with
  | @rest s hnone =>
    refine spansFrom_of_untagged (fun u v huv hv => ?_) []
    obtain ⟨m, hm, hbegins⟩ := exists_isTag_of_mem hv
    exact hnone m (hbegins.isInfix.trans (huv ▸ (List.suffix_append u _).isInfix)) hm
  | @found a m s parts hfirst hm _ ih =>
    obtain ⟨w, hw, rfl⟩ := hm
    have hlt : '<' ∉ a := by
      intro hlt
      obtain ⟨u, v, rfl⟩ := List.append_of_mem hlt
      have hclose : '>' ∈ v ++ ('<' :: (w ++ ['>']) ++ s) := by simp
      obtain ⟨m, hm, hbegins⟩ := exists_isTag_of_mem hclose
      exact hfirst ('<' :: v) (by simp) (List.suffix_append u _) m hbegins hm
    have hsplit : a ++ ('<' :: (w ++ ['>']) ++ s) = a ++ '<' :: (w ++ '>' :: s) := by simp
    rw [hsplit, spansFrom_text hlt [] (by simp), spansFrom_tag hw, ih]
    rfl

/-- Look-alikes complete no tag. -/
theorem isTag_of_swaps {m m' : List Char} (h : Swaps m m') (hm' : IsTag m') : IsTag m := by
  obtain ⟨w', hw', rfl⟩ := hm'
  have hopen : '<' ∉ styleLookalikes.map Prod.snd := by decide
  have hclose : '>' ∉ styleLookalikes.map Prod.snd := by decide
  have hsteady : '>' ∉ styleLookalikes.map Prod.fst := by decide
  have h : Swaps m (['<'] ++ (w' ++ ['>'])) := h
  obtain ⟨first, m, rfl, hfirst, hm⟩ := h.exists_split_right
  obtain ⟨w, last, rfl, hw, hlast⟩ := hm.exists_split_right
  rw [hfirst.eq_of_forall_mem (by simpa using hopen),
    hlast.eq_of_forall_mem (by simpa using hclose)]
  exact ⟨w, fun hm => hw' (hw.mem_of_mem hsteady hm), rfl⟩

/-! ## Emoji -/

/-- The short name of an emoji between its colons. -/
def IsEmoji (m : List Char) : Prop :=
  ∃ name, name ≠ [] ∧ (∀ c ∈ name, isEmojiChar c = true) ∧ m = ':' :: (name ++ [':'])

theorem not_isEmoji_nil : ¬IsEmoji [] := by
  rintro ⟨name, -, -, h⟩
  cases h

theorem isEmoji_of_scanName? {s name rest : List Char}
    (h : Text.scanName? isEmojiChar ':' s = some (name, rest)) :
    IsEmoji (':' :: (name ++ [':'])) := by
  refine ⟨name, ?_, Text.forall_of_scanName? h, rfl⟩
  rintro rfl
  simp only [Text.scanName?] at h
  split at h
  · split at h
    next hclose =>
      rw [Bool.and_eq_true] at hclose
      have hname := congrArg Prod.fst (Option.some.inj h)
      simp only at hname
      simp [hname] at hclose
    · cases h
  · cases h

theorem scanName?_of_isEmojiChar {name : List Char} (hne : name ≠ [])
    (hname : ∀ c ∈ name, isEmojiChar c = true) (s : List Char) :
    Text.scanName? isEmojiChar ':' (name ++ ':' :: s) = some (name, s) := by
  have hcolon : isEmojiChar ':' = false := by decide
  have htake : (name ++ ':' :: s).takeWhile isEmojiChar = name := by
    rw [List.takeWhile_append_of_pos hname, List.takeWhile_cons_of_neg (by simp [hcolon]),
      List.append_nil]
  have hdrop : (name ++ ':' :: s).dropWhile isEmojiChar = ':' :: s := by
    rw [List.dropWhile_append_of_pos hname, List.dropWhile_cons_of_neg (by simp [hcolon])]
  simp [Text.scanName?, htake, hdrop, hne]

/-- Look-alikes complete no short name, and stand in none. -/
theorem eq_of_swaps_isEmoji {m m' : List Char} (h : Swaps m m') (hm' : IsEmoji m') : m = m' := by
  obtain ⟨name, -, hname, rfl⟩ := hm'
  have hcolon : ':' ∉ styleLookalikes.map Prod.snd := by decide
  have hlookalikes : ∀ d ∈ styleLookalikes.map Prod.snd, isEmojiChar d = false := by
    intro d hd
    simp only [styleLookalikes, List.map_cons, List.map_nil, List.mem_cons, List.not_mem_nil,
      or_false] at hd
    rcases hd with rfl | rfl | rfl | rfl <;> rfl
  refine h.eq_of_forall_mem fun d hd hmem => ?_
  have hd : d ∈ name ∨ d = ':' := by
    rcases List.mem_cons.mp hd with hd | hd
    · exact .inr hd
    · simpa using hd
  rcases hd with hd | rfl
  · have := hname d hd
    rw [hlookalikes d hmem] at this
    cases this
  · exact hcolon hmem

/-- Up to the first short name every underscore is replaced. -/
theorem substituteUnderscores_gap {a s : List Char}
    (h : ∀ b, b ≠ [] → b <:+ a → ∀ m, m <+: b ++ s → ¬IsEmoji m) :
    substituteUnderscores (a ++ s) = substitute '_' '\u02cd' a ++ substituteUnderscores s := by
  induction a with
  | nil => rfl
  | cons c a ih =>
    have hscan : c = ':' → Text.scanName? isEmojiChar ':' (a ++ s) = none := by
      rintro rfl
      rw [Option.eq_none_iff_forall_ne_some]
      rintro ⟨name, rest⟩ hname
      refine h (':' :: a) (by simp) List.suffix_rfl _ ⟨rest, ?_⟩ (isEmoji_of_scanName? hname)
      simp [Text.eq_append_of_scanName? hname]
    rw [List.cons_append, substituteUnderscores_cons hscan,
      ih fun b hb hsuffix => h b hb (hsuffix.trans (List.suffix_cons c a))]
    rfl

/-- Underscores are replaced in the gaps between short names. -/
theorem Searched.substituteUnderscores_eq {s : List Char} {parts : List Part}
    (h : Searched IsEmoji s parts) :
    substituteUnderscores s
      = partsText (parts.map (Part.mapGap (substitute '_' '\u02cd'))) := by
  induction h with
  | @rest s hnone =>
    have hgap := substituteUnderscores_gap (a := s) (s := []) fun b _ hsuffix m hbegins => by
      rw [List.append_nil] at hbegins
      exact hnone m (hbegins.isInfix.trans hsuffix.isInfix)
    have hnil : substituteUnderscores [] = [] := by simp [substituteUnderscores]
    rw [List.append_nil, hnil] at hgap
    exact hgap
  | @found a m s parts hfirst hm _ ih =>
    obtain ⟨name, hne, hname, rfl⟩ := hm
    have hsplit : ':' :: (name ++ [':']) ++ s = ':' :: (name ++ ':' :: s) := by simp
    rw [substituteUnderscores_gap hfirst, hsplit,
      substituteUnderscores_emoji (scanName?_of_isEmojiChar hne hname s), ih]
    simp [Part.mapGap, Part.content]

end MessageLayout.Markup
