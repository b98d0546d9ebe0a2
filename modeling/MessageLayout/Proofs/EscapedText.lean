import Mathlib.Data.List.Induction
import MessageLayout.Html.Construction
import MessageLayout.Text.Entity

/-!
# Reading escaped text

What `escapeEntity` writes into a fragment is read back character by character: the three entities
are references to the characters they stand for, and no other character of an escaped text opens a
tag or a reference. Line ends are unified before, which commutes with escaping.

    '\x00' ∉ s → runFrom (.reading .text) (escapeEntity s) = (.reading .text, s.map .char)
                                                                    (runFrom_escapeEntity)
    unifyLineEnds (escapeEntity s) = escapeEntity (unifyLineEnds s)  (unifyLineEnds_escapeEntity)
-/

namespace MessageLayout

namespace Html

open Text (entity escapeEntity)

/-! ## Line ends -/

theorem unifyLineEnds_cons {c : Char} (hc : c ≠ '\r') (s : List Char) :
    unifyLineEnds (c :: s) = c :: unifyLineEnds s :=
  unifyLineEnds.eq_4 c s (fun _ h _ => hc h) hc

theorem unifyLineEnds_append {s : List Char} (hs : '\r' ∉ s) (t : List Char) :
    unifyLineEnds (s ++ t) = s ++ unifyLineEnds t := by
  induction s with
  | nil => rfl
  | cons c s ih =>
    simp only [List.mem_cons, not_or] at hs
    rw [List.cons_append, unifyLineEnds_cons (Ne.symm hs.1), ih hs.2, List.cons_append]

theorem unifyLineEnds_of_not_mem {s : List Char} (hs : '\r' ∉ s) : unifyLineEnds s = s := by
  simpa [unifyLineEnds] using unifyLineEnds_append hs []

/-- A line feed at the start of a text belongs to no line end before it. -/
theorem unifyLineEnds_carriageReturn {s : List Char} (hs : ∀ t, s ≠ '\n' :: t) :
    unifyLineEnds ('\r' :: s) = '\n' :: unifyLineEnds s :=
  unifyLineEnds.eq_3 s fun t h => hs t h

/-- Line ends are unified in the same way behind a change that keeps them and brings in no others. -/
theorem unifyLineEnds_flatMap {f : Char → List Char} (hr : f '\r' = ['\r']) (hn : f '\n' = ['\n'])
    (hc : ∀ c, c ≠ '\r' → c ≠ '\n' → f c ≠ [] ∧ '\r' ∉ f c ∧ '\n' ∉ f c) (s : List Char) :
    unifyLineEnds (s.flatMap f) = (unifyLineEnds s).flatMap f := by
  fun_induction unifyLineEnds s with
  | case1 => rfl
  | case2 s ih =>
    rw [List.flatMap_cons, List.flatMap_cons, List.flatMap_cons, hr, hn, ← ih]
    rfl
  | case3 s hs ih =>
    have hhead : ∀ t, s.flatMap f ≠ '\n' :: t := by
      intro t ht
      cases s with
      | nil => cases ht
      | cons c s =>
        have hcn : c ≠ '\n' := fun e => hs s (by rw [e])
        rw [List.flatMap_cons] at ht
        by_cases hcr : c = '\r'
        · rw [hcr, hr] at ht
          exact absurd (List.cons.inj ht).1 (by decide)
        · obtain ⟨hne, -, hnew⟩ := hc c hcr hcn
          cases hf : f c with
          | nil => exact hne hf
          | cons x w =>
            rw [hf] at ht hnew
            exact hnew ((List.cons.inj ht).1 ▸ List.mem_cons_self)
    rw [List.flatMap_cons, List.flatMap_cons, hr, hn, List.singleton_append,
      unifyLineEnds_carriageReturn hhead, ih, List.singleton_append]
  | case4 c s _ hcr ih =>
    have hnew : '\r' ∉ f c := by
      by_cases hcn : c = '\n'
      · rw [hcn, hn]
        decide
      · exact (hc c hcr hcn).2.1
    rw [List.flatMap_cons, List.flatMap_cons, unifyLineEnds_append hnew, ih]

end Html

namespace Text

theorem escapeEntity_cons (c : Char) (s : List Char) :
    escapeEntity (c :: s) = entity c ++ escapeEntity s :=
  rfl

theorem entity_of_ne {c : Char} (h₁ : c ≠ '&') (h₂ : c ≠ '<') (h₃ : c ≠ '>') :
    entity c = [c] := by
  simp [entity, h₁, h₂, h₃]

/-- Escaping neither adds nor removes a character that it does not write itself. -/
theorem mem_entity {c d : Char} (hd : d ∉ "&ampltg;<>".toList) : d ∈ entity c ↔ d = c := by
  have hne : ∀ x ∈ "&ampltg;<>".toList, d ≠ x := by
    rintro x hx rfl
    exact hd hx
  have none_of : ∀ {w : List Char}, (∀ x ∈ w, x ∈ "&ampltg;<>".toList) → d ∉ w :=
    fun hw hm => hd (hw d hm)
  unfold entity
  split
  · next h =>
    exact iff_of_false (none_of (forall_mem_of_all (by decide))) (hne c (h ▸ by decide))
  · split
    · next h =>
      exact iff_of_false (none_of (forall_mem_of_all (by decide))) (hne c (h ▸ by decide))
    · split
      · next h =>
        exact iff_of_false (none_of (forall_mem_of_all (by decide))) (hne c (h ▸ by decide))
      · exact List.mem_singleton

theorem mem_escapeEntity {d : Char} (hd : d ∉ "&ampltg;<>".toList) {s : List Char} :
    d ∈ escapeEntity s ↔ d ∈ s := by
  simp [escapeEntity, mem_entity hd]

theorem entity_ne_nil (c : Char) : entity c ≠ [] := by
  unfold entity
  split
  · decide
  · split
    · decide
    · split <;> simp

/-- An entity does not end in a blank. -/
theorem entity_eq_concat {c : Char} (hc : isBlank c = false) :
    ∃ w d, entity c = w ++ [d] ∧ isBlank d = false := by
  unfold entity
  split
  · exact ⟨"&amp".toList, ';', rfl, rfl⟩
  · split
    · exact ⟨"&lt".toList, ';', rfl, rfl⟩
    · split
      · exact ⟨"&gt".toList, ';', rfl, rfl⟩
      · exact ⟨[], c, rfl, hc⟩

theorem entity_of_isBlank {c : Char} (hc : isBlank c = true) : entity c = [c] := by
  apply entity_of_ne <;> (rintro rfl; exact absurd hc (by decide))

theorem trimEndWhile_escapeEntity (s : List Char) :
    trimEndWhile isBlank (escapeEntity s) = escapeEntity (trimEndWhile isBlank s) := by
  induction s using List.reverseRecOn with
  | nil => rfl
  | append_singleton s c ih =>
    rw [escapeEntity_append, escapeEntity_cons, escapeEntity_nil, List.append_nil]
    cases hc : isBlank c with
    | true => rw [entity_of_isBlank hc, trimEndWhile_concat_of_pos hc,
        trimEndWhile_concat_of_pos hc, ih]
    | false =>
      obtain ⟨w, d, hw, hd⟩ := entity_eq_concat hc
      rw [trimEndWhile_concat_of_neg hc, hw, ← List.append_assoc, trimEndWhile_concat_of_neg hd,
        escapeEntity_append, escapeEntity_cons, escapeEntity_nil, List.append_nil, hw,
        List.append_assoc]

/-- Escaping leaves the start of a text alone if it is a character that escaping does not write. -/
theorem escapeEntity_ne_cons {d : Char} (hd : d ∉ "&ampltg;<>".toList) {s : List Char}
    (hs : ∀ t, s ≠ d :: t) (t : List Char) : escapeEntity s ≠ d :: t := by
  intro h
  cases s with
  | nil => cases h
  | cons c u =>
    rw [escapeEntity_cons] at h
    cases he : entity c with
    | nil => exact entity_ne_nil c he
    | cons x w =>
      rw [he] at h
      obtain ⟨rfl, -⟩ := List.cons.inj h
      have hc : x ∈ entity c := he ▸ List.mem_cons_self
      rw [mem_entity hd] at hc
      exact hs u (hc ▸ rfl)

theorem bracket_not_mem_entity (c : Char) : '<' ∉ entity c ∧ '>' ∉ entity c := by
  unfold entity
  split
  · decide
  · split
    · decide
    · split
      · decide
      · next h₁ h₂ => simp [Ne.symm h₁, Ne.symm h₂]

theorem lt_not_mem_escapeEntity (s : List Char) : '<' ∉ escapeEntity s := by
  simp [escapeEntity, bracket_not_mem_entity]

theorem gt_not_mem_escapeEntity (s : List Char) : '>' ∉ escapeEntity s := by
  simp [escapeEntity, bracket_not_mem_entity]

end Text

namespace Html

open Text (escapeEntity)

theorem unifyLineEnds_escapeEntity (s : List Char) :
    unifyLineEnds (escapeEntity s) = escapeEntity (unifyLineEnds s) := by
  refine unifyLineEnds_flatMap rfl rfl (fun c hr hn => ⟨Text.entity_ne_nil c, ?_, ?_⟩) s
  · rw [Text.mem_entity (by decide)]
    exact Ne.symm hr
  · rw [Text.mem_entity (by decide)]
    exact Ne.symm hn

theorem dropMark_escapeEntity {s : List Char} (hs : ∀ t, s ≠ '\ufeff' :: t) :
    dropMark (escapeEntity s) = escapeEntity s :=
  dropMark.eq_2 _ (Text.escapeEntity_ne_cons (by decide) hs)

/-! ## References -/

/-- The entity of a character is read as the character. -/
theorem runFrom_entity {c : Char} (hc : c.toNat ≠ 0) :
    runFrom (.reading .text) (Text.entity c) = (.reading .text, [.char c]) := by
  unfold Text.entity
  split
  · next h => subst h; rfl
  · split
    · next h => subst h; rfl
    · split
      · next h => subst h; rfl
      · next h₁ h₂ _ => simp [runFrom, Mode.step, Place.step, textChar, h₁, h₂, hc]

/-- Escaped text is read as the characters of the text. -/
theorem runFrom_escapeEntity {s : List Char} (hs : ∀ c ∈ s, c.toNat ≠ 0) :
    runFrom (.reading .text) (escapeEntity s) = (.reading .text, s.map .char) := by
  induction s with
  | nil => rfl
  | cons c s ih =>
    rw [Text.escapeEntity_cons, runFrom_append, runFrom_entity (hs c List.mem_cons_self)]
    simp only [ih fun d hd => hs d (List.mem_cons_of_mem _ hd)]
    rfl

end Html

end MessageLayout
