import MessageLayout.Proofs.CodeFences

/-!
# Texts and what they carry

The text of a document goes through many rules before it is written. `Carries F p x a s y` says that
`s` carries the characters `a`, in this order, and tells them from all else in it: from what the
rules write themselves, from placeholders, which stand for the code in `F`, and from the targets of
links and the timestamps of dates, which are written as they are given. A timestamp may hold
anything, also what looks like a mark of the layout, and its lines are cut and styled like others;
so a text is read from a zone `x` into a zone `y`, and nothing of a timestamp is carried. Each
target and each timestamp ends in a character that no mark holds, a barrier.

    IsReading (Carries F p) .plain                                        (Carries.isReading)
    Carries F p .plain a s .plain → … (dropBreakMarks s) …, … (restore F s) …
    Carries F ⟨_, False, False⟩ … a s … → a.Sublist s                     (Carries.sublist)
-/

namespace MessageLayout

/-- The characters of a text that are not blank. -/
def Text.nonblanks (s : List Char) : List Char :=
  s.filter fun c => !Text.isBlank c

namespace Mrkdwn

open Text (nonblanks)

/-- A text without brackets. -/
def Unbracketed (s : List Char) : Prop :=
  ∀ c ∈ s, c ≠ '<' ∧ c ≠ '>'

instance (s : List Char) : Decidable (Unbracketed s) :=
  List.decidableBAll (fun c => c ≠ '<' ∧ c ≠ '>') s

/-- The part of a text that is read: text of the document, or the timestamp of a date. -/
inductive Zone where
  | plain
  | timestamp

/-- The characters that end a target or a timestamp, or stand behind the bracket of a token. No
break mark and no placeholder holds one. -/
def barriers : List Char := ['#', '@', '!', '|', '^']

/-- What a text may still hold beside what it carries. -/
structure Allowance where
  /-- Whether timestamps may hold brackets. -/
  brackets : Prop
  /-- Whether there may be break marks. -/
  breaks : Prop
  /-- Whether there may be placeholders. -/
  placeholders : Prop

/-- The smallest parts of a text, with the characters that they carry and the zones before and
behind them. -/
inductive Step (F : Fences) (p : Allowance) : Zone → List Char → List Char → Zone → Prop
  /-- A timestamp begins. -/
  | hide : Step F p .plain [] [] .timestamp
  | noise {c : Char} : c ≠ '<' → c ≠ '>' → Step F p .plain [] [c] .plain
  | shown {c : Char} : c ≠ '<' → Text.isBlank c = false → Step F p .plain [c] [c] .plain
  /-- The bracket of a link with the target, or that of another token. -/
  | opening {w : List Char} {b : Char} :
      Unbracketed w → (∀ c ∈ w, Text.isBlank c = false) → b ∈ barriers →
        Step F p .plain ['<'] ('<' :: w ++ [b]) .plain
  | breakMark : p.breaks → Step F p .plain [] Mrkdwn.breakMark .plain
  | mark {m : Mark} : p.placeholders → '<' ∉ m.restored F →
      Step F p .plain (nonblanks (m.restored F)) m.text .plain
  | hidden {c : Char} : (c = '<' ∨ c = '>' → p.brackets) →
      Step F p .timestamp [] [c] .timestamp
  | barrier {b : Char} : b ∈ barriers → Step F p .timestamp [] [b] .plain

/-- A text made of such parts. -/
inductive Carries (F : Fences) (p : Allowance) : Zone → List Char → List Char → Zone → Prop
  | nil (z : Zone) : Carries F p z [] [] z
  | step {x y z : Zone} {a b s t : List Char} :
      Step F p x a s y → Carries F p y b t z → Carries F p x (a ++ b) (s ++ t) z

/-! ## Parts -/

theorem of_mem_barriers {b : Char} (hb : b ∈ barriers) :
    b ≠ '<' ∧ b ≠ '>' ∧ b ≠ '\n' ∧ Text.isBlank b = false ∧ b ∉ breakMark ∧
      b ∉ Placeholder.opening ∧ b ≠ 's' ∧ Text.isDecimalDigit b = false := by
  have h : ∀ b ∈ barriers, b ≠ '<' ∧ b ≠ '>' ∧ b ≠ '\n' ∧ Text.isBlank b = false ∧
      b ∉ breakMark ∧ b ∉ Placeholder.opening ∧ b ≠ 's' ∧ Text.isDecimalDigit b = false :=
    Text.forall_mem_of_all (by decide)
  exact h b hb

theorem restore_append_of_not_mem {s : List Char} (hs : '<' ∉ s) (F : Fences) (t : List Char) :
    restore F (s ++ t) = s ++ restore F t := by
  induction s with
  | nil => rfl
  | cons c s ih =>
    simp only [List.mem_cons, not_or] at hs
    rw [List.cons_append, restore_cons (read?_cons_of_ne (Ne.symm hs.1) _), ih hs.2,
      List.cons_append]

/-- No barrier stands in a placeholder. -/
theorem Placeholder.not_mem_barriers {q : Placeholder} (hq : q.WellFormed) {c : Char}
    (hc : c ∈ q.text) : c ∉ barriers := by
  intro hb
  obtain ⟨-, hgt, -, -, -, hopen, hs, hdigit⟩ := of_mem_barriers hb
  simp only [Placeholder.text, List.mem_append] at hc
  rcases hc with ((hc | hc) | hc) | hc
  · exact hopen hc
  · rw [hq.2 c hc] at hdigit
    cases hdigit
  · split at hc
    · exact hs (List.mem_singleton.mp hc)
    · cases hc
  · simp at hc
    exact hgt hc

/-- A token does not begin like a break mark. -/
theorem append_ne_breakMark {w : List Char} {c : Char} (hw : ∀ d ∈ w, Text.isBlank d = false)
    (hc : c ∈ barriers) (s t : List Char) : w ++ c :: s ≠ "br />".toList ++ t := by
  intro h
  have hspace : ' ' ∉ w := fun hm => absurd (hw ' ' hm) (by decide)
  rcases List.append_eq_append_iff.mp h with ⟨v, hv, hs⟩ | ⟨v, rfl, -⟩
  · cases v with
    | nil =>
      rw [List.append_nil] at hv
      exact hspace (hv ▸ by decide)
    | cons d v =>
      obtain ⟨rfl, -⟩ := List.cons.inj hs
      have hm : c ∈ "br />".toList := by simp [hv]
      exact (of_mem_barriers hc).2.2.2.2.1 (List.mem_cons_of_mem '<' hm)
  · exact hspace (List.mem_append_left _ (by decide))

section Opening

variable {w : List Char} {c : Char} (hw : Unbracketed w) (hb : ∀ d ∈ w, Text.isBlank d = false)
  (hc : c ∈ barriers)

include hw hc in
theorem lt_not_mem_opening : '<' ∉ w ++ [c] := by
  simp only [List.mem_append, List.mem_singleton, not_or]
  exact ⟨fun hm => (hw _ hm).1 rfl, (of_mem_barriers hc).1.symm⟩

include hw hb hc

theorem dropBreakMarks_opening (s : List Char) :
    dropBreakMarks ('<' :: w ++ [c] ++ s) = '<' :: w ++ [c] ++ dropBreakMarks s := by
  have hne : ∀ t, w ++ [c] ++ s ≠ "br />".toList ++ t := by
    intro t
    simpa using append_ne_breakMark hb hc s t
  have hcons := dropBreakMarks.eq_3 '<' (w ++ [c] ++ s) fun t _ ht => hne t ht
  rw [dropBreakMarks_append_of_not_mem (lt_not_mem_opening hw hc)] at hcons
  simpa using hcons

theorem joinLinesFrom_opening (inRun : Bool) (s : List Char) :
    joinLinesFrom inRun ('<' :: w ++ [c] ++ s) = '<' :: w ++ [c] ++ joinLinesFrom false s := by
  have hline : ∀ d ∈ w ++ [c], d ≠ '\n' ∧ d ≠ '<' := by
    intro d hd
    refine ⟨?_, fun hlt => lt_not_mem_opening hw hc (hlt ▸ hd)⟩
    rintro rfl
    rcases List.mem_append.mp hd with hd | hd
    · exact absurd (hb _ hd) (by decide)
    · exact (of_mem_barriers hc).2.2.1 (List.mem_singleton.mp hd).symm
  have hne : ∀ t, w ++ [c] ++ s ≠ "br />".toList ++ t := by
    intro t
    simpa using append_ne_breakMark hb hc s t
  have hcons := joinLinesFrom.eq_4 inRun '<' (w ++ [c] ++ s) (by decide)
    fun t _ ht => hne ('\n' :: t) ht
  rw [joinLinesFrom_append (by simp) hline] at hcons
  simpa using hcons

omit hb in
theorem restore_opening (F : Fences) (s : List Char) :
    restore F ('<' :: w ++ [c] ++ s) = '<' :: w ++ [c] ++ restore F s := by
  have hlt := lt_not_mem_opening hw hc
  cases hd : w ++ [c] with
  | nil => simp at hd
  | cons d u =>
    have hne : d ≠ '<' := by
      rintro rfl
      exact hlt (hd ▸ List.mem_cons_self)
    have hnone := restore_cons (Marked.read?_eq_none hne (u ++ s)) F
    rw [← List.cons_append, ← hd, restore_append_of_not_mem hlt] at hnone
    simpa using hnone

end Opening

theorem solid_opening {w : List Char} {b : Char} (hw : ∀ c ∈ w, Text.isBlank c = false)
    (hb : b ∈ barriers) : Solid ('<' :: w ++ [b]) := by
  obtain ⟨-, -, hn, hblank, -⟩ := of_mem_barriers hb
  refine .inr ⟨w, b, rfl, fun hm => ?_, hblank⟩
  rcases List.mem_append.mp hm with hm | hm
  · exact absurd (hw _ hm) (by decide)
  · exact hn (List.mem_singleton.mp hm).symm

theorem solid_breakMark : Solid breakMark :=
  .inr ⟨"br /".toList, '>', rfl, by decide, rfl⟩

theorem Step.solid {F : Fences} {p : Allowance} {x y : Zone} {a s : List Char}
    (h : Step F p x a s y) : Solid s := by
  cases h with
  | hide => exact .inl (by simp)
  | noise _ _ => exact .inl (by simp)
  | shown _ _ => exact .inl (by simp)
  | opening _ hw hb => exact solid_opening hw hb
  | breakMark _ => exact solid_breakMark
  | @mark m _ _ => exact solid_mark m
  | hidden _ => exact .inl (by simp)
  | barrier _ => exact .inl (by simp)

namespace Carries

variable {F : Fences} {p : Allowance} {x y z : Zone} {a b s t : List Char}

theorem of_step (h : Step F p x a s y) : Carries F p x a s y := by
  simpa using step h (nil y)

theorem sequence (h : Carries F p x a s y) : Sequence (Step F p) x a s y := by
  induction h with
  | nil z => exact .nil z
  | step hs _ ih => exact .step hs ih

theorem of_sequence (h : Sequence (Step F p) x a s y) : Carries F p x a s y := by
  induction h with
  | nil z => exact nil z
  | step hs _ ih => exact step hs ih

theorem append (h : Carries F p x a s y) (h' : Carries F p y b t z) :
    Carries F p x (a ++ b) (s ++ t) z :=
  of_sequence (h.sequence.append h'.sequence)

/-- Text without brackets may stand anywhere. -/
theorem of_unbracketed (hs : Unbracketed s) : (x : Zone) → Carries F p x [] s x
  | .plain => by
    induction s with
    | nil => exact nil _
    | cons c s ih =>
      obtain ⟨hc, hs⟩ := List.forall_mem_cons.mp hs
      exact step (.noise hc.1 hc.2) (ih hs)
  | .timestamp => by
    induction s with
    | nil => exact nil _
    | cons c s ih =>
      obtain ⟨hc, hs⟩ := List.forall_mem_cons.mp hs
      exact step (.hidden fun h => (h.elim hc.1 hc.2).elim) (ih hs)

theorem append_noise (h : Carries F p x a s y) (ht : Unbracketed t) : Carries F p x a (s ++ t) y := by
  simpa using h.append (of_unbracketed ht y)

theorem noise_append (hs : Unbracketed s) (h : Carries F p x a t y) : Carries F p x a (s ++ t) y :=
  (of_unbracketed hs x).append h

/-- Text without opening brackets carries all that is not blank in it. -/
theorem of_shown (hs : '<' ∉ s) : Carries F p .plain (nonblanks s) s .plain := by
  induction s with
  | nil => exact nil _
  | cons c s ih =>
    simp only [List.mem_cons, not_or] at hs
    have ih := ih hs.2
    cases hc : Text.isBlank c with
    | true =>
      have hgt : c ≠ '>' := by
        rintro rfl
        exact absurd hc (by decide)
      simpa [nonblanks, hc] using step (.noise (Ne.symm hs.1) hgt) ih
    | false => simpa [nonblanks, hc] using step (.shown (Ne.symm hs.1) hc) ih

/-- A blank at the start carries nothing. -/
theorem of_blank_cons {c : Char} (hc : Text.isBlank c = true) (h : Carries F p x a (c :: s) z) :
    Carries F p x a s z := by
  generalize hr : c :: s = r at h
  induction h with
  | nil => cases hr
  | step hs h ih =>
    cases hs with
    | hide => exact step .hide (ih hr)
    | noise _ _ =>
      obtain ⟨rfl, rfl⟩ := List.cons.inj hr
      exact h
    | shown _ hb =>
      obtain ⟨rfl, rfl⟩ := List.cons.inj hr
      rw [hb] at hc
      cases hc
    | opening _ _ _ =>
      obtain ⟨rfl, -⟩ := List.cons.inj hr
      cases hc
    | breakMark _ =>
      obtain ⟨rfl, -⟩ := List.cons.inj hr
      cases hc
    | @mark m _ _ =>
      obtain ⟨w, hw, -⟩ := m.text_eq
      rw [hw] at hr
      obtain ⟨rfl, -⟩ := List.cons.inj hr
      cases hc
    | hidden _ =>
      obtain ⟨rfl, rfl⟩ := List.cons.inj hr
      exact h
    | barrier hb =>
      obtain ⟨rfl, rfl⟩ := List.cons.inj hr
      rw [(of_mem_barriers hb).2.2.2.1] at hc
      cases hc

/-- The rules of the layout keep what a text carries. -/
theorem isReading : IsReading (Carries F p) .plain where
  nil := nil
  append := append
  framing hc _ x := of_unbracketed (List.forall_mem_singleton.mpr (ne_bracket_of_isFraming hc)) x
  newline := of_unbracketed (by decide) .plain
  blank {x _ _ _ _} hb h :=
    have hc := ne_bracket_of_isFraming (isFraming_of_isBlank hb)
    ⟨of_unbracketed (List.forall_mem_singleton.mpr hc) x, of_blank_cons hb h⟩
  split h hcut := by
    obtain ⟨a₁, a₂, y, ha, h₁, h₂⟩ := h.sequence.exists_split Step.solid hcut
    exact ⟨a₁, a₂, y, ha, of_sequence h₁, of_sequence h₂⟩

/-! ### Timestamps -/

/-- Induction on the parts of a text. Within a timestamp, whatever comes before the next barrier may
be skipped, so that a mark that is spelled out there can be taken as a whole. -/
theorem induction_parts {motive : Zone → List Char → List Char → Prop}
    (nil : motive z [] [])
    (hide : ∀ {a s}, motive .timestamp a s → motive .plain a s)
    (plain : ∀ {a b s t}, Step F p .plain a s .plain → motive .plain b t →
      motive .plain (a ++ b) (s ++ t))
    (hidden : ∀ {c a s}, (c = '<' ∨ c = '>' → p.brackets) →
      (∀ w t, s = w ++ t → (∀ c ∈ w, c ∉ barriers) → motive .timestamp a t) →
      motive .timestamp a (c :: s))
    (barrier : ∀ {c a s}, c ∈ barriers → motive .plain a s → motive .timestamp a (c :: s))
    (h : Carries F p x a s z) : motive x a s := by
  suffices hskip : motive x a s ∧ (x = .timestamp →
      ∀ w t, s = w ++ t → (∀ c ∈ w, c ∉ barriers) → motive .timestamp a t) from hskip.1
  induction h with
  | nil z =>
    refine ⟨nil, ?_⟩
    rintro rfl w t hs -
    rw [(List.append_eq_nil_iff.mp hs.symm).2]
    exact nil
  | @step x y z a b s t hs _ ih =>
    obtain ⟨ih, ihskip⟩ := ih nil
    cases hs with
    | hide => exact ⟨hide ih, by rintro ⟨⟩⟩
    | noise hlt hgt => exact ⟨plain (.noise hlt hgt) ih, by rintro ⟨⟩⟩
    | shown hlt hb => exact ⟨plain (.shown hlt hb) ih, by rintro ⟨⟩⟩
    | opening hw hb hc => exact ⟨plain (.opening hw hb hc) ih, by rintro ⟨⟩⟩
    | breakMark hp => exact ⟨plain (.breakMark hp) ih, by rintro ⟨⟩⟩
    | mark hp hm => exact ⟨plain (.mark hp hm) ih, by rintro ⟨⟩⟩
    | hidden hc =>
      have hall := hidden hc (ihskip rfl)
      refine ⟨hall, fun _ w t' hw hbar => ?_⟩
      cases w with
      | nil =>
        rw [List.nil_append] at hw
        rw [← hw]
        exact hall
      | cons d w =>
        exact ihskip rfl w t' (List.cons.inj hw).2 (List.forall_mem_cons.mp hbar).2
    | @barrier c hc =>
      refine ⟨barrier hc ih, fun _ w t' hw hbar => ?_⟩
      cases w with
      | nil =>
        rw [List.nil_append] at hw
        rw [← hw]
        exact barrier hc ih
      | cons d w =>
        obtain ⟨rfl, -⟩ := List.cons.inj hw
        exact absurd hc (hbar c List.mem_cons_self)

/-! ### Patterns -/

/-- Without its break marks a text carries the same. -/
theorem dropBreakMarks (h : Carries F p x a s z) :
    Carries F { p with breaks := False } x a (Mrkdwn.dropBreakMarks s) z := by
  refine induction_parts (motive := fun x a s =>
    Carries F { p with breaks := False } x a (Mrkdwn.dropBreakMarks s) z) (nil z) ?_ ?_ ?_ ?_ h
  · intro a s ih
    exact step .hide ih
  · intro a b s t hs ih
    cases hs with
    | noise hlt hgt =>
      simp only [List.singleton_append, dropBreakMarks_cons hlt]
      exact step (.noise hlt hgt) ih
    | shown hlt hb =>
      simp only [List.singleton_append, dropBreakMarks_cons hlt]
      exact step (.shown hlt hb) ih
    | @opening w c hw hb hc =>
      rw [dropBreakMarks_opening hw hb hc]
      exact step (.opening hw hb hc) ih
    | breakMark _ =>
      rw [dropBreakMarks_breakMark_append]
      exact ih
    | mark hp hm =>
      rw [dropBreakMarks_mark]
      exact step (.mark hp hm) ih
  · intro c a s hc ih
    by_cases hm : ∃ t, c :: s = Mrkdwn.breakMark ++ t
    · obtain ⟨t, ht⟩ := hm
      rw [ht, dropBreakMarks_breakMark_append]
      exact ih "br />".toList t (List.cons.inj ht).2 (Text.forall_mem_of_all (by decide))
    · rw [Mrkdwn.dropBreakMarks.eq_3 c s fun t hlt ht => hm ⟨t, by rw [hlt, ht]; rfl⟩]
      have hstep : Step F { p with breaks := False } .timestamp [] [c] .timestamp := .hidden hc
      exact step hstep (ih [] s rfl (List.forall_mem_nil _))
  · intro c a s hc ih
    rw [dropBreakMarks_cons (of_mem_barriers hc).1]
    exact step (.barrier hc) ih

/-- On one line a text carries the same. -/
theorem joinLinesFrom (inRun : Bool) (h : Carries F p x a s z) :
    Carries F p x a (Mrkdwn.joinLinesFrom inRun s) z := by
  have hspace : ∀ inRun : Bool, Unbracketed (if inRun then [] else [' ']) := by decide
  revert inRun
  refine induction_parts (motive := fun x a s =>
    ∀ inRun, Carries F p x a (Mrkdwn.joinLinesFrom inRun s) z) (fun _ => nil z) ?_ ?_ ?_ ?_ h
  · intro a s ih inRun
    exact step .hide (ih inRun)
  · intro a b s t hs ih inRun
    cases hs with
    | @noise c hlt hgt =>
      by_cases hn : c = '\n'
      · subst hn
        simp only [List.singleton_append, joinLinesFrom_newline]
        exact (ih true).noise_append (hspace inRun)
      · simp only [List.singleton_append, joinLinesFrom_cons inRun hn hlt]
        exact step (.noise hlt hgt) (ih false)
    | @shown c hlt hb =>
      have hn : c ≠ '\n' := by
        rintro rfl
        cases hb
      simp only [List.singleton_append, joinLinesFrom_cons inRun hn hlt]
      exact step (.shown hlt hb) (ih false)
    | @opening w c hw hb hc =>
      rw [joinLinesFrom_opening hw hb hc]
      exact step (.opening hw hb hc) (ih false)
    | breakMark hp =>
      by_cases hn : ∃ u, t = '\n' :: u
      · obtain ⟨u, rfl⟩ := hn
        have ih := ih true
        rw [joinLinesFrom_newline] at ih
        rw [joinLinesFrom_breakMark]
        exact ih.noise_append (hspace inRun)
      · rw [joinLinesFrom_breakMark_append inRun fun u hu => hn ⟨u, hu⟩]
        exact step (.breakMark hp) (ih false)
    | mark hp hm =>
      rw [joinLinesFrom_mark]
      exact step (.mark hp hm) (ih false)
  · intro c a s hc ih inRun
    by_cases hn : c = '\n'
    · subst hn
      rw [joinLinesFrom_newline]
      exact (ih [] s rfl (List.forall_mem_nil _) true).noise_append (hspace inRun)
    · by_cases hm : ∃ t, c :: s = Mrkdwn.breakMark ++ '\n' :: t
      · obtain ⟨t, ht⟩ := hm
        rw [ht, joinLinesFrom_breakMark]
        have hmark : ∀ c ∈ "br />\n".toList, c ∉ barriers := Text.forall_mem_of_all (by decide)
        exact (ih "br />\n".toList t (List.cons.inj ht).2 hmark true).noise_append (hspace inRun)
      · rw [Mrkdwn.joinLinesFrom.eq_4 inRun c s hn fun t hlt ht => hm ⟨t, by rw [hlt, ht]; rfl⟩]
        exact step (.hidden hc) (ih [] s rfl (List.forall_mem_nil _) false)
  · intro c a s hc ih inRun
    obtain ⟨hlt, -, hn, -⟩ := of_mem_barriers hc
    rw [joinLinesFrom_cons inRun hn hlt]
    exact step (.barrier hc) (ih false)

/-- In a timestamp any text may stand that keeps to what is allowed. -/
theorem of_timestamp (hs : ∀ c ∈ s, c = '<' ∨ c = '>' → p.brackets) :
    Carries F p .timestamp [] s .timestamp := by
  induction s with
  | nil => exact nil _
  | cons c s ih =>
    obtain ⟨hc, hs⟩ := List.forall_mem_cons.mp hs
    exact step (.hidden hc) (ih hs)

/-- With the code in place of the placeholders a text carries the same. -/
theorem restore (h : Carries F p x a s z) :
    Carries F { p with placeholders := False } x a (Mrkdwn.restore F s) z := by
  refine induction_parts (motive := fun x a s =>
    Carries F { p with placeholders := False } x a (Mrkdwn.restore F s) z)
    (by rw [restore_nil]; exact nil z) ?_ ?_ ?_ ?_ h
  · intro a s ih
    exact step .hide ih
  · intro a b s t hs ih
    cases hs with
    | noise hlt hgt =>
      rw [restore_append_of_not_mem (by simp [Ne.symm hlt])]
      exact step (.noise hlt hgt) ih
    | shown hlt hb =>
      rw [restore_append_of_not_mem (by simp [Ne.symm hlt])]
      exact step (.shown hlt hb) ih
    | opening hw hb hc =>
      rw [restore_opening hw hc]
      exact step (.opening hw hb hc) ih
    | breakMark hp =>
      have hmark : Mrkdwn.restore F (Mrkdwn.breakMark ++ t)
          = Mrkdwn.breakMark ++ Mrkdwn.restore F t := by
        have hcons := restore_cons (Marked.read?_eq_none (c := 'b') (by decide)
          ("r />".toList ++ t)) F
        exact hcons.trans
          (congrArg ('<' :: ·) (restore_append_of_not_mem (s := "br />".toList) (by decide) F t))
      rw [hmark]
      exact step (.breakMark hp) ih
    | mark _ hm =>
      rw [Marked.restore_mark]
      exact (of_shown hm).append ih
  · intro c a s hc ih
    cases hr : Placeholder.read? (c :: s) with
    | none =>
      rw [restore_cons hr]
      have hstep : Step F { p with placeholders := False } .timestamp [] [c] .timestamp := .hidden hc
      exact step hstep (ih [] s rfl (List.forall_mem_nil _))
    | some found =>
      obtain ⟨q, rest⟩ := found
      have hq := Placeholder.eq_append_of_read? hr
      have hlt : c = '<' := (List.cons.inj hq).1
      obtain ⟨w, hw⟩ : ∃ w, q.text = c :: w := by
        rw [hlt]
        exact ⟨_, rfl⟩
      rw [hw, List.cons_append, List.cons.injEq] at hq
      have hbar : ∀ d ∈ w, d ∉ barriers := fun d hd =>
        Placeholder.not_mem_barriers (Placeholder.wellFormed_of_read? hr)
          (by rw [hw]; exact List.mem_cons_of_mem _ hd)
      rw [Mrkdwn.restore, pieces_of_read? hr, List.flatMap_cons]
      have hcode : Carries F { p with placeholders := False } .timestamp []
          (Piece.restore F (.mark q)) .timestamp :=
        of_timestamp (p := { p with placeholders := False }) fun _ _ _ => hc (.inl hlt)
      exact hcode.append (ih w rest hq.2 hbar)
  · intro c a s hc ih
    rw [restore_cons (read?_cons_of_ne (of_mem_barriers hc).1 _)]
    exact step (.barrier hc) ih

/-! ### Tokens -/

/-- Brackets around what is carried, behind the target of a token. -/
theorem token {w : List Char} {c : Char} (hw : Unbracketed w)
    (hb : ∀ d ∈ w, Text.isBlank d = false) (hc : c ∈ barriers) (h : Carries F p .plain a s .plain) :
    Carries F p .plain ('<' :: a ++ ['>']) ('<' :: w ++ [c] ++ s ++ ['>']) .plain :=
  ((of_step (.opening hw hb hc)).append h).append (of_step (.shown (by decide) rfl))

theorem link {href : List Char} (hm : Mention.ofHref? href = none)
    (h : Carries F p .plain a s .plain) :
    Carries F p .plain ('<' :: a ++ ['>']) (Mrkdwn.link s href) .plain := by
  have hmem : ∀ c ∈ Text.Uri.encode href, c ≠ '<' ∧ Text.isBlank c = false :=
    fun c hc => Marked.of_mem_encode hc
  have hw : Unbracketed (Text.Uri.encode href) := by
    refine fun c hc => ⟨(hmem c hc).1, ?_⟩
    rintro rfl
    exact absurd (Text.Uri.isPlain_of_mem_encode hc) (by decide)
  have hl : Carries F p .plain a (label s) .plain :=
    isReading.trimWhile (fun _ hb => hb) (h.joinLinesFrom false)
  have := token hw (fun c hc => (hmem c hc).2) (c := '|') (by decide) hl
  simpa [Mrkdwn.link, hm] using this

theorem dateToken {timestamp fallback : List Char}
    (ht : ∀ c ∈ timestamp, c = '<' ∨ c = '>' → p.brackets) (hf : Unbracketed fallback)
    (h : Carries F p .plain a s .plain) :
    Carries F p .plain ('<' :: a ++ ['>']) (Mrkdwn.dateToken s timestamp fallback) .plain := by
  have hdate : Carries F p .timestamp [] ("date^".toList ++ timestamp) .timestamp :=
    (of_timestamp ht).noise_append (by decide)
  have hfall : Unbracketed ('|' :: fallback) := List.forall_mem_cons.mpr ⟨by decide, hf⟩
  have hend : Carries F p .timestamp ([] ++ a) (['^'] ++ (s ++ '|' :: fallback)) .plain :=
    step (.barrier (by decide)) (h.append_noise hfall)
  have hall : Carries F p .plain a ("date^".toList ++ timestamp ++ (['^'] ++ (s ++ '|' :: fallback)))
      .plain := step .hide (hdate.append hend)
  have htoken := token (w := []) (c := '!') (List.forall_mem_nil _) (List.forall_mem_nil _)
    (by decide) hall
  have he : Mrkdwn.dateToken s timestamp fallback
      = '<' :: [] ++ ['!'] ++ ("date^".toList ++ timestamp ++ (['^'] ++ (s ++ '|' :: fallback)))
        ++ ['>'] := by
    have hopen : "<!date^".toList = '<' :: '!' :: "date^".toList := rfl
    unfold Mrkdwn.dateToken
    simp only [hopen, List.append_assoc, List.cons_append, List.nil_append]
  rw [he]
  exact htoken

/-- A mention, whatever the text of its link. -/
theorem mention {href : List Char} {m : Mention} (h : Mention.ofHref? href = some m) :
    Carries F p .plain ['<', '>'] m.token .plain := by
  have ht : Unbracketed m.target := fun c hc =>
    ⟨fun e => not_mem_target h (e ▸ hc),
      fun e => not_mem_target_of (c := '>') (by decide) (by decide) h (e ▸ hc)⟩
  have noise : ∀ {c : Char} {w : List Char}, c ∈ barriers → Unbracketed w →
      Carries F p .plain ['<', '>'] ('<' :: c :: w ++ ['>']) .plain := fun hc hw =>
    token (w := []) (List.forall_mem_nil _) (List.forall_mem_nil _) hc (of_unbracketed hw .plain)
  cases m with
  | channel id => exact noise (by decide) ht
  | user id => exact noise (by decide) ht
  | userGroup id =>
    have hgroup : Unbracketed "subteam^".toList := by decide
    have hw : Unbracketed ("subteam^".toList ++ id) := List.forall_mem_append.mpr ⟨hgroup, ht⟩
    exact noise (c := '!') (by decide) hw
  | audience word =>
    have hw : Unbracketed (word ++ '|' :: word) :=
      List.forall_mem_append.mpr ⟨ht, List.forall_mem_cons.mpr ⟨by decide, ht⟩⟩
    have he : (Mention.audience word).token = '<' :: '!' :: (word ++ '|' :: word) ++ ['>'] := rfl
    rw [he]
    exact noise (by decide) hw

/-! ### Complete texts -/

/-- What a text carries stands in it, once its placeholders are gone. -/
theorem sublist (hp : ¬p.placeholders) (h : Carries F p x a s z) : a.Sublist s := by
  induction h with
  | nil => exact .slnil
  | step hs _ ih =>
    refine .append ?_ ih
    cases hs with
    | hide => exact .slnil
    | shown _ _ => exact List.Sublist.refl _
    | opening _ _ _ => exact List.singleton_sublist.mpr List.mem_cons_self
    | mark hm _ => exact absurd hm hp
    | noise _ _ => exact List.nil_sublist _
    | breakMark _ => exact List.nil_sublist _
    | hidden _ => exact List.nil_sublist _
    | barrier _ => exact List.nil_sublist _

end Carries

end Mrkdwn

end MessageLayout
