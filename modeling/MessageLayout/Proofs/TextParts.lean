import MessageLayout.Proofs.LinkLines

/-!
# Texts in parts

A reading without states, for any choice of parts. A `Lexicon` says which characters and tokens may
stand in a text and what each of them shows; `MadeOf V F stage s a` says that `s` is made of such
parts and shows `a`. Whatever the lexicon, the rules of the layout keep this.

    IsReading (fun _ a s _ => MadeOf V F .laid s a) ()                            (MadeOf.isReading)
    MadeOf V F .laid s a → MadeOf V F .laid (link s href) a                       (MadeOf.link)
    MadeOf V F .laid s a → MadeOf V F .complete (restore F (dropBreakMarks s)) a
                                                            (MadeOf.dropBreakMarks, MadeOf.restore)
-/

namespace MessageLayout.Mrkdwn

/-- What may stand in a text, with what it shows. -/
structure Lexicon (α : Type) where
  /-- The single characters. -/
  Single : Char → List α → Prop
  /-- The tokens. -/
  Token : List Char → List α → Prop
  /-- The code blocks. -/
  Code : CodeBlock → List α → Prop
  framing : ∀ {c}, isFraming c = true → Single c []
  close : Single '>' []
  blank : ∀ {c a}, Single c a → Text.isBlank c = true → a = []
  unopened : ∀ {c a}, Single c a → c ≠ '<'
  token : ∀ {s a}, Token s a → IsToken s

/-- The parts of a text at a stage. -/
inductive Segment {α : Type} (V : Lexicon α) (F : Fences) : Stage → List Char → List α → Prop
  | single {stage : Stage} {c : Char} {a : List α} : V.Single c a → Segment V F stage [c] a
  | token {stage : Stage} {s : List Char} {a : List α} : V.Token s a → Segment V F stage s a
  | breakMark : Segment V F .laid Mrkdwn.breakMark []
  | mark {stage : Stage} {m : Mark} {b : CodeBlock} {a : List α} :
      stage ≠ .complete → m.restored F = b.text → V.Code b a → Segment V F stage m.text a
  | code {b : CodeBlock} {a : List α} : V.Code b a → Segment V F .complete b.text a

/-- A text made of such parts. -/
inductive MadeOf {α : Type} (V : Lexicon α) (F : Fences) (stage : Stage) :
    List Char → List α → Prop
  | nil : MadeOf V F stage [] []
  | step {s t : List Char} {a b : List α} :
      Segment V F stage s a → MadeOf V F stage t b → MadeOf V F stage (s ++ t) (a ++ b)

section Parts

variable {α : Type} {V : Lexicon α} {F : Fences} {stage : Stage} {s t : List Char} {a b : List α}

theorem Segment.solid (h : Segment V F .laid s a) : Solid s := by
  cases h with
  | single _ => exact .inl (by simp)
  | token ht => exact (V.token ht).solid
  | breakMark => exact solid_breakMark
  | mark _ _ _ => exact solid_mark _

namespace MadeOf

theorem of_segment (h : Segment V F stage s a) : MadeOf V F stage s a := by
  simpa using step h nil

theorem sequence (h : MadeOf V F stage s a) (x : Unit) :
    Sequence (fun (_ : Unit) a s (_ : Unit) => Segment V F stage s a) x a s x := by
  induction h with
  | nil => exact .nil x
  | step hp _ ih => exact .step hp ih

theorem of_sequence {x y : Unit}
    (h : Sequence (fun (_ : Unit) a s (_ : Unit) => Segment V F stage s a) x a s y) :
    MadeOf V F stage s a := by
  induction h with
  | nil => exact nil
  | step hp _ ih => exact step hp ih

theorem append (h : MadeOf V F stage s a) (h' : MadeOf V F stage t b) :
    MadeOf V F stage (s ++ t) (a ++ b) :=
  of_sequence ((h.sequence ()).append (h'.sequence ()))

theorem of_singles (hs : ∀ c ∈ s, V.Single c []) : MadeOf V F stage s [] := by
  induction s with
  | nil => exact nil
  | cons c s ih =>
    obtain ⟨hc, hs⟩ := List.forall_mem_cons.mp hs
    exact step (.single hc) (ih hs)

/-- Framing shows nothing. -/
theorem of_framing (hs : ∀ c ∈ s, isFraming c = true) : MadeOf V F stage s [] :=
  of_singles fun c hc => V.framing (hs c hc)

theorem append_framing (h : MadeOf V F stage s a) (ht : ∀ c ∈ t, isFraming c = true) :
    MadeOf V F stage (s ++ t) a := by
  simpa using h.append (of_framing ht)

theorem framing_append (hs : ∀ c ∈ s, isFraming c = true) (h : MadeOf V F stage t a) :
    MadeOf V F stage (s ++ t) a :=
  (of_framing hs).append h

theorem isFraming_newline : ∀ c ∈ ['\n'], isFraming c = true :=
  List.all_eq_true.mp (by decide)

/-- A blank at the start is a part by itself, and shows nothing. -/
theorem of_blank_cons {c : Char} (hc : Text.isBlank c = true) (h : MadeOf V F .laid (c :: s) a) :
    MadeOf V F .laid s a := by
  have hlt : ∀ {w : List Char}, '<' :: w ≠ c :: s := by
    rintro w he
    obtain ⟨rfl, -⟩ := List.cons.inj he
    exact absurd hc (by decide)
  generalize hr : c :: s = r at h
  cases h with
  | nil => cases hr
  | step hp h =>
    cases hp with
    | single hs =>
      obtain ⟨rfl, rfl⟩ := List.cons.inj hr
      rwa [V.blank hs hc]
    | token ht =>
      obtain ⟨w, rfl⟩ := (V.token ht).exists_cons
      exact absurd hr.symm hlt
    | breakMark => exact absurd hr.symm hlt
    | @mark _ m _ _ _ _ _ =>
      obtain ⟨w, hw, -⟩ := m.text_eq
      rw [hw] at hr
      exact absurd hr.symm hlt

/-- The rules of the layout keep what a text shows. -/
theorem isReading : IsReading (fun (_ : Unit) a s (_ : Unit) => MadeOf V F .laid s a) () where
  nil _ := nil
  append := append
  framing hc _ _ := of_framing (List.forall_mem_singleton.mpr hc)
  newline := of_framing isFraming_newline
  blank hb h := ⟨of_framing (List.forall_mem_singleton.mpr (isFraming_of_isBlank hb)),
    of_blank_cons hb h⟩
  split h hcut := by
    obtain ⟨a₁, a₂, y, ha, h₁, h₂⟩ := (h.sequence ()).exists_split Segment.solid hcut
    exact ⟨a₁, a₂, y, ha, of_sequence h₁, of_sequence h₂⟩

/-! ### Patterns -/

/-- Without its break marks a text shows the same. -/
theorem dropBreakMarks (h : MadeOf V F .laid s a) :
    MadeOf V F .unbroken (Mrkdwn.dropBreakMarks s) a := by
  induction h with
  | nil => exact nil
  | step hp _ ih =>
    cases hp with
    | single hs =>
      rw [List.singleton_append, dropBreakMarks_cons (V.unopened hs)]
      exact step (.single hs) ih
    | token ht =>
      rw [(V.token ht).dropBreakMarks_append]
      exact step (.token ht) ih
    | breakMark =>
      rw [dropBreakMarks_breakMark_append]
      exact ih
    | mark _ hr hc =>
      rw [dropBreakMarks_mark]
      exact step (.mark (by simp) hr hc) ih

/-- On one line a text shows the same. -/
theorem joinLinesFrom (inRun : Bool) (h : MadeOf V F .laid s a) :
    MadeOf V F .laid (Mrkdwn.joinLinesFrom inRun s) a := by
  have hspace : ∀ inRun : Bool, ∀ c ∈ (if inRun then [] else [' ']), isFraming c = true
    | true => List.forall_mem_nil _
    | false => List.all_eq_true.mp (by decide)
  induction h generalizing inRun with
  | nil => exact nil
  | @step p t a b hp _ ih =>
    cases hp with
    | @single _ c _ hs =>
      by_cases hn : c = '\n'
      · subst hn
        rw [List.singleton_append, joinLinesFrom_newline, V.blank hs (by decide), List.nil_append]
        exact (ih true).framing_append (hspace inRun)
      · rw [List.singleton_append, joinLinesFrom_cons inRun hn (V.unopened hs)]
        exact step (.single hs) (ih false)
    | token ht =>
      rw [(V.token ht).joinLinesFrom_append]
      exact step (.token ht) (ih false)
    | breakMark =>
      by_cases hn : ∃ u, t = '\n' :: u
      · obtain ⟨u, rfl⟩ := hn
        have ih := ih true
        rw [joinLinesFrom_newline] at ih
        rw [joinLinesFrom_breakMark]
        exact ih.framing_append (hspace inRun)
      · rw [joinLinesFrom_breakMark_append inRun fun u hu => hn ⟨u, hu⟩]
        exact step .breakMark (ih false)
    | mark hstage hr hc =>
      rw [joinLinesFrom_mark]
      exact step (.mark hstage hr hc) (ih false)

/-- With the code in place of the placeholders a text shows the same. -/
theorem restore (h : MadeOf V F .unbroken s a) :
    MadeOf V F .complete (Mrkdwn.restore F s) a := by
  induction h with
  | nil =>
    rw [restore_nil]
    exact nil
  | step hp _ ih =>
    cases hp with
    | single hs =>
      rw [restore_append_of_not_mem (by simpa using (V.unopened hs).symm)]
      exact step (.single hs) ih
    | token ht =>
      rw [(V.token ht).restore_append]
      exact step (.token ht) ih
    | mark _ hr hc =>
      rw [Marked.restore_mark, hr]
      exact step (.code hc) ih

/-- In a complete text a bracket that opens something is the first character of a token. -/
theorem exists_token {u : List Char} (h : MadeOf V F .complete (u ++ '<' :: t) a) :
    ∃ p r b, '<' :: t = p ++ r ∧ V.Token p b := by
  generalize hr : u ++ '<' :: t = r at h
  induction h generalizing u with
  | nil => simp at hr
  | @step p r a b hp _ ih =>
    -- behind its first character no part holds a bracket
    have hrest : ∀ {c : Char} {w : List Char}, p = c :: w → '<' ∉ w → u ≠ [] →
        ∃ p r b, '<' :: t = p ++ r ∧ V.Token p b := by
      rintro c w rfl hw hu
      obtain ⟨d, u, rfl⟩ := List.exists_cons_of_ne_nil hu
      obtain ⟨-, hr⟩ := List.cons.inj hr
      rcases List.append_eq_append_iff.mp hr with ⟨v, rfl, hv⟩ | ⟨v, rfl, hv⟩
      · cases v with
        | nil => exact ih (u := []) hv
        | cons e v =>
          obtain ⟨rfl, -⟩ := List.cons.inj hv
          simp at hw
      · exact ih hv.symm
    by_cases hu : u = []
    · subst hu
      cases hp with
      | single hs => exact absurd (List.cons.inj hr).1.symm (V.unopened hs)
      | token ht => exact ⟨p, r, a, hr, ht⟩
      | mark hstage _ _ => exact absurd rfl hstage
      | @code b _ _ =>
        obtain ⟨w, hw⟩ := exists_text_eq b
        rw [hw] at hr
        exact absurd (List.cons.inj hr).1 (by decide)
    · cases hp with
      | single _ => exact hrest rfl List.not_mem_nil hu
      | token ht =>
        obtain ⟨w, b, v, rfl, hw, -, hb, hv, -⟩ := V.token ht
        refine hrest (c := '<') (w := w ++ [b] ++ v) rfl ?_ hu
        exact fun hm => (List.mem_append.mp hm).elim (lt_not_mem_opening hw hb) hv
      | mark hstage _ _ => exact absurd rfl hstage
      | @code b _ _ =>
        obtain ⟨w, hw⟩ := exists_text_eq b
        refine hrest hw (fun hm => ?_) hu
        exact (unbracketed_text b '<' (hw ▸ List.mem_cons_of_mem _ hm)).1 rfl

/-! ### Tokens -/

/-- A line break. -/
theorem lineBreak : MadeOf V F .laid (Mrkdwn.breakMark ++ ['\n']) [] :=
  (of_segment .breakMark).append_framing isFraming_newline

/-- A link that mentions nobody shows what is in it. -/
theorem link {href : List Char} (hm : Mention.ofHref? href = none)
    (ht : V.Token ('<' :: Text.Uri.encode href ++ ['|']) []) (h : MadeOf V F .laid s a) :
    MadeOf V F .laid (Mrkdwn.link s href) a := by
  have hlabel : MadeOf V F .laid (label s) a := 
    isReading.trimWhile (fun _ hb => hb) (h.joinLinesFrom false)
  have hopening : MadeOf V F .laid ('<' :: Text.Uri.encode href ++ ['|']) [] :=
    of_segment (.token ht)
  have hclose : MadeOf V F .laid ['>'] [] := of_segment (.single V.close)
  have hall := hopening.append (hlabel.append hclose)
  simpa [Mrkdwn.link, hm] using hall

end MadeOf

end Parts

end MessageLayout.Mrkdwn
