import MessageLayout.Proofs.CarriedLayout

/-!
# Brackets of tokens

Whatever the texts, targets, fallback texts and code of a document hold, the brackets in its mrkdwn
are those of its links, mentions and dates: they match, and there is at most one pair for each `a`
and each `time` element. Only the timestamp of a date is written as it is given.

    brackets (ofDoms … body) = tokenBracketsOf body
    Matched (tokenBracketsOf ns)                                         (matched_tokenBracketsOf)
    (ofDoms … body).count '<' ≤ countNamed isTokenName body              (ofDoms_brackets)
-/

namespace MessageLayout

/-! ## Matching brackets -/

namespace Text

/-- The brackets of a text. -/
def brackets (s : List Char) : List Char :=
  s.filter fun c => c = '<' || c = '>'

/-- A text whose brackets match: each is closed, and none before it is opened. -/
structure Matched (s : List Char) : Prop where
  le : ∀ p, p <+: s → p.count '>' ≤ p.count '<'
  total : s.count '<' = s.count '>'

@[simp] theorem brackets_append (s t : List Char) : brackets (s ++ t) = brackets s ++ brackets t :=
  List.filter_append _ _

theorem brackets_brackets (s : List Char) : brackets (brackets s) = brackets s := by
  simp [brackets]

theorem count_brackets {c : Char} (hc : c = '<' ∨ c = '>') (s : List Char) :
    (brackets s).count c = s.count c :=
  List.count_filter (by simpa using hc)

theorem prefix_append_cases {p s t : List Char} (h : p <+: s ++ t) :
    p <+: s ∨ ∃ q, p = s ++ q ∧ q <+: t := by
  obtain ⟨r, hr⟩ := h
  rcases List.append_eq_append_iff.mp hr with ⟨u, rfl, -⟩ | ⟨u, rfl, rfl⟩
  · exact .inl (List.prefix_append p u)
  · exact .inr ⟨u, rfl, List.prefix_append u r⟩

namespace Matched

variable {s t : List Char}

theorem nil : Matched [] :=
  ⟨fun p hp => by rw [List.prefix_nil.mp hp]; exact Nat.le_refl _, rfl⟩

theorem append (h : Matched s) (h' : Matched t) : Matched (s ++ t) := by
  refine ⟨fun p hp => ?_, ?_⟩
  · rcases prefix_append_cases hp with hp | ⟨q, rfl, hq⟩
    · exact h.le p hp
    · have hle := h'.le q hq
      have htotal := h.total
      rw [List.count_append, List.count_append]
      omega
  · rw [List.count_append, List.count_append, h.total, h'.total]

theorem enclose (h : Matched s) : Matched ('<' :: s ++ ['>']) := by
  refine ⟨fun p hp => ?_, by simp [h.total]⟩
  rw [List.cons_append] at hp
  cases p with
  | nil => exact Nat.le_refl _
  | cons c p =>
    obtain ⟨rfl, hp'⟩ := List.cons_prefix_cons.mp hp
    rcases prefix_append_cases hp' with hp' | ⟨q, rfl, hq⟩
    · have hle := h.le p hp'
      simp
      omega
    · have htotal := h.total
      have hq' : q.count '>' ≤ 1 := by simpa using hq.sublist.count_le '>'
      simp
      omega

/-- Whether brackets match is a matter of the brackets. -/
theorem of_brackets_eq (he : brackets s = brackets t) (h : Matched t) : Matched s := by
  refine ⟨fun p hp => ?_, ?_⟩
  · have hp' : brackets p <+: brackets t := he ▸ hp.filter _
    obtain ⟨r, hr⟩ := hp'
    obtain ⟨q, u, rfl, hq, -⟩ := List.filter_eq_append_iff.mp hr.symm
    have hle := h.le q (List.prefix_append q u)
    change brackets q = brackets p at hq
    rw [← count_brackets (.inl rfl) q, ← count_brackets (.inr rfl) q, hq,
      count_brackets (.inl rfl), count_brackets (.inr rfl)] at hle
    exact hle
  · have htotal := h.total
    rw [← count_brackets (.inl rfl) t, ← count_brackets (.inr rfl) t, ← he,
      count_brackets (.inl rfl), count_brackets (.inr rfl)] at htotal
    exact htotal

end Matched

end Text

namespace Html

mutual

/-- The elements at and below a node that are of the names in question. -/
def Dom.countNamed (p : String → Bool) : Dom → Nat
  | .element name _ children => (if p name then 1 else 0) + Dom.countNamedOf p children
  | _ => 0

/-- The elements of several nodes that are of the names in question. -/
def Dom.countNamedOf (p : String → Bool) : List Dom → Nat
  | [] => 0
  | d :: ds => d.countNamed p + Dom.countNamedOf p ds

end

end Html

namespace Mrkdwn

open Html
open Text (brackets Matched escapeEntity nonblanks)

/-! ## The brackets of a document -/

/-- The names of the elements that are written in brackets. -/
def isTokenName (name : String) : Bool :=
  name = "a" || name = "time"

mutual

/-- The brackets around and within what a node shows as links, mentions and dates. -/
def tokenBrackets : Dom → List Char
  | .element name attrs children =>
    if !showsBlank name && (Dom.element name attrs children).isBlank then []
    else
      match fencedCode? name children with
      | some _ => []
      | none => (framing name attrs).around (tokenBracketsOf children)
  | _ => []

/-- The brackets of several nodes. -/
def tokenBracketsOf : List Dom → List Char
  | [] => []
  | n :: ns => tokenBrackets n ++ tokenBracketsOf ns

end

theorem brackets_eq_nil {s : List Char} (hs : Unbracketed s) : brackets s = [] :=
  List.filter_eq_nil_iff.mpr fun c hc => by simp [hs c hc]

theorem brackets_around (f : Framing) (a : List Char) :
    brackets (f.around a) = f.around (brackets a) := by
  cases f <;> simp [brackets, Framing.around]

/-- Code brings no brackets with it. -/
theorem unbracketed_fenced (code : List Char) (singleLine : Bool) :
    Unbracketed (fenced (escapeEntity code) singleLine) := by
  have hcode : Unbracketed (escapeEntity code) := unbracketed_escapeEntity code
  have hsqueezed : Unbracketed (Text.squeeze (· = '\n') ' ' (escapeEntity code)) := by
    intro c hc
    rcases Text.mem_of_mem_squeeze hc with rfl | hc
    · decide
    · exact hcode c hc
  have hmark : Unbracketed fenceMark := by decide
  simp only [fenced]
  split
  · exact List.forall_mem_append.mpr ⟨List.forall_mem_append.mpr ⟨hmark, hsqueezed⟩, hmark⟩
  · exact List.forall_mem_append.mpr ⟨List.forall_mem_append.mpr
      ⟨hmark, List.forall_mem_cons.mpr ⟨by decide, hcode⟩⟩,
      List.forall_mem_cons.mpr ⟨by decide, hmark⟩⟩

mutual

theorem brackets_carried (parent : String) :
    (n : Dom) → brackets (carried parent n) = tokenBrackets n
  | .text content => by
    simp only [carried, tokenBrackets]
    exact brackets_eq_nil fun c hc =>
      unbracketed_escapeEntity content c (List.mem_of_mem_filter hc)
  | .comment => rfl
  | .element name attrs children => by
    simp only [carried, tokenBrackets]
    split
    · rfl
    · cases fencedCode? name children with
      | some code =>
        exact brackets_eq_nil fun c hc => unbracketed_fenced _ _ c (List.mem_of_mem_filter hc)
      | none => exact (brackets_around _ _).trans (by rw [brackets_carriedOf name children])

/-- Texts and code carry no brackets. -/
theorem brackets_carriedOf (parent : String) :
    (ns : List Dom) → brackets (carriedOf parent ns) = tokenBracketsOf ns
  | [] => rfl
  | n :: ns => by
    rw [carriedOf, tokenBracketsOf, Text.brackets_append, brackets_carried parent n,
      brackets_carriedOf parent ns]

end

/-! ## Matching and counting -/

theorem matched_around (f : Framing) {a : List Char} (h : Matched a) : Matched (f.around a) := by
  cases f with
  | bare => exact h
  | token => exact h.enclose
  | mention => exact Matched.enclose .nil
  | lineBreak => exact .nil

mutual

theorem matched_tokenBrackets : (n : Dom) → Matched (tokenBrackets n)
  | .text _ => .nil
  | .comment => .nil
  | .element name attrs children => by
    simp only [tokenBrackets]
    split
    · exact .nil
    · split
      · exact .nil
      · exact matched_around _ (matched_tokenBracketsOf children)

theorem matched_tokenBracketsOf : (ns : List Dom) → Matched (tokenBracketsOf ns)
  | [] => .nil
  | n :: ns => (matched_tokenBrackets n).append (matched_tokenBracketsOf ns)

end

/-- Only a link or a date puts brackets around its content, and only one pair. -/
theorem count_around_framing (name : String) (attrs : Attrs) (a : List Char) :
    ((framing name attrs).around a).count '<'
      ≤ (if isTokenName name then 1 else 0) + a.count '<' := by
  have haround : ∀ f : Framing, (f.around a).count '<' ≤ 1 + a.count '<' := by
    intro f
    cases f with
    | bare => exact Nat.le_add_left _ _
    | token => simp [Framing.around, Nat.add_comm]
    | mention => simp [Framing.around]
    | lineBreak => exact Nat.zero_le _
  by_cases hname : isTokenName name = true
  · rw [if_pos hname]
    exact haround _
  · rw [if_neg hname, Nat.zero_add]
    simp only [isTokenName, Bool.or_eq_true, decide_eq_true_eq, not_or] at hname
    simp only [framing, hname.1, hname.2, if_false]
    split
    · exact Nat.zero_le _
    · exact Nat.le_refl _

mutual

theorem count_tokenBrackets : (n : Dom) → (tokenBrackets n).count '<' ≤ n.countNamed isTokenName
  | .text _ => Nat.le_refl 0
  | .comment => Nat.le_refl 0
  | .element name attrs children => by
    simp only [tokenBrackets, Dom.countNamed]
    split
    · exact Nat.zero_le _
    · split
      · exact Nat.zero_le _
      · exact Nat.le_trans (count_around_framing name attrs _)
          (Nat.add_le_add_left (count_tokenBracketsOf children) _)

theorem count_tokenBracketsOf :
    (ns : List Dom) → (tokenBracketsOf ns).count '<' ≤ Dom.countNamedOf isTokenName ns
  | [] => Nat.le_refl 0
  | n :: ns => by
    rw [tokenBracketsOf, List.count_append, Dom.countNamedOf]
    exact Nat.add_le_add (count_tokenBrackets n) (count_tokenBracketsOf ns)

end

/-! ## The brackets of the mrkdwn -/

/-- A text without marks and without brackets in timestamps has no brackets but those it carries. -/
theorem Carries.brackets_eq {F : Fences} {x y : Zone} {a s : List Char}
    (h : Carries F ⟨False, False, False⟩ x a s y) : brackets s = brackets a := by
  induction h with
  | nil => rfl
  | step hs _ ih =>
    rw [Text.brackets_append, Text.brackets_append, ih]
    refine congrArg (· ++ _) ?_
    cases hs with
    | hide => rfl
    | shown _ _ => rfl
    | noise hlt hgt => exact brackets_eq_nil (by simp [Unbracketed, hlt, hgt])
    | hidden hc => exact brackets_eq_nil (by simpa [Unbracketed, not_or] using hc)
    | barrier hb => exact brackets_eq_nil (by simp [Unbracketed, of_mem_barriers hb])
    | breakMark hp => exact hp.elim
    | mark hp _ => exact hp.elim
    | @opening w c hw _ hb =>
      have hrest : Unbracketed (w ++ [c]) :=
        List.forall_mem_append.mpr ⟨hw, by simp [of_mem_barriers hb]⟩
      exact congrArg ('<' :: ·) (brackets_eq_nil hrest)

/-- A date whose timestamp holds no brackets. -/
def UnbracketedDate (name : String) (attrs : Attrs) (_ : List Dom) : Prop :=
  name = "time" → ∀ timestamp, attrs.lookup "datetime" = some timestamp → Unbracketed timestamp

/-- If no timestamp of a date holds brackets, the brackets in the mrkdwn are those of its links,
mentions and dates: each is closed and none before it is opened, and there are no more pairs than
`a` and `time` elements. -/
theorem ofDoms_brackets (options : FormatOptions) (body : List Dom)
    (hdates : Dom.EveryOf UnbracketedDate body) :
    let mrkdwn := ofDoms (delimiters options) body
    (∀ p, p <+: mrkdwn → p.count '>' ≤ p.count '<') ∧ mrkdwn.count '<' = mrkdwn.count '>' ∧
      mrkdwn.count '<' ≤ Dom.countNamedOf isTokenName body ∧
      brackets mrkdwn = tokenBracketsOf body := by
  have hallowed : Dom.EveryOf (AllowedDate False) body := by
    refine Dom.EveryOf.mono (fun name attrs children h _ ht timestamp hl c hc hb => ?_) body
      hdates hdates
    exact hb.elim (h ht timestamp hl c hc).1 (h ht timestamp hl c hc).2
  obtain ⟨F, h⟩ := carries_ofDoms options hallowed
  have he : brackets (ofDoms (delimiters options) body) = tokenBracketsOf body := by
    rw [h.brackets_eq, brackets_carriedOf]
  have hself : brackets (tokenBracketsOf body) = tokenBracketsOf body := by
    rw [← he]
    exact Text.brackets_brackets _
  have hm : Matched (ofDoms (delimiters options) body) :=
    (matched_tokenBracketsOf body).of_brackets_eq (he.trans hself.symm)
  refine ⟨hm.le, hm.total, ?_, he⟩
  rw [← Text.count_brackets (.inl rfl), he]
  exact count_tokenBracketsOf body

/-- Brackets in a text, in the target and the label of a link over two lines, in the fallback text
of a date, and in code that spells a placeholder. -/
theorem ofDoms_brackets_lookalikes :
    let body : List Dom := [.text "<br />".toList,
      .element "a" [("href", "<u>".toList)] [.text "<".toList, .element "br" [] [], .text ">".toList],
      .element "time" [("datetime", "1".toList), ("data-fallback", "<>".toList)] [.text ">".toList],
      .element "pre" [] [.element "code" [] [.text "<<pre:0>>".toList]]]
    let mrkdwn := ofDoms (delimiters {}) body
    Dom.EveryOf UnbracketedDate body ∧
      ((∀ p, p <+: mrkdwn → p.count '>' ≤ p.count '<') ∧ mrkdwn.count '<' = mrkdwn.count '>' ∧
        mrkdwn.count '<' ≤ Dom.countNamedOf isTokenName body ∧
        brackets mrkdwn = tokenBracketsOf body) ∧
      tokenBracketsOf body = "<><>".toList := by
  intro body mrkdwn
  have hdates : Dom.EveryOf UnbracketedDate body := by
    simp [body, Dom.EveryOf, Dom.Every, UnbracketedDate, Unbracketed]
  exact ⟨hdates, ofDoms_brackets {} body hdates, rfl⟩

end Mrkdwn

end MessageLayout
