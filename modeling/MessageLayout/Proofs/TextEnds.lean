import MessageLayout.Proofs.BlankLines
import MessageLayout.Proofs.CollapsedSpace
import MessageLayout.Proofs.ListLayout

/-!
# Ends of a text

The ends of a layout are trimmed before its break marks are taken away, so the blanks behind a mark
at the start and before a mark at the end come to stand at the ends of the mrkdwn.

`firstShown` is what a document shows first. A text starts with a blank exactly if it is not empty
and its document shows a line break first, and it ends with one exactly if break marks, and nothing
else, stand behind a blank at the end of the layout.

    Starts k (firstShown ns) (layNodes … ns).text                            (starts_layNodes)
    the mrkdwn of a tree starts with a blank ↔ it is not empty and a line break comes first
                                                                        (exists_head?_ofDoms)
    the mrkdwn of a tree ends with a blank ↔ the layout does, break marks aside
                                                                     (exists_getLast?_ofDoms)
    both of the mrkdwn of an HTML text                                             (ofHtml_ends)
-/

namespace MessageLayout

open Text (escapeEntity)

namespace Mrkdwn

open Html

/-! ## What is shown first -/

/-- What a document shows first. -/
inductive FirstShown where
  /-- It shows nothing. -/
  | nothing
  /-- A line break. -/
  | lineBreak
  /-- Anything else. -/
  | other
deriving DecidableEq, Repr

/-- What is shown first by two parts of a document. -/
def FirstShown.orElse : FirstShown → FirstShown → FirstShown
  | nothing, f => f
  | f, _ => f

/-- Whether an element shows something before its content. -/
def leadsContent (name : String) (attrs : Attrs) : Bool :=
  name == "blockquote" || name == "li" || name == "q"
    || name == "a" && (attrs.lookup "href").any (!·.isEmpty)
    || name == "time" && (attrs.lookup "datetime").isSome

/-- What an element shows first, given what its content does. -/
def shownAround (name : String) (attrs : Attrs) (content : FirstShown) : FirstShown :=
  if leadsContent name attrs then .other else content

mutual

/-- What a node shows first. -/
def firstShownIn : Dom → FirstShown
  | .text content => if content.all isSpace then .nothing else .other
  | .comment => .nothing
  | .element name attrs children =>
    if name = "br" then .lineBreak
    else if !showsBlank name && (Dom.element name attrs children).isBlank then .nothing
    else if (fencedCode? name children).isSome then .other
    else shownAround name attrs (firstShown children)

/-- What several nodes show first. -/
def firstShown : List Dom → FirstShown
  | [] => .nothing
  | d :: ds => (firstShownIn d).orElse (firstShown ds)

end

/-! ## Starts of texts -/

/-- A text that is the start of no break mark, and that no break mark starts. -/
structure Unlike (p : List Char) : Prop where
  chars : ∀ c ∈ p, isSpace c = false
  not_start : ¬p <+: breakMark
  not_started : ¬breakMark <+: p

/-- What the text of a document is, spaces and line feeds at its start aside. -/
def Core : FirstShown → List Char → Prop
  | .nothing, s => s = []
  | .lineBreak, s => ∃ t, s = breakMark ++ '\n' :: t
  | .other, s => ∃ p t, Unlike p ∧ s = p ++ t

/-- A text that starts with as many spaces, and line feeds behind them, before it shows something. -/
def Starts (spaces : Nat) (f : FirstShown) (s : List Char) : Prop :=
  ∃ newlines core, Core f core ∧
    s = List.replicate spaces ' ' ++ (List.replicate newlines '\n' ++ core)

variable {j k : Nat} {f g : FirstShown} {s t p : List Char}

theorem Unlike.of_cons {c : Char} (hc : isSpace c = false) (hlt : c ≠ '<') : Unlike [c] where
  chars := List.forall_mem_singleton.mpr hc
  not_start h := by
    obtain ⟨t, ht⟩ := h
    exact hlt (List.cons.inj ht).1
  not_started h := absurd h.length_le (by simp [breakMark])

/-- A text without spaces and with a character that no break mark holds. -/
theorem Unlike.of_mem {c : Char} (hp : ∀ x ∈ p, isSpace x = false) (hc : c ∈ p)
    (hmark : c ∉ breakMark) : Unlike p where
  chars := hp
  not_start h := hmark (h.subset hc)
  not_started h := absurd (hp ' ' (h.subset (by decide))) (by decide)

theorem Unlike.exists_cons (h : Unlike p) : ∃ c t, p = c :: t ∧ isSpace c = false := by
  cases p with
  | nil => exact absurd (List.nil_prefix) h.not_start
  | cons c t => exact ⟨c, t, rfl, h.chars c List.mem_cons_self⟩

/-- What a text shows first is no space that collapses. -/
theorem Core.isSpace_eq_false {c : Char} (h : Core f s) (hc : s.head? = some c) :
    isSpace c = false := by
  cases f with
  | nothing =>
    obtain rfl : s = [] := h
    cases hc
  | lineBreak =>
    obtain ⟨t, rfl⟩ := h
    obtain rfl : '<' = c := Option.some.inj hc
    rfl
  | other =>
    obtain ⟨p, t, hp, rfl⟩ := h
    obtain ⟨d, u, rfl, hd⟩ := hp.exists_cons
    obtain rfl : d = c := Option.some.inj hc
    exact hd

theorem Core.head?_ne {c : Char} (h : Core f s) (hc : isSpace c = true) : s.head? ≠ some c :=
  fun hhead => absurd (h.isSpace_eq_false hhead) (by rw [hc]; decide)

/-- What is left of a text that starts with a character that is kept starts with it. -/
theorem exists_trimEndWhile_cons {q : Char → Bool} {c : Char} (t : List Char)
    (h : Text.trimEndWhile q (c :: t) ≠ []) : ∃ u, Text.trimEndWhile q (c :: t) = c :: u := by
  have hcut := Text.trimEndWhile_append_takeEndWhile q (c :: t)
  obtain ⟨x, u, hx⟩ := List.exists_cons_of_ne_nil h
  rw [hx, List.cons_append] at hcut
  exact ⟨u, by rw [hx, (List.cons.inj hcut).1]⟩

theorem Unlike.getLast? (h : Unlike p) : ∃ c, p.getLast? = some c ∧ isSpace c = false := by
  obtain ⟨c, t, rfl, -⟩ := h.exists_cons
  have hlast := List.getLast?_eq_some_getLast (List.cons_ne_nil c t)
  exact ⟨_, hlast, h.chars _ (List.mem_of_getLast? hlast)⟩

namespace Starts

theorem dropSpaces (h : Starts k f s) : Starts 0 f (s.dropWhile (· = ' ')) := by
  obtain ⟨n, core, hcore, rfl⟩ := h
  refine ⟨n, core, hcore, ?_⟩
  rw [List.dropWhile_append_of_pos (by simp)]
  refine dropWhile_of_head?_ne ?_
  cases n with
  | zero => exact hcore.head?_ne rfl
  | succ n => simp [List.replicate_succ]

theorem trimStartIf (trims : Bool) (h : Starts k f s) :
    Starts (if trims then 0 else k) f (Mrkdwn.trimStartIf trims s) := by
  cases trims with
  | false => exact h
  | true => exact h.dropSpaces

theorem spaces (k : Nat) : Starts k .nothing (List.replicate k ' ') :=
  ⟨0, [], rfl, by simp⟩

theorem newlines_append (n : Nat) (h : Starts 0 f s) : Starts 0 f (List.replicate n '\n' ++ s) := by
  obtain ⟨m, core, hcore, rfl⟩ := h
  refine ⟨n + m, core, hcore, ?_⟩
  rw [List.replicate_add]
  simp only [List.replicate_zero, List.nil_append, List.append_assoc]

theorem spaces_append (j : Nat) (h : Starts k f s) :
    Starts (j + k) f (List.replicate j ' ' ++ s) := by
  obtain ⟨n, core, hcore, rfl⟩ := h
  exact ⟨n, core, hcore, by rw [List.replicate_add, List.append_assoc]⟩

/-- What stands behind a text that shows something does not change how the text starts. -/
theorem append (h : Starts k f s) (hf : f ≠ .nothing) (t : List Char) : Starts k f (s ++ t) := by
  obtain ⟨n, core, hcore, rfl⟩ := h
  refine ⟨n, core ++ t, ?_, by simp⟩
  cases f with
  | nothing => exact absurd rfl hf
  | lineBreak =>
    obtain ⟨u, rfl⟩ := hcore
    exact ⟨u ++ t, by simp⟩
  | other =>
    obtain ⟨p, u, hp, rfl⟩ := hcore
    exact ⟨p, u ++ t, hp, by simp⟩

/-- What a text shows first is not trimmed, nor is the line feed behind a break mark, if line feeds
that are trimmed are put back. -/
theorem trimEndWhile_append {q : Char → Bool} (hq : ∀ c, q c = true → isSpace c = true) (hf : f ≠ .nothing)
    (h : Starts k f s) {n : Nat} (hn : q '\n' = true → Text.trimEndWhile q s ≠ s → n ≠ 0) :
    Starts k f (Text.trimEndWhile q s ++ List.replicate n '\n') := by
  obtain ⟨m, core, hcore, rfl⟩ := h
  have hfalse : ∀ {c}, isSpace c = false → q c = false := fun hc =>
    Bool.eq_false_iff.mpr fun h => absurd (hq _ h) (Bool.eq_false_iff.mp hc)
  cases f with
  | nothing => exact absurd rfl hf
  | lineBreak =>
    obtain ⟨t, rfl⟩ := hcore
    have hlast : (List.replicate k ' ' ++ (List.replicate m '\n' ++ breakMark)).getLast? = some '>' := by
      rw [List.getLast?_append, List.getLast?_append]
      rfl
    have hsplit : List.replicate k ' ' ++ (List.replicate m '\n' ++ (breakMark ++ '\n' :: t))
        = List.replicate k ' ' ++ (List.replicate m '\n' ++ breakMark) ++ '\n' :: t := by simp
    rw [hsplit, trimEndWhile_append_of_getLast? hlast (hfalse (by decide))] at hn ⊢
    suffices hline : ∃ u, Text.trimEndWhile q ('\n' :: t) ++ List.replicate n '\n' = '\n' :: u by
      obtain ⟨u, hu⟩ := hline
      refine ⟨m, breakMark ++ '\n' :: u, ⟨u, rfl⟩, ?_⟩
      rw [List.append_assoc, hu]
      simp
    by_cases hnil : Text.trimEndWhile q ('\n' :: t) = []
    · rw [hnil] at hn ⊢
      have hnewline : q '\n' = true := by
        have hall := Text.trimEndWhile_append_takeEndWhile q ('\n' :: t)
        rw [hnil, List.nil_append] at hall
        exact Text.of_mem_takeEndWhile (hall ▸ List.mem_cons_self)
      obtain ⟨i, rfl⟩ := Nat.exists_eq_succ_of_ne_zero (hn hnewline (by simp))
      exact ⟨_, rfl⟩
    · obtain ⟨u, hu⟩ := exists_trimEndWhile_cons t hnil
      exact ⟨u ++ List.replicate n '\n', by rw [hu, List.cons_append]⟩
  | other =>
    obtain ⟨p, t, hp, rfl⟩ := hcore
    obtain ⟨c, hc, hspace⟩ := hp.getLast?
    have hlast : (List.replicate k ' ' ++ (List.replicate m '\n' ++ p)).getLast? = some c := by
      rw [List.getLast?_append, List.getLast?_append, hc]
      rfl
    have hsplit : List.replicate k ' ' ++ (List.replicate m '\n' ++ (p ++ t))
        = List.replicate k ' ' ++ (List.replicate m '\n' ++ p) ++ t := by simp
    rw [hsplit, trimEndWhile_append_of_getLast? hlast (hfalse hspace)]
    exact ⟨m, p ++ (Text.trimEndWhile q t ++ List.replicate n '\n'), ⟨p, _, hp, rfl⟩, by simp⟩

theorem trimSpaces (h : Starts 0 f s) : Starts 0 f (Text.trimEndWhile (· = ' ') s) := by
  by_cases hf : f = .nothing
  · subst hf
    obtain ⟨n, core, rfl, rfl⟩ := h
    have hlast : (List.replicate n '\n').getLast? ≠ some ' ' := fun hl =>
      absurd (List.eq_of_mem_replicate (List.mem_of_getLast? hl)) (by decide)
    rw [List.replicate_zero, List.nil_append, List.append_nil, trimEndWhile_of_getLast?_ne hlast]
    exact ⟨n, [], rfl, by simp⟩
  · have htrim := h.trimEndWhile_append isSpace_of_eq_space hf (n := 0) fun hq => absurd hq (by decide)
    rwa [List.replicate_zero, List.append_nil] at htrim

/-- Line feeds between two texts are counted with what stands before them. -/
theorem join (h : Starts k f s) (h' : Starts j g t) (hj : f = .nothing → s ≠ [] → j = 0) :
    ∃ i, Starts i (f.orElse g) (Mrkdwn.join s t) ∧ (k = 0 → (s = [] → j = 0) → i = 0) := by
  by_cases hf : f = .nothing
  · subst hf
    obtain ⟨n, core, rfl, rfl⟩ := h
    obtain ⟨m, core, hcore, rfl⟩ := h'
    rw [List.append_nil] at hj ⊢
    have hdrop : (List.replicate m '\n' ++ core).dropWhile (· = '\n') = core := by
      rw [List.dropWhile_append_of_pos (by simp)]
      exact dropWhile_of_head?_ne (hcore.head?_ne rfl)
    by_cases hnil : List.replicate k ' ' ++ List.replicate n '\n' = []
    · rw [hnil, join_nil_left]
      refine ⟨j, ?_, fun _ hj => hj rfl⟩
      cases j with
      | zero =>
        simp only [List.replicate_zero, List.nil_append, hdrop]
        exact ⟨_, core, hcore, rfl⟩
      | succ j =>
        rw [List.replicate_succ, List.cons_append, leadingNewlines, List.takeWhile_cons_of_neg (by decide),
          List.dropWhile_cons_of_neg (by decide)]
        exact ⟨m, core, hcore, rfl⟩
    · obtain rfl := hj rfl hnil
      have hlast : (List.replicate k ' ').getLast? ≠ some '\n' := fun hl =>
        absurd (List.eq_of_mem_replicate (List.mem_of_getLast? hl)) (by decide)
      rw [Mrkdwn.join, trimEndWhile_append_replicate hlast, trailingNewlines_append_replicate hlast,
        List.replicate_zero, List.nil_append, hdrop, List.append_assoc]
      exact ⟨k, ⟨_, core, hcore, rfl⟩, fun hk _ => hk⟩
  · refine ⟨k, ?_, fun hk _ => hk⟩
    have horElse : f.orElse g = f := by cases f <;> first | rfl | exact absurd rfl hf
    rw [horElse, Mrkdwn.join]
    refine (h.trimEndWhile_append isSpace_of_eq_newline hf fun _ htrim => ?_).append hf _
    have htrailing : trailingNewlines s ≠ 0 := fun h0 => htrim (by
      have hcut := trimEndWhile_append_trailingNewlines s
      rwa [h0, List.replicate_zero, List.append_nil] at hcut)
    omega

theorem of_dropSpaces (h : Starts 0 f (s.dropWhile (· = ' '))) : ∃ k, Starts k f s := by
  have hspaces : s.takeWhile (· = ' ') = List.replicate (s.takeWhile (· = ' ')).length ' ' :=
    List.eq_replicate_iff.mpr ⟨rfl, fun _ => Text.eq_of_mem_takeWhile⟩
  have hs := h.spaces_append (s.takeWhile (· = ' ')).length
  rw [← hspaces, List.takeWhile_append_dropWhile] at hs
  exact ⟨_, hs⟩

theorem append_newlines (n : Nat) (h : Starts 0 f s) : Starts 0 f (s ++ List.replicate n '\n') := by
  by_cases hf : f = .nothing
  · subst hf
    obtain ⟨m, core, rfl, rfl⟩ := h
    exact ⟨m + n, [], rfl, by simp [List.replicate_append_replicate]⟩
  · exact h.append hf _

theorem paragraph (h : Starts 0 f s) : Starts 0 f (Mrkdwn.paragraph s) :=
  (h.newlines_append 2).append_newlines 2

theorem list (nestedLast : Bool) (h : Starts 0 f s) : Starts 0 f (Mrkdwn.list s nestedLast) := by
  unfold Mrkdwn.list
  split
  · exact h.newlines_append 1
  · exact h.paragraph

theorem of_unlike (hp : Unlike p) (t : List Char) : Starts 0 .other (p ++ t) :=
  ⟨0, p ++ t, ⟨p, t, hp, rfl⟩, rfl⟩

theorem of_cons {c : Char} (hc : isSpace c = false) (hlt : c ≠ '<') (t : List Char) :
    Starts 0 .other (c :: t) :=
  of_unlike (.of_cons hc hlt) t

theorem blockquote (s : List Char) : Starts 0 .other (Mrkdwn.blockquote s) := by
  refine paragraph ?_
  obtain ⟨t, ht⟩ := exists_unlines_quoted (Text.lines_ne_nil (Text.trimWhile (· = '\n') s))
  rw [ht]
  exact of_cons rfl (by decide) t

theorem listItem (s : List Char) (p : ItemPosition) : Starts 0 .other (Mrkdwn.listItem s p) := by
  have hmarker : ∃ c t, p.marker.text = c :: t ∧ isSpace c = false ∧ c ≠ '<' := by
    cases p.marker with
    | bullet => exact ⟨'\u2022', [' '], rfl, rfl, by decide⟩
    | number n =>
      obtain ⟨c, t, hn, hc⟩ := exists_cons_ofInt n
      refine ⟨c, t ++ ['.', ' '], ?_, hc, (of_mem_ofInt (n := n) ?_).2⟩
      · rw [Marker.text, hn, List.cons_append]
      · rw [hn]
        exact List.mem_cons_self
  obtain ⟨c, t, hm, hc, hlt⟩ := hmarker
  simp only [Mrkdwn.listItem, hm, List.cons_append]
  exact of_cons hc hlt _

end Starts

/-! ## Inline elements -/

variable {delimiter : List Char}

theorem wrapLine_breakMark (delimiter : List Char) (wrapsFences : Bool) :
    wrapLine delimiter wrapsFences breakMark = breakMark := by
  have hquote : splitQuoteMark breakMark = ([], breakMark) := rfl
  have hdrop : dropBreakMarks breakMark = [] := rfl
  cases wrapsFences <;> simp [wrapLine, hquote, showsNothing, hdrop, dropPlaceholders,
    Text.isAllBlank]

/-- Texts on lines of their own are styled apart. -/
theorem wrapLines_append (delimiter : List Char) (wrapsFences : Bool) (s t : List Char) :
    wrapLines delimiter wrapsFences (s ++ '\n' :: t)
      = wrapLines delimiter wrapsFences s ++ '\n' :: wrapLines delimiter wrapsFences t := by
  unfold wrapLines
  rw [Text.lines_append, List.map_append,
    Text.unlines_append (by simp [Text.lines_ne_nil]) (by simp [Text.lines_ne_nil])]

theorem wrapLines_append_newline (delimiter : List Char) (wrapsFences : Bool) {l : List Char}
    (hl : '\n' ∉ l) (t : List Char) :
    wrapLines delimiter wrapsFences (l ++ '\n' :: t)
      = wrapLine delimiter wrapsFences l ++ '\n' :: wrapLines delimiter wrapsFences t := by
  rw [wrapLines_append, wrapLines_of_not_mem hl]

theorem wrapLines_newlines_append (delimiter : List Char) (wrapsFences : Bool) (n : Nat)
    (s : List Char) : wrapLines delimiter wrapsFences (List.replicate n '\n' ++ s)
      = List.replicate n '\n' ++ wrapLines delimiter wrapsFences s := by
  induction n with
  | zero => rfl
  | succ n ih =>
    have hline := wrapLines_append_newline delimiter wrapsFences List.not_mem_nil
      (List.replicate n '\n' ++ s)
    rwa [wrapLine_nil, ih] at hline

theorem wrapLines_newlines (delimiter : List Char) (wrapsFences : Bool) (n : Nat) :
    wrapLines delimiter wrapsFences (List.replicate n '\n') = List.replicate n '\n' := by
  have h := wrapLines_newlines_append delimiter wrapsFences n []
  rwa [wrapLines_nil, List.append_nil] at h

/-- A line in delimiters starts with one, or with the mark of a quoted line. -/
theorem exists_wrapLine_cons (hne : delimiter ≠ [])
    (hd : ∀ c ∈ delimiter, c ∈ zeroWidthSpace :: delimiterChars) (wrapsFences : Bool) (l : List Char) :
    wrapLine delimiter wrapsFences l = l ∨
      ∃ c t, wrapLine delimiter wrapsFences l = c :: t ∧ isSpace c = false ∧ c ≠ '<' := by
  simp only [wrapLine]
  split
  · exact .inl rfl
  · right
    have hquote : (splitQuoteMark l).1 = [] ∨ ∃ u, (splitQuoteMark l).1 = '&' :: u := by
      fun_cases splitQuoteMark l
      · exact .inr ⟨_, rfl⟩
      · exact .inr ⟨_, rfl⟩
      · exact .inl rfl
    rcases hquote with hquote | ⟨u, hquote⟩
    · obtain ⟨c, u, rfl⟩ := List.exists_cons_of_ne_nil hne
      have hchar : ∀ c ∈ zeroWidthSpace :: delimiterChars, isSpace c = false ∧ c ≠ '<' :=
        Text.forall_mem_of_all (by decide)
      exact ⟨c, _, by rw [hquote]; rfl, hchar c (hd c List.mem_cons_self)⟩
    · exact ⟨'&', _, by rw [hquote]; rfl, rfl, by decide⟩

theorem exists_unlines_cons (l : List Char) (ls : List (List Char)) :
    ∃ t, Text.unlines (l :: ls) = l ++ t := by
  cases ls with
  | nil => exact ⟨[], by simp⟩
  | cons m ms => exact ⟨_, Text.unlines_cons l (List.cons_ne_nil m ms)⟩

theorem Starts.wrapLines (hne : delimiter ≠ [])
    (hd : ∀ c ∈ delimiter, c ∈ zeroWidthSpace :: delimiterChars) (wrapsFences : Bool)
    (h : Starts 0 f s) : Starts 0 f (Mrkdwn.wrapLines delimiter wrapsFences s) := by
  obtain ⟨n, core, hcore, rfl⟩ := h
  rw [List.replicate_zero, List.nil_append, wrapLines_newlines_append]
  refine newlines_append n ?_
  cases f with
  | nothing =>
    obtain rfl : core = [] := hcore
    exact ⟨0, [], rfl, wrapLines_newlines delimiter wrapsFences 0⟩
  | lineBreak =>
    obtain ⟨t, rfl⟩ := hcore
    rw [wrapLines_append_newline _ _ (by decide), wrapLine_breakMark]
    exact ⟨0, _, ⟨_, rfl⟩, rfl⟩
  | other =>
    obtain ⟨p, t, hp, rfl⟩ := hcore
    have hline : '\n' ∉ p := fun hm => absurd (hp.chars _ hm) (by decide)
    obtain ⟨l, ls, hlines⟩ := List.exists_cons_of_ne_nil (Text.lines_ne_nil t)
    obtain ⟨u, hu⟩ := exists_unlines_cons (wrapLine delimiter wrapsFences (p ++ l))
      (ls.map (wrapLine delimiter wrapsFences))
    rw [Mrkdwn.wrapLines, Text.lines_append_of_not_mem hline hlines, List.map_cons, hu]
    rcases exists_wrapLine_cons hne hd wrapsFences (p ++ l) with heq | ⟨c, v, heq, hc, hlt⟩
    · rw [heq, List.append_assoc]
      exact of_unlike hp _
    · rw [heq]
      exact of_cons hc hlt _

/-- A link starts with a bracket that starts no break mark. -/
theorem starts_link (content href : List Char) : Starts 0 .other (link content href) := by
  have htoken : ∀ {c : Char} (t : List Char), isSpace c = false → c ∉ breakMark →
      Starts 0 .other ('<' :: c :: t) := by
    intro c t hc hmark
    refine Starts.of_unlike (p := ['<', c]) (.of_mem ?_ (by simp) hmark) t
    exact List.forall_mem_cons.mpr ⟨rfl, List.forall_mem_singleton.mpr hc⟩
  unfold link
  split
  next m _ =>
    cases m <;> exact htoken _ rfl (by decide)
  · have hencode : ∀ c ∈ '<' :: Text.Uri.encode href ++ ['|'], isSpace c = false := by
      simp only [List.cons_append, List.forall_mem_cons, List.forall_mem_append]
      refine ⟨rfl, fun c hc => Bool.eq_false_iff.mpr fun hs => ?_, rfl, nofun⟩
      exact absurd (isBlank_of_isSpace hs) (Bool.eq_false_iff.mp (isBlank_of_mem_encode hc))
    have hbar := Starts.of_unlike (.of_mem hencode (c := '|') (by simp) (by decide))
      (label content ++ ['>'])
    simpa using hbar

section Layout

variable {d : Delimiters}

theorem starts_layInline (hd : Delimiting d) {name : String} (hblock : isBlockName name = false)
    (attrs : Attrs) (h : Starts 0 f s) :
    Starts 0 (shownAround name attrs f) (layInline d name attrs s) := by
  generalize hg : shownAround name attrs f = g
  unfold layInline
  split
  · exact hg ▸ h.wrapLines hd.strong.1 hd.strong.2 true
  · exact hg ▸ h.wrapLines hd.strong.1 hd.strong.2 true
  · exact hg ▸ h.wrapLines hd.emphasis.1 hd.emphasis.2 true
  · exact hg ▸ h.wrapLines hd.emphasis.1 hd.emphasis.2 true
  · exact hg ▸ h.wrapLines hd.strike.1 hd.strike.2 false
  · exact hg ▸ h.wrapLines hd.strike.1 hd.strike.2 false
  · exact hg ▸ h.wrapLines hd.strike.1 hd.strike.2 false
  · exact hg ▸ h.wrapLines hd.code.1 hd.code.2 true
  · exact hg ▸ .of_cons rfl (by decide) _
  · split
    next href hhref =>
      split
      next hempty =>
        obtain rfl : f = g := by simpa [shownAround, leadsContent, hhref, hempty] using hg
        exact h
      next hempty =>
        obtain rfl : FirstShown.other = g := by simpa [shownAround, leadsContent, hhref, hempty] using hg
        exact starts_link s href
    next hhref =>
      obtain rfl : f = g := by simpa [shownAround, leadsContent, hhref] using hg
      exact h
  · split
    next timestamp htime =>
      obtain rfl : FirstShown.other = g := by simpa [shownAround, leadsContent, htime] using hg
      have hopening : Unlike "<!".toList :=
        .of_mem (c := '!') (Text.forall_mem_of_all (by decide)) (by decide) (by decide)
      exact Starts.of_unlike hopening ("date^".toList ++ timestamp ++ '^' :: s ++ '|' ::
        Text.escapeEntity ((attrs.lookup "data-fallback").getD []) ++ ['>'])
    next htime =>
      obtain rfl : f = g := by simpa [shownAround, leadsContent, htime] using hg
      exact h
  next hq ha htime =>
    have hblockquote : name ≠ "blockquote" := by
      rintro rfl
      cases hblock
    have hli : name ≠ "li" := by
      rintro rfl
      cases hblock
    have hleads : leadsContent name attrs = false := by
      simp only [leadsContent, beq_eq_false_iff_ne.mpr hblockquote, beq_eq_false_iff_ne.mpr hli,
        beq_eq_false_iff_ne.mpr hq, beq_eq_false_iff_ne.mpr ha, beq_eq_false_iff_ne.mpr htime,
        Bool.false_and, Bool.or_false]
    obtain rfl : f = g := by simpa [shownAround, hleads] using hg
    exact h

/-- Line feeds alone stay as they are in an inline element that shows nothing before its content. -/
theorem layInline_newlines (d : Delimiters) {name : String} {attrs : Attrs}
    (hleads : leadsContent name attrs = false) (n : Nat) :
    layInline d name attrs (List.replicate n '\n') = List.replicate n '\n' := by
  unfold layInline
  split
  · exact wrapLines_newlines _ _ n
  · exact wrapLines_newlines _ _ n
  · exact wrapLines_newlines _ _ n
  · exact wrapLines_newlines _ _ n
  · exact wrapLines_newlines _ _ n
  · exact wrapLines_newlines _ _ n
  · exact wrapLines_newlines _ _ n
  · exact wrapLines_newlines _ _ n
  · cases hleads
  · split
    next href hhref =>
      have hempty : href.isEmpty = true := by simpa [leadsContent, hhref] using hleads
      rw [if_pos hempty]
    · rfl
  · split
    next htime => simp [leadsContent, htime] at hleads
    · rfl
  · rfl

theorem starts_layBlock {name : String} (hblock : isBlockName name = true) (attrs : Attrs)
    (place : Mrkdwn.Place) (h : Starts 0 f s) :
    Starts 0 (shownAround name attrs f) (layBlock name place s) := by
  generalize hg : shownAround name attrs f = g
  unfold layBlock
  split
  · exact hg ▸ .blockquote s
  · exact hg ▸ h.list _
  · exact hg ▸ h.list _
  · exact hg ▸ .listItem s _
  next hblockquote _ _ hli =>
    have hnames : name ≠ "q" ∧ name ≠ "a" ∧ name ≠ "time" := by
      refine ⟨?_, ?_, ?_⟩ <;>
        rintro rfl <;>
        cases hblock
    have hleads : leadsContent name attrs = false := by
      simp only [leadsContent, beq_eq_false_iff_ne.mpr hblockquote, beq_eq_false_iff_ne.mpr hli,
        beq_eq_false_iff_ne.mpr hnames.1, beq_eq_false_iff_ne.mpr hnames.2.1,
        beq_eq_false_iff_ne.mpr hnames.2.2, Bool.false_and, Bool.or_false]
    obtain rfl : f = g := by simpa [shownAround, hleads] using hg
    exact h.paragraph

theorem trimWhile_spaces_newlines (k n : Nat) :
    Text.trimWhile (· = ' ') (List.replicate k ' ' ++ List.replicate n '\n')
      = List.replicate n '\n' := by
  have hfirst : (List.replicate n '\n').head? ≠ some ' ' := fun h =>
    absurd (List.eq_of_mem_replicate (List.mem_of_mem_head? h)) (by decide)
  have hlast : (List.replicate n '\n').getLast? ≠ some ' ' := fun h =>
    absurd (List.eq_of_mem_replicate (List.mem_of_getLast? h)) (by decide)
  rw [Text.trimWhile, List.dropWhile_append_of_pos (by simp), dropWhile_of_head?_ne hfirst,
    trimEndWhile_of_getLast?_ne hlast]

theorem takeEndWhile_newlines (k n : Nat) :
    Text.takeEndWhile (· = ' ') (List.replicate k ' ' ++ List.replicate (n + 1) '\n') = [] := by
  rw [List.replicate_succ', ← List.append_assoc, Text.takeEndWhile, List.reverse_append]
  simp

theorem starts_layAround (hd : Delimiting d) {name : String} (hbr : name ≠ "br") (attrs : Attrs)
    (place : Mrkdwn.Place) (h : Starts k f s) :
    ∃ j, Starts j (shownAround name attrs f) (layAround d name attrs place s) := by
  have hinner : Starts 0 f (Text.trimWhile (· = ' ') s) := h.dropSpaces.trimSpaces
  simp only [layAround, beq_eq_false_iff_ne.mpr hbr, Bool.false_eq_true, if_false]
  split
  next hblock => exact ⟨0, starts_layBlock hblock attrs place hinner⟩
  next hblock =>
    have hinline := starts_layInline hd (Bool.eq_false_iff.mpr hblock) attrs hinner
    by_cases hf : shownAround name attrs f = .nothing
    · rw [hf]
      have hleads : leadsContent name attrs = false := by
        cases hl : leadsContent name attrs with
        | false => rfl
        | true => simp [shownAround, hl] at hf
      obtain rfl : f = .nothing := by simpa [shownAround, hleads] using hf
      obtain ⟨n, core, rfl, rfl⟩ := h
      rw [List.append_nil, trimWhile_spaces_newlines, layInline_newlines d hleads]
      have hfirst : ∀ c ∈ (List.replicate k ' ' ++ List.replicate n '\n').takeWhile (· = ' '),
          c = ' ' := fun _ => Text.eq_of_mem_takeWhile
      have hlast : ∀ c ∈ Text.takeEndWhile (· = ' ') (List.replicate k ' ' ++ List.replicate n '\n'),
          c = ' ' := fun _ => Text.eq_of_mem_takeEndWhile
      cases n with
      | zero =>
        rw [List.eq_replicate_iff.mpr ⟨rfl, hfirst⟩, List.eq_replicate_iff.mpr ⟨rfl, hlast⟩,
          List.replicate_zero, List.append_nil, List.replicate_append_replicate]
        exact ⟨_, .spaces _⟩
      | succ n =>
        rw [List.eq_replicate_iff.mpr ⟨rfl, hfirst⟩, takeEndWhile_newlines k n, List.append_nil]
        exact ⟨_, n + 1, [], rfl, by rw [List.append_nil]⟩
    · have hspaces : s.takeWhile (· = ' ') = List.replicate (s.takeWhile (· = ' ')).length ' ' :=
        List.eq_replicate_iff.mpr ⟨rfl, fun _ => Text.eq_of_mem_takeWhile⟩
      rw [hspaces]
      exact ⟨_, (hinline.spaces_append _).append hf _⟩

theorem starts_layBlank (name : String) (children : List Dom) :
    ∃ k, Starts k .nothing (layBlank name children) := by
  unfold layBlank
  split
  · exact ⟨0, 2, [], rfl, rfl⟩
  · split
    · exact ⟨0, 0, [], rfl, rfl⟩
    · exact ⟨1, .spaces 1⟩

theorem starts_placeholder (n : Nat) (singleLine : Bool) :
    Starts 0 .other (placeholder n singleLine) := by
  have hopening : Unlike Placeholder.opening :=
    .of_mem (c := 'p') (Text.forall_mem_of_all (by decide)) (by decide) (by decide)
  have htext := Starts.of_unlike hopening
    (Text.ofNat n ++ (if singleLine then ['s'] else []) ++ ['>', '>'] ++ ['\n'])
  have hline := htext.newlines_append 1
  simpa [placeholder, Placeholder.text] using hline

/-- Behind the spaces that are trimmed off, a text starts with its first character that is no space,
as it is or as an entity. -/
theorem starts_layText (trims : Bool) (content : List Char) :
    ∃ k, Starts k (firstShownIn (.text content)) (layText trims content) ∧ (trims = true → k = 0) := by
  have hfirst : ∀ s : List Char, Starts 0 (if s.all isSpace then FirstShown.nothing else .other)
      (escapeEntity (Text.squeezeFrom isSpace ' ' true s)) := by
    intro s
    induction s with
    | nil => exact ⟨0, [], rfl, rfl⟩
    | cons c s ih =>
      rw [Text.squeezeFrom, List.all_cons]
      by_cases hc : isSpace c = true
      · rw [if_pos hc, hc, Bool.true_and]
        exact ih
      · obtain ⟨x, w, hx⟩ := List.exists_cons_of_ne_nil (Text.entity_ne_nil c)
        have hmem : x ∈ Text.entity c := hx ▸ List.mem_cons_self
        have hspace : isSpace x = false := by
          refine Bool.eq_false_iff.mpr fun hs => hc ?_
          have hchars : ∀ x ∈ "&ampltg;<>".toList, isSpace x = false :=
            Text.forall_mem_of_all (by decide)
          have hplain : x ∉ "&ampltg;<>".toList := fun hm =>
            absurd hs (Bool.eq_false_iff.mp (hchars x hm))
          rwa [← (Text.mem_entity hplain).mp hmem]
        have hlt : x ≠ '<' := fun e => (Text.bracket_not_mem_entity c).1 (e ▸ hmem)
        rw [if_neg hc, Text.escapeEntity_cons, hx, List.cons_append]
        simpa [hc] using Starts.of_cons hspace hlt _
  have htext : layText trims content
      = trimStartIf trims (escapeEntity (Text.squeeze isSpace ' ' content)) := by
    cases trims with
    | false => rfl
    | true => exact (Text.dropWhile_escapeEntity _).symm
  have hdrop : Starts 0 (firstShownIn (.text content))
      ((escapeEntity (Text.squeeze isSpace ' ' content)).dropWhile (· = ' ')) := by
    rw [Text.dropWhile_escapeEntity, Text.squeeze, Text.dropWhile_squeezeFrom rfl, firstShownIn]
    exact hfirst content
  obtain ⟨k, hk⟩ := hdrop.of_dropSpaces
  rw [htext]
  exact ⟨_, hk.trimStartIf trims, fun h => if_pos h⟩

mutual

theorem starts_layNode (hd : Delimiting d) (trims : Bool) (place : Mrkdwn.Place) (F : Fences) :
    (n : Dom) → ∃ k, Starts k (firstShownIn n) (layNode d trims place F n).text ∧
      (trims = true → k = 0)
  | .text content => by
    simp only [layNode]
    exact starts_layText trims content
  | .comment => by
    simp only [layNode, firstShownIn]
    exact ⟨0, .spaces 0, fun _ => rfl⟩
  | .element name attrs children => by
    have htrim : ∀ {k f s}, Starts k f s → ∃ j, Starts j f (trimStartIf trims s) ∧
        (trims = true → j = 0) := fun h => ⟨_, h.trimStartIf trims, fun h => if_pos h⟩
    simp only [layNode, firstShownIn]
    by_cases hbr : name = "br"
    · subst hbr
      have hcode : fencedCode? "br" children = none := fencedCode?_of_ne (by decide) children
      simp only [hcode, if_true]
      exact htrim (k := 0) ⟨0, breakMark ++ ['\n'], ⟨[], rfl⟩, rfl⟩
    · rw [if_neg hbr]
      split
      · exact htrim (starts_layBlank name children).choose_spec
      · cases hcode : fencedCode? name children with
        | some code => exact ⟨0, starts_placeholder _ _, fun _ => rfl⟩
        | none =>
          obtain ⟨k, hk, -⟩ := starts_layNodes hd name attrs (isBlockName name) 0 ⟨[], F⟩
            (Starts.spaces 0) (fun _ => rfl) children
          exact htrim (starts_layAround hd hbr attrs place hk).choose_spec

/-- What nodes show first they show behind what is laid out before them, if that shows nothing. -/
theorem starts_layNodes (hd : Delimiting d) (parent : String) (parentAttrs : Attrs) (isBlock : Bool)
    (elementsBefore : Nat) (laid : Laid) {k : Nat} {f : FirstShown} (hl : Starts k f laid.text)
    (hk : isBlock = true → k = 0) : (ns : List Dom) →
      ∃ j, Starts j (f.orElse (firstShown ns))
        (layNodes d parent parentAttrs isBlock elementsBefore laid ns).text ∧ (isBlock = true → j = 0)
  | [] => by
    have hnothing : f.orElse .nothing = f := by cases f <;> rfl
    simp only [layNodes, firstShown, hnothing]
    exact ⟨k, hl, hk⟩
  | n :: ns => by
    have hassoc : f.orElse ((firstShownIn n).orElse (firstShown ns))
        = (f.orElse (firstShownIn n)).orElse (firstShown ns) := by cases f <;> rfl
    have hnode := starts_layNode hd (afterSpace laid.text isBlock)
      ⟨parent, parentAttrs, elementsBefore, !ns.isEmpty, ns.any Dom.isElement⟩ laid.fences n
    obtain ⟨j, hj, htrims⟩ := hnode
    -- behind spaces and line feeds alone, spaces are trimmed off
    have hafter : f = .nothing → laid.text ≠ [] → afterSpace laid.text isBlock = true := by
      rintro rfl hne
      obtain ⟨m, core, rfl, htext⟩ := hl
      rw [htext, List.append_nil] at hne ⊢
      obtain ⟨u, c, hu⟩ := (List.eq_nil_or_concat _).resolve_left hne
      rw [List.concat_eq_append] at hu
      have hc : c = ' ' ∨ c = '\n' := by
        have hmem : c ∈ List.replicate k ' ' ++ List.replicate m '\n' := hu ▸ by simp
        exact (List.mem_append.mp hmem).imp List.eq_of_mem_replicate List.eq_of_mem_replicate
      rw [hu, afterSpace, List.getLast?_concat]
      rcases hc with rfl | rfl <;> simp
    obtain ⟨i, hi, hblock⟩ := hl.join hj fun hf hne => htrims (hafter hf hne)
    simp only [layNodes, firstShown, hassoc]
    refine starts_layNodes hd parent parentAttrs isBlock _ ⟨_, _⟩ hi (fun hb => ?_) ns
    refine hblock (hk hb) fun hnil => htrims ?_
    rw [hnil, afterSpace, hb]
    rfl

end

end Layout

/-! ## Trimmed ends -/

/-- A character that no break mark starts with stays. -/
theorem dropBreakMarks_cons_of_not_started {c : Char} (h : ¬breakMark <+: c :: s) :
    dropBreakMarks (c :: s) = c :: dropBreakMarks s :=
  dropBreakMarks.eq_3 c s fun t hc hs => h ⟨t, by rw [hc, hs]; rfl⟩

/-- What stands for a placeholder starts and ends with no blank, whether its code is put back or not. -/
theorem ends_restore_mark (F : Fences) (p : Placeholder) :
    (∃ x, ((Piece.mark p).restore F).head? = some x ∧ isSpace x = false) ∧
      ∃ x, ((Piece.mark p).restore F).getLast? = some x ∧ isSpace x = false := by
  simp only [Piece.restore]
  split
  · simp only [fenced]
    split <;>
      exact ⟨⟨'\x60', rfl, rfl⟩, '\x60', by simp [fenceMark, List.getLast?_cons], rfl⟩
  · exact ⟨⟨'<', rfl, rfl⟩, '>', by simp [Placeholder.text], rfl⟩

theorem ne_of_isSpace {x c : Char} (hx : isSpace x = false) (hc : isSpace c = true) : x ≠ c := by
  rintro rfl
  rw [hx] at hc
  cases hc

theorem head?_restore {c : Char} (hc : isSpace c = true) (F : Fences) (s : List Char) :
    (restore F s).head? = some c ↔ s.head? = some c := by
  cases s with
  | nil => rw [restore_nil]
  | cons x s =>
    cases hr : Placeholder.read? (x :: s) with
    | none => rw [restore_cons hr, List.head?_cons, List.head?_cons]
    | some r =>
      obtain ⟨p, rest⟩ := r
      obtain ⟨⟨y, hy, hspace⟩, -⟩ := ends_restore_mark F p
      have hread := congrArg List.head? (Placeholder.eq_append_of_read? hr)
      have hopen : (x :: s).head? = some '<' := hread
      rw [restore, pieces_of_read? hr, List.flatMap_cons, List.head?_append, hy, hopen]
      simp [ne_of_isSpace hspace hc, ne_of_isSpace (x := '<') rfl hc]

theorem getLast?_restore {c : Char} (hc : isSpace c = true) (F : Fences) (s : List Char) :
    (restore F s).getLast? = some c ↔ s.getLast? = some c := by
  suffices h : ((restore F s).getLast? = none ↔ s.getLast? = none) ∧
      ((restore F s).getLast? = some c ↔ s.getLast? = some c) from h.2
  unfold restore
  fun_induction pieces s with
  | case1 => exact ⟨Iff.rfl, Iff.rfl⟩
  | case2 x t p rest hr _ ih =>
    obtain ⟨-, y, hy, hspace⟩ := ends_restore_mark F p
    have htext : p.text.getLast? = some '>' := by simp [Placeholder.text]
    have hgt : '>' ≠ c := ne_of_isSpace rfl hc
    rw [Placeholder.eq_append_of_read? hr, List.flatMap_cons, List.getLast?_append,
      List.getLast?_append, hy, htext]
    refine ⟨by simp, ?_⟩
    simp only [Option.or_eq_some_iff, Option.some.injEq, ne_of_isSpace hspace hc, hgt, and_false,
      or_false]
    exact ih.2
  | case3 x t hr ih =>
    rw [List.flatMap_cons, ← List.singleton_append, List.getLast?_append, List.getLast?_append]
    refine ⟨by simp [Piece.restore], ?_⟩
    simp only [Option.or_eq_some_iff]
    exact or_congr ih.2 (and_congr ih.1 Iff.rfl)

/-- No break mark begins within another. -/
theorem dropBreakMarks_append_breakMark (s : List Char) :
    dropBreakMarks (s ++ breakMark) = dropBreakMarks s := by
  fun_induction dropBreakMarks s with
  | case1 => rfl
  | case2 s ih => exact ih
  | case3 c s hmark ih =>
    rw [List.cons_append, dropBreakMarks_cons_of_not_started, ih]
    rintro ⟨t, ht⟩
    have hcut : '<' = c ∧ "br />".toList ++ t = s ++ breakMark := List.cons.inj ht
    obtain ⟨rfl, htail⟩ := hcut
    rcases List.append_eq_append_iff.mp htail with ⟨u, hs, -⟩ | ⟨u, hmark', hu⟩
    · exact hmark u rfl hs
    · cases u with
      | nil => exact hmark [] rfl (by rw [← List.append_nil s, ← hmark']; rfl)
      | cons x u =>
        have hx : '<' = x := (List.cons.inj hu).1
        exact absurd (hmark' ▸ List.mem_append_right s (hx ▸ List.mem_cons_self) : '<' ∈ "br />".toList)
          (by decide)

theorem dropBreakMarks_append_breakMarks (s : List Char) (k : Nat) :
    dropBreakMarks (s ++ (List.replicate k breakMark).flatten) = dropBreakMarks s := by
  induction k with
  | zero => simp
  | succ k ih =>
    rw [List.replicate_succ', List.flatten_append, List.flatten_singleton, ← List.append_assoc,
      dropBreakMarks_append_breakMark, ih]

/-- A text ends in some number of break marks. -/
theorem exists_breakMarks (s : List Char) :
    ∃ t k, s = t ++ (List.replicate k breakMark).flatten ∧ ¬breakMark <:+ t := by
  induction hn : s.length using Nat.strong_induction_on generalizing s with
  | _ n ih =>
    by_cases h : breakMark <:+ s
    · obtain ⟨u, rfl⟩ := h
      obtain ⟨t, k, hu, ht⟩ := ih u.length (by simp [← hn, breakMark]) u rfl
      refine ⟨t, k + 1, ?_, ht⟩
      rw [List.replicate_succ', List.flatten_append, List.flatten_singleton, ← List.append_assoc, ← hu]
    · exact ⟨s, 0, by simp, h⟩

/-- Break marks that are taken away do not change the end of a text that ends in none. -/
theorem getLast?_dropBreakMarks (h : ¬breakMark <:+ s) :
    (dropBreakMarks s).getLast? = s.getLast? := by
  fun_induction dropBreakMarks s with
  | case1 => rfl
  | case2 s ih =>
    have hs : s ≠ [] := by
      rintro rfl
      exact h List.suffix_rfl
    have hcut : '<' :: 'b' :: 'r' :: ' ' :: '/' :: '>' :: s = breakMark ++ s := rfl
    rw [ih fun hsuffix => h (hcut ▸ hsuffix.trans (List.suffix_append _ _)), hcut,
      List.getLast?_append_of_ne_nil _ hs]
  | case3 c s _ ih =>
    rw [List.getLast?_cons, List.getLast?_cons, ih fun hsuffix => h (hsuffix.trans (List.suffix_cons c s))]

/-! ## Ends of the mrkdwn -/

/-- What is left of a layout that shows something first, in which spaces and line feeds are trimmed. -/
theorem Starts.trimEnds (h : Starts 0 f s) :
    ∃ core, Core f core ∧ Mrkdwn.trimEnds s = Text.trimEndWhile Text.isBlank core := by
  obtain ⟨n, core, hcore, rfl⟩ := h
  refine ⟨core, hcore, ?_⟩
  rw [Mrkdwn.trimEnds, List.replicate_zero, List.nil_append, List.dropWhile_append_of_pos (by simp)]
  cases core with
  | nil => rfl
  | cons c t =>
    have hc : isSpace c = false := hcore.isSpace_eq_false rfl
    simp only [isSpace, Bool.or_eq_false_iff, decide_eq_false_iff_not] at hc
    rw [List.dropWhile_cons_of_neg (by simp [hc])]

/-- The mrkdwn of a document starts with a blank exactly if it is not empty and the document shows a
line break first. -/
theorem exists_head?_ofDoms (options : FormatOptions) (body : List Dom) :
    (∃ c ∈ (ofDoms (delimiters options) body).head?, isSpace c = true) ↔
      ofDoms (delimiters options) body ≠ [] ∧ firstShown body = .lineBreak := by
  obtain ⟨j, hj, hblock⟩ := starts_layNodes (delimiting_delimiters options) "body" [] true 0 ⟨[], []⟩
    (Starts.spaces 0) (fun _ => rfl) body
  obtain rfl : j = 0 := hblock rfl
  obtain ⟨core, hcore, htrim⟩ := hj.trimEnds
  have hout : ofDoms (delimiters options) body
      = restore (layBody (delimiters options) body).fences
          (dropBreakMarks (Text.trimEndWhile Text.isBlank core)) := by
    rw [← htrim]
    rfl
  generalize (layBody (delimiters options) body).fences = F at hout
  rw [hout]
  simp only [FirstShown.orElse] at hcore
  cases hf : firstShown body with
  | nothing =>
    rw [hf] at hcore
    obtain rfl : core = [] := hcore
    simp [dropBreakMarks, restore_nil]
  | lineBreak =>
    rw [hf] at hcore
    obtain ⟨t, rfl⟩ := hcore
    rw [trimEndWhile_append_of_getLast? (c := '>') rfl rfl, dropBreakMarks_breakMark_append]
    by_cases hnil : Text.trimEndWhile Text.isBlank ('\n' :: t) = []
    · rw [hnil]
      simp [dropBreakMarks, restore_nil]
    · obtain ⟨u, hu⟩ := exists_trimEndWhile_cons t hnil
      rw [hu, dropBreakMarks_cons (by decide), restore_cons (read?_cons_of_ne (by decide) _)]
      simp [isSpace]
  | other =>
    rw [hf] at hcore
    obtain ⟨p, t, hp, rfl⟩ := hcore
    refine iff_of_false ?_ (by simp)
    rintro ⟨c, hc, hspace⟩
    rw [Option.mem_def, head?_restore hspace] at hc
    obtain ⟨x, u, rfl, hx⟩ := hp.exists_cons
    by_cases hnil : Text.trimEndWhile Text.isBlank (x :: u ++ t) = []
    · rw [hnil] at hc
      cases hc
    · obtain ⟨v, hv⟩ := exists_trimEndWhile_cons (u ++ t) hnil
      have hmark : ¬breakMark <+: x :: v := by
        intro h
        have htrimmed : x :: v <+: x :: u ++ t :=
          ⟨_, hv ▸ Text.trimEndWhile_append_takeEndWhile Text.isBlank _⟩
        rcases List.prefix_or_prefix_of_prefix (h.trans htrimmed) (List.prefix_append _ t) with h | h
        · exact hp.not_started h
        · exact hp.not_start h
      rw [List.cons_append, hv, dropBreakMarks_cons_of_not_started hmark] at hc
      exact ne_of_isSpace hx hspace (Option.some.inj hc)

/-- The mrkdwn of a document ends with a blank exactly if break marks, and nothing else, stand behind
a blank at the end of its layout. -/
theorem exists_getLast?_ofDoms (options : FormatOptions) (body : List Dom) :
    (∃ c ∈ (ofDoms (delimiters options) body).getLast?, isSpace c = true) ↔
      ∃ u c k, isSpace c = true ∧ trimEnds (layBody (delimiters options) body).text
        = u ++ c :: (List.replicate (k + 1) breakMark).flatten := by
  have hlast : ∀ {u c}, trimEnds (layBody (delimiters options) body).text = u ++ [c] →
      isSpace c = false := by
    intro u c h
    have hblank := List.head?_dropWhile_not Text.isBlank
      ((layBody (delimiters options) body).text.dropWhile fun c => c = '\t' || c = '\r' || c = '\n').reverse
    have hhead := congrArg List.head? (congrArg List.reverse h)
    rw [trimEnds, Text.trimEndWhile, List.reverse_reverse, List.reverse_concat, List.head?_cons] at hhead
    rw [hhead] at hblank
    exact Bool.eq_false_iff.mpr fun hs => by simp [isBlank_of_isSpace hs] at hblank
  simp only [ofDoms, Option.mem_def]
  generalize trimEnds (layBody (delimiters options) body).text = t at hlast
  generalize (layBody (delimiters options) body).fences = F
  constructor
  · rintro ⟨c, hc, hspace⟩
    obtain ⟨w, k, rfl, hw⟩ := exists_breakMarks t
    rw [getLast?_restore hspace, dropBreakMarks_append_breakMarks, getLast?_dropBreakMarks hw] at hc
    obtain ⟨u, rfl⟩ := List.getLast?_eq_some_iff.mp hc
    cases k with
    | zero =>
      have hc := hlast (u := u) (c := c) (by simp)
      rw [hspace] at hc
      cases hc
    | succ k => exact ⟨u, c, k, hspace, by simp⟩
  · rintro ⟨u, c, k, hspace, rfl⟩
    have hmark : ¬breakMark <:+ u ++ [c] := by
      rintro ⟨v, hv⟩
      have hend := congrArg List.getLast? hv
      rw [List.getLast?_concat, List.getLast?_append] at hend
      exact ne_of_isSpace (x := '>') rfl hspace (Option.some.inj hend)
    refine ⟨c, ?_, hspace⟩
    rw [getLast?_restore hspace, ← List.singleton_append, ← List.append_assoc,
      dropBreakMarks_append_breakMarks, getLast?_dropBreakMarks hmark, List.getLast?_concat]

/-- Break marks are taken away when the ends of the layout are trimmed already. So the mrkdwn of a
fragment starts with a blank exactly if it is not empty and the fragment shows a line break first,
and it ends with one exactly if line breaks, and nothing else, stand behind a space or a line feed at
the end of the layout. -/
theorem ofHtml_ends (options : FormatOptions) (html : List Char) :
    let out := ofHtml options html
    let body := parse html
    ((∃ c ∈ out.head?, isSpace c = true) ↔ out ≠ [] ∧ firstShown body = .lineBreak) ∧
      ((∃ c ∈ out.getLast?, isSpace c = true) ↔
        ∃ u c k, isSpace c = true ∧ trimEnds (layBody (delimiters options) body).text
          = u ++ c :: (List.replicate (k + 1) breakMark).flatten) :=
  ⟨exists_head?_ofDoms options (parse html), exists_getLast?_ofDoms options (parse html)⟩

/-- Line breaks at the ends of a fragment leave a line feed or a space at the ends of the mrkdwn. -/
theorem ofHtml_ends_lineBreak :
    ofHtml {} "<br>a".toList = "\na".toList ∧ ofHtml {} "a <br>".toList = "a ".toList ∧
      ofHtml {} "<p>a</p><br>".toList = "a\n\n".toList := by
  refine ⟨?_, ?_, ?_⟩ <;> cbv

end Mrkdwn

end MessageLayout
