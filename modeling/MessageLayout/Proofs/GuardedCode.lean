import Mathlib.Algebra.GroupWithZero.Nat
import MessageLayout.Proofs.BalancedText
import MessageLayout.Proofs.EscapedText

/-!
# Code blocks under guards

The guards of the styles skip what stands in code, so a code block comes through every one of them
unaltered. The guard of a quotation works on lines and skips nothing: a line of code that starts with
a quote mark gets a soft hyphen, save the first, in front of which the tags of the block stand.

    guardText f (before ++ codeBlock code ++ after) = before' ++ codeBlock code ++ after'
                                                                          (guardText_codeBlock)
    guardQuote (before ++ codeBlock code ++ after) = before' ++ codeBlock (guardLater code) ++ after'
                                                                          (guardQuote_codeBlock)
-/

namespace MessageLayout.Markup

/-- A code block in a fragment. -/
def codeBlock (code : List Char) : List Char :=
  enclose "pre" [] (enclose "code" [] code)

theorem codeBlock_eq (code s : List Char) :
    codeBlock code ++ s
      = '<' :: ("pre".toList ++ '>' :: '<' :: ("code".toList ++ '>' :: (code ++
          '<' :: ("/code".toList ++ '>' :: '<' :: ("/pre".toList ++ '>' :: s))))) := by
  simp [codeBlock, enclose]

/-! ## Cutting into tags -/

/-- Whether each `<` of a text has a `>` behind it. -/
def Closed (s : List Char) : Prop :=
  ∀ u v, s = u ++ '<' :: v → '>' ∈ v

theorem Closed.append {s t : List Char} (hs : Closed s) (ht : Closed t) : Closed (s ++ t) := by
  intro u v h
  rcases List.append_eq_append_iff.mp h with ⟨w, rfl, hw⟩ | ⟨w, hs', hw⟩
  · exact ht w v hw
  · cases w with
    | nil => exact ht [] v hw.symm
    | cons c w =>
      obtain ⟨rfl, rfl⟩ := List.cons.inj hw
      exact List.mem_append_left t (hs u w hs')

theorem Closed.of_not_mem {s : List Char} (h : '<' ∉ s) : Closed s := by
  rintro u v rfl
  exact absurd (by simp) h

theorem closed_concat (s : List Char) : Closed (s ++ ['>']) := by
  intro u v h
  rcases List.eq_nil_or_concat v with rfl | ⟨w, c, rfl⟩
  · exact absurd (List.append_inj' h rfl).2 (by decide)
  · have h' : s ++ ['>'] = (u ++ '<' :: w) ++ [c] := by simpa using h
    obtain rfl := List.singleton_inj.mp (List.append_inj' h' rfl).2
    simp

theorem closed_enclose (name : String) (attrs : List Char) {content : List Char}
    (h : Closed content) : Closed (enclose name attrs content) := by
  have he : enclose name attrs content
      = ('<' :: name.toList ++ attrs ++ ['>']) ++ content ++ ("</".toList ++ name.toList ++ ['>']) := by
    simp [enclose]
  rw [he]
  exact ((closed_concat _).append h).append (closed_concat _)

theorem Balanced.closed {blocks inLink : Bool} {s : List Char} (h : Balanced blocks inLink s) :
    Closed s := by
  induction h with
  | nil => exact .of_not_mem List.not_mem_nil
  | @char _ c _ hc _ _ ih =>
    have hs : Closed [c] := .of_not_mem (by simpa using Ne.symm hc)
    exact hs.append ih
  | entity _ _ ih => exact (Closed.of_not_mem (Text.bracket_not_mem_entity _).1).append ih
  | lineBreak _ ih =>
    have hb : Closed Markup.lineBreak := closed_concat "<br /".toList
    exact hb.append ih
  | element _ _ _ ihc ih => exact (closed_enclose _ _ ihc).append ih

theorem Opened.closed {blocks : Bool} {names : List String} {s : List Char}
    (h : Opened blocks names s) : Closed s := by
  induction h with
  | here h => exact h.closed
  | passed _ ih => exact ih
  | @within name names attrs s t h _ _ _ ih =>
    have he : s ++ '<' :: (name.toList ++ (attrs ++ '>' :: t))
        = s ++ ('<' :: name.toList ++ attrs ++ ['>']) ++ t := by simp
    rw [he]
    exact (h.closed.append (closed_concat _)).append ih

/-- What stands before a tag is cut by itself. -/
theorem spansFrom_append {s y : List Char} (hs : Closed s) (hy : '>' ∈ y) (isTag : Bool)
    (begun : List Char) (ht : isTag = true → '>' ∈ s) :
    spansFrom isTag begun (s ++ '<' :: y) = spansFrom isTag begun s ++ spansFrom true ['<'] y := by
  induction s generalizing isTag begun with
  | nil =>
    cases isTag with
    | true => exact absurd (ht rfl) List.not_mem_nil
    | false => simp [spansFrom, hy]
  | cons c s ih =>
    have hs' : Closed s := fun u v h => hs (c :: u) v (congrArg _ h)
    cases isTag with
    | true =>
      by_cases hc : c = '>'
      · simp [spansFrom, hc, ih hs' false [] (by simp)]
      · have hm : '>' ∈ s := by simpa [Ne.symm hc] using ht rfl
        simp [spansFrom, hc, ih hs' true (begun ++ [c]) fun _ => hm]
    | false =>
      by_cases hc : c = '<'
      · have hm : '>' ∈ s := hs [] s (congrArg (· :: s) hc)
        simp [spansFrom, hc, hm, ih hs' true ['<'] fun _ => hm]
      · simp [spansFrom, hc, ih hs' false (begun ++ [c]) (by simp)]

theorem spansFrom_tag {w : List Char} (hw : '>' ∉ w) (begun y : List Char) :
    spansFrom true begun (w ++ '>' :: y) = .tag (begun ++ w ++ ['>']) :: spansFrom false [] y := by
  induction w generalizing begun with
  | nil => simp [spansFrom]
  | cons c w ih =>
    simp only [List.mem_cons, not_or] at hw
    simp [spansFrom, Ne.symm hw.1, ih hw.2]

theorem spansFrom_text {w : List Char} (hw : '<' ∉ w) (begun : List Char) {y : List Char}
    (hy : '>' ∈ y) :
    spansFrom false begun (w ++ '<' :: y) = .text (begun ++ w) :: spansFrom true ['<'] y := by
  induction w generalizing begun with
  | nil => simp [spansFrom, hy]
  | cons c w ih =>
    simp only [List.mem_cons, not_or] at hw
    simp [spansFrom, Ne.symm hw.1, ih hw.2]

theorem spansFrom_open {y : List Char} (hy : '>' ∈ y) :
    spansFrom false [] ('<' :: y) = .text [] :: spansFrom true ['<'] y :=
  spansFrom_text (w := []) List.not_mem_nil [] hy

theorem spansFrom_codeBlock {code : List Char} (hlt : '<' ∉ code) (after : List Char) :
    spansFrom true ['<'] (codeBlock code ++ after).tail
      = [.tag "<pre>".toList, .text [], .tag "<code>".toList, .text code, .tag "</code>".toList,
          .text [], .tag "</pre>".toList] ++ spansFrom false [] after := by
  have h₁ := fun y => spansFrom_tag (w := "pre".toList) (by decide) ['<'] y
  have h₂ := fun y => spansFrom_tag (w := "code".toList) (by decide) ['<'] y
  have h₃ := fun y => spansFrom_tag (w := "/code".toList) (by decide) ['<'] y
  have h₄ := fun y => spansFrom_tag (w := "/pre".toList) (by decide) ['<'] y
  rw [codeBlock_eq, List.tail_cons, h₁, spansFrom_open (by simp), h₂,
    spansFrom_text hlt [] (by simp), h₃, spansFrom_open (by simp), h₄]
  rfl

/-! ## Guards of styles -/

theorem exists_guardFrom_append (f : List Char → List Char) (depth : Nat) (sp : List Span) :
    ∃ depth', ∀ more, guardFrom f depth (sp ++ more)
      = guardFrom f depth sp ++ guardFrom f depth' more := by
  induction sp generalizing depth with
  | nil => exact ⟨depth, fun _ => rfl⟩
  | cons a sp ih =>
    cases a with
    | text s =>
      obtain ⟨depth', h⟩ := ih depth
      exact ⟨depth', fun more => by simp [guardFrom, h]⟩
    | tag s =>
      obtain ⟨depth', h⟩ := ih (codeDepth depth s)
      exact ⟨depth', fun more => by simp [guardFrom, h]⟩

/-- The guard of a style leaves every code block as it is. -/
theorem guardText_codeBlock (f : List Char → List Char) {before : List Char} (hb : Closed before)
    (after : List Char) :
    ∃ after', ∀ code, '<' ∉ code →
      guardText f (before ++ codeBlock code ++ after)
        = guardText f before ++ codeBlock code ++ after' := by
  obtain ⟨depth, h⟩ := exists_guardFrom_append f 0 (spans before)
  refine ⟨guardFrom f depth (spansFrom false [] after), fun code hlt => ?_⟩
  have hcut : spans (before ++ codeBlock code ++ after)
      = spans before ++ spansFrom true ['<'] (codeBlock code ++ after).tail := by
    have hy : '>' ∈ (codeBlock code ++ after).tail := by simp [codeBlock_eq]
    rw [List.append_assoc]
    conv_lhs => rw [codeBlock_eq]
    rw [spans, spansFrom_append hb (by simp) false [] (by simp), codeBlock_eq]
    rfl
  rw [guardText, hcut, h, spansFrom_codeBlock hlt]
  have hd₁ : codeDepth depth "<pre>".toList = depth + 1 := rfl
  have hd₂ : codeDepth (depth + 1) "<code>".toList = depth + 2 := rfl
  have hd₃ : codeDepth (depth + 2) "</code>".toList = depth + 1 := rfl
  have hd₄ : codeDepth (depth + 1) "</pre>".toList = depth := rfl
  simp only [List.cons_append, List.nil_append, guardFrom, hd₁, hd₂, hd₃, hd₄, guardText]
  simp [codeBlock, enclose]

theorem spansFrom_of_not_mem {s : List Char} (hs : '<' ∉ s) (begun : List Char) :
    spansFrom false begun s = [.text (begun ++ s)] := by
  induction s generalizing begun with
  | nil => simp [spansFrom]
  | cons c s ih =>
    simp only [List.mem_cons, not_or] at hs
    simp [spansFrom, Ne.symm hs.1, ih hs.2]

/-- A guard works on a text without tags as a whole. -/
theorem guardText_of_not_mem (f : List Char → List Char) {s : List Char} (hs : '<' ∉ s) :
    guardText f s = f s := by
  simp [guardText, spans, spansFrom_of_not_mem hs, guardFrom]

theorem substitute_of_not_mem {c : Char} (d : Char) {s : List Char} (hs : c ∉ s) :
    substitute c d s = s := by
  refine (List.map_congr_left fun x hx => ?_).trans (List.map_id s)
  rw [if_neg]
  · rfl
  · rintro rfl
    exact hs hx

theorem substituteUnderscores_cons {c : Char} {s : List Char}
    (h : c = ':' → Text.scanName? isEmojiChar ':' s = none) :
    substituteUnderscores (c :: s)
      = (if c = '_' then '\u02cd' else c) :: substituteUnderscores s := by
  rw [substituteUnderscores]
  split
  next hc =>
    split
    · simp_all
    · simp [hc]
  · rfl

theorem substituteUnderscores_append {w : List Char} (hw : ':' ∉ w) (s : List Char) :
    substituteUnderscores (w ++ s) = substitute '_' '\u02cd' w ++ substituteUnderscores s := by
  induction w with
  | nil => rfl
  | cons c w ih =>
    simp only [List.mem_cons, not_or] at hw
    rw [List.cons_append, substituteUnderscores_cons (fun e => absurd e.symm hw.1), ih hw.2]
    rfl

/-! ## The guard of a quotation -/

/-- The lines of a text behind the first, each guarded as a line of a quotation. -/
def guardLater (s : List Char) : List Char :=
  match Text.lines s with
  | [] => []
  | l :: ls => Text.unlines (l :: ls.map guardQuoteLine)

/-- A character that is in no quote mark and ends no line cuts a text for the guard. -/
theorem guardQuoteLine_append {c : Char} (hc : c ∉ "&gt;".toList) (s t : List Char) :
    guardQuoteLine (s ++ c :: t) = guardQuoteLine s ++ c :: t := by
  fun_cases guardQuoteLine s with
  | case1 s => rfl
  | case2 s hs =>
    refine guardQuoteLine.eq_2 _ fun u hu => ?_
    have hu' : s ++ c :: t = "&gt;".toList ++ u := hu
    rcases List.append_eq_append_iff.mp hu' with ⟨w, hw, ht⟩ | ⟨w, hw, -⟩
    · cases w with
      | nil => exact hs [] (by simpa using hw.symm)
      | cons d w =>
        have hm : c ∈ "&gt;".toList := by
          rw [hw, (List.cons.inj ht).1]
          simp
        exact absurd hm hc
    · exact hs w hw

/-- A text behind another one continues its last line. -/
theorem exists_lines_append (s : List Char) :
    ∃ L l, ∀ y m M, Text.lines y = m :: M → Text.lines (s ++ y) = L ++ (l ++ m) :: M := by
  induction s with
  | nil => exact ⟨[], [], fun y m M h => h⟩
  | cons c s ih =>
    obtain ⟨L, l, ih⟩ := ih
    by_cases hc : c = '\n'
    · subst hc
      exact ⟨[] :: L, l, fun y m M h => congrArg ([] :: ·) (ih y m M h)⟩
    · cases L with
      | nil => exact ⟨[], c :: l, fun y m M h => Text.lines_cons hc (ih y m M h)⟩
      | cons a L => exact ⟨(c :: a) :: L, l, fun y m M h => Text.lines_cons hc (ih y m M h)⟩

theorem unlines_append_cons (L : List (List Char)) (l m : List Char) (M : List (List Char)) :
    Text.unlines (L ++ (l ++ m) :: M) = Text.unlines (L ++ [l]) ++ Text.unlines (m :: M) := by
  induction L with
  | nil =>
    cases M with
    | nil => simp
    | cons n M =>
      rw [List.nil_append, List.nil_append, Text.unlines_cons _ (List.cons_ne_nil n M),
        Text.unlines_cons _ (List.cons_ne_nil n M), Text.unlines_singleton, List.append_assoc]
  | cons a L ih =>
    rw [List.cons_append, List.cons_append, Text.unlines_cons _ (by simp),
      Text.unlines_cons _ (by simp), ih, List.append_assoc, List.cons_append]

theorem guardLater_append_of_not_mem {w : List Char} (hw : '\n' ∉ w) (s : List Char) :
    guardLater (w ++ s) = w ++ guardLater s := by
  cases h : Text.lines s with
  | nil => exact absurd h (Text.lines_ne_nil s)
  | cons l ls =>
    simp only [guardLater, Text.lines_append_of_not_mem hw h, h]
    simpa using unlines_append_cons [] w l (ls.map guardQuoteLine)

theorem guardLater_cons {c : Char} (hc : c ≠ '\n') (s : List Char) :
    guardLater (c :: s) = c :: guardLater s :=
  guardLater_append_of_not_mem (w := [c]) (by simpa using Ne.symm hc) s

theorem guardLater_of_lines {s l : List Char} {ls : List (List Char)} (h : Text.lines s = l :: ls) :
    guardLater s = Text.unlines (l :: ls.map guardQuoteLine) := by
  simp only [guardLater, h]

/-- The guard of a quotation works on the text before a tag by itself. -/
theorem guardQuote_append (s t : List Char) :
    guardQuote (s ++ '<' :: t) = guardQuote s ++ '<' :: guardLater t := by
  obtain ⟨L, l, hs⟩ := exists_lines_append s
  cases ht : Text.lines t with
  | nil => exact absurd ht (Text.lines_ne_nil t)
  | cons m M =>
    have ht' := Text.lines_cons (c := '<') (by decide) ht
    have hboth := hs ('<' :: t) ('<' :: m) M ht'
    have hfirst : Text.lines s = L ++ [l] := by simpa using hs [] [] [] rfl
    rw [← guardLater_cons (by decide), guardLater_of_lines ht', guardQuote, guardQuote, hboth, hfirst,
      List.map_append, List.map_append, List.map_cons, guardQuoteLine_append (by decide)]
    exact unlines_append_cons _ _ _ _

theorem guardLater_append {c : Char} (hc : c ∉ "&gt;".toList) (hn : c ≠ '\n') (s t : List Char) :
    guardLater (s ++ c :: t) = guardLater s ++ c :: guardLater t := by
  obtain ⟨L, l, hs⟩ := exists_lines_append s
  cases ht : Text.lines t with
  | nil => exact absurd ht (Text.lines_ne_nil t)
  | cons m M =>
    have ht' := Text.lines_cons hn ht
    have hboth := hs (c :: t) (c :: m) M ht'
    have hfirst : Text.lines s = L ++ [l] := by simpa using hs [] [] [] rfl
    rw [← guardLater_cons hn, guardLater_of_lines ht']
    cases L with
    | nil =>
      rw [guardLater_of_lines hboth, guardLater_of_lines hfirst]
      exact unlines_append_cons [] l _ _
    | cons a L =>
      rw [List.cons_append] at hboth hfirst
      rw [guardLater_of_lines hboth, guardLater_of_lines hfirst, List.map_append, List.map_append,
        List.map_cons, guardQuoteLine_append hc]
      exact unlines_append_cons (a :: L.map guardQuoteLine) _ _ _

/-- The guard of a quotation alters no code but the starts of its lines behind the first. -/
theorem guardQuote_codeBlock (before after code : List Char) :
    guardQuote (before ++ codeBlock code ++ after)
      = guardQuote before ++ codeBlock (guardLater code) ++ guardLater after := by
  have h₁ := fun s => guardLater_append_of_not_mem (w := "pre".toList) (by decide) s
  have h₂ := fun s => guardLater_append_of_not_mem (w := "code".toList) (by decide) s
  have h₃ := fun s => guardLater_append_of_not_mem (w := "/code".toList) (by decide) s
  have h₄ := fun s => guardLater_append_of_not_mem (w := "/pre".toList) (by decide) s
  have hgt := fun s => guardLater_cons (c := '>') (by decide) s
  have hlt := fun s => guardLater_cons (c := '<') (by decide) s
  rw [List.append_assoc, codeBlock_eq, guardQuote_append, h₁, hgt, hlt, h₂, hgt,
    guardLater_append (by decide) (by decide), h₃, hgt, hlt, h₄, hgt]
  simp [codeBlock, enclose]

/-! ## Code in a quotation -/

/-- A line of code with a soft hyphen before a quote mark at its start. -/
def shieldLine : List Char → List Char
  | '>' :: s => '\u00ad' :: '>' :: s
  | s => s

/-- The code that a quotation shows for the code in it: each line behind the first is shielded. -/
def shieldLater (s : List Char) : List Char :=
  match Text.lines s with
  | [] => []
  | l :: ls => Text.unlines (l :: ls.map shieldLine)

/-- Writing characters in another way, save line feeds, writes each line by itself. -/
theorem lines_flatMap {f : Char → List Char} (hf : f '\n' = ['\n'])
    (hc : ∀ c, c ≠ '\n' → '\n' ∉ f c) (s : List Char) :
    Text.lines (s.flatMap f) = (Text.lines s).map (·.flatMap f) := by
  induction s with
  | nil => rfl
  | cons c s ih =>
    rw [List.flatMap_cons]
    by_cases hn : c = '\n'
    · subst hn
      rw [hf]
      exact congrArg ([] :: ·) ih
    · cases hs : Text.lines s with
      | nil => exact absurd hs (Text.lines_ne_nil s)
      | cons l ls =>
        rw [hs, List.map_cons] at ih
        rw [Text.lines_append_of_not_mem (hc c hn) ih, Text.lines_cons hn hs, List.map_cons,
          List.flatMap_cons]

theorem lines_escapeEntity (s : List Char) :
    Text.lines (Text.escapeEntity s) = (Text.lines s).map Text.escapeEntity :=
  lines_flatMap rfl (fun _ hc hm => hc ((Text.mem_entity (by decide)).mp hm).symm) s

theorem unlines_map_escapeEntity (ls : List (List Char)) :
    Text.unlines (ls.map Text.escapeEntity) = Text.escapeEntity (Text.unlines ls) := by
  induction ls with
  | nil => rfl
  | cons l ls ih =>
    by_cases hls : ls = []
    · simp [hls]
    · have he : Text.entity '\n' = ['\n'] := rfl
      rw [List.map_cons, Text.unlines_cons _ (by simpa using hls), ih, Text.unlines_cons _ hls,
        Text.escapeEntity_append, Text.escapeEntity_cons, he, List.singleton_append]

theorem guardQuoteLine_escapeEntity (s : List Char) :
    guardQuoteLine (Text.escapeEntity s) = Text.escapeEntity (shieldLine s) := by
  cases s with
  | nil => rfl
  | cons c s =>
    by_cases hgt : c = '>'
    · subst hgt
      rfl
    · have hs : shieldLine (c :: s) = c :: s :=
        shieldLine.eq_2 _ fun t ht => hgt (List.cons.inj ht).1
      rw [hs, Text.escapeEntity_cons]
      unfold Text.entity
      by_cases hamp : c = '&'
      · subst hamp
        rfl
      · by_cases hlt : c = '<'
        · subst hlt
          rfl
        · rw [if_neg hamp, if_neg hlt, if_neg hgt]
          exact guardQuoteLine.eq_2 _ fun t ht => hamp (List.cons.inj ht).1

/-- The guard of a quotation shields the code in it. -/
theorem guardLater_escapeEntity (s : List Char) :
    guardLater (Text.escapeEntity s) = Text.escapeEntity (shieldLater s) := by
  cases hs : Text.lines s with
  | nil => exact absurd hs (Text.lines_ne_nil s)
  | cons l ls =>
    have he : Text.lines (Text.escapeEntity s) = Text.escapeEntity l :: ls.map Text.escapeEntity := by
      rw [lines_escapeEntity, hs, List.map_cons]
    have hmap : (ls.map Text.escapeEntity).map guardQuoteLine
        = (ls.map shieldLine).map Text.escapeEntity := by
      simp only [List.map_map]
      exact List.map_congr_left fun m _ => guardQuoteLine_escapeEntity m
    rw [guardLater_of_lines he, hmap, ← List.map_cons (f := Text.escapeEntity),
      unlines_map_escapeEntity]
    simp only [shieldLater, hs]

theorem length_unlines (l : List Char) (ls : List (List Char)) :
    (Text.unlines (l :: ls)).length = l.length + (ls.map fun m => m.length + 1).sum := by
  induction ls generalizing l with
  | nil => simp
  | cons m ls ih =>
    rw [Text.unlines_cons l (by simp), List.length_append, List.length_cons, ih, List.map_cons,
      List.sum_cons]
    omega

theorem length_shieldLine (s : List Char) :
    (shieldLine s).length = s.length + if s.head? = some '>' then 1 else 0 := by
  cases s with
  | nil => rfl
  | cons c s =>
    by_cases hc : c = '>'
    · simp [shieldLine, hc]
    · rw [shieldLine.eq_2 _ fun t ht => hc (List.cons.inj ht).1]
      simp [hc]

/-- Each shielded line is longer by one character. -/
theorem length_unlines_shieldLine (l : List Char) (ls : List (List Char)) :
    (Text.unlines (l :: ls.map shieldLine)).length
      = (Text.unlines (l :: ls)).length + ls.countP fun m => m.head? = some '>' := by
  simp only [length_unlines]
  induction ls with
  | nil => rfl
  | cons m ls ih =>
    simp only [List.map_cons, List.sum_cons, length_shieldLine, List.countP_cons,
      decide_eq_true_eq] at ih ⊢
    omega

/-- Code is shown as it is if and only if no line behind the first starts with a quote mark. -/
theorem shieldLater_eq_iff {s : List Char} :
    shieldLater s = s ↔ ∀ l ∈ (Text.lines s).tail, l.head? ≠ some '>' := by
  cases hs : Text.lines s with
  | nil => exact absurd hs (Text.lines_ne_nil s)
  | cons l ls =>
    have hlength := length_unlines_shieldLine l ls
    rw [← hs, Text.unlines_lines] at hlength
    simp only [shieldLater, hs, List.tail_cons]
    constructor
    · intro he
      rw [he] at hlength
      have hnone : ls.countP (fun m => m.head? = some '>') = 0 := by omega
      simpa using List.countP_eq_zero.mp hnone
    · intro h
      have hline : ∀ m ∈ ls, shieldLine m = id m := fun m hm =>
        shieldLine.eq_2 m fun t ht => h m hm (by rw [ht]; rfl)
      have hmap : ls.map shieldLine = ls := (List.map_congr_left hline).trans (List.map_id ls)
      rw [hmap, ← hs, Text.unlines_lines]

/-- The second text is the first with soft hyphens put in. -/
inductive Hyphenated : List Char → List Char → Prop
  | nil : Hyphenated [] []
  | char (c : Char) {s t : List Char} : Hyphenated s t → Hyphenated (c :: s) (c :: t)
  | hyphen {s t : List Char} : Hyphenated s t → Hyphenated s ('\u00ad' :: t)

namespace Hyphenated

variable {s t s' t' : List Char}

theorem refl : ∀ s : List Char, Hyphenated s s
  | [] => nil
  | c :: s => char c (refl s)

theorem append (h : Hyphenated s t) (h' : Hyphenated s' t') : Hyphenated (s ++ s') (t ++ t') := by
  induction h with
  | nil => exact h'
  | char c _ ih => exact char c ih
  | hyphen _ ih => exact hyphen ih

theorem sublist (h : Hyphenated s t) : s.Sublist t := by
  induction h with
  | nil => exact .slnil
  | char c _ ih => exact ih.cons_cons c
  | hyphen _ ih => exact ih.cons _

theorem mem_or (h : Hyphenated s t) {c : Char} (hc : c ∈ t) : c = '\u00ad' ∨ c ∈ s := by
  induction h with
  | nil => cases hc
  | char d _ ih =>
    rcases List.mem_cons.mp hc with rfl | hc
    · exact .inr List.mem_cons_self
    · exact (ih hc).imp_right (List.mem_cons_of_mem _)
  | hyphen _ ih =>
    rcases List.mem_cons.mp hc with rfl | hc
    · exact .inl rfl
    · exact ih hc

end Hyphenated

theorem hyphenated_shieldLine (s : List Char) : Hyphenated s (shieldLine s) := by
  fun_cases shieldLine s with
  | case1 s => exact .hyphen (.refl _)
  | case2 => exact .refl _

theorem hyphenated_unlines (ls : List (List Char)) :
    Hyphenated (Text.unlines ls) (Text.unlines (ls.map shieldLine)) := by
  induction ls with
  | nil => exact .nil
  | cons l ls ih =>
    cases ls with
    | nil => simpa using hyphenated_shieldLine l
    | cons m ms =>
      rw [List.map_cons, Text.unlines_cons l (by simp), Text.unlines_cons (shieldLine l) (by simp)]
      exact (hyphenated_shieldLine l).append (.char '\n' ih)

/-- The code that a quotation shows is the code with soft hyphens put in. -/
theorem hyphenated_shieldLater (s : List Char) : Hyphenated s (shieldLater s) := by
  cases hs : Text.lines s with
  | nil => exact absurd hs (Text.lines_ne_nil s)
  | cons l ls =>
    have hunlines := Text.unlines_lines s
    rw [hs] at hunlines
    simp only [shieldLater, hs]
    rw [← hunlines]
    cases ls with
    | nil => exact .refl _
    | cons m ms =>
      rw [Text.unlines_cons l (by simp), Text.unlines_cons l (by simp)]
      exact (Hyphenated.refl l).append (.char '\n' (hyphenated_unlines (m :: ms)))

end MessageLayout.Markup
