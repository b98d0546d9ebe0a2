import MessageLayout.Proofs.BalancedText

/-!
# The tags of a fragment

`readTags?` reads the tags off a fragment, character by character. It is strict: outside of a quoted
value each `<` must begin a tag that is written in full, with a name that the elements have and with
keys of letters and hyphens, and otherwise there is no result. `openBehind` follows the tags with the
names of the elements that are open, innermost first, and `openings` lists the start tags with the
elements open at each.

    Alike s t → readTags? s = some tags → readTags? t = some tags               (readTags?_alike)
    readTags? (enclose name attrs content) = some (.opening name :: tags ++ [.closing name])
                                                                          (readTags?_enclose)
    what holds between each start tag and the elements open at it holds of any two elements that are
    open at once                                                      (pairwise_of_openings)
-/

namespace MessageLayout.Markup

/-- A tag of a fragment. -/
inductive Tag where
  /-- A start tag. -/
  | opening (name : String)
  /-- An end tag. -/
  | closing (name : String)
  /-- A line break, which holds nothing. -/
  | lineBreak
deriving DecidableEq, Repr

/-- The element name that the characters are. -/
def writtenName? (read : List Char) : Option String :=
  writtenNames.find? fun name => name.toList = read

/-- The tag without attributes that has the characters between its angle brackets. -/
def Tag.ofText? (read : List Char) : Option Tag :=
  if read = "br /".toList then some .lineBreak
  else
    match read with
    | '/' :: name => (writtenName? name).map .closing
    | name => (writtenName? name).map .opening

/-- Whether a character may stand in the key of an attribute. -/
def isKeyChar (c : Char) : Bool :=
  c.isAlpha || c = '-'

/-- Where a reader of a fragment stands. -/
inductive TagPlace where
  /-- Outside of tags. -/
  | text
  /-- Behind a `<`, with what was read since. -/
  | name (read : List Char)
  /-- In the key of an attribute; the flag tells whether it has characters already. -/
  | key (begun : Bool)
  /-- Between the `=` and the quotation mark of an attribute. -/
  | quote
  /-- In the value of an attribute. -/
  | value
  /-- Behind an attribute. -/
  | attrs
deriving DecidableEq, Repr

namespace TagPlace

/-- Reads one character: the place behind it and the tags that it completes or names. -/
def step (p : TagPlace) (c : Char) : Option (TagPlace × List Tag) :=
  match p with
  | text => if c = '<' then some (name [], []) else some (text, [])
  | name read =>
    if c = '>' then (Tag.ofText? read).map fun tag => (text, [tag])
    else if c = ' ' then
      match writtenName? read with
      | some written => some (key false, [.opening written])
      | none => some (name (read ++ [c]), [])
    else if c.isAlpha || c = '/' then some (name (read ++ [c]), [])
    else none
  | key begun =>
    if isKeyChar c then some (key true, [])
    else if c = '=' && begun then some (quote, [])
    else none
  | quote => if c = '"' then some (value, []) else none
  | value => if c = '"' then some (attrs, []) else some (value, [])
  | attrs =>
    if c = ' ' then some (key false, [])
    else if c = '>' then some (text, [])
    else none

/-- Reads a text: the place behind it and its tags. -/
def run (p : TagPlace) : List Char → Option (TagPlace × List Tag)
  | [] => some (p, [])
  | c :: s => do
    let (q, tags) ← p.step c
    let (r, more) ← q.run s
    return (r, tags ++ more)

end TagPlace

/-- The tags of a fragment, if all that looks like one is one. -/
def readTags? (s : List Char) : Option (List Tag) :=
  match TagPlace.text.run s with
  | some (.text, tags) => some tags
  | _ => none

theorem readTags?_eq_some {s : List Char} {tags : List Tag} :
    readTags? s = some tags ↔ TagPlace.text.run s = some (.text, tags) := by
  unfold readTags?
  split
  next more h => simp [h]
  next h =>
    constructor
    · intro hn
      cases hn
    · intro hr
      exact absurd hr (h tags)

/-! ## Reading in parts -/

namespace TagPlace

variable {p q r : TagPlace} {s t : List Char} {tags more : List Tag}

theorem run_cons {c : Char} (h : p.step c = some (q, tags)) (h' : q.run s = some (r, more)) :
    p.run (c :: s) = some (r, tags ++ more) := by
  simp [run, h, h']

theorem exists_of_run_cons {c : Char} (h : p.run (c :: s) = some (r, tags)) :
    ∃ q first rest, p.step c = some (q, first) ∧ q.run s = some (r, rest) ∧ tags = first ++ rest := by
  simp only [run, Option.bind_eq_bind, Option.bind_eq_some_iff, Option.pure_def, Option.some.injEq,
    Prod.mk.injEq, Prod.exists] at h
  obtain ⟨q, first, hstep, r', rest, hrun, rfl, rfl⟩ := h
  exact ⟨q, first, rest, hstep, hrun, rfl⟩

theorem run_append (h : p.run s = some (q, tags)) (h' : q.run t = some (r, more)) :
    p.run (s ++ t) = some (r, tags ++ more) := by
  induction s generalizing p tags with
  | nil =>
    obtain ⟨rfl, rfl⟩ := Prod.mk.inj (Option.some.inj h)
    exact h'
  | cons c s ih =>
    obtain ⟨q', first, rest, hstep, hrun, rfl⟩ := exists_of_run_cons h
    rw [List.append_assoc]
    exact run_cons hstep (ih hrun)

theorem run_singleton {c : Char} (h : p.step c = some (q, tags)) :
    p.run [c] = some (q, tags) := by
  rw [run_cons h rfl, List.append_nil]

/-- Outside of tags nothing but a `<` counts. -/
theorem step_text {c : Char} (hc : c ≠ '<') : text.step c = some (text, []) := by
  simp [step, hc]

/-- In a value nothing but a quotation mark counts. -/
theorem step_value {c : Char} (hc : c ≠ '"') : value.step c = some (value, []) := by
  simp [step, hc]

theorem run_text (hs : '<' ∉ s) : text.run s = some (text, []) := by
  induction s with
  | nil => rfl
  | cons c s ih =>
    rw [List.mem_cons, not_or] at hs
    exact run_cons (step_text (Ne.symm hs.1)) (ih hs.2)

theorem run_value (hs : '"' ∉ s) : value.run s = some (value, []) := by
  induction s with
  | nil => rfl
  | cons c s ih =>
    rw [List.mem_cons, not_or] at hs
    exact run_cons (step_value (Ne.symm hs.1)) (ih hs.2)

/-! ## Harmless changes -/

/-- The characters that a harmless change touches are read in texts and values only. -/
theorem step_of_not_firm {c : Char} (hc : ¬Firm c) (h : p.step c = some (q, tags)) :
    (p = text ∨ p = value) ∧ q = p ∧ tags = [] := by
  obtain ⟨hlt, hgt, hspace, heq, hquote, hslash, halpha, hkey⟩ := Text.forall_mem_of_all
    (p := fun c => c ≠ '<' ∧ c ≠ '>' ∧ c ≠ ' ' ∧ c ≠ '=' ∧ c ≠ '"' ∧ c ≠ '/' ∧ c.isAlpha = false ∧
      isKeyChar c = false) (by decide) c (Decidable.not_not.mp hc)
  cases p with
  | text =>
    rw [step_text hlt] at h
    cases h
    exact ⟨.inl rfl, rfl, rfl⟩
  | value =>
    rw [step_value hquote] at h
    cases h
    exact ⟨.inr rfl, rfl, rfl⟩
  | name read => simp [step, hgt, hspace, hslash, halpha] at h
  | key begun => simp [step, hkey, heq] at h
  | quote => simp [step, hquote] at h
  | attrs => simp [step, hspace, hgt] at h

theorem run_of_not_firm {c d : Char} (hc : ¬Firm c) (hlt : d ≠ '<') (hquote : d ≠ '"')
    (h : p.run (c :: s) = some (q, tags)) (ht : p.run s = some (q, tags) → p.run t = some (q, tags)) :
    p.run (d :: t) = some (q, tags) := by
  obtain ⟨p', first, rest, hstep, hrun, rfl⟩ := exists_of_run_cons h
  obtain ⟨hp, rfl, rfl⟩ := step_of_not_firm hc hstep
  have hstay : p'.step d = some (p', []) := by
    rcases hp with rfl | rfl
    · exact step_text hlt
    · exact step_value hquote
  exact run_cons hstay (ht hrun)

theorem run_alike (ha : Alike s t) (h : p.run s = some (q, tags)) : p.run t = some (q, tags) := by
  induction ha generalizing p tags with
  | nil => exact h
  | char c _ ih =>
    obtain ⟨p', first, rest, hstep, hrun, rfl⟩ := exists_of_run_cons h
    exact run_cons hstep (ih hrun)
  | @swap c d s t hcd _ ih =>
    have hc : ¬Firm c := fun hc => Alike.ne_of_mem_lookalikes hcd hc rfl
    obtain ⟨-, hquote, hlt, -⟩ := mem_lookalikes hcd
    exact run_of_not_firm hc hlt hquote h ih
  | @lineEnd s t _ ih =>
    -- both characters of the line end are read where one of them is
    refine run_of_not_firm (c := '\n') (by decide) (by decide) (by decide) ?_ ih
    obtain ⟨p', first, rest, hstep, hrun, rfl⟩ := exists_of_run_cons h
    obtain ⟨-, rfl, rfl⟩ := step_of_not_firm (by decide) hstep
    exact hrun
  | @hyphen s t _ ih =>
    obtain ⟨p', first, rest, hstep, hrun, -⟩ := exists_of_run_cons h
    obtain ⟨hp, rfl, -⟩ := step_of_not_firm (by decide) hstep
    have hstay : p'.step '\u00ad' = some (p', []) := by
      rcases hp with rfl | rfl <;> rfl
    exact run_cons hstay (ih h)

end TagPlace

/-! ## Elements -/

/-- Whether a text can be the key of an attribute. -/
def isKey (key : String) : Bool :=
  !key.toList.isEmpty && key.toList.all isKeyChar

/-- The text of attributes with such keys. -/
inductive KeyedAttrs : List Char → Prop
  | nil : KeyedAttrs []
  | attr {key : String} {value attrs : List Char} :
      isKey key = true → '"' ∉ value → KeyedAttrs attrs →
        KeyedAttrs (' ' :: key.toList ++ '=' :: '"' :: value ++ '"' :: attrs)

namespace TagPlace

variable {s : List Char} {name : String}

theorem step_name {c : Char} (hc : c.isAlpha = true ∨ c = '/') (read : List Char) :
    (TagPlace.name read).step c = some (.name (read ++ [c]), []) := by
  have hgt : c ≠ '>' := by
    rintro rfl
    revert hc
    decide
  have hspace : c ≠ ' ' := by
    rintro rfl
    revert hc
    decide
  have hread : (c.isAlpha || decide (c = '/')) = true := by simpa using hc
  simp only [step, if_neg hgt, if_neg hspace, if_pos hread]

theorem run_name {w : List Char} (hw : ∀ c ∈ w, c.isAlpha = true ∨ c = '/') (read : List Char) :
    (TagPlace.name read).run w = some (.name (read ++ w), []) := by
  induction w generalizing read with
  | nil => simp [run]
  | cons c w ih =>
    rw [List.forall_mem_cons] at hw
    have hrest := ih hw.2 (read ++ [c])
    rw [List.append_assoc, List.singleton_append] at hrest
    exact run_cons (step_name hw.1 read) hrest

theorem run_key {w : List Char} (hw : w.all isKeyChar = true) :
    (key true).run w = some (key true, []) := by
  induction w with
  | nil => rfl
  | cons c w ih =>
    rw [List.all_cons, Bool.and_eq_true] at hw
    have hstep : (key true).step c = some (key true, []) := by simp only [step, if_pos hw.1]
    exact run_cons hstep (ih hw.2)

/-- An attribute is read from the blank before it to the quotation mark behind its value. -/
theorem run_attr {key : String} {value : List Char} (hk : isKey key = true) (hv : '"' ∉ value) :
    (TagPlace.key false).run (key.toList ++ '=' :: '"' :: value ++ ['"']) = some (attrs, []) := by
  rw [isKey, Bool.and_eq_true, Bool.not_eq_true', List.isEmpty_eq_false_iff] at hk
  obtain ⟨hne, hall⟩ := hk
  have hequals : (TagPlace.key true).step '=' = some (quote, []) := rfl
  have hmark : quote.step '"' = some (TagPlace.value, []) := rfl
  have hend : TagPlace.value.run ['"'] = some (attrs, []) := rfl
  have hbehind : (TagPlace.key true).run ('=' :: '"' :: value ++ ['"']) = some (attrs, []) :=
    run_cons hequals (run_cons hmark (run_append (run_value hv) hend))
  rw [List.append_assoc]
  cases hkey : key.toList with
  | nil => exact absurd hkey hne
  | cons c w =>
    rw [hkey, List.all_cons, Bool.and_eq_true] at hall
    have hstep : (TagPlace.key false).step c = some (TagPlace.key true, []) := by
      simp only [step, if_pos hall.1]
    exact run_cons hstep (run_append (run_key hall.2) hbehind)

theorem run_attrs {attributes : List Char} (h : KeyedAttrs attributes) :
    attrs.run (attributes ++ ['>']) = some (.text, []) := by
  induction h with
  | nil => exact run_singleton rfl
  | attr hk hv _ ih =>
    have hblank : attrs.step ' ' = some (key false, []) := rfl
    have hattr := run_cons hblank (run_append (run_attr hk hv) ih)
    simpa only [List.append_assoc, List.cons_append, List.nil_append] using hattr

end TagPlace

theorem writtenName?_toList {name : String} (h : name ∈ writtenNames) :
    writtenName? name.toList = some name := by
  have hall : ∀ n ∈ writtenNames, writtenName? n.toList = some n := by decide
  exact hall name h

theorem Tag.ofText?_toList {name : String} (h : name ∈ writtenNames) :
    Tag.ofText? name.toList = some (.opening name) ∧
      Tag.ofText? ('/' :: name.toList) = some (.closing name) := by
  have hall : ∀ n ∈ writtenNames, Tag.ofText? n.toList = some (.opening n) ∧
      Tag.ofText? ('/' :: n.toList) = some (.closing n) := by decide
  exact hall name h

theorem isAlpha_of_mem_writtenNames {name : String} (h : name ∈ writtenNames) :
    ∀ c ∈ name.toList, c.isAlpha = true := by
  have hall : ∀ n ∈ writtenNames, n.toList.all (·.isAlpha) = true := by decide
  exact List.all_eq_true.mp (hall name h)

section

open TagPlace

variable {name : String} {attributes content s t : List Char} {tags more : List Tag}

theorem run_startTag (hn : name ∈ writtenNames) (ha : KeyedAttrs attributes) :
    text.run ('<' :: name.toList ++ attributes ++ ['>']) = some (text, [.opening name]) := by
  have hname := run_name (fun c hc => .inl (isAlpha_of_mem_writtenNames hn c hc)) []
  rw [List.nil_append] at hname
  suffices hbehind : (TagPlace.name name.toList).run (attributes ++ ['>'])
      = some (text, [.opening name]) by
    have hbegin : text.step '<' = some (TagPlace.name [], []) := rfl
    rw [List.append_assoc]
    exact run_cons hbegin (run_append hname hbehind)
  cases ha with
  | nil =>
    refine run_singleton ?_
    simp only [step, if_pos, (Tag.ofText?_toList hn).1, Option.map_some]
  | attr hk hv ha =>
    have hstep : (TagPlace.name name.toList).step ' ' = some (key false, [.opening name]) := by
      simp [step, writtenName?_toList hn]
    have hattrs := run_cons hstep (run_append (run_attr hk hv) (run_attrs ha))
    simpa only [List.append_assoc, List.cons_append, List.nil_append] using hattrs

theorem run_endTag (hn : name ∈ writtenNames) :
    text.run ("</".toList ++ name.toList ++ ['>']) = some (text, [.closing name]) := by
  have hname := run_name (fun c hc => .inl (isAlpha_of_mem_writtenNames hn c hc)) ['/']
  have hend : (TagPlace.name ('/' :: name.toList)).run ['>'] = some (text, [.closing name]) := by
    refine run_singleton ?_
    simp only [step, if_pos, (Tag.ofText?_toList hn).2, Option.map_some]
  have hbegin : text.run "</".toList = some (.name ['/'], []) := rfl
  rw [List.append_assoc]
  exact run_append hbegin (run_append hname hend)

@[simp] theorem readTags?_nil : readTags? [] = some [] := rfl

theorem readTags?_append (h : readTags? s = some tags) (h' : readTags? t = some more) :
    readTags? (s ++ t) = some (tags ++ more) := by
  rw [readTags?_eq_some] at h h' ⊢
  exact run_append h h'

theorem readTags?_of_not_mem (hs : '<' ∉ s) : readTags? s = some [] :=
  readTags?_eq_some.mpr (run_text hs)

/-- A harmless change leaves the tags. -/
theorem readTags?_alike (ha : Alike s t) (h : readTags? s = some tags) : readTags? t = some tags := by
  rw [readTags?_eq_some] at h ⊢
  exact run_alike ha h

theorem readTags?_lineBreak : readTags? lineBreak = some [.lineBreak] := by
  rfl

/-- The tags of an element are its own around those of its content. -/
theorem readTags?_enclose (hn : name ∈ writtenNames) (ha : KeyedAttrs attributes)
    (h : readTags? content = some tags) :
    readTags? (enclose name attributes content) = some (.opening name :: tags ++ [.closing name]) := by
  rw [readTags?_eq_some] at h ⊢
  have htext := run_append (run_startTag hn ha) (run_append h (run_endTag hn))
  simpa only [enclose, List.append_assoc, List.cons_append, List.nil_append] using htext

end

/-! ## Open elements -/

/-- The names of the elements that are open behind the tags, innermost first, given those that are
open before. There are none if an end tag does not close the innermost one. -/
def openBehind : List String → List Tag → Option (List String)
  | around, [] => some around
  | around, .opening name :: tags => openBehind (name :: around) tags
  | inner :: around, .closing name :: tags => if name = inner then openBehind around tags else none
  | [], .closing _ :: _ => none
  | around, .lineBreak :: tags => openBehind around tags

/-- The start tags, each with the elements that are open at it, innermost first. -/
def openings : List String → List Tag → List (String × List String)
  | _, [] => []
  | around, .opening name :: tags => (name, around) :: openings (name :: around) tags
  | around, .closing _ :: tags => openings around.tail tags
  | around, .lineBreak :: tags => openings around tags

section

variable {around behind : List String} {tags more : List Tag}

theorem openBehind_append (h : openBehind around tags = some behind) :
    openBehind around (tags ++ more) = openBehind behind more := by
  fun_induction openBehind around tags with
  | case1 =>
    obtain rfl := Option.some.inj h
    rfl
  | case2 around name tags ih => exact ih h
  | case3 inner around tags ih =>
    rw [List.cons_append, openBehind, if_pos rfl]
    exact ih h
  | case4 => cases h
  | case5 => cases h
  | case6 around tags ih => exact ih h

theorem openings_append (h : openBehind around tags = some behind) :
    openings around (tags ++ more) = openings around tags ++ openings behind more := by
  fun_induction openBehind around tags with
  | case1 =>
    obtain rfl := Option.some.inj h
    rfl
  | case2 around name tags ih => exact congrArg _ (ih h)
  | case3 inner around tags ih => exact ih h
  | case4 => cases h
  | case5 => cases h
  | case6 around tags ih => exact ih h

/-- A part of balanced tags leaves elements open. -/
theorem exists_openBehind_of_append (h : openBehind around (tags ++ more) = some behind) :
    ∃ inner, openBehind around tags = some inner := by
  fun_induction openBehind around tags with
  | case1 around => exact ⟨around, rfl⟩
  | case2 around name tags ih => exact ih h
  | case3 inner around tags ih =>
    rw [List.cons_append, openBehind, if_pos rfl] at h
    exact ih h
  | case4 inner around name tags hne =>
    rw [List.cons_append, openBehind, if_neg hne] at h
    cases h
  | case5 => cases h
  | case6 around tags ih => exact ih h

/-- What holds between each start tag and the elements open at it holds of any two elements that are
open at once. -/
theorem pairwise_of_openings {R : String → String → Prop} (h : openBehind around tags = some behind)
    (haround : around.Pairwise R)
    (hopen : ∀ e ∈ openings around tags, ∀ outer ∈ e.2, R e.1 outer) : behind.Pairwise R := by
  fun_induction openBehind around tags with
  | case1 =>
    obtain rfl := Option.some.inj h
    exact haround
  | case2 around name tags ih =>
    rw [openings, List.forall_mem_cons] at hopen
    exact ih h (List.pairwise_cons.mpr ⟨hopen.1, haround⟩) hopen.2
  | case3 inner around tags ih => exact ih h (List.pairwise_cons.mp haround).2 hopen
  | case4 => cases h
  | case5 => cases h
  | case6 around tags ih => exact ih h haround hopen

end

end MessageLayout.Markup
