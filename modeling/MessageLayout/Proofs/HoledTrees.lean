import MessageLayout.Mention
import MessageLayout.Proofs.FilledTrees
import MessageLayout.Proofs.KeptBlock

/-!
# Links with holes

A link that mentions someone may have a hole for its content. Where such a link stands in no code
block of a text, it is an element of the tree in no code block, with the hole as all that is in it:
no move of the construction brings a finished node into a code block, and none of the code blocks
that were closed is open behind its end tag.

    c.Holed n → MoveOf _ _ c c' → c'.Holed n                             (Holed.move)
    HoledTokens ts → start.Holed 0, (ts.foldl token start).Holed 0       (HoledTokens.holed)
-/

namespace MessageLayout.Html

/-! ## Nodes -/

/-- The tag of a link that mentions someone. -/
def MentionTag (attrs : Attrs) : Prop :=
  ∃ href, attrs.lookup "href" = some href ∧ (Mention.ofHref? href).isSome = true

/-- Nodes with holes in links that mention someone, of which they are the whole content, and nowhere
in code blocks. The flag tells whether the nodes stand in a code block themselves. -/
inductive Dom.Holed : Bool → List Dom → Prop
  | nil {inCode : Bool} : Holed inCode []
  | text {inCode : Bool} {s : List Char} {ds : List Dom} :
      hole ∉ s → Holed inCode ds → Holed inCode (.text s :: ds)
  | comment {inCode : Bool} {ds : List Dom} : Holed inCode ds → Holed inCode (.comment :: ds)
  | element {inCode : Bool} {name : String} {attrs : Attrs} {children ds : List Dom} :
      Holed (inCode || name == "pre") children → Holed inCode ds →
        Holed inCode (.element name attrs children :: ds)
  | label {attrs : Attrs} {ds : List Dom} :
      MentionTag attrs → Holed false ds → Holed false (.element "a" attrs [.text [hole]] :: ds)

namespace Dom.Holed

variable {inCode inCode' : Bool} {ds es : List Dom} {d : Dom}

theorem append (h : Holed inCode ds) (h' : Holed inCode es) : Holed inCode (ds ++ es) := by
  induction h with
  | nil => exact h'
  | text hs _ ih => exact .text hs (ih h')
  | comment _ ih => exact .comment (ih h')
  | element hc _ _ ih => exact .element hc (ih h')
  | label hm _ ih => exact .label hm (ih h')

theorem cons_iff : Holed inCode (d :: ds) ↔ Holed inCode [d] ∧ Holed inCode ds := by
  constructor
  · intro h
    cases h with
    | text hs h => exact ⟨.text hs .nil, h⟩
    | comment h => exact ⟨.comment .nil, h⟩
    | element hc h => exact ⟨.element hc .nil, h⟩
    | label hm h => exact ⟨.label hm .nil, h⟩
  · exact fun h => h.1.append h.2

theorem reverse (h : Holed inCode ds) : Holed inCode ds.reverse := by
  induction ds with
  | nil => exact .nil
  | cons d ds ih =>
    rw [List.reverse_cons]
    exact (ih (cons_iff.mp h).2).append (cons_iff.mp h).1

/-- What may stand in a code block may stand anywhere. -/
theorem of_inCode (h : Holed true ds) : Holed inCode ds := by
  generalize hx : true = x at h
  induction h generalizing inCode with
  | nil => exact .nil
  | text hs _ ih => exact .text hs (ih hx)
  | comment _ ih => exact .comment (ih hx)
  | element _ _ ihc ih => exact .element (ihc (by simp [← hx])) (ih hx)
  | label _ _ _ => cases hx

theorem mono (h : Holed inCode ds) (hc : inCode' = true → inCode = true) : Holed inCode' ds := by
  cases inCode with
  | true => exact h.of_inCode
  | false =>
    cases inCode' with
    | true => exact absurd (hc rfl) (by decide)
    | false => exact h

end Dom.Holed

/-! ## Open elements -/

/-- Whether a code block is open. -/
def inCode (fs : List Frame) : Bool :=
  fs.any (·.name == "pre")

theorem inCode_append (fs gs : List Frame) : inCode (fs ++ gs) = (inCode fs || inCode gs) :=
  List.any_append

theorem inCode_iff {fs : List Frame} : inCode fs = true ↔ "pre" ∈ fs.map (·.name) := by
  simp [inCode]

/-- Open elements whose finished children have holes in links that mention someone only, and nowhere
in code blocks. -/
def HoledFrames : List Frame → Prop
  | [] => True
  | f :: fs => Dom.Holed (inCode (f :: fs)) f.done ∧ HoledFrames fs

theorem HoledFrames.of_append {fs gs : List Frame} (h : HoledFrames (fs ++ gs)) :
    HoledFrames gs := by
  induction fs with
  | nil => exact h
  | cons f fs ih => exact ih h.2

/-- Elements may come to stand in other elements, if no code block is among these that was not
around them before. -/
theorem HoledFrames.replace {fs gs gs' : List Frame} (h : HoledFrames (fs ++ gs))
    (hg : inCode gs' = true → inCode gs = true) (h' : HoledFrames gs') :
    HoledFrames (fs ++ gs') := by
  induction fs with
  | nil => exact h'
  | cons f fs ih =>
    have hdone : Dom.Holed (inCode (f :: fs ++ gs)) f.done := h.1
    have hcode : inCode (f :: fs ++ gs') = true → inCode (f :: fs ++ gs) = true := by
      rw [inCode_append, inCode_append, Bool.or_eq_true, Bool.or_eq_true]
      exact Or.imp_right hg
    exact ⟨hdone.mono hcode, ih h.2⟩

/-- Open elements without children hold no hole. -/
theorem HoledFrames.append_of_nil {fs gs : List Frame} (hfs : ∀ f ∈ fs, f.done = [])
    (h : HoledFrames gs) : HoledFrames (fs ++ gs) := by
  induction fs with
  | nil => exact h
  | cons f fs ih =>
    obtain ⟨hf, hfs⟩ := List.forall_mem_cons.mp hfs
    exact ⟨hf ▸ .nil, ih hfs⟩

/-- Elements are closed within others. -/
theorem HoledFrames.closeAround {fs gs : List Frame} (h : HoledFrames (fs ++ gs))
    {inner : List Dom} (hi : Dom.Holed (inCode (fs ++ gs)) inner) :
    Dom.Holed (inCode gs) (Html.closeAround inner fs) := by
  induction fs generalizing inner with
  | nil => exact hi
  | cons f fs ih =>
    have hcode : inCode (f :: fs ++ gs) = (inCode (fs ++ gs) || f.name == "pre") := by
      rw [List.cons_append, inCode, List.any_cons, Bool.or_comm]
      rfl
    have hdone : Dom.Holed (inCode (f :: fs ++ gs)) f.done := h.1
    rw [hcode] at hi hdone
    exact ih h.2 (.element (hdone.reverse.append hi) .nil)

/-- A spine whose finished nodes have holes in links that mention someone only, and nowhere in code
blocks. -/
structure Spine.Holed (s : Spine) : Prop where
  frames : HoledFrames s.frames
  done : Dom.Holed false s.done

namespace Spine.Holed

variable {s : Spine}

theorem here (h : s.Holed) : Dom.Holed (inCode s.frames) s.here := by
  obtain ⟨frames, root⟩ := s
  cases frames with
  | nil => exact h.done
  | cons f fs => exact h.frames.1

theorem withHere (h : s.Holed) {done : List Dom} (hd : Dom.Holed (inCode s.frames) done) :
    (s.withHere done).Holed := by
  obtain ⟨frames, root⟩ := s
  cases frames with
  | nil => exact ⟨trivial, hd⟩
  | cons f fs => exact ⟨⟨hd, h.frames.2⟩, h.done⟩

theorem append (h : s.Holed) {ds : List Dom} (hd : Dom.Holed (inCode s.frames) ds) :
    (s.append ds).Holed :=
  h.withHere (hd.reverse.append h.here)

theorem appendChar (h : s.Holed) {x : Char} (hx : x ≠ hole) : (s.appendChar x).Holed := by
  have hone : hole ∉ [x] := by simpa using Ne.symm hx
  have hhere := h.here
  simp only [Spine.appendChar]
  split
  next t ds ht =>
    rw [ht] at hhere
    have hparts : hole ∉ t ∧ Dom.Holed (inCode s.frames) ds := by
      generalize inCode s.frames = code at hhere ⊢
      cases hhere with
      | text hs hds => exact ⟨hs, hds⟩
    exact h.withHere (.text (by simp [hparts.1, Ne.symm hx]) hparts.2)
  · exact h.withHere (.text hone hhere)

theorem push (h : s.Holed) {f : Frame} (hf : f.done = []) : (s.push f).Holed :=
  ⟨⟨hf ▸ .nil, h.frames⟩, h.done⟩

theorem close (h : s.Holed) (n : Nat) : (s.close n).Holed := by
  have hsplit : HoledFrames (s.frames.take n ++ s.frames.drop n) := by
    rw [List.take_append_drop]
    exact h.frames
  have hrest : Spine.Holed ⟨s.frames.drop n, s.done⟩ := ⟨hsplit.of_append, h.done⟩
  exact hrest.append (hsplit.closeAround .nil)

theorem toDoms (h : s.Holed) : Dom.Holed false s.toDoms := by
  have hframes : HoledFrames (s.frames ++ []) := by
    rw [List.append_nil]
    exact h.frames
  exact h.done.reverse.append (hframes.closeAround .nil)

end Spine.Holed

/-- The number of code blocks that are open. -/
def Spine.openCode (s : Spine) : Nat :=
  (s.tags.map (·.2)).count "pre"

theorem Spine.inCode_eq_false {s : Spine} (h : s.openCode = 0) : inCode s.frames = false := by
  simpa [openCode, tags, inCode, List.count_eq_zero] using h

/-- The innermost code block is closed. -/
theorem Spine.openCode_closeThrough (s : Spine) :
    (s.closeThrough "pre").openCode = s.openCode - 1 := by
  by_cases hm : "pre" ∈ s.tags.map (·.2)
  · obtain ⟨inner, rest, hnames, hinner⟩ := List.eq_append_cons_of_mem hm
    obtain ⟨tags, more, htags, rfl, hmore⟩ := List.map_eq_append_iff.mp hnames
    obtain ⟨x, tail, rfl, hx, rfl⟩ := List.map_eq_cons_iff.mp hmore
    have hi : ∀ p ∈ tags, p.2 ≠ "pre" := fun p hp he =>
      hinner (he ▸ List.mem_map_of_mem hp)
    rw [openCode, Construction.tags_closeThrough htags hi hx, openCode, hnames, List.count_append,
      List.count_eq_zero.mpr hinner]
    simp
  · have hnone : s.frames.any (·.name == "pre") = false := by
      simpa [tags, Function.comp_def] using hm
    have hsame : s.closeThrough "pre" = s := by
      rw [closeThrough, hnone]
      rfl
    have hzero : s.openCode = 0 := List.count_eq_zero.mpr hm
    rw [hsame, hzero]

namespace Construction

/-! ## Moves -/

/-- A construction with holes in links that mention someone only, and nowhere in code blocks, of
which the given number are open at most. No code block is in force as a style. -/
structure Holed (depth : Nat) (c : Construction) : Prop where
  spine : c.spine.Holed
  active : ∀ a ∈ c.active, a.name ≠ "pre"
  openCode : c.spine.openCode ≤ depth

variable {c c' : Construction} {depth : Nat}

theorem holed_start : start.Holed 0 :=
  ⟨⟨trivial, .nil⟩, fun _ h => absurd h List.not_mem_nil, Nat.le_refl _⟩

/-- What the copies of some elements are: they have the names of some of these, in the same order,
they hold nothing, and the styles in force keep their names. -/
structure CopiesOf (fs : List Frame) (k k' : Copies) : Prop where
  names : ∃ names, names.Sublist (fs.map (·.name)) ∧
    k'.frames.map (·.name) = k.frames.map (·.name) ++ names
  done : (∀ g ∈ k.frames, g.done = []) → ∀ g ∈ k'.frames, g.done = []
  active : ∀ b ∈ k'.active, ∃ a ∈ k.active, a.name = b.name

theorem copiesOf_copyBetween (fs : List Frame) (passed : Nat) (k : Copies) :
    CopiesOf fs k (copyBetween passed fs k) := by
  induction fs generalizing passed k with
  | nil => exact ⟨⟨[], .slnil, (List.append_nil _).symm⟩, fun hk => hk, fun b hb => ⟨b, hb, rfl⟩⟩
  | cons f fs ih =>
    simp only [copyBetween]
    split
    · obtain ⟨⟨names, hs, he⟩, hd, ha⟩ := ih (passed + 1) { k with active := forget f.id k.active }
      refine ⟨⟨names, hs.cons _, he⟩, hd, fun b hb => ?_⟩
      obtain ⟨a, hm, hn⟩ := ha b hb
      exact ⟨a, (sublist_forget _ _).subset hm, hn⟩
    · split
      · obtain ⟨⟨names, hs, he⟩, hd, ha⟩ := ih (passed + 1)
          { frames := k.frames ++ [⟨k.nextId, f.name, f.attrs, []⟩]
            active := k.active.map fun a => if a.id == f.id then { a with id := k.nextId } else a
            nextId := k.nextId + 1
            innermost? := k.innermost?.or (some k.nextId) }
        refine ⟨⟨f.name :: names, hs.cons_cons _, by rw [he]; simp⟩, fun hk => hd ?_, fun b hb => ?_⟩
        · intro g hg
          rcases List.mem_append.mp hg with hg | hg
          · exact hk g hg
          · rw [List.mem_singleton.mp hg]
        · obtain ⟨a, hm, hn⟩ := ha b hb
          obtain ⟨a', hm', rfl⟩ := List.mem_map.mp hm
          refine ⟨a', hm', hn ▸ ?_⟩
          split <;> rfl
      · obtain ⟨⟨names, hs, he⟩, hd, ha⟩ := ih (passed + 1) k
        exact ⟨⟨names, hs.cons _, he⟩, hd, ha⟩

namespace Holed

theorem openElement (h : c.Holed depth) (name : String) (attrs : Attrs) :
    (c.openElement name attrs).Holed (depth + if name = "pre" then 1 else 0) := by
  refine ⟨h.spine.push rfl, h.active, ?_⟩
  have htags : (c.openElement name attrs).spine.openCode
      = c.spine.openCode + if name = "pre" then 1 else 0 := by
    simp [Construction.openElement, Spine.openCode, List.count_cons]
  rw [htags]
  exact Nat.add_le_add_right h.openCode _

theorem openElement_of_ne (h : c.Holed depth) {name : String} (hn : name ≠ "pre") (attrs : Attrs) :
    (c.openElement name attrs).Holed depth := by
  simpa [hn] using h.openElement name attrs

theorem append (h : c.Holed depth) {ds : List Dom} (hd : Dom.Holed (inCode c.spine.frames) ds) :
    Holed depth { c with spine := c.spine.append ds } :=
  ⟨h.spine.append hd, h.active, by simpa [Spine.openCode] using h.openCode⟩

theorem close (h : c.Holed depth) (n : Nat) : Holed depth { c with spine := c.spine.close n } := by
  refine ⟨h.spine.close n, h.active, Nat.le_trans ?_ h.openCode⟩
  simp only [Spine.openCode, Spine.tags_close]
  exact ((List.drop_sublist _ _).map _).count_le _

/-- A block that moves out of a style stands in no code block that was not around it, and no code
block is opened. -/
theorem moveOut (h : c.Holed depth) {a : ActiveStyle} (ha : a ∈ c.active)
    {deeper between outer : List Frame} {block style : Frame}
    (hf : c.spine.frames = deeper ++ block :: between ++ style :: outer) :
    (c.moveOut a deeper block between style outer).Holed depth := by
  have hcopies := copiesOf_copyBetween between 0 ⟨[], c.active, c.nextId, none⟩
  obtain ⟨names, hsub, hnames⟩ := hcopies.names
  have hempty := hcopies.done fun _ hg => absurd hg List.not_mem_nil
  have hstyles : ∀ b ∈ (c.moveOut a deeper block between style outer).active, b.name ≠ "pre" := by
    intro b hb
    rcases mem_active_moveOut hb with rfl | hb
    · exact h.active a ha
    · obtain ⟨b', hm, hn⟩ := hcopies.active b hb
      exact hn ▸ h.active b' hm
  have hframes : HoledFrames (deeper ++ block :: ((between ++ [style]) ++ outer)) := by
    have hall := h.spine.frames
    rw [hf] at hall
    simpa using hall
  have hblock := hframes.of_append
  have houter : Spine.Holed ⟨outer, c.spine.done⟩ := ⟨hblock.2.of_append, h.spine.done⟩
  have hbase := houter.append (hblock.2.closeAround .nil)
  have houternames := congrArg (List.map Prod.snd)
    (Spine.tags_append ⟨outer, c.spine.done⟩ (closeAround [] (between ++ [style])))
  have hcount := h.openCode
  simp only [Spine.openCode, Spine.tags, hf, List.map_map, Function.comp_def] at hcount houternames
  refine ⟨?_, hstyles, ?_⟩
  all_goals simp only [Construction.moveOut]
  all_goals generalize copyBetween 0 between ⟨[], c.active, c.nextId, none⟩ = k at hnames hempty ⊢
  all_goals generalize Spine.append ⟨outer, c.spine.done⟩ (closeAround [] (between ++ [style])) = base
    at hbase houternames ⊢
  · -- around what the block holds stand the copies in the place of the elements between
    have hcode : inCode (⟨k.nextId, a.name, a.attrs, block.done⟩ :: { block with done := [] }
        :: (k.frames ++ base.frames)) = true →
          inCode (block :: ((between ++ [style]) ++ outer)) = true := by
      simp only [inCode_iff, List.map_cons, List.map_append, List.mem_cons, List.mem_append, hnames,
        houternames, List.map_nil, List.nil_append]
      rintro (hp | hp | hp | hp)
      · exact absurd hp.symm (h.active a ha)
      · exact .inl hp
      · exact .inr (.inl (.inl (hsub.subset hp)))
      · exact .inr (.inr hp)
    have htail : HoledFrames (⟨k.nextId, a.name, a.attrs, block.done⟩ :: { block with done := [] }
        :: (k.frames ++ base.frames)) :=
      ⟨hblock.1.mono hcode, .nil, .append_of_nil hempty hbase.frames⟩
    have hmoved := hframes.replace hcode htail
    exact ⟨by simpa using hmoved, hbase.done⟩
  · have hcopied := hsub.count_le "pre"
    have hstyle : List.count "pre" [a.name] = 0 :=
      List.count_eq_zero.mpr (by simpa using Ne.symm (h.active a ha))
    simp only [Spine.openCode, Spine.tags, List.map_map, Function.comp_def, List.map_append,
      List.map_cons, List.count_append, List.count_cons, List.count_nil, hnames, houternames,
      List.map_nil] at hcount hstyle hcopied ⊢
    omega

/-- No move brings a hole into a code block, and none opens a code block that its token does not
bring along. -/
theorem move (hm : MoveOf (fun name _ => name ≠ "pre") (· ≠ hole) c c') (h : c.Holed depth) :
    c'.Holed depth := by
  cases hm with
  | close n => exact h.close n
  | comment => exact h.append (.comment .nil)
  | leaf _ => exact h.append (.element .nil .nil)
  | char x hx =>
    exact ⟨h.spine.appendChar hx, h.active, by simpa [Spine.openCode] using h.openCode⟩
  | element _ hp => exact h.openElement_of_ne hp _
  | @style name attrs _ hp =>
    have ho := h.openElement_of_ne hp attrs
    exact ⟨ho.spine, List.forall_mem_cons.mpr ⟨hp, h.active⟩, ho.openCode⟩
  | @resume newer older a ha =>
    have hactive : ∀ b ∈ newer ++ a :: older, b.name ≠ "pre" := ha ▸ h.active
    have hname := hactive a (by simp)
    have ho := h.openElement_of_ne hname a.attrs
    refine ⟨ho.spine, fun b hb => ?_, ho.openCode⟩
    rcases List.mem_append.mp hb with hb | hb
    · exact hactive b (List.mem_append_left _ hb)
    · rcases List.mem_cons.mp hb with rfl | hb
      · exact hname
      · exact hactive b (by simp [hb])
  | drop hs => exact ⟨h.spine, fun a ha => h.active a (hs.subset ha), h.openCode⟩
  | moveOut ha hf _ => exact h.moveOut ha hf
  | mode _ _ => exact ⟨h.spine, h.active, h.openCode⟩

theorem reaches (h : c.Holed depth)
    (hr : ReachesOf (fun name _ => name ≠ "pre") (· ≠ hole) c c') : c'.Holed depth :=
  hr.preserves (fun _ _ => move) h

end Holed

/-! ## The phase -/

theorem phase_resumeStyles (c : Construction) : c.resumeStyles.phase = c.phase := by
  obtain ⟨fs, active, nextId, -, he⟩ := exists_resumeStyles c
  rw [he]

theorem phase_closeInline (c : Construction) (name : String) :
    (c.closeInline name).phase = c.phase := by
  simp only [closeInline]
  split
  · split <;> rfl
  · rfl

theorem phase_endStyleOnce (c : Construction) (name : String) :
    (c.endStyleOnce name).1.phase = c.phase := by
  simp only [endStyleOnce]
  split
  · exact phase_closeInline c name
  · split
    · rfl
    · split <;> rfl

theorem phase_endStyleRounds (n : Nat) (c : Construction) (name : String) :
    (endStyleRounds n c name).phase = c.phase := by
  induction n generalizing c with
  | zero => rfl
  | succ n ih =>
    have honce := phase_endStyleOnce c name
    simp only [endStyleRounds]
    split
    next c' hc =>
      rw [hc] at honce
      exact (ih c').trans honce
    next c' hc =>
      rw [hc] at honce
      exact honce

theorem phase_endStyle (c : Construction) (name : String) : (c.endStyle name).phase = c.phase := by
  simp only [endStyle]
  split
  · split
    · rfl
    · exact phase_endStyleRounds 8 c name
  · exact phase_endStyleRounds 8 c name

theorem phase_endLink (c : Construction) : c.endLink.phase = c.phase := by
  simp only [endLink]
  split
  · rfl
  · exact phase_endStyle c "a"

theorem phase_closeItem (c : Construction) : c.closeItem.phase = c.phase := by
  simp only [closeItem]
  split <;> rfl

theorem phase_startTag (c : Construction) (name : String) (attrs : Attrs) :
    (c.startTag name attrs).phase = c.phase := by
  simp only [startTag]
  split
  · rfl
  · rfl
  · rfl
  · exact phase_closeItem c
  · exact phase_resumeStyles c
  · exact (phase_resumeStyles _).trans (phase_endLink c)
  · exact phase_resumeStyles c
  · exact phase_resumeStyles c

/-- A token in the body does not lead back to before it. -/
theorem phase_bodyToken_ne {c : Construction} (h : c.phase ≠ .before) (t : Token) :
    (c.bodyToken t).phase ≠ .before := by
  have hbehind : Phase.behind ≠ .before := by decide
  cases t with
  | char x => exact (phase_resumeStyles c).trans_ne h
  | null => exact h
  | unseen => exact h
  | comment => exact h
  | startTag name attrs => exact (phase_startTag c name attrs).trans_ne h
  | endTag name =>
    simp only [bodyToken, endTag]
    split
    · exact hbehind
    · exact h
    · split
      · exact h
      · exact h
    · split
      · split
        · exact h
        · exact h
      · exact h
    · exact (phase_startTag c name []).trans_ne h
    · exact (phase_endStyle c name).trans_ne h
    · exact (phase_endStyle c name).trans_ne h
    · exact (phase_closeInline c name).trans_ne h

theorem phase_token_ne {c : Construction} (h : c.phase ≠ .before) (t : Token) :
    (c.token t).phase ≠ .before := by
  have hrest := fun t => phase_bodyToken_ne (c := { c with skipsNewline := false }) h t
  simp only [token]
  split
  next hp => exact absurd hp h
  · split
    · exact h
    · exact hrest t
  · split
    · exact phase_bodyToken_ne (fun e => Phase.noConfusion e) t
    · split
      · exact hrest _
      · exact h

theorem phase_foldl_token_ne {c : Construction} (h : c.phase ≠ .before) (ts : List Token) :
    (ts.foldl token c).phase ≠ .before := by
  induction ts generalizing c with
  | nil => exact h
  | cons t ts ih => exact ih (phase_token_ne h t)

/-! ## Tokens -/

/-- Whether a token is neither a tag of a code block nor a hole. -/
def Fills : Token → Prop :=
  BringsOf (fun name _ => name ≠ "pre") (· ≠ hole)

namespace Holed

variable {c : Construction} {depth : Nat}

theorem token (h : c.Holed depth) {t : Token} (ht : Fills t) : (c.token t).Holed depth :=
  h.reaches (reachesOf_token c ht)

theorem startTag_pre (h : c.Holed depth) (attrs : Attrs) :
    (c.token (.startTag "pre" attrs)).Holed (depth + 1) ∧
      (c.token (.startTag "pre" attrs)).phase ≠ .before := by
  have htoken := token_of_opensBody c (t := .startTag "pre" attrs) rfl rfl rfl
  rw [htoken]
  have hentered : c.entered.Holed depth := ⟨h.spine, h.active, h.openCode⟩
  have hopened := (hentered.reaches (reaches_closeParagraph _)).openElement "pre" attrs
  exact ⟨⟨hopened.spine, hopened.active, hopened.openCode⟩, phase_bodyToken_ne (fun e => Phase.noConfusion e) _⟩

/-- The end tag of a code block closes the innermost one. -/
theorem endTag_pre (h : c.Holed (depth + 1)) (hp : c.phase ≠ .before) :
    (c.token (.endTag "pre")).Holed depth := by
  have hclosed : ∀ d : Construction, d.Holed (depth + 1) →
      Holed depth { d with spine := d.spine.closeThrough "pre" } := by
    intro d hd
    have hall := hd.reaches (reaches_closeThrough d "pre")
    refine ⟨hall.spine, hall.active, ?_⟩
    have hle := hd.openCode
    show (d.spine.closeThrough "pre").openCode ≤ depth
    rw [Spine.openCode_closeThrough]
    omega
  obtain ⟨phase, spine, active, nextId, skips⟩ := c
  have hentered := hclosed ⟨.within, spine, active, nextId, false⟩ ⟨h.spine, h.active, h.openCode⟩
  cases phase with
  | before => exact absurd rfl hp
  | within =>
    rw [token_endTag rfl]
    exact hentered
  | behind => exact hentered

/-- The content of a code block leaves no code block open. -/
theorem nested {blocks inLink : Bool} {ts : List Token} (hn : Nested blocks inLink ts)
    (hts : ∀ t ∈ ts, t.isChar hole = false) (h : c.Holed depth) :
    (ts.foldl Construction.token c).Holed depth := by
  induction hn generalizing c depth with
  | nil => exact h
  | char x _ ih =>
    obtain ⟨hx, hts⟩ := List.forall_mem_cons.mp hts
    have hne : x ≠ hole := by simpa [Token.isChar] using hx
    exact ih hts (h.token (t := .char x) hne)
  | null _ ih => exact ih (List.forall_mem_cons.mp hts).2 (h.token trivial)
  | lineBreak _ ih =>
    have hbr : "br" ≠ "pre" := by decide
    exact ih (List.forall_mem_cons.mp hts).2 (h.token (t := .startTag "br" []) hbr)
  | @element _ name attrs content ts _ _ _ ihc ih =>
    have hcontent : ∀ t ∈ content, t.isChar hole = false := fun t ht => hts t (by simp [ht])
    have hrest : ∀ t ∈ ts, t.isChar hole = false := fun t ht => hts t (by simp [ht])
    rw [List.foldl_append, List.foldl_cons, List.foldl_cons]
    refine ih hrest ?_
    by_cases hpre : name = "pre"
    · subst hpre
      obtain ⟨hstart, hp⟩ := h.startTag_pre attrs
      exact (ihc hcontent hstart).endTag_pre (phase_foldl_token_ne hp content)
    · have hstart := h.token (t := .startTag name attrs) hpre
      exact (ihc hcontent hstart).token (t := .endTag name) hpre

end Holed

/-- The end tag of a style that was opened last closes its element. -/
theorem endStyle_push (spine : Spine) (id nextId : Nat) (name : String) (attrs : Attrs)
    (kept : List ActiveStyle) (inner : List Dom) :
    (⟨.within, (spine.push ⟨id, name, attrs, []⟩).withHere inner, ⟨id, name, attrs⟩ :: kept, nextId,
        false⟩ : Construction).endStyle name
      = ⟨.within, spine.append [.element name attrs inner.reverse], kept, nextId, false⟩ := by
  have hclose := spine.close_push id name attrs inner
  have hframes : ((spine.push ⟨id, name, attrs, []⟩).withHere inner).frames
      = ⟨id, name, attrs, inner⟩ :: spine.frames := rfl
  simp only [endStyle, hframes, endStyleRounds, endStyleOnce]
  simp [forget, hclose, Spine.append]

/-- A link that holds one character is closed by its end tag. -/
theorem foldl_token_link (c : Construction) (attrs : Attrs) {x : Char} (hx : isSpace x = false) :
    ∃ kept nextId, kept.Sublist c.entered.endLink.resumeStyles.active ∧
      [.startTag "a" attrs, .char x, .endTag "a"].foldl token c
        = ⟨.within, c.entered.endLink.resumeStyles.spine.append [.element "a" attrs [.text [x]]],
            kept, nextId, false⟩ := by
  have hphase : c.entered.endLink.resumeStyles.phase = .within :=
    (phase_resumeStyles _).trans (phase_endLink c.entered)
  have hstart : c.token (.startTag "a" attrs)
      = c.entered.endLink.resumeStyles.openStyle "a" attrs :=
    token_of_opensBody c (t := .startTag "a" attrs) rfl rfl rfl
  rw [List.foldl_cons, hstart]
  generalize c.entered.endLink.resumeStyles = d at hphase ⊢
  obtain ⟨phase, spine, active, nextId, skips⟩ := d
  obtain rfl : phase = .within := hphase
  have hkept := keptFor_sublist ⟨nextId, "a", attrs⟩ active
  rw [openStyle_eq]
  simp only [openElement]
  generalize keptFor ⟨nextId, "a", attrs⟩ active = kept at hkept ⊢
  refine ⟨kept, nextId + 1, hkept, ?_⟩
  have hpending : (⟨.within, spine.push ⟨nextId, "a", attrs, []⟩, ⟨nextId, "a", attrs⟩ :: kept,
      nextId + 1, false⟩ : Construction).pending = [] := by
    simp [pending, shows, Spine.push]
  rw [List.foldl_cons, token_char_eq _ hx]
  simp only [entered, bodyToken, resumeStyles_of_pending hpending]
  rw [List.foldl_cons, List.foldl_nil, token_endTag rfl]
  exact endStyle_push spine nextId (nextId + 1) "a" attrs kept [.text [x]]

namespace Holed

/-- A link with a hole stands in no code block where none is open. -/
theorem label (h : c.Holed 0) {attrs : Attrs} (hm : MentionTag attrs) :
    ([.startTag "a" attrs, .char hole, .endTag "a"].foldl Construction.token c).Holed 0 := by
  obtain ⟨kept, nextId, hs, he⟩ := foldl_token_link c attrs (x := hole) (by decide)
  have hentered : c.entered.Holed 0 := ⟨h.spine, h.active, h.openCode⟩
  have hready : c.entered.endLink.resumeStyles.Holed 0 :=
    hentered.reaches ((reaches_endLink _).trans (reaches_resumeStyles _))
  have hlink : Dom.Holed (inCode c.entered.endLink.resumeStyles.spine.frames)
      [.element "a" attrs [.text [hole]]] := by
    rw [Spine.inCode_eq_false (Nat.le_zero.mp hready.openCode)]
    exact .label hm .nil
  have hlabel := hready.append hlink
  rw [he]
  exact ⟨hlabel.spine, fun a ha => hready.active a (hs.subset ha), hlabel.openCode⟩

end Holed

end Construction

/-- Tokens of which the links that mention someone may have holes for their content, in no code
block, and no code block is open behind them that was not open before. -/
inductive HoledTokens : List Token → Prop
  | nil : HoledTokens []
  | token {t : Token} {ts : List Token} :
      Construction.Fills t → HoledTokens ts → HoledTokens (t :: ts)
  | codeBlock {blocks inLink : Bool} {attrs : Attrs} {content ts : List Token} :
      Nested blocks inLink content → (∀ t ∈ content, t.isChar hole = false) → HoledTokens ts →
        HoledTokens (.startTag "pre" attrs :: content ++ .endTag "pre" :: ts)
  | label {attrs : Attrs} {ts : List Token} :
      MentionTag attrs → HoledTokens ts →
        HoledTokens (.startTag "a" attrs :: .char hole :: .endTag "a" :: ts)

theorem HoledTokens.append {ts us : List Token} (h : HoledTokens ts) (h' : HoledTokens us) :
    HoledTokens (ts ++ us) := by
  induction h with
  | nil => exact h'
  | token ht _ ih => exact .token ht ih
  | codeBlock hn hc _ ih =>
    rw [List.append_assoc, List.cons_append]
    exact .codeBlock hn hc ih
  | label hm _ ih => exact .label hm ih

/-- Holes of the tokens are holes of the tree, in links and in no code block. -/
theorem HoledTokens.holed {ts : List Token} (h : HoledTokens ts) {c : Construction}
    (hc : c.Holed 0) : (ts.foldl Construction.token c).Holed 0 := by
  induction h generalizing c with
  | nil => exact hc
  | token ht _ ih => exact ih (hc.token ht)
  | codeBlock hn hcontent _ ih =>
    obtain ⟨hstart, hp⟩ := hc.startTag_pre _
    rw [List.foldl_append, List.foldl_cons, List.foldl_cons]
    exact ih ((hstart.nested hn hcontent).endTag_pre (Construction.phase_foldl_token_ne hp _))
  | label hm _ ih => exact ih (hc.label hm)

end MessageLayout.Html
