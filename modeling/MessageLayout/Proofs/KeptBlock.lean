import MessageLayout.Proofs.CodeFences
import MessageLayout.Proofs.LinkedStyles

/-!
# A finished element in the tree

An element that is finished stays in the tree as it is, whatever follows: elements around it are
closed, blocks move out of styles around it, but no move reaches into it. It never comes to lie in a
link or in a code block either, as long as none was open around it when it was finished. So a code
block among such elements is one of the code blocks of the document, and it has a placeholder.

    Keeps x c → Move P c c' → Keeps x c'                                 (Keeps.move)
    KeptIn x ds → x is a code block → its fence is written               (infix_ofDoms)
-/

namespace MessageLayout.Html

/-- The elements that hide what is in them or write it in another way. -/
def hidingNames : List String :=
  ["a", "pre", "br"]

/-- A node is among others or in them, and no element around it hides it. -/
inductive KeptIn (x : Dom) : List Dom → Prop
  | here {ds : List Dom} : x ∈ ds → KeptIn x ds
  | within {name : String} {attrs : Attrs} {children ds : List Dom} :
      name ∉ hidingNames → KeptIn x children → .element name attrs children ∈ ds → KeptIn x ds

namespace KeptIn

variable {x : Dom} {ds es : List Dom}

theorem of_subset (h : KeptIn x ds) (hs : ds ⊆ es) : KeptIn x es := by
  cases h with
  | here h => exact .here (hs h)
  | within hn h hm => exact .within hn h (hs hm)

/-- Text next to the node may change. -/
theorem of_elements (h : KeptIn x ds) (hx : x.isElement = true)
    (hs : ∀ d ∈ ds, d.isElement = true → d ∈ es) : KeptIn x es := by
  cases h with
  | here h => exact .here (hs x h hx)
  | within hn h hm => exact .within hn h (hs _ hm rfl)

theorem close {f : Frame} (hn : f.name ∉ hidingNames) {last : List Dom}
    (h : KeptIn x f.done ∨ KeptIn x last) : KeptIn x [f.close last] := by
  refine .within hn ?_ List.mem_cons_self
  rcases h with h | h
  · exact h.of_subset fun d hd => List.mem_append_left _ (List.mem_reverse.mpr hd)
  · exact h.of_subset fun d hd => List.mem_append_right _ hd

theorem closeAround {fs : List Frame} (hn : ∀ f ∈ fs, f.name ∉ hidingNames) {inner : List Dom}
    (h : KeptIn x inner) : KeptIn x (Html.closeAround inner fs) := by
  induction fs generalizing inner with
  | nil => exact h
  | cons f fs ih =>
    exact ih (fun g hg => hn g (List.mem_cons_of_mem _ hg))
      (close (hn f List.mem_cons_self) (.inr h))

end KeptIn

/-- A node is in the open elements or in the finished children of the body, and no element around it
hides it. -/
inductive Spine.Keeps (x : Dom) : Spine → Prop
  | body {s : Spine} : KeptIn x s.done → Keeps x s
  | frame {s : Spine} (above : List Frame) {below : List Frame} {f : Frame} :
      s.frames = above ++ f :: below → KeptIn x f.done → (∀ g ∈ f :: below, g.name ∉ hidingNames) →
        Keeps x s

namespace Spine

variable {above below : List Frame} {f : Frame} {root : List Dom}

/-- An open element is closed with those in it and some around it. -/
theorem close_through (m : Nat) :
    close ⟨above ++ f :: below, root⟩ (above.length + m + 1)
      = append ⟨below.drop m, root⟩ (closeAround [] (above ++ f :: below.take m)) := by
  have htake : (above ++ f :: below).take (above.length + m + 1) = above ++ f :: below.take m := by
    rw [Nat.add_assoc, List.take_length_add_append]
    rfl
  have hdrop : (above ++ f :: below).drop (above.length + m + 1) = below.drop m := by
    rw [Nat.add_assoc, List.drop_length_add_append]
    rfl
  simp only [close, htake, hdrop]

/-- Elements in an open element are closed. -/
theorem close_within {n : Nat} (h : n ≤ above.length) :
    close ⟨above ++ f :: below, root⟩ n
      = append ⟨above.drop n ++ f :: below, root⟩ (closeAround [] (above.take n)) := by
  simp only [close, List.take_append_of_le_length h, List.drop_append_of_le_length h]

end Spine

namespace Spine.Keeps

variable {x : Dom} {s : Spine}

theorem push (h : s.Keeps x) (f : Frame) : (s.push f).Keeps x := by
  cases h with
  | body h => exact .body h
  | @frame above below g hs h hn =>
    exact .frame (f :: above) (congrArg (f :: ·) hs) h hn

/-- What stands at the place where the next node goes may change, as long as the elements stay. -/
theorem withHere (h : s.Keeps x) (hx : x.isElement = true) {done : List Dom}
    (hd : ∀ d ∈ s.here, d.isElement = true → d ∈ done) : (s.withHere done).Keeps x := by
  obtain ⟨frames, root⟩ := s
  cases frames with
  | nil =>
    cases h with
    | body h => exact .body (h.of_elements hx hd)
    | frame _ hs _ _ => simp at hs
  | cons g gs =>
    cases h with
    | body h => exact .body h
    | @frame above below f hs h hn =>
      cases above with
      | nil =>
        obtain ⟨rfl, rfl⟩ := List.cons.inj hs
        have hn' : ∀ k ∈ ({ g with done } : Frame) :: gs, k.name ∉ hidingNames :=
          List.forall_mem_cons.mpr ⟨hn g List.mem_cons_self,
            fun k hk => hn k (List.mem_cons_of_mem _ hk)⟩
        exact .frame [] rfl (h.of_elements hx hd) hn'
      | cons k above =>
        obtain ⟨rfl, rfl⟩ := List.cons.inj hs
        exact .frame ({ g with done } :: above) rfl h hn

theorem append (h : s.Keeps x) (hx : x.isElement = true) (ds : List Dom) : (s.append ds).Keeps x :=
  h.withHere hx fun _ hd _ => List.mem_append_right _ hd

theorem appendChar (h : s.Keeps x) (hx : x.isElement = true) (c : Char) :
    (s.appendChar c).Keeps x := by
  simp only [Spine.appendChar]
  split
  next t ds ht =>
    refine h.withHere hx fun d hd he => ?_
    rw [ht] at hd
    rcases List.mem_cons.mp hd with rfl | hd
    · cases he
    · exact List.mem_cons_of_mem _ hd
  · exact h.withHere hx fun d hd _ => List.mem_cons_of_mem _ hd

/-- A node that is added where nothing around hides it is kept. -/
theorem of_append {ds : List Dom} (hds : KeptIn x ds) (hn : ∀ f ∈ s.frames, f.name ∉ hidingNames) :
    (s.append ds).Keeps x := by
  obtain ⟨frames, root⟩ := s
  have hdone : ∀ done, KeptIn x (ds.reverse ++ done) := fun done =>
    hds.of_subset fun d hd => List.mem_append_left _ (List.mem_reverse.mpr hd)
  cases frames with
  | nil => exact .body (hdone root)
  | cons f fs =>
    have hn' : ∀ k ∈ ({ f with done := ds.reverse ++ f.done } : Frame) :: fs,
        k.name ∉ hidingNames :=
      List.forall_mem_cons.mpr ⟨hn f List.mem_cons_self, fun k hk => hn k (List.mem_cons_of_mem _ hk)⟩
    exact .frame [] rfl (hdone f.done) hn'

/-- Closing elements around the node puts it into what is added. -/
theorem keptIn_closeAround {fs above below : List Frame} {f : Frame} (hs : fs = above ++ f :: below)
    (h : KeptIn x f.done) (hn : ∀ g ∈ f :: below, g.name ∉ hidingNames) :
    KeptIn x (closeAround [] fs) := by
  rw [hs, closeAround_append]
  exact KeptIn.closeAround (fun g hg => hn g (List.mem_cons_of_mem _ hg))
    (.close (hn f List.mem_cons_self) (.inl h))

theorem close (h : s.Keeps x) (hx : x.isElement = true) (n : Nat) : (s.close n).Keeps x := by
  obtain ⟨frames, root⟩ := s
  cases h with
  | body h => exact (Keeps.body (s := ⟨frames.drop n, root⟩) h).append hx _
  | @frame above below f hs h hn =>
    obtain rfl : frames = above ++ f :: below := hs
    rcases Nat.lt_or_ge above.length n with hlt | hle
    · obtain ⟨m, rfl⟩ := Nat.exists_eq_add_of_lt hlt
      rw [close_through]
      refine of_append (keptIn_closeAround rfl h ?_) ?_
      · exact List.forall_mem_cons.mpr ⟨hn f List.mem_cons_self,
          fun g hg => hn g (List.mem_cons_of_mem _ (List.mem_of_mem_take hg))⟩
      · exact fun g hg => hn g (List.mem_cons_of_mem _ (List.mem_of_mem_drop hg))
    · have hkept : Keeps x ⟨above.drop n ++ f :: below, root⟩ := .frame _ rfl h hn
      rw [close_within hle]
      exact hkept.append hx _

theorem prepend (h : s.Keeps x) (fs : List Frame) : Keeps x ⟨fs ++ s.frames, s.done⟩ := by
  induction fs with
  | nil => exact h
  | cons f fs ih => exact ih.push f

theorem toDoms (h : s.Keeps x) : KeptIn x s.toDoms := by
  cases h with
  | body h => exact h.of_subset fun d hd => List.mem_append_left _ (List.mem_reverse.mpr hd)
  | frame _ hs h hn =>
    exact (keptIn_closeAround hs h hn).of_subset fun d hd => List.mem_append_right _ hd

end Spine.Keeps

namespace Construction

variable {P : String → Attrs → Prop} {x : Dom} {c c' : Construction}

/-- Copies have the names of the elements that they are copies of. -/
theorem name_of_mem_copyBetween (fs : List Frame) (passed : Nat) {k : Copies} (hk : k.frames = []) :
    ∀ g ∈ (copyBetween passed fs k).frames, ∃ f ∈ fs, f.name = g.name := by
  refine copyBetween_preserves (motive := fun k => ∀ g ∈ k.frames, ∃ f ∈ fs, f.name = g.name)
    (fun _ _ _ h => h) (fun f hf k h => ?_) passed ?_
  · exact List.forall_mem_append.mpr ⟨h, List.forall_mem_singleton.mpr ⟨f, hf, rfl⟩⟩
  · rw [hk]
    exact fun _ hg => absurd hg List.not_mem_nil

/-- An element of a list lies in one of its two parts. -/
theorem split_append {α : Type} {l r A B : List α} {f : α} (h : l ++ f :: r = A ++ B) :
    (∃ m, A = l ++ f :: m ∧ r = m ++ B) ∨ ∃ m, l = A ++ m ∧ B = m ++ f :: r := by
  rcases List.append_eq_append_iff.mp h with ⟨m, hA, hm⟩ | ⟨m, hl, hm⟩
  · cases m with
    | nil => exact .inr ⟨[], by simpa using hA.symm, hm.symm⟩
    | cons g m =>
      obtain ⟨rfl, rfl⟩ := List.cons.inj hm
      exact .inl ⟨m, hA, rfl⟩
  · exact .inr ⟨m, hl, hm⟩

/-- Moving a block out of a style around the node leaves the node where the style was, or takes it
along in a copy of the style. -/
theorem Linked.keeps_moveOut (hl : c.Linked) (h : c.spine.Keeps x) (hx : x.isElement = true)
    {a : ActiveStyle} (ha : a ∈ c.active) {deeper between outer : List Frame} {block style : Frame}
    (hf : c.spine.frames = deeper ++ block :: between ++ style :: outer) (hid : style.id = a.id) :
    (c.moveOut a deeper block between style outer).spine.Keeps x := by
  have hname : style.name = a.name := by
    have hm : (style.id, style.name) ∈ c.spine.tags :=
      List.mem_map.mpr ⟨style, by simp [hf], rfl⟩
    exact hl.names a ha _ hm hid
  have hbase : ∀ g ∈ (Spine.append ⟨outer, c.spine.done⟩ (closeAround [] (between ++ [style]))).frames,
      ∃ e ∈ outer, e.name = g.name := by
    intro g hg
    have hm : (g.id, g.name) ∈ Spine.tags ⟨outer, c.spine.done⟩ := by
      rw [← Spine.tags_append _ (closeAround [] (between ++ [style]))]
      exact List.mem_map_of_mem hg
    obtain ⟨e, he, heq⟩ := List.mem_map.mp hm
    exact ⟨e, he, congrArg Prod.snd heq⟩
  have hcopies := name_of_mem_copyBetween between 0 (k := ⟨[], c.active, c.nextId, none⟩) rfl
  simp only [Construction.moveOut]
  generalize copyBetween 0 between ⟨[], c.active, c.nextId, none⟩ = k at hcopies ⊢
  -- what comes to lie around a node in or above the block has a name that was around it before
  have hbelow : (∀ g ∈ block :: (between ++ style :: outer), g.name ∉ hidingNames) →
      ∀ done, ∀ g ∈ (⟨k.nextId, a.name, a.attrs, done⟩ : Frame) :: { block with done := [] }
        :: (k.frames ++ (Spine.append ⟨outer, c.spine.done⟩
          (closeAround [] (between ++ [style]))).frames), g.name ∉ hidingNames := by
    intro hn done g hg
    simp only [List.mem_cons, List.mem_append] at hg
    rcases hg with rfl | rfl | hg | hg
    · exact hname ▸ hn style (by simp)
    · exact hn block List.mem_cons_self
    · obtain ⟨e, he, hne⟩ := hcopies g hg
      exact hne ▸ hn e (by simp [he])
    · obtain ⟨e, he, hne⟩ := hbase g hg
      exact hne ▸ hn e (by simp [he])
  have hroot : Spine.Keeps x ⟨outer, c.spine.done⟩ → Spine.Keeps x
      ⟨deeper ++ ⟨k.nextId, a.name, a.attrs, block.done⟩ :: { block with done := [] } :: k.frames
        ++ (Spine.append ⟨outer, c.spine.done⟩ (closeAround [] (between ++ [style]))).frames,
        (Spine.append ⟨outer, c.spine.done⟩ (closeAround [] (between ++ [style]))).done⟩ :=
    fun h => (h.append hx _).prepend _
  cases h with
  | body h => exact hroot (.body h)
  | @frame above below f hs h hn =>
    rw [hs, List.append_assoc, List.cons_append] at hf
    rcases split_append hf with ⟨m, rfl, rfl⟩ | ⟨m, rfl, hm⟩
    · -- the node is within the block
      have hout := hbelow (fun g hg =>
        hn g (List.mem_cons_of_mem _ (List.mem_append_right _ hg))) block.done
      refine .frame above (List.append_assoc _ _ _ |>.trans (List.append_assoc _ _ _)) h ?_
      refine List.forall_mem_cons.mpr ⟨hn f List.mem_cons_self, fun g hg => ?_⟩
      rcases List.mem_append.mp hg with hg | hg
      · exact hn g (by simp [hg])
      · exact hout g hg
    · cases m with
      | nil =>
        -- the node is a child of the block
        obtain ⟨rfl, rfl⟩ := List.cons.inj hm
        exact .frame deeper (List.append_assoc _ _ _) h (hbelow hn block.done)
      | cons g m =>
        obtain ⟨-, hm⟩ := List.cons.inj hm
        rw [← List.singleton_append, ← List.append_assoc] at hm
        rcases split_append hm.symm with ⟨m', hleft, rfl⟩ | ⟨m', -, rfl⟩
        · -- the node is between the block and the style
          have hin : ∀ g ∈ f :: m', g.name ∉ hidingNames := List.forall_mem_cons.mpr
            ⟨hn f List.mem_cons_self, fun g hg => hn g (by simp [hg])⟩
          have hkept := Spine.Keeps.keptIn_closeAround hleft h hin
          exact (Spine.Keeps.of_append (s := ⟨outer, c.spine.done⟩) hkept
            fun g hg => hn g (by simp [show g ∈ outer from hg])).prepend _
        · -- the node is around the style
          exact hroot (.frame _ rfl h hn)

/-- No move reaches into a finished element. -/
theorem keeps_move (hm : Move P c c') (hx : x.isElement = true) (h : c.Linked ∧ c.spine.Keeps x) :
    c'.Linked ∧ c'.spine.Keeps x := by
  refine ⟨h.1.move hm, ?_⟩
  obtain ⟨hl, h⟩ := h
  cases hm with
  | close n => exact h.close hx n
  | comment => exact h.append hx _
  | leaf _ => exact h.append hx _
  | char y => exact h.appendChar hx y
  | element _ _ => exact h.push _
  | style _ _ => exact h.push _
  | resume _ => exact h.push _
  | drop _ => exact h
  | moveOut ha hf hid => exact hl.keeps_moveOut h hx ha hf hid
  | mode _ _ => exact h

end Construction

end MessageLayout.Html

namespace MessageLayout

open Html

theorem Text.InOrder.infix_of_mem {ps : List (List Char)} {s p : List Char} (h : InOrder ps s)
    (hp : p ∈ ps) : p <:+: s := by
  induction ps generalizing s with
  | nil => cases hp
  | cons q ps ih =>
    obtain ⟨before, after, rfl, h⟩ := h
    rcases List.mem_cons.mp hp with rfl | hp
    · exact ⟨before, after, rfl⟩
    · exact (ih h hp).trans (List.suffix_append _ _).isInfix

namespace Mrkdwn

/-- A node is a code block with the given code. -/
def IsCodeBlock (code : List Char) : Dom → Prop
  | .element name attrs children =>
    (Dom.element name attrs children).isBlank = false ∧
      ∃ inner, fencedCode? name children = some inner ∧ codeOf inner = code
  | _ => False

/-- A code block is one of the given ones, numbered from `n` on, and its placeholder is left. -/
def IsMarked (b : CodeBlock) (n : Nat) (bs : List CodeBlock) (ms : List Mark) : Prop :=
  ∃ before after, bs = before ++ b :: after ∧ (n + before.length, b.singleLine) ∈ ms

variable {code : List Char} {parent : String} {x : Dom}

theorem IsCodeBlock.isMarked (h : IsCodeBlock code x) (hp : parent ≠ "a") (n : Nat) :
    IsMarked ⟨code, false⟩ n (codeBlocks parent x) (marks parent n x) := by
  have hparent : (parent == "a") = false := beq_eq_false_iff_ne.mpr hp
  cases x with
  | text content => exact h.elim
  | comment => exact h.elim
  | element name attrs children =>
    obtain ⟨hb, inner, hcode, rfl⟩ := h
    have hblocks : codeBlocks parent (.element name attrs children) = [⟨codeOf inner, false⟩] := by
      simp [codeBlocks, hcode, hb, hparent]
    have hmarks : marks parent n (.element name attrs children) = [(n, false)] := by
      simp [marks, hcode, hb, hparent]
    rw [hblocks, hmarks]
    exact ⟨[], [], rfl, by simp⟩

/-- A code block of one of several nodes is a code block of them all. -/
theorem IsMarked.of_mem {b : CodeBlock} {ds : List Dom} {d : Dom} (hd : d ∈ ds)
    (h : ∀ n, IsMarked b n (codeBlocks parent d) (marks parent n d)) (n : Nat) :
    IsMarked b n (codeBlocksOf parent ds) (marksOf parent n ds) := by
  induction ds generalizing n with
  | nil => cases hd
  | cons e ds ih =>
    rcases List.mem_cons.mp hd with rfl | hd
    · obtain ⟨before, after, hbs, hm⟩ := h n
      refine ⟨before, after ++ codeBlocksOf parent ds, ?_, List.mem_append_left _ hm⟩
      rw [codeBlocksOf, hbs, List.append_assoc, List.cons_append]
    · obtain ⟨before, after, hbs, hm⟩ := ih hd (n + (codeBlocks parent e).length)
      refine ⟨codeBlocks parent e ++ before, after, ?_, List.mem_append_right _ ?_⟩
      · rw [codeBlocksOf, hbs, List.append_assoc]
      · rwa [List.length_append, ← Nat.add_assoc]

/-- A code block that nothing around hides is a code block of the document. -/
theorem isMarked_of_keptIn (hx : IsCodeBlock code x) {ds : List Dom} (h : KeptIn x ds)
    (hp : parent ≠ "a") (n : Nat) :
    IsMarked ⟨code, false⟩ n (codeBlocksOf parent ds) (marksOf parent n ds) := by
  induction h generalizing parent n with
  | here hm => exact .of_mem hm (hx.isMarked hp) n
  | @within name attrs children ds hn _ hm ih =>
    simp only [hidingNames, List.mem_cons, List.not_mem_nil, or_false, not_or] at hn
    obtain ⟨ha, hpre, hbr⟩ := hn
    refine .of_mem hm (fun n => ?_) n
    simp only [codeBlocks, marks, fencedCode?_of_ne hpre, keptMarks_of_ne hbr ha]
    exact ih ha n

/-- A code block that nothing around hides is written between fence marks. -/
theorem infix_ofDoms (options : FormatOptions) {body : List Dom}
    (hdates : Dom.EveryOf PlainDate body) (hx : IsCodeBlock code x) (h : KeptIn x body) :
    fenced (Text.escapeEntity code) false <:+: ofDoms (delimiters options) body := by
  have hbody : "body" ≠ "a" := by decide
  obtain ⟨before, after, hbs, hm⟩ := isMarked_of_keptIn hx h hbody 0
  have hrestored := List.mem_map_of_mem (f := Mark.restored (fencesOf (codeBlocksOf "body" body))) hm
  have htext : Mark.restored (fencesOf (codeBlocksOf "body" body)) (0 + before.length, false)
      = fenced (Text.escapeEntity code) false := by
    have hget : (fencesOf (codeBlocksOf "body" body))[before.length]?
        = some (Text.escapeEntity code) := by
      rw [hbs]
      simp [fencesOf]
    simp [Mark.restored, Piece.restore, Text.readNat?_ofNat, hget]
  rw [htext] at hrestored
  exact (inOrder_ofDoms options hdates).1.infix_of_mem hrestored

end Mrkdwn

end MessageLayout
