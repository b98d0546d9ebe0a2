import MessageLayout.Proofs.SoundContainers
import Mathlib.Data.List.Induction

/-!
# Rendered objects

Attributes are given one after the other, and a name may be given any number of times. Its place is
where it was given first and its value is the one given last, which may be absent. An object without
nodes among its attributes renders to the fields that are not absent, in the same order.

    (ofList l).names lists the names in l by where they are first given  (pairwise_names_ofList)
    (ofList l).get? name = lastGiven l name                                        (get?_ofList)
    v.IsPlain → v.shown? = some j → renderValue c v = pure j             (renderValue_of_shown?)
    objects render to the present attributes, in their order          (renderNode_object_ofList)
-/

namespace MessageLayout

namespace Fields

variable {α : Type}

/-! ## Names and values given one by one -/

/-- The value that settings, applied in order, give to a name last. -/
def lastGiven (l : List (String × α)) (name : String) : Option α :=
  l.reverse.lookup name

/-- The first of two names is given before the second is given for the first time. -/
def GivenBefore (l : List (String × α)) (name other : String) : Prop :=
  (l.map (·.1)).idxOf name < (l.map (·.1)).idxOf other

theorem ofList_concat (l : List (String × α)) (e : String × α) :
    ofList (l ++ [e]) = (ofList l).insert e.1 e.2 :=
  List.foldl_append

theorem lastGiven_concat (l : List (String × α)) (e : String × α) (name : String) :
    lastGiven (l ++ [e]) name = if name = e.1 then some e.2 else lastGiven l name := by
  unfold lastGiven
  rw [List.reverse_append, List.reverse_singleton, List.singleton_append, List.lookup_cons]
  cases h : name == e.1 with
  | true => rw [if_pos (eq_of_beq h)]
  | false => rw [if_neg (ne_of_beq_false h)]

/-- The value of a name is the one given last. -/
theorem get?_ofList (l : List (String × α)) (name : String) :
    (ofList l).get? name = lastGiven l name := by
  induction l using List.reverseRecOn with
  | nil => rfl
  | append_singleton l e ih =>
    rw [ofList_concat, lastGiven_concat]
    split
    · next h => rw [h, get?_insert_self]
    · next h => rw [get?_insert_of_ne _ h, ih]

theorem mem_names_ofList {l : List (String × α)} {name : String} :
    name ∈ (ofList l).names ↔ name ∈ l.map (·.1) := by
  induction l using List.reverseRecOn with
  | nil => rfl
  | append_singleton l e ih =>
    rw [ofList_concat, names_insert, List.map_append, List.mem_append, ← ih]
    split
    · next h =>
      refine ⟨.inl, fun hname => hname.elim id fun hname => ?_⟩
      rwa [List.mem_singleton.mp hname]
    · exact List.mem_append

/-- The names stand in the order in which each was given first. -/
theorem pairwise_names_ofList (l : List (String × α)) :
    (ofList l).names.Pairwise (GivenBefore l) := by
  induction l using List.reverseRecOn with
  | nil => exact .nil
  | append_singleton l e ih =>
    -- a setting behind moves no name that was given before
    have hplace : ∀ {name}, name ∈ (ofList l).names →
        ((l ++ [e]).map (·.1)).idxOf name = (l.map (·.1)).idxOf name := by
      intro name hname
      rw [List.map_append, List.idxOf_append_of_mem (mem_names_ofList.mp hname)]
    have hkept : (ofList l).names.Pairwise (GivenBefore (l ++ [e])) :=
      ih.imp_of_mem fun ha hb h => by rwa [GivenBefore, hplace ha, hplace hb]
    rw [ofList_concat, names_insert]
    split
    · exact hkept
    · next hnew =>
      refine List.pairwise_append.mpr ⟨hkept, List.pairwise_singleton _ _, ?_⟩
      intro name hname other hother
      obtain rfl := List.mem_singleton.mp hother
      rw [GivenBefore, hplace hname, List.map_append,
        List.idxOf_append, if_neg (mt mem_names_ofList.mpr hnew)]
      exact Nat.lt_add_left _ (List.idxOf_lt_length_of_mem (mem_names_ofList.mp hname))

/-- An entry is the one that its name leads to, if no name stands twice. -/
theorem get?_of_mem_entries {f : Fields α} (h : f.names.Nodup) {name : String} {v : α}
    (hmem : (name, v) ∈ f.entries) : f.get? name = some v := by
  obtain ⟨before, after, hsplit⟩ := List.append_of_mem hmem
  refine List.lookup_eq_some_iff.mpr ⟨before, after, hsplit, fun e he => ?_⟩
  unfold names at h
  rw [hsplit, List.map_append, List.nodup_append] at h
  have hne : e.1 ≠ name := h.2.2 e.1 (List.mem_map_of_mem he) name List.mem_cons_self
  simpa using Ne.symm hne

/-- The fields with other values; a name whose value has none is left out. -/
def mapValues? {β : Type} (g : α → Option β) (f : Fields α) : Fields β :=
  ⟨f.entries.filterMap fun e => (g e.2).map (e.1, ·)⟩

/-- The names that keep a value stay in their order. -/
theorem names_mapValues? {β : Type} (g : α → Option β) {f : Fields α} (h : f.names.Nodup) :
    (f.mapValues? g).names = f.names.filter fun name => (f.get? name).any fun v => (g v).isSome := by
  have hkept : ∀ es : List (String × α), (es.filterMap fun e => (g e.2).map (e.1, ·)).map (·.1)
      = (es.filter fun e => (g e.2).isSome).map (·.1) := by
    intro es
    induction es with
    | nil => rfl
    | cons e es ih => cases he : g e.2 <;> simp [he, ih]
  rw [names, names, mapValues?, hkept, List.filter_map]
  congr 1
  refine List.filter_congr fun e he => ?_
  show (g e.2).isSome = (f.get? e.1).any fun v => (g v).isSome
  rw [get?_of_mem_entries h he, Option.any_some]

theorem get?_mapValues? {β : Type} (g : α → Option β) {f : Fields α} (h : f.names.Nodup)
    (name : String) : (f.mapValues? g).get? name = (f.get? name).bind g := by
  obtain ⟨es⟩ := f
  show (es.filterMap fun e => (g e.2).map (e.1, ·)).lookup name = (es.lookup name).bind g
  induction es with
  | nil => rfl
  | cons e es ih =>
    obtain ⟨other, v⟩ := e
    obtain ⟨hnew, hrest⟩ := List.nodup_cons.mp h
    rw [List.filterMap_cons, List.lookup_cons]
    cases hname : name == other with
    | true =>
      obtain rfl := eq_of_beq hname
      -- a name that is left out does not stand again behind
      have hnone : es.lookup name = none := List.lookup_eq_none_iff.mpr fun e he =>
        bne_iff_ne.mpr fun heq => hnew (List.mem_map.mpr ⟨e, he, heq.symm⟩)
      cases hv : g v with
      | none => simp [hv, ih hrest, hnone]
      | some w => simp [hv]
    | false => cases g v <;> simp [hname, List.lookup_cons, ih hrest]

end Fields

/-! ## Plain values -/

namespace AttrValue

/-- There is no node in the value. -/
inductive IsPlain : AttrValue → Prop
  | absent : IsPlain .absent
  | json (value : Json) : IsPlain (.json value)
  | list {items : List AttrValue} : (∀ v ∈ items, IsPlain v) → IsPlain (.list items)

mutual

/-- The JSON value that a value without nodes stands for, unless it is absent. -/
def shown? : AttrValue → Option Json
  | .absent | .node _ => none
  | .json value => some value
  | .list items => some (.arr (shownAll items))

/-- The JSON values that values stand for; those that are absent are left out. -/
def shownAll : List AttrValue → List Json
  | [] => []
  | v :: vs => v.shown?.toList ++ shownAll vs

end

theorem shownAll_eq_filterMap (vs : List AttrValue) : shownAll vs = vs.filterMap shown? := by
  induction vs with
  | nil => rw [shownAll, List.filterMap_nil]
  | cons v vs ih =>
    rw [shownAll, ih, List.filterMap_cons]
    cases v.shown? <;> rfl

/-- A list stands for what its items stand for, without those that are absent. -/
theorem shown?_list (items : List AttrValue) :
    (list items).shown? = some (.arr (items.filterMap shown?)) := by
  rw [shown?, shownAll_eq_filterMap]

theorem IsPlain.isNone_shown? {v : AttrValue} (h : v.IsPlain) : v.shown?.isNone = v.isAbsent := by
  cases h <;> simp [shown?, isAbsent]

end AttrValue

namespace Render

/-! ## Rendering -/

theorem renderValues_eq_filterMap {c : Context} {vs : List AttrValue}
    (hplain : ∀ v ∈ vs, v.IsPlain)
    (h : ∀ v ∈ vs, ∀ {j}, v.shown? = some j → renderValue c v = pure j) :
    renderValues c vs = pure (vs.filterMap AttrValue.shown?) := by
  induction vs with
  | nil => rw [renderValues, List.filterMap_nil]
  | cons v vs ih =>
    have hrest := ih (fun w hw => hplain w (List.mem_cons_of_mem _ hw))
      fun w hw => h w (List.mem_cons_of_mem _ hw)
    rw [renderValues, List.filterMap_cons, ← (hplain v List.mem_cons_self).isNone_shown?]
    cases hj : v.shown? with
    | none => rw [Option.isNone_none, if_pos rfl, hrest]
    | some j =>
      rw [Option.isNone_some, if_neg Bool.false_ne_true, h v List.mem_cons_self hj, hrest,
        pure_bind, pure_bind]

/-- A plain value renders to what it stands for, wherever it stands. -/
theorem renderValue_of_shown? {c : Context} {v : AttrValue} (h : v.IsPlain) {j : Json}
    (hj : v.shown? = some j) : renderValue c v = pure j := by
  induction h generalizing j with
  | absent => cases hj
  | json value =>
    obtain rfl := Option.some.inj hj
    rw [renderValue]
  | @list items hplain ih =>
    rw [AttrValue.shown?_list] at hj
    obtain rfl := Option.some.inj hj
    rw [renderValue, renderValues_eq_filterMap hplain ih, pure_bind]

/-- Plain attributes render to what their values stand for. -/
theorem renderFields_eq_filterMap (c : Context) {es : List (String × AttrValue)}
    (h : ∀ e ∈ es, e.2.IsPlain) :
    renderFields c es = pure (es.filterMap fun e => e.2.shown?.map (e.1, ·)) := by
  induction es with
  | nil => rw [renderFields, List.filterMap_nil]
  | cons e es ih =>
    obtain ⟨name, v⟩ := e
    obtain ⟨hv, hes⟩ := List.forall_mem_cons.mp h
    rw [renderFields, renderField, ih hes, List.filterMap_cons, ← hv.isNone_shown?]
    cases hj : v.shown? with
    | none => simp
    | some j => simp [renderValue_of_shown? hv hj]

/-- An object renders to its fields, and its check is recorded with them. -/
theorem renderNode_object {c : Context} {entries : List (String × AttrValue)}
    {fields : List (String × Json)} (children : List Child) (hook : Option Check)
    (h : renderFields (c.scope hook) entries = pure fields) :
    renderNode c ⟨.object, ⟨entries⟩, children, hook⟩
      = .ok ⟨.json (.obj ⟨fields⟩),
          hook.toList.map fun check => ⟨check, .obj ⟨fields⟩, (c.scope hook).surface⟩⟩ := by
  simp only [renderNode, h, pure_bind]
  cases hook <;> rfl

/-- Attributes that are given one by one have distinct names, in the order in which each was given
first, and each name has the value given last. If no value holds a node, every object with these
attributes renders to the fields whose values are not absent, in the same order. -/
theorem renderNode_object_ofList (l : List (String × AttrValue)) :
    (Fields.ofList l).names.Nodup ∧ (∀ name, name ∈ (Fields.ofList l).names ↔ name ∈ l.map (·.1)) ∧
      (Fields.ofList l).names.Pairwise (Fields.GivenBefore l) ∧
      (∀ name, (Fields.ofList l).get? name = Fields.lastGiven l name) ∧
      ((∀ e ∈ (Fields.ofList l).entries, e.2.IsPlain) →
        ∃ fields : Fields Json,
          fields.names = (Fields.ofList l).names.filter
              (fun name => (Fields.lastGiven l name).any fun v => !v.isAbsent) ∧
            (∀ name, fields.get? name = (Fields.lastGiven l name).bind AttrValue.shown?) ∧
            (∀ c children hook,
              renderNode c ⟨.object, Fields.ofList l, children, hook⟩
                = .ok ⟨.json (.obj fields), hook.toList.map fun check =>
                    ⟨check, .obj fields, (c.scope hook).surface⟩⟩) ∧
            ∀ options children,
              render options ⟨.object, Fields.ofList l, children, none⟩ = .ok (.obj fields)) := by
  have hnodup := Fields.nodup_names_ofList l
  refine ⟨hnodup, fun name => Fields.mem_names_ofList, Fields.pairwise_names_ofList l,
    Fields.get?_ofList l, fun hplain => ?_⟩
  have hnode : ∀ c children hook, _ := fun (c : Context) children hook =>
    renderNode_object children hook (renderFields_eq_filterMap (c.scope hook) hplain)
  refine ⟨(Fields.ofList l).mapValues? AttrValue.shown?, ?_, fun name => ?_, hnode,
    fun options children => ?_⟩
  · rw [Fields.names_mapValues? _ hnodup]
    refine List.filter_congr fun name _ => ?_
    rw [← Fields.get?_ofList]
    cases hv : (Fields.ofList l).get? name with
    | none => rfl
    | some v =>
      obtain ⟨before, after, hsplit, -⟩ := List.lookup_eq_some_iff.mp hv
      show v.shown?.isSome = !v.isAbsent
      rw [← (hplain (name, v) (hsplit ▸ by simp)).isNone_shown?, Option.not_isNone]
  · rw [Fields.get?_mapValues? _ hnodup, Fields.get?_ofList]
  · unfold render
    rw [hnode]
    rfl

/-- A name that is made absent and given again keeps its first place, and one that is absent in the
end has no field. -/
theorem renderNode_object_ofList_again :
    let l : List (String × AttrValue) := [("type", .ofString "section"), ("text", .absent),
      ("block_id", .ofString "a"), ("type", .absent), ("block_id", .absent),
      ("text", .list [.absent, .ofString "x", .list [.absent]]), ("type", .ofString "actions")]
    (∀ e ∈ (Fields.ofList l).entries, e.2.IsPlain) ∧
      ∃ fields : Fields Json, render {} ⟨.object, Fields.ofList l, [], none⟩ = .ok (.obj fields) ∧
        fields.names = ["type", "text"] ∧
        fields.get? "text" = some (.arr [.str "x", .arr []]) ∧ fields.get? "block_id" = none := by
  intro l
  have hplain : ∀ e ∈ (Fields.ofList l).entries, e.2.IsPlain := by
    show ∀ e ∈ [("type", AttrValue.ofString "actions"),
      ("text", .list [.absent, .ofString "x", .list [.absent]]), ("block_id", .absent)], e.2.IsPlain
    simp only [List.forall_mem_cons]
    refine ⟨.json _, .list ?_, .absent, List.forall_mem_nil _⟩
    simp only [List.forall_mem_cons]
    exact ⟨.absent, .json _, .list fun v hv => List.mem_singleton.mp hv ▸ .absent,
      List.forall_mem_nil _⟩
  obtain ⟨fields, hnames, hvalues, -, hrender⟩ := (renderNode_object_ofList l).2.2.2.2 hplain
  exact ⟨hplain, fields, hrender {} [], hnames.trans (by decide), hvalues "text",
    hvalues "block_id"⟩

end Render

end MessageLayout
