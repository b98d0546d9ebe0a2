import MessageLayout.Settings.Loader

/-!
# Precedence of layers

A document laid over settings is taken up entry by entry, and what an entry does depends on what is
there: tables are merged, and whatever stands in the way of a path gives way. What a document says
by itself, laid over nothing, it says over any settings all the same: `KeptIn` compares settings by
the truth values in them, and every step that takes up an entry is monotone in it. A field that no
entry of a document names stays as it is. So one layer either settles the mode of mrkdwn or leaves
it alone, and a run over the layers keeps the last word.

Main statements: `Setting.KeptIn.overlay`, `Setting.truth?_overlay_of_not_mentions`,
`Setting.mode?_ofDocument_section` (a document with a section on mrkdwn sets the mode),
`Loader.foldlM_layFile` (what a run over files comes to) and `Loader.build_ofLayers` (what layers
in any order come to).
-/

namespace MessageLayout

namespace Setting

/-! ## Truth values under names -/

/-- The truth value to which names lead, from the outermost table on. -/
def truth? : List String → Setting → Option Bool
  | [], .bool b => some b
  | [], _ => none
  | name :: names, s => (s.field? name).bind (truth? names)

theorem field?_congr (s : Setting) {name other : String}
    (h : Text.lowercase name = Text.lowercase other) : s.field? name = s.field? other := by
  show s.fields.get? _ = s.fields.get? _
  rw [h]

theorem truth?_nil_withField (s : Setting) (key : String) (value : Setting) :
    (s.withField key value).truth? [] = none := rfl

theorem truth?_cons_withField (s : Setting) (key : String) (value : Setting) (name : String)
    (names : List String) :
    (s.withField key value).truth? (name :: names)
      = if Text.lowercase name = Text.lowercase key then value.truth? names
        else s.truth? (name :: names) := by
  show ((s.withField key value).field? name).bind (truth? names) = _
  split
  · next h => rw [field?_congr _ h, field?_withField_self, Option.bind_some]
  · next h => rw [field?_withField_of_ne s h]; rfl

theorem truth?_table_empty (names : List String) : (table ∅).truth? names = none := by
  cases names <;> rfl

theorem truth?_empty (names : List String) : empty.truth? names = none := by
  cases names <;> rfl

theorem truth?_changeItem (s : Setting) (i : Int) (f : Setting → Setting) (names : List String) :
    (s.changeItem i f).truth? names = none := by
  unfold changeItem
  split <;> cases names <;> rfl

/-! ## One setting kept in another -/

/-- Whether each truth value in the one setting stands at its place in the other. -/
def KeptIn (s t : Setting) : Prop :=
  ∀ names b, s.truth? names = some b → t.truth? names = some b

theorem KeptIn.refl (s : Setting) : s.KeptIn s :=
  fun _ _ h => h

theorem keptIn_of_forall_none {s : Setting} (h : ∀ names, s.truth? names = none) (t : Setting) :
    s.KeptIn t :=
  fun names _ hb => nomatch (h names).symm.trans hb

/-- Settings that know nothing are kept in any others. -/
theorem table_empty_keptIn (t : Setting) : (table ∅).KeptIn t :=
  keptIn_of_forall_none truth?_table_empty t

theorem KeptIn.getD_field? {s t d : Setting} (h : s.KeptIn t) (hd : ∀ names, d.truth? names = none)
    (key : String) : ((s.field? key).getD d).KeptIn ((t.field? key).getD d) := by
  cases hs : s.field? key with
  | none => exact keptIn_of_forall_none hd _
  | some x =>
    intro names b hb
    have hkey : s.truth? (key :: names) = some b := by
      unfold truth?
      rw [hs]
      exact hb
    have ht : (t.field? key).bind (truth? names) = some b := h (key :: names) b hkey
    obtain ⟨y, hy, hyb⟩ := Option.bind_eq_some_iff.1 ht
    rw [hy]
    exact hyb

theorem KeptIn.withField {s t v w : Setting} (h : s.KeptIn t) (hv : v.KeptIn w) (key : String) :
    (s.withField key v).KeptIn (t.withField key w) := by
  intro names b hb
  cases names with
  | nil => rw [truth?_nil_withField] at hb; cases hb
  | cons name names =>
    rw [truth?_cons_withField] at hb ⊢
    split at hb
    · next hn => rw [if_pos hn]; exact hv names b hb
    · next hn => rw [if_neg hn]; exact h (name :: names) b hb

mutual

-- The recursion is that of `put`, on the value that is given, for any two settings it is put into.

/-- A value given to the same field of both leaves the one kept in the other. -/
theorem KeptIn.put {s t : Setting} (h : s.KeptIn t) (key : String) :
    ∀ value : Setting, (s.put key value).KeptIn (t.put key value)
  | .table ⟨entries⟩ => by
    unfold Setting.put
    exact h.withField ((h.getD_field? truth?_table_empty key).putAll entries) key
  | .empty => h.withField (.refl _) key
  | .bool _ => h.withField (.refl _) key
  | .int _ => h.withField (.refl _) key
  | .float _ => h.withField (.refl _) key
  | .str _ => h.withField (.refl _) key
  | .list _ => h.withField (.refl _) key
  termination_by structural value => value

theorem KeptIn.putAll {s t : Setting} (h : s.KeptIn t) :
    ∀ entries : List (String × Setting), (s.putAll entries).KeptIn (t.putAll entries)
  | [] => h
  | e :: entries => (h.putEntry e).putAll entries
  termination_by structural entries => entries

theorem KeptIn.putEntry {s t : Setting} (h : s.KeptIn t) :
    ∀ e : String × Setting, (s.putEntry e).KeptIn (t.putEntry e)
  | (key, value) => h.put key value
  termination_by structural e => e

end

/-- Giving a value along a path ends in `put`, in the value itself or in a list, in which no name
leads to anything. -/
theorem KeptIn.setAlong {s t : Setting} (h : s.KeptIn t) (value : Setting)
    (steps : List KeyPath.Step) : (setAlong value steps s).KeptIn (setAlong value steps t) := by
  induction steps generalizing s t with
  | nil => exact .refl value
  | cons step rest ih =>
    cases step with
    | index i =>
      show (s.changeItem i _).KeptIn (t.changeItem i _)
      exact keptIn_of_forall_none (truth?_changeItem s i _) _
    | field name =>
      cases rest with
      | nil => exact h.put name value
      | cons step rest => exact h.withField (ih (h.getD_field? truth?_empty name)) name

theorem KeptIn.setEntry {s t : Setting} (h : s.KeptIn t) (e : String × Setting) :
    (s.setEntry e).KeptIn (t.setEntry e) := by
  unfold Setting.setEntry
  split
  · next path _ => exact h.setAlong e.2 path.steps
  · exact h.put e.1 e.2

/-- A document says the same over settings as over others that they are kept in. -/
theorem KeptIn.overlay {s t : Setting} (h : s.KeptIn t) (document : Fields Setting) :
    (s.overlay document).KeptIn (t.overlay document) := by
  unfold Setting.overlay
  induction document.entries generalizing s t with
  | nil => exact h
  | cons e entries ih => exact ih (h.setEntry e)

/-! ## Fields that a document does not name -/

/-- The outermost name that the key of an entry leads to. -/
def outermost (key : String) : String :=
  match KeyPath.read? key with
  | some path => path.first
  | none => key

/-- Whether an entry of a document gives a value to a field of the outermost table or to something
within it. -/
def Mentions (document : Fields Setting) (name : String) : Prop :=
  ∃ e ∈ document.entries, Text.lowercase (outermost e.1) = Text.lowercase name

instance (document : Fields Setting) (name : String) : Decidable (Mentions document name) :=
  inferInstanceAs (Decidable (∃ e ∈ document.entries, _))

theorem field?_put_of_ne (s : Setting) {key name : String}
    (h : Text.lowercase name ≠ Text.lowercase key) (value : Setting) :
    (s.put key value).field? name = s.field? name := by
  cases value <;> exact field?_withField_of_ne s h _

theorem field?_setAt_of_ne (s : Setting) {path : KeyPath} {name : String}
    (h : Text.lowercase name ≠ Text.lowercase path.first) (value : Setting) :
    (s.setAt path value).field? name = s.field? name := by
  obtain ⟨first, rest⟩ := path
  cases rest with
  | nil => exact field?_put_of_ne s h value
  | cons step rest => exact field?_withField_of_ne s h _

theorem field?_setEntry_of_ne (s : Setting) {e : String × Setting} {name : String}
    (h : Text.lowercase name ≠ Text.lowercase (outermost e.1)) :
    (s.setEntry e).field? name = s.field? name := by
  unfold setEntry
  unfold outermost at h
  split
  · next path hpath => rw [hpath] at h; exact field?_setAt_of_ne s h e.2
  · next hpath => rw [hpath] at h; exact field?_put_of_ne s h e.2

/-- A field that a document does not mention stays as it is. -/
theorem field?_overlay_of_not_mentions (s : Setting) {document : Fields Setting} {name : String}
    (h : ¬ Mentions document name) : (s.overlay document).field? name = s.field? name := by
  obtain ⟨entries⟩ := document
  show (entries.foldl setEntry s).field? name = s.field? name
  have hne : ∀ e ∈ entries, Text.lowercase name ≠ Text.lowercase (outermost e.1) :=
    fun e he heq => h ⟨e, he, heq.symm⟩
  clear h
  induction entries generalizing s with
  | nil => rfl
  | cons e entries ih =>
    rw [List.foldl_cons, ih (s.setEntry e) fun e he => hne e (List.mem_cons_of_mem _ he)]
    exact field?_setEntry_of_ne s (hne e List.mem_cons_self)

theorem field?_putAll_of_ne (s : Setting) {name : String} {entries : List (String × Setting)}
    (h : ∀ e ∈ entries, Text.lowercase name ≠ Text.lowercase e.1) :
    (s.putAll entries).field? name = s.field? name := by
  induction entries generalizing s with
  | nil => rfl
  | cons e entries ih =>
    obtain ⟨key, value⟩ := e
    show ((s.put key value).putAll entries).field? name = s.field? name
    rw [ih _ fun e he => h e (List.mem_cons_of_mem _ he)]
    exact field?_put_of_ne s (h _ List.mem_cons_self) value

theorem putAll_append (s : Setting) (entries more : List (String × Setting)) :
    s.putAll (entries ++ more) = (s.putAll entries).putAll more := by
  induction entries generalizing s with
  | nil => rfl
  | cons e entries ih => exact ih (s.putEntry e)

/-- A truth value set along names is found under them. -/
theorem truth?_setAlong_field (s : Setting) (b : Bool) (names : List String) :
    (setAlong (.bool b) (names.map .field) s).truth? names = some b := by
  induction names generalizing s with
  | nil => rfl
  | cons name names ih =>
    cases names with
    | nil =>
      show (s.withField name (.bool b)).truth? [name] = some b
      rw [truth?_cons_withField, if_pos rfl]
      rfl
    | cons next names =>
      show (s.withField name (setAlong (.bool b) ((next :: names).map .field) _)).truth? _ = some b
      rw [truth?_cons_withField, if_pos rfl]
      exact ih _

/-! ## What a document says by itself -/

/-- What a document says by itself. -/
def ofDocument (document : Fields Setting) : Setting :=
  (table ∅).overlay document

/-- What a document says by itself it says over any settings. -/
theorem truth?_overlay_of_ofDocument {document : Fields Setting} {names : List String} {b : Bool}
    (h : (ofDocument document).truth? names = some b) (s : Setting) :
    (s.overlay document).truth? names = some b :=
  (table_empty_keptIn s).overlay document names b h

theorem truth?_overlay_of_not_mentions (s : Setting) {document : Fields Setting} {name : String}
    (h : ¬ Mentions document name) (names : List String) :
    (s.overlay document).truth? (name :: names) = s.truth? (name :: names) := by
  unfold truth?
  rw [field?_overlay_of_not_mentions s h]

end Setting

/-! ## The mode of mrkdwn -/

/-- The mode of mrkdwn, where settings give it as a truth value. -/
def Setting.mode? (s : Setting) : Option Bool :=
  s.truth? ["mrkdwn", "exact_mode"]

/-- Settings that have the mode as a truth value come to a configuration. -/
theorem Configuration.ofSettings_of_mode? {s : Setting} {b : Bool} (h : s.mode? = some b) :
    ofSettings s = .ok ⟨⟨b⟩⟩ := by
  have hm : Text.lowercase "mrkdwn" = "mrkdwn" := by decide +kernel
  have he : Text.lowercase "exact_mode" = "exact_mode" := by decide +kernel
  obtain ⟨mrkdwn, hmrkdwn, h⟩ := Option.bind_eq_some_iff.1 h
  obtain ⟨mode, hmode, h⟩ := Option.bind_eq_some_iff.1 h
  unfold Setting.field? at hmrkdwn hmode
  rw [hm] at hmrkdwn
  rw [he] at hmode
  cases mode with
  | bool c =>
    cases h
    cases mrkdwn with
    | table fields =>
      replace hmode : fields.get? "exact_mode" = some (.bool b) := hmode
      unfold ofSettings optionsOf
      rw [hmrkdwn]
      simp only [hmode]
      rfl
    | _ => cases hmode
  | _ => cases h

/-- A document with a section on mrkdwn in which the mode is a truth value sets the mode, unless
something behind names the section or the mode again. -/
theorem Setting.mode?_ofDocument_section {before behind above below : List (String × Setting)}
    (hbehind : ¬ Mentions ⟨behind⟩ "mrkdwn")
    (hbelow : ∀ e ∈ below, Text.lowercase "exact_mode" ≠ Text.lowercase e.1) (b : Bool) :
    (ofDocument ⟨before ++ ("mrkdwn", .table ⟨above ++ ("exact_mode", .bool b) :: below⟩)
      :: behind⟩).mode? = some b := by
  have hkey : KeyPath.read? "mrkdwn" = some ⟨"mrkdwn", []⟩ := by decide +kernel
  unfold ofDocument overlay
  rw [List.foldl_append, List.foldl_cons]
  generalize before.foldl setEntry (table ∅) = s
  refine (truth?_overlay_of_not_mentions _ hbehind _).trans ?_
  unfold setEntry
  rw [hkey]
  show (s.withField "mrkdwn" _).truth? ["mrkdwn", "exact_mode"] = _
  rw [truth?_cons_withField, if_pos rfl, putAll_append]
  generalize ((s.field? "mrkdwn").getD (table ∅)).putAll above = t
  show ((((t.put "exact_mode" (.bool b)).putAll below).field? "exact_mode").bind
    (truth? [])) = some b
  rw [field?_putAll_of_ne _ hbelow]
  show ((t.withField "exact_mode" (.bool b)).field? "exact_mode").bind (truth? []) = some b
  rw [field?_withField_self]
  rfl

namespace SettingsFile

/-- The mode that a file sets, read by itself. -/
def mode? (f : SettingsFile) : Option Bool := do
  let document ← Toml.read? (← f.text?)
  (Setting.ofDocument document).mode?

/-- Whether a file that has to be there is missing. -/
def isMissing (f : SettingsFile) : Bool :=
  f.required && f.text?.isNone

/-- Whether a file, if it is there, is a TOML document that sets the mode to a truth value or does
not mention mrkdwn. -/
def IsPlain (f : SettingsFile) : Prop :=
  ∀ text ∈ f.text?, ∃ document ∈ Toml.read? text,
    (Setting.ofDocument document).mode?.isSome ∨ ¬ Setting.Mentions document "mrkdwn"

instance (f : SettingsFile) : Decidable f.IsPlain :=
  inferInstanceAs (Decidable (∀ text ∈ f.text?, ∃ document ∈ Toml.read? text, _ ∨ ¬ _))

end SettingsFile

namespace Loader

theorem mode?_defaults : defaults.mode? = some false := by decide +kernel

/-! ## Layers in any order -/

/-- A layer over the defaults that concerns the mode. -/
inductive Layer where
  /-- An override of the mode. -/
  | override (exact : Bool)
  /-- A file. -/
  | file (f : SettingsFile)

namespace Layer

/-- The files among layers. -/
def files : List Layer → List SettingsFile
  | [] => []
  | .override _ :: layers => files layers
  | .file f :: layers => f :: files layers

/-- The modes that layers give above all files. -/
def overrides : List Layer → List Bool
  | [] => []
  | .override exact :: layers => exact :: overrides layers
  | .file _ :: layers => overrides layers

end Layer

/-- A loader with one more layer. -/
def add (l : Loader) : Layer → Except SettingsError Loader
  | .override exact => l.setOverride "mrkdwn.exact_mode" (.bool exact)
  | .file f =>
    if f.required then .ok (l.withFile f.name f.directory)
    else .ok (l.withOptionalFile f.name f.directory)

/-- The loader with layers added one by one. -/
def ofLayers (layers : List Layer) : Except SettingsError Loader :=
  layers.foldlM add {}

/-- An override of the mode. -/
def modeOverride (exact : Bool) : KeyPath × Setting :=
  (⟨"mrkdwn", [.field "exact_mode"]⟩, .bool exact)

theorem add_override (l : Loader) (exact : Bool) :
    l.add (.override exact) = .ok { l with overrides := l.overrides ++ [modeOverride exact] } := by
  have hkey : KeyPath.read? "mrkdwn.exact_mode" = some ⟨"mrkdwn", [.field "exact_mode"]⟩ := by
    decide +kernel
  unfold add setOverride
  rw [hkey]
  rfl

theorem add_file (l : Loader) (f : SettingsFile) :
    l.add (.file f) = .ok { l with files := l.files ++ [f] } := by
  obtain ⟨name, required, directory⟩ := f
  cases required <;> rfl

/-- Files and overrides are kept apart, each in the order in which they were added. -/
theorem foldlM_add (layers : List Layer) (l : Loader) :
    layers.foldlM add l = .ok ⟨l.files ++ Layer.files layers,
      l.overrides ++ (Layer.overrides layers).map modeOverride⟩ := by
  induction layers generalizing l with
  | nil =>
    show Except.ok l = _
    rw [Layer.files, Layer.overrides, List.map_nil, List.append_nil, List.append_nil]
  | cons layer layers ih =>
    rw [List.foldlM_cons]
    cases layer with
    | override exact =>
      rw [add_override]
      show layers.foldlM add _ = _
      rw [ih, List.append_assoc]
      rfl
    | file f =>
      rw [add_file]
      show layers.foldlM add _ = _
      rw [ih, List.append_assoc]
      rfl

/-! ## Laying files -/

theorem layFile_of_isMissing {f : SettingsFile} (h : f.isMissing = true) (s : Setting) :
    layFile s f = .error (.missingFile f.name) := by
  obtain ⟨hr, ht⟩ := Bool.and_eq_true_iff.1 h
  unfold layFile SettingsFile.read
  rw [Option.isNone_iff_eq_none.1 ht]
  simp only [hr]
  rfl

/-- A file sets the mode to its own or leaves it alone. -/
theorem layFile_of_isPlain {f : SettingsFile} (hf : f.IsPlain) (hm : f.isMissing = false)
    {s : Setting} {b : Bool} (hs : s.mode? = some b) :
    ∃ t, layFile s f = .ok t ∧ t.mode? = some (f.mode?.getD b) := by
  unfold layFile SettingsFile.read SettingsFile.mode?
  unfold SettingsFile.IsPlain at hf
  cases ht : f.text? with
  | none =>
    have hr : f.required = false := by simpa [SettingsFile.isMissing, ht] using hm
    refine ⟨s, ?_, hs⟩
    simp only [hr]
    rfl
  | some text =>
    obtain ⟨document, hread, hsays⟩ := hf text ht
    replace hread : Toml.read? text = some document := hread
    refine ⟨s.overlay document, ?_, ?_⟩
    · simp only [hread]
      rfl
    · show _ = some (((Toml.read? text).bind fun d => (Setting.ofDocument d).mode?).getD b)
      rw [hread, Option.bind_some]
      cases hown : (Setting.ofDocument document).mode? with
      | some own => exact Setting.truth?_overlay_of_ofDocument hown s
      | none =>
        rw [hown] at hsays
        have hnot := hsays.resolve_left nofun
        exact (Setting.truth?_overlay_of_not_mentions s hnot _).trans hs

/-- A run over files stops at the first one that is missing but has to be there; without any, the
last file that sets the mode decides. -/
theorem foldlM_layFile (files : List SettingsFile) (hf : ∀ f ∈ files, f.IsPlain) {s : Setting}
    {b : Bool} (hs : s.mode? = some b) :
    match files.find? (·.isMissing) with
    | some f => files.foldlM layFile s = .error (.missingFile f.name)
    | none => ∃ t, files.foldlM layFile s = .ok t ∧
        t.mode? = some ((files.filterMap SettingsFile.mode?).getLast?.getD b) := by
  induction files generalizing s b with
  | nil => exact ⟨s, rfl, hs⟩
  | cons f files ih =>
    rw [List.foldlM_cons, List.find?_cons]
    cases hm : f.isMissing with
    | true =>
      show _ = _
      rw [layFile_of_isMissing hm]
      rfl
    | false =>
      obtain ⟨t, ht, hmode⟩ := layFile_of_isPlain (hf f List.mem_cons_self) hm hs
      have hrest := ih (fun g hg => hf g (List.mem_cons_of_mem _ hg)) hmode
      rw [ht]
      have hlast : ((f :: files).filterMap SettingsFile.mode?).getLast?.getD b
          = (files.filterMap SettingsFile.mode?).getLast?.getD (f.mode?.getD b) := by
        cases hown : f.mode? with
        | none => rw [List.filterMap_cons_none hown]; rfl
        | some own => rw [List.filterMap_cons_some hown, List.getLast?_cons]; rfl
      rw [hlast]
      exact hrest

/-! ## Overrides -/

/-- The last override of the mode decides. -/
theorem mode?_foldl_modeOverride (modes : List Bool) {s : Setting} {b : Bool}
    (hs : s.mode? = some b) :
    ((modes.map modeOverride).foldl (fun s (path, value) => s.setAt path value) s).mode?
      = some (modes.getLast?.getD b) := by
  induction modes generalizing s b with
  | nil => exact hs
  | cons exact modes ih =>
    have hset : (s.setAt (modeOverride exact).1 (modeOverride exact).2).mode?
        = some exact := Setting.truth?_setAlong_field s exact ["mrkdwn", "exact_mode"]
    rw [List.getLast?_cons]
    exact ih hset

/-! ## Precedence -/

/-- Layers come to the mode of the last override, wherever it was added; without one to that of the
last file that sets the mode; without one to the default. If a file is missing that has to be there,
they come to an error. -/
theorem build_ofLayers (layers : List Layer) (hf : ∀ f ∈ Layer.files layers, f.IsPlain) :
    (ofLayers layers >>= build) =
      match (Layer.files layers).find? (·.isMissing) with
      | some f => .error (.missingFile f.name)
      | none => .ok ⟨⟨(Layer.overrides layers).getLast?.getD
          (((Layer.files layers).filterMap SettingsFile.mode?).getLast?.getD false)⟩⟩ := by
  have hrun := foldlM_layFile (Layer.files layers) hf mode?_defaults
  unfold ofLayers
  rw [foldlM_add]
  show build ⟨Layer.files layers, (Layer.overrides layers).map modeOverride⟩ = _
  unfold build settings
  cases hmissing : (Layer.files layers).find? (·.isMissing) with
  | some f =>
    rw [hmissing] at hrun
    rw [show _ = Except.error _ from hrun]
    rfl
  | none =>
    rw [hmissing] at hrun
    obtain ⟨t, ht, hmode⟩ := hrun
    rw [ht]
    exact Configuration.ofSettings_of_mode? (mode?_foldl_modeOverride _ hmode)

/-- Among a file that does not mention mrkdwn, one that sets the mode and one that may be missing an
override decides, without one the file that sets the mode does, and without that the default. If the
missing file has to be there the layers come to an error, whatever stands behind it. -/
theorem build_ofLayers_cases :
    let directory := Fields.ofList [("title.toml", "title = 1\n"),
      ("mode.toml", "[mrkdwn]\nexact_mode = true\n")]
    let file (required : Bool) (name : String) : Layer := .file ⟨name, required, directory⟩
    let overridden := [file true "title", .override false, file true "mode.toml", file false "none.toml"]
    let inFile := [file true "title", file true "mode.toml", file false "none.toml"]
    let inNone := [file true "title", file false "none.toml"]
    let missing := [file true "title", file true "none.toml", .override true]
    (∀ layers ∈ [overridden, inFile, inNone, missing], ∀ f ∈ Layer.files layers, f.IsPlain) ∧
      (ofLayers overridden >>= build) = .ok ⟨⟨false⟩⟩ ∧
        (ofLayers inFile >>= build) = .ok ⟨⟨true⟩⟩ ∧
          (ofLayers inNone >>= build) = .ok ⟨⟨false⟩⟩ ∧
            (ofLayers missing >>= build) = .error (.missingFile "none.toml") := by
  intro directory file overridden inFile inNone missing
  have hall : ∀ layers ∈ [overridden, inFile, inNone, missing],
      ∀ f ∈ Layer.files layers, f.IsPlain := by
    decide +kernel
  have hnone : ∀ layers ∈ [overridden, inFile, inNone],
      (Layer.files layers).find? (·.isMissing) = none := by
    simp only [List.find?_eq_none]
    decide +kernel
  have hmissing : (Layer.files missing).find? (·.isMissing) = some ⟨"none.toml", true, directory⟩ := by
    have htitle : SettingsFile.isMissing ⟨"title", true, directory⟩ = false := by decide +kernel
    have hnone : SettingsFile.isMissing ⟨"none.toml", true, directory⟩ = true := by decide +kernel
    have hfiles : Layer.files missing = [⟨"title", true, directory⟩, ⟨"none.toml", true, directory⟩] :=
      rfl
    rw [hfiles, List.find?_cons_of_neg (by simp [htitle]), List.find?_cons_of_pos hnone]
  have hfile : ((Layer.files inFile).filterMap SettingsFile.mode?).getLast? = some true := by
    decide +kernel
  have hdefault : ((Layer.files inNone).filterMap SettingsFile.mode?).getLast? = none := by
    decide +kernel
  simp only [List.forall_mem_cons] at hall hnone
  obtain ⟨h₁, h₂, h₃, h₄, -⟩ := hall
  obtain ⟨hnone₁, hnone₂, hnone₃, -⟩ := hnone
  refine ⟨by simp only [List.forall_mem_cons]; exact ⟨h₁, h₂, h₃, h₄, nofun⟩, ?_, ?_, ?_, ?_⟩
  · rw [build_ofLayers overridden h₁, hnone₁]
    rfl
  · rw [build_ofLayers inFile h₂, hnone₂, hfile]
    rfl
  · rw [build_ofLayers inNone h₃, hnone₃, hdefault]
    rfl
  · rw [build_ofLayers missing h₄, hmissing]

end Loader

end MessageLayout
