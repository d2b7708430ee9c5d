import Mathlib
import Wiring.Proofs.Guessing
import Wiring.Proofs.Layering

/-!
# Options from layers

Options are gathered from a base, from files and from variables.  A `Selection` says what one layer
chooses; a file chooses by writing what a document of options would hold (`SettingsFile.Selects`), a
variable by a text that means something for its option (`Environment.Selects`).

In the options that are loaded every choice is the last one made for it (`Layered`), so a later
layer goes before an earlier one, option by option, whether it is a file or the environment.  Each
choice is as it was made, with two exceptions that `load_layered` states in full: a count beyond 63
bits is kept as a floating-point number, and the destination of a variable arrives as it is read
back, which shows unless it is a word (`load_figures`).
-/

namespace Wiring

/-! ### Choices -/

/-- What options are about. -/
inductive Choice where
  | shrinkUnusedBindings
  | fullGraphValidation
  | maxErrorsCount
  | unusedBindingSeverity
  | reportsDestination
deriving DecidableEq, Repr

namespace Choice

/-- What may be chosen. -/
def Domain : Choice → Type
  | shrinkUnusedBindings => Bool
  | fullGraphValidation => Bool
  | maxErrorsCount => UInt64
  | unusedBindingSeverity => Severity
  | reportsDestination => Option String

/-- The name in documents. -/
def name : Choice → String
  | shrinkUnusedBindings => "shrink_unused_bindings"
  | fullGraphValidation => "full_graph_validation"
  | maxErrorsCount => "max_errors_count"
  | unusedBindingSeverity => "unused_binding_severity"
  | reportsDestination => "reports_destination"

/-- How a document writes what is chosen. -/
def write : (c : Choice) → c.Domain → Value
  | shrinkUnusedBindings, b => .bool b
  | fullGraphValidation, b => .bool b
  | maxErrorsCount, n => .ofNat (UInt64.toNat n)
  | unusedBindingSeverity, s => .text (Severity.name s)
  | reportsDestination, d => .ofOption .text d

/-- What a setting chooses. -/
def read? : (c : Choice) → Value → Option c.Domain
  | shrinkUnusedBindings => Settings.toBool?
  | fullGraphValidation => Settings.toBool?
  | maxErrorsCount => Settings.toWord?
  | unusedBindingSeverity => Settings.toSeverity?
  | reportsDestination => Settings.toOptionalText?

/-- What is kept of a choice that a document writes. -/
def kept : (c : Choice) → c.Domain → c.Domain
  | shrinkUnusedBindings, b => b
  | fullGraphValidation, b => b
  | maxErrorsCount, n => Settings.rounded n
  | unusedBindingSeverity, s => s
  | reportsDestination, d => d

/-- What arrives of a choice that the text of a variable makes. -/
def arriving : (c : Choice) → c.Domain → c.Domain
  | shrinkUnusedBindings, b => b
  | fullGraphValidation, b => b
  | maxErrorsCount, n => Settings.rounded n
  | unusedBindingSeverity, s => s
  | reportsDestination, d => Option.map Settings.reread d

variable {c : Choice}

/-- The name of a choice is that of a member of the tree. -/
theorem names_name (c : Choice) : Settings.Names c.name c.name := by
  refine ⟨c.name, ?_, ?_⟩
  · cases c <;> decide +kernel
  · cases c <;> decide +kernel

theorem name_injective {c d : Choice} (h : c.name = d.name) : c = d := by
  cases c <;> cases d <;> first | rfl | exact absurd h (by decide)

/-- A layer that gives each of several choices once under its name writes these. -/
theorem writes_named {α : Type} (entries : List (Choice × α)) (h : (entries.map (·.1)).Nodup)
    (c : Choice) :
    Settings.Writes (entries.map fun e => (e.1.name, e.2)) c.name (entries.lookup c) := by
  induction entries with
  | nil => exact .nothing rfl
  | cons e rest ih =>
      obtain ⟨d, a⟩ := e
      obtain ⟨fresh, nodup⟩ := List.nodup_cons.mp h
      have root := (names_name d).rootOf_eq
      rw [List.map_cons]
      by_cases hc : c = d
      · subst hc
        -- what follows does not give the choice again, so it writes nothing under its name
        have absent : rest.lookup c = none := by
          refine List.lookup_eq_none_iff.mpr fun e he => bne_iff_ne.mpr ?_
          rintro rfl
          exact fresh (List.mem_map.mpr ⟨_, he, rfl⟩)
        have later := ih nodup
        rw [absent] at later
        cases later with
        | nothing hr =>
            rw [List.lookup_cons_self]
            refine .once ?_ (names_name c) List.mem_cons_self
            exact (Settings.namesAt_cons_of_eq (e := (c.name, a)) root).trans (congrArg _ hr)
      · have differs : (c == d) = false := beq_eq_false_iff_ne.mpr hc
        have other : Settings.rootOf d.name ≠ c.name := by
          rw [root]
          exact fun he => hc (name_injective he).symm
        rw [List.lookup, differs]
        have later := ih nodup
        generalize rest.lookup c = w at later ⊢
        cases later with
        | nothing hr =>
            exact .nothing ((Settings.namesAt_cons_of_ne (e := (d.name, a)) other).trans hr)
        | once hr hn ha =>
            exact .once ((Settings.namesAt_cons_of_ne (e := (d.name, a)) other).trans hr) hn
              (List.mem_cons_of_mem _ ha)

theorem read?_write (c : Choice) (a : c.Domain) : c.read? (c.write a) = some (c.kept a) := by
  cases c with
  | shrinkUnusedBindings => rfl
  | fullGraphValidation => rfl
  | maxErrorsCount => exact Settings.toWord?_ofNat a
  | unusedBindingSeverity =>
      have named : ∀ severity : Severity,
          Settings.toSeverity? (.text severity.name) = some severity := by
        intro severity
        have found : Settings.severityOfName? severity.name = some severity := by
          cases severity <;> decide +kernel
        exact found
      exact named a
  | reportsDestination =>
      change Option String at a
      cases a <;> rfl

theorem write_ne_object (c : Choice) (a : c.Domain) (members : List (String × Value)) :
    c.write a ≠ .object members := by
  cases c with
  | reportsDestination =>
      change Option String at a
      cases a <;> exact Value.noConfusion
  | _ => exact Value.noConfusion

/-- **A text means as a value what it means as a text**, but for what does not arrive as it is. -/
theorem read?_valueOf {s : String} {a : c.Domain} (h : c.read? (.text s) = some a) :
    c.read? (Environment.valueOf s) = some (c.arriving a) := by
  cases c with
  | shrinkUnusedBindings => exact Settings.toBool?_valueOf h
  | fullGraphValidation => exact Settings.toBool?_valueOf h
  | maxErrorsCount => exact Settings.toWord?_valueOf h
  | unusedBindingSeverity => exact Settings.toSeverity?_valueOf h
  | reportsDestination =>
      obtain rfl : some s = a := Option.some.inj h
      exact Settings.toOptionalText?_valueOf s

end Choice

/-- What is chosen in options. -/
def Options.get (o : Options) : (c : Choice) → c.Domain
  | .shrinkUnusedBindings => o.shrinkUnusedBindings
  | .fullGraphValidation => o.fullGraphValidation
  | .maxErrorsCount => o.maxErrorsCount
  | .unusedBindingSeverity => o.unusedBindingSeverity
  | .reportsDestination => o.reportsDestination

/-- What one layer chooses; it need not choose anything. -/
def Selection : Type := (c : Choice) → Option c.Domain

namespace Selection

/-- The last choice of several layers, or else the one given. -/
def last (layers : List Selection) (c : Choice) (given : c.Domain) : c.Domain :=
  (layers.filterMap fun σ => σ c).getLast?.getD given

/-- The options in which everything is as it was chosen last. -/
def merge (base : Options) (layers : List Selection) : Options where
  shrinkUnusedBindings := last layers .shrinkUnusedBindings base.shrinkUnusedBindings
  fullGraphValidation := last layers .fullGraphValidation base.fullGraphValidation
  maxErrorsCount := last layers .maxErrorsCount base.maxErrorsCount
  unusedBindingSeverity := last layers .unusedBindingSeverity base.unusedBindingSeverity
  reportsDestination := last layers .reportsDestination base.reportsDestination

theorem get_merge (base : Options) (layers : List Selection) (c : Choice) :
    (merge base layers).get c = last layers c (base.get c) := by
  cases c <;> rfl

/-- What a layer chooses is the choice given to those after it. -/
theorem last_cons (σ : Selection) (layers : List Selection) (c : Choice) (given : c.Domain) :
    last (σ :: layers) c given = last layers c ((σ c).getD given) := by
  rw [last, last]
  cases h : σ c with
  | none => rw [List.filterMap_cons_none h, Option.getD_none]
  | some a =>
      rw [List.filterMap_cons_some h, List.getLast?_cons, Option.getD_some, Option.getD_some]

/-- What is kept of what a document writes. -/
def kept (σ : Selection) : Selection := fun c => (σ c).map c.kept

/-- What arrives of what variables say. -/
def arriving (σ : Selection) : Selection := fun c => (σ c).map c.arriving

/-- Counts are kept as they are if they have 63 bits, and in a few cases beyond. -/
def Exact (σ : Selection) : Prop := ∀ n : UInt64, σ .maxErrorsCount = some n →
  n.toNat < 2 ^ 63 ∨ 2048 ∣ n.toNat ∨ n.toNat = 2 ^ 64 - 1

/-- The text of a destination is the one that it is read back as. -/
def Plain (σ : Selection) : Prop :=
  ∀ s : String, σ .reportsDestination = some (some s) → Settings.reread s = s

theorem Exact.kept_eq {σ : Selection} (h : σ.Exact) : σ.kept = σ := by
  funext c
  rw [kept]
  cases hc : σ c with
  | none => rfl
  | some a =>
      cases c with
      | maxErrorsCount => exact congrArg some (Settings.rounded_eq_self_iff.mpr (h a hc))
      | _ => rfl

/-- Of a plain destination arrives what is kept of it. -/
theorem Plain.arriving_eq {σ : Selection} (h : σ.Plain) : σ.arriving = σ.kept := by
  funext c
  rw [arriving, kept]
  cases hc : σ c with
  | none => rfl
  | some a =>
      cases c with
      | reportsDestination =>
          change Option String at a
          cases a with
          | none => rfl
          | some s => exact congrArg (fun s => some (some s)) (h s hc)
      | _ => rfl

end Selection

/-! ### Layers that choose -/

namespace Settings

variable {s : Settings} {c : Choice}

/-- The setting of a choice means something. -/
def Means (s : Settings) (c : Choice) (a : c.Domain) : Prop :=
  ∃ v, s.get? c.name = some v ∧ c.read? v = some a

/-- What a layer says about a choice, if it says anything. -/
def Tells (layer : List (String × Value)) (c : Choice) (told : Option c.Domain) : Prop :=
  ∃ w, Writes layer c.name w ∧ (∀ v ∈ w, ∀ members, v ≠ .object members) ∧
    w.map c.read? = told.map some

theorem Means.layer {layer : List (String × Value)} {a : c.Domain} {told : Option c.Domain}
    (h : s.Means c a) (ht : Tells layer c told) : (s.layer layer).Means c (told.getD a) := by
  obtain ⟨v, hv, ha⟩ := h
  obtain ⟨w, hw, scalar, hr⟩ := ht
  have found := hw.get?_layer (s := s) scalar
  cases w with
  | none =>
      obtain rfl : told = none := by
        cases told with
        | none => rfl
        | some b => cases hr
      rw [Option.none_or, hv] at found
      exact ⟨v, found, ha⟩
  | some u =>
      cases told with
      | none => cases hr
      | some b => exact ⟨u, found, Option.some.inj hr⟩

/-- **After several layers a setting means what the last of them says that says anything.** -/
theorem Means.layers {layers : List (List (String × Value))} {told : List Selection}
    (ht : List.Forall₂ (fun layer σ => Tells layer c (σ c)) layers told) {a : c.Domain}
    (h : s.Means c a) : (layers.foldl Settings.layer s).Means c (Selection.last told c a) := by
  induction ht generalizing s a with
  | nil => exact h
  | @cons layer σ layers told first _ ih =>
      rw [List.foldl_cons, Selection.last_cons]
      exact ih (h.layer first)

/-- Of what a document writes it tells what is kept. -/
theorem tells_of_writes {members : List (String × Value)} {σ : Selection}
    (h : ∀ c : Choice, Writes members c.name ((σ c).map c.write)) (c : Choice) :
    Tells members c (σ.kept c) := by
  refine ⟨(σ c).map c.write, h c, ?_, ?_⟩
  · intro v hv
    obtain ⟨a, -, rfl⟩ := Option.map_eq_some_iff.mp hv
    exact c.write_ne_object a
  · rw [Selection.kept, Option.map_map, Option.map_map]
    congr 1
    funext a
    exact c.read?_write a

/-- Settings that mean something for every choice are options. -/
theorem options?_of_means {o : Options} (h : ∀ c, s.Means c (o.get c)) : s.options? = some o := by
  have converted : ∀ (c : Choice) (absent : c.Domain),
      s.convert c.name absent c.read? = some (o.get c) := by
    intro c absent
    obtain ⟨v, hv, ha⟩ := h c
    rw [convert, hv]
    exact ha
  have shrink := converted .shrinkUnusedBindings true
  have full := converted .fullGraphValidation false
  have count := converted .maxErrorsCount (20 : UInt64)
  have severity := converted .unusedBindingSeverity Severity.none
  have destination := converted .reportsDestination (none : Option String)
  change s.convert "shrink_unused_bindings" true toBool? = some o.shrinkUnusedBindings at shrink
  change s.convert "full_graph_validation" false toBool? = some o.fullGraphValidation at full
  change s.convert "max_errors_count" 20 toWord? = some o.maxErrorsCount at count
  change s.convert "unused_binding_severity" Severity.none toSeverity? =
    some o.unusedBindingSeverity at severity
  change s.convert "reports_destination" none toOptionalText? =
    some o.reportsDestination at destination
  simp only [options?, shrink, full, count, severity, destination]
  rfl

end Settings

/-- A file that can be read writes what is chosen as a document of options would. -/
def SettingsFile.Selects (f : SettingsFile) (σ : Selection) : Prop :=
  ∃ members, f.settings? = some members ∧
    ∀ c : Choice, Settings.Writes members c.name ((σ c).map c.write)

namespace Environment

/-- The texts of variables, by what follows the word in their names. -/
def texts (e : Environment) : List (String × String) :=
  e.entries.filterMap fun (name, text) => (e.setting? name).map fun name => (name, text)

theorem settings_eq (e : Environment) :
    e.settings = e.texts.map fun entry => (entry.1, valueOf entry.2) := by
  rw [settings, texts, List.map_filterMap]
  refine congrArg (List.filterMap · e.entries) (funext fun ⟨name, text⟩ => ?_)
  rw [Option.map_map]
  rfl

/-- Variables have texts that mean what is chosen. -/
def Selects (e : Environment) (σ : Selection) : Prop :=
  ∀ c : Choice, ∃ w : Option String, Settings.Writes e.texts c.name w ∧
    w.map (fun text => c.read? (.text text)) = (σ c).map some

theorem valueOf_ne_object (s : String) (members : List (String × Value)) :
    valueOf s ≠ .object members := by
  intro h
  obtain ⟨-, t, ht⟩ := Settings.exists_toText?_valueOf s
  rw [h] at ht
  cases ht

theorem Selects.tells {e : Environment} {σ : Selection} (h : e.Selects σ) (c : Choice) :
    Settings.Tells e.settings c (σ.arriving c) := by
  obtain ⟨w, hw, hr⟩ := h c
  refine ⟨w.map valueOf, e.settings_eq ▸ hw.map valueOf, ?_, ?_⟩
  · intro v hv
    obtain ⟨text, -, rfl⟩ := Option.map_eq_some_iff.mp hv
    exact valueOf_ne_object text
  · rw [Selection.arriving]
    cases w with
    | none =>
        cases hc : σ c with
        | none => rfl
        | some a => rw [hc] at hr; cases hr
    | some text =>
        cases hc : σ c with
        | none => rw [hc] at hr; cases hr
        | some a =>
            rw [hc] at hr
            exact congrArg some (Choice.read?_valueOf (Option.some.inj hr))

end Environment

/-! ### Loading -/

/-- Options that make no sense: no error would be kept, or the destination is the empty path. -/
def Options.Senseless (o : Options) : Prop :=
  o.maxErrorsCount = 0 ∨ o.reportsDestination = some ""

theorem Options.validate_cases (o : Options) :
    (o.validate = .ok o ∧ ¬ o.Senseless) ∨ ((∃ e, o.validate = .error e) ∧ o.Senseless) := by
  rw [validate]
  by_cases hm : o.maxErrorsCount = 0
  · exact .inr ⟨⟨_, if_pos hm⟩, .inl hm⟩
  · by_cases hd : o.reportsDestination = some ""
    · exact .inr ⟨⟨_, (if_neg hm).trans (if_pos hd)⟩, .inr hd⟩
    · exact .inl ⟨(if_neg hm).trans (if_neg hd), fun h => h.elim hm hd⟩

namespace OptionSources

/-- The options loaded are the base with everything as it was chosen last. -/
structure Layered (s : OptionSources) (layers : List Selection) : Prop where
  /-- They are not looked at. -/
  unchecked : s.validated = false → s.load = .ok (Selection.merge s.base layers)
  /-- They make sense, or are refused. -/
  checked : s.validated = true →
    (s.load = .ok (Selection.merge s.base layers) ∧
      ¬ (Selection.merge s.base layers).Senseless) ∨
    ((∃ e, s.load = .error (.refused e)) ∧ (Selection.merge s.base layers).Senseless)

/-- The settings of a base mean what is chosen there, if its numbers are signed ones. -/
theorem means_base {base : Options} (h : base.maxErrorsCount.toNat < 2 ^ 63) :
    ∃ t, baseSettings? base = some t ∧ ∀ c, t.Means c (base.get c) := by
  have holds := (Settings.int64_holds_iff _).mpr h
  rw [baseSettings?, if_pos holds]
  refine ⟨_, rfl, fun c => ⟨c.write (base.get c), ?_, ?_⟩⟩
  · cases c <;> rfl
  · rw [c.read?_write]
    cases c with
    | maxErrorsCount => exact congrArg some (Settings.rounded_of_lt h)
    | _ => rfl

/-- Files that can be read are there. -/
theorem missing?_eq_none {files : List SettingsFile} {selections : List Selection}
    (h : List.Forall₂ SettingsFile.Selects files selections) :
    files.findSome? SettingsFile.missing? = none := by
  induction h with
  | nil => rfl
  | @cons f σ files selections first _ ih =>
      obtain ⟨members, hm, -⟩ := first
      cases f with
      | missing => cases hm
      | present => rwa [List.findSome?_cons]

/-- The settings of files that can be read. -/
theorem settings_of_files {files : List SettingsFile} {selections : List Selection}
    (h : List.Forall₂ SettingsFile.Selects files selections) :
    ∃ layers, files.mapM SettingsFile.settings? = some layers ∧
      ∀ c, List.Forall₂ (fun layer σ => Settings.Tells layer c (σ c)) layers
        (selections.map Selection.kept) := by
  induction h with
  | nil => exact ⟨[], rfl, fun c => .nil⟩
  | @cons f σ files selections first _ ih =>
      obtain ⟨members, hm, hw⟩ := first
      obtain ⟨layers, hl, tells⟩ := ih
      refine ⟨members :: layers, ?_, fun c => .cons (Settings.tells_of_writes hw c) (tells c)⟩
      rw [List.mapM_cons, hm, hl]
      rfl

variable {s : OptionSources} {files : List Selection} {overrides : Option Selection}

/-- Every choice is the last one made for it, as far as it is kept and arrives. -/
theorem layered_kept (hb : s.base.maxErrorsCount.toNat < 2 ^ 63)
    (hf : List.Forall₂ SettingsFile.Selects s.files files)
    (he : Option.Rel Environment.Selects s.environment overrides) :
    s.Layered (files.map .kept ++ (overrides.map .arriving).toList) := by
  obtain ⟨t, ht, based⟩ := means_base hb
  obtain ⟨layers, hl, tells⟩ := settings_of_files hf
  have told : ∀ c, List.Forall₂ (fun layer σ => Settings.Tells layer c (σ c))
      (s.environment.map Environment.settings).toList
      (overrides.map Selection.arriving).toList := by
    intro c
    generalize s.environment = environment at he ⊢
    cases he with
    | none => exact .nil
    | some h => exact .cons (h.tells c) .nil
  have settings : s.settings? = some
      ((layers ++ (s.environment.map Environment.settings).toList).foldl Settings.layer t) := by
    rw [settings?, ht, hl]
    rfl
  have options : s.settings?.bind Settings.options? = some
      (Selection.merge s.base (files.map .kept ++ (overrides.map .arriving).toList)) := by
    rw [settings, Option.bind_some]
    refine Settings.options?_of_means fun c => ?_
    rw [Selection.get_merge]
    exact (based c).layers (List.rel_append (tells c) (told c))
  have load : s.load =
      if s.validated then (Selection.merge s.base
        (files.map .kept ++ (overrides.map .arriving).toList)).validate.mapError .refused
      else .ok (Selection.merge s.base
        (files.map .kept ++ (overrides.map .arriving).toList)) := by
    rw [OptionSources.load, missing?_eq_none hf]
    simp only [options]
  refine ⟨fun hv => ?_, fun hv => ?_⟩
  · rw [load, hv]
    rfl
  · rw [load, hv, if_pos rfl]
    rcases (Selection.merge s.base _).validate_cases with ⟨ok, sense⟩ | ⟨⟨e, error⟩, senseless⟩
    · exact .inl ⟨by rw [ok]; rfl, sense⟩
    · exact .inr ⟨⟨e, by rw [error]; rfl⟩, senseless⟩

/-- What is loaded from files and variables that choose. -/
structure Loads (s : OptionSources) (files : List Selection) (overrides : Option Selection) :
    Prop where
  /-- Every choice is the last one made for it, as far as it is kept and arrives. -/
  layered : s.Layered (files.map .kept ++ (overrides.map .arriving).toList)
  /-- It is the one made, if counts are exact and the destination of a variable is plain. -/
  verbatim : (∀ σ ∈ files, σ.Exact) → (∀ σ ∈ overrides, σ.Exact ∧ σ.Plain) →
    s.Layered (files ++ overrides.toList)
  /-- A destination is plain if it is a word. -/
  words : ∀ σ : Selection, (∀ text : String, σ .reportsDestination = some (some text) →
    isWord (lowerText text) = true) → σ.Plain

/-- **In the options that are loaded the last choice counts**, and it is the one that was made, if
counts have up to 63 bits and the destination of a variable is a word. -/
theorem load_layered (hb : s.base.maxErrorsCount.toNat < 2 ^ 63)
    (hf : List.Forall₂ SettingsFile.Selects s.files files)
    (he : Option.Rel Environment.Selects s.environment overrides) : s.Loads files overrides := by
  refine ⟨layered_kept hb hf he, fun exact plain => ?_, fun σ words text h => ?_⟩
  · have files_eq : files.map Selection.kept = files := by
      refine (List.map_congr_left fun σ hσ => ?_).trans (List.map_id _)
      exact (exact σ hσ).kept_eq
    have overrides_eq : overrides.map Selection.arriving = overrides := by
      cases overrides with
      | none => rfl
      | some σ =>
          obtain ⟨exact, plain⟩ := plain σ rfl
          exact congrArg some (plain.arriving_eq.trans exact.kept_eq)
    have layered := layered_kept hb hf he
    rwa [files_eq, overrides_eq] at layered
  · exact Settings.reread_of_isWord (words text h)

/-- A file with a count and a destination, and a variable with another count. -/
def counting : OptionSources where
  files := [.present .toml "max_errors_count = 5\nreports_destination = \"007\"\n"]
  environment := some ⟨"RESOLVER", [("RESOLVER_MAX_ERRORS_COUNT", "7")]⟩

/-- The choices of the file. -/
def counted : Selection
  | .maxErrorsCount => some (5 : UInt64)
  | .reportsDestination => some (some "007")
  | _ => none

/-- The choice of the variable. -/
def recounted : Selection
  | .maxErrorsCount => some (7 : UInt64)
  | _ => none

theorem load_layered_counting :
    counting.base.maxErrorsCount.toNat < 2 ^ 63 ∧
    List.Forall₂ SettingsFile.Selects counting.files [counted] ∧
    Option.Rel Environment.Selects counting.environment (some recounted) ∧
    counting.Loads [counted] (some recounted) ∧
    counting.load = .ok { maxErrorsCount := 7, reportsDestination := some "007" } := by
  have base : counting.base.maxErrorsCount.toNat < 2 ^ 63 := by decide +kernel
  have file : List.Forall₂ SettingsFile.Selects counting.files [counted] := by
    have writes := Choice.writes_named
      [(.maxErrorsCount, Value.int 5), (.reportsDestination, .text "007")] (by decide)
    refine .cons ⟨[("max_errors_count", .int 5), ("reports_destination", .text "007")],
      by cbv, fun c => ?_⟩ .nil
    cases c <;> exact writes _
  have entries : Option.Rel Environment.Selects counting.environment (some recounted) := by
    have writes := Choice.writes_named [(.maxErrorsCount, "7")] (by decide)
    have texts : (Environment.mk "RESOLVER" [("RESOLVER_MAX_ERRORS_COUNT", "7")]).texts =
        [("max_errors_count", "7")] := by decide +kernel
    have seven : Settings.toWord? (.text "7") = some 7 := by decide +kernel
    refine .some fun c => ⟨_, by rw [texts]; exact writes c, ?_⟩
    cases c with
    | maxErrorsCount => exact congrArg some seven
    | _ => rfl
  exact ⟨base, file, entries, load_layered base file entries, by decide +kernel⟩

/-- A file with a large count, and a variable with a destination of figures. -/
def figures : OptionSources where
  files := [.present .json "\x7b\"max_errors_count\": 9223372036854775809\x7d"]
  environment := some ⟨"RESOLVER", [("RESOLVER_REPORTS_DESTINATION", "007")]⟩

/-- The choice of the file. -/
def large : Selection
  | .maxErrorsCount => some (9223372036854775809 : UInt64)
  | _ => none

/-- The choice of the variable. -/
def figured : Selection
  | .reportsDestination => some (some "007")
  | _ => none

/-- Neither a count beyond 63 bits nor a destination of figures need arrive as it was written. -/
theorem load_figures :
    List.Forall₂ SettingsFile.Selects figures.files [large] ∧
    Option.Rel Environment.Selects figures.environment (some figured) ∧
    (Selection.merge figures.base [large, figured]).maxErrorsCount = 9223372036854775809 ∧
    (Selection.merge figures.base [large, figured]).reportsDestination = some "007" ∧
    figures.load =
      .ok { maxErrorsCount := 9223372036854775808, reportsDestination := some "7" } := by
  have file : List.Forall₂ SettingsFile.Selects figures.files [large] := by
    have writes := Choice.writes_named
      [(.maxErrorsCount, Value.int 9223372036854775809)] (by decide)
    refine .cons ⟨[("max_errors_count", .int 9223372036854775809)], by cbv, fun c => ?_⟩ .nil
    cases c <;> exact writes _
  have entries : Option.Rel Environment.Selects figures.environment (some figured) := by
    have writes := Choice.writes_named [(.reportsDestination, "007")] (by decide)
    have texts : (Environment.mk "RESOLVER" [("RESOLVER_REPORTS_DESTINATION", "007")]).texts =
        [("reports_destination", "007")] := by decide +kernel
    refine .some fun c => ⟨_, by rw [texts]; exact writes c, ?_⟩
    cases c <;> rfl
  exact ⟨file, entries, rfl, rfl, by decide +kernel⟩

end OptionSources

end Wiring
