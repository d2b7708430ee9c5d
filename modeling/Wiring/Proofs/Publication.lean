import Mathlib.Data.List.Forall2
import Mathlib.Data.List.Perm.Basic
import Wiring.Proofs.Accounts
import Wiring.Proofs.Disk
import Wiring.Publication

/-!
# What a run leaves on the disk

A run that resolves every graph writes their documents one after the other, each under a name made
from the name of its graph.  Files already written stay as they are unless a later document has the
same name, and then the later one stands (`node?_of_writeFiles`).

File names tell graphs apart by their stems only (`metadataFileName_eq_iff`), and a stem keeps
letters, digits and underscores but not what else a name is made of (`fileStem_eq_iff`).  So a
directory in which nothing stood before holds the documents of all graphs if and only if no two of
them share a stem (`Facts.publishes_of_bare`).  Names that differ are not enough:
`Facts.publishes_overwritten`.
-/

namespace Wiring

/-! ### File names -/

namespace DeclarationId

/-- Whether a stem keeps a character. -/
def keeps (c : Char) : Bool := c.isAlphanum || c == '_'

/-- **Names share a stem** if they differ only where neither has a character that stems keep. -/
theorem fileStem_eq_iff {x y : DeclarationId} : x.fileStem = y.fileStem ↔
    List.Forall₂ (fun a b => a = b ∨ keeps a = false ∧ keeps b = false)
      x.name.toList y.name.toList := by
  have masked : ∀ {a b : Char}, (if keeps a then a else '-') = (if keeps b then b else '-') ↔
      a = b ∨ keeps a = false ∧ keeps b = false := by
    -- the sign put in place of what is left out is itself left out
    have dash : keeps '-' = false := by decide
    grind
  rw [fileStem, fileStem, String.ofList_inj, ← List.forall₂_eq_eq_eq, List.forall₂_map_left_iff,
    List.forall₂_map_right_iff]
  exact ⟨fun h => h.imp fun _ _ => masked.mp, fun h => h.imp fun _ _ => masked.mpr⟩

end DeclarationId

theorem Graph.metadataFileName_eq_iff {g h : Graph} :
    g.metadataFileName = h.metadataFileName ↔ g.id.fileStem = h.id.fileStem := by
  simp only [metadataFileName, ← String.toList_inj, String.toList_append,
    List.append_cancel_right_eq, List.append_cancel_left_eq]

/-! ### Writing one file after the other -/

namespace Publication

open Disk

variable {d d' : Disk} {directory path : Path} {files : List MetadataFile}

/-- The last of the files that are written to a path. -/
def lastAt (directory : Path) (files : List MetadataFile) (path : Path) : Option MetadataFile :=
  files.reverse.find? fun f => directory ++ [f.name] = path

theorem lastAt_cons (f : MetadataFile) : lastAt directory (f :: files) path =
    (lastAt directory files path).or (if directory ++ [f.name] = path then some f else none) := by
  rw [lastAt, List.reverse_cons, List.find?_append, List.find?_singleton]
  simp [lastAt]

theorem mem_of_lastAt {f : MetadataFile} (h : lastAt directory files path = some f) :
    f ∈ files ∧ directory ++ [f.name] = path := by
  rw [lastAt] at h
  exact ⟨List.mem_reverse.mp (List.mem_of_find?_eq_some h), by simpa using List.find?_some h⟩

/-- A file stands if none behind it has its name. -/
theorem lastAt_of_last {before after : List MetadataFile} {f : MetadataFile}
    (h : ∀ e ∈ after, e.name ≠ f.name) :
    lastAt directory (before ++ f :: after) (directory ++ [f.name]) = some f := by
  rw [lastAt, List.reverse_append, List.reverse_cons, List.append_assoc, List.find?_append,
    List.find?_eq_none.mpr fun e he => by simpa using h e (List.mem_reverse.mp he)]
  simp

/-- Only paths of the files change, whether or not all of them are written. -/
theorem node?_writeFiles_of_ne (h : ∀ f ∈ files, path ≠ directory ++ [f.name]) :
    (writeFiles directory d files).1.node? path = d.node? path := by
  induction files generalizing d with
  | nil => rfl
  | cons f rest ih =>
      obtain ⟨hf, hr⟩ := List.forall_mem_cons.mp h
      rw [writeFiles]
      cases hw : d.write? directory f.name f.content with
      | none => rfl
      | some e => rw [ih hr, node?_of_write? hw, if_neg hf]

/-- **The last file written to a path stands there**, and all other paths are as they were. -/
theorem node?_of_writeFiles (h : writeFiles directory d files = (d', .ok ())) (path : Path) :
    d'.node? path =
      ((lastAt directory files path).map fun f => Node.file f.content).or (d.node? path) := by
  induction files generalizing d with
  | nil =>
      cases h
      rfl
  | cons f rest ih =>
      rw [writeFiles] at h
      cases hw : d.write? directory f.name f.content with
      | none =>
          rw [hw] at h
          cases h
      | some e =>
          rw [hw] at h
          rw [ih h, node?_of_write? hw, lastAt_cons]
          cases lastAt directory rest path with
          | some _ => rfl
          | none =>
              by_cases hp : path = directory ++ [f.name]
              · simp [hp]
              · simp [hp, Ne.symm hp]

/-- All files are written to a directory without directories if the disk admits their names. -/
theorem ok_writeFiles_iff (hd : d.node? directory = some .directory)
    (hn : ∀ name, d.node? (directory ++ [name]) ≠ some .directory) :
    (writeFiles directory d files).2 = .ok () ↔ ∀ f ∈ files, admitsName f.name = true := by
  induction files generalizing d with
  | nil => simp [writeFiles]
  | cons f rest ih =>
      rw [writeFiles, List.forall_mem_cons]
      cases hw : d.write? directory f.name f.content with
      | none =>
          have : ¬ admitsName f.name = true := fun ha => by
            cases hw.symm.trans (write?_eq_some_iff.mpr ⟨⟨hd, ha, hn f.name⟩, rfl⟩)
          simp [this]
      | some e =>
          obtain ⟨⟨-, ha, -⟩, -⟩ := write?_eq_some_iff.mp hw
          -- the directory stays one, and none comes to stand in it
          have hd' : e.node? directory = some .directory := by
            rw [node?_of_write? hw, if_neg (by simp), hd]
          have hn' : ∀ name, e.node? (directory ++ [name]) ≠ some .directory := fun name => by
            rw [node?_of_write? hw]
            split
            · simp
            · exact hn name
          rw [ih hd' hn']
          simp [ha]

theorem ok_or_unwritable_writeFiles (d : Disk) (directory : Path) (files : List MetadataFile) :
    (writeFiles directory d files).2 = .ok () ∨
      ∃ path, (writeFiles directory d files).2 = .error (.unwritable path) := by
  induction files generalizing d with
  | nil => exact .inl rfl
  | cons f rest ih =>
      rw [writeFiles]
      split
      · exact ih _
      · exact .inr ⟨_, rfl⟩

/-! ### Publishing graphs -/

/-- The directory for metadata below a destination. -/
def directoryBelow (destination : Path) : Path := destination ++ [directoryName]

/-- A file with a document, where it is written. -/
def fileOf (directory : Path) (g : Graph) : Path × String :=
  (directory ++ [g.metadataFileName], g.metadataText)

variable {destination : Path} {graphs : List Graph}

theorem fileOf_fst_eq_iff {g h : Graph} :
    (fileOf directory g).1 = (fileOf directory h).1 ↔ g.id.fileStem = h.id.fileStem := by
  rw [fileOf, fileOf, ← Graph.metadataFileName_eq_iff]
  simp

theorem directoryBelow_ne_nil : directoryBelow destination ≠ [] := by simp [directoryBelow]

theorem publish_eq : publish d destination graphs =
    match d.makeDirectory? (directoryBelow destination) with
    | some e => writeFiles (directoryBelow destination) e (graphs.map Graph.metadataFile)
    | none => (d, .error (.unwritable (directoryBelow destination))) := rfl

theorem ok_publish_iff (hb : d.Bare (directoryBelow destination)) :
    (publish d destination graphs).2 = .ok () ↔
      (∀ prior ∈ trail (directoryBelow destination), d.Enterable prior) ∧
        ∀ g ∈ graphs, admitsName g.metadataFileName = true := by
  rw [publish_eq, ← isSome_makeDirectory?_iff]
  cases he : d.makeDirectory? (directoryBelow destination) with
  | none => simp
  | some e =>
      have hd : e.node? (directoryBelow destination) = some .directory := by
        rw [node?_of_makeDirectory? he, if_pos (self_mem_trail directoryBelow_ne_nil)]
      have hn : ∀ name, e.node? (directoryBelow destination ++ [name]) ≠ some .directory := by
        intro name
        rw [node?_of_makeDirectory? he, if_neg (below_not_mem_trail (by simp)), hb [name] (by simp)]
        simp
      show (writeFiles (directoryBelow destination) e (graphs.map Graph.metadataFile)).2 = _ ↔ _
      rw [ok_writeFiles_iff hd hn, List.forall_mem_map]
      simp [Graph.metadataFile]

/-- Publishing fails for want of a place to write to only. -/
theorem ok_or_unwritable_publish (d : Disk) (destination : Path) (graphs : List Graph) :
    (publish d destination graphs).2 = .ok () ∨
      ∃ path, (publish d destination graphs).2 = .error (.unwritable path) := by
  rw [publish_eq]
  split
  · exact ok_or_unwritable_writeFiles ..
  · exact .inr ⟨_, rfl⟩

/-- Nothing changes but on the way to the directory and below it. -/
theorem node?_publish_of_not_prefix (ht : path ∉ trail (directoryBelow destination))
    (hb : ¬ directoryBelow destination <+: path) :
    (publish d destination graphs).1.node? path = d.node? path := by
  rw [publish_eq]
  cases he : d.makeDirectory? (directoryBelow destination) with
  | none => rfl
  | some e =>
      have apart : ∀ f ∈ graphs.map Graph.metadataFile,
          path ≠ directoryBelow destination ++ [f.name] := fun f _ hp =>
        hb (hp ▸ List.prefix_append ..)
      show (writeFiles (directoryBelow destination) e (graphs.map Graph.metadataFile)).1.node? _ = _
      rw [node?_writeFiles_of_ne apart, node?_of_makeDirectory? he, if_neg ht]

/-- Documents stand where they were written last, directories on the way there. -/
theorem node?_of_publish (h : publish d destination graphs = (d', .ok ())) (path : Path) :
    d'.node? path =
      ((lastAt (directoryBelow destination) (graphs.map Graph.metadataFile) path).map
        fun f => Node.file f.content).or
      (if path ∈ trail (directoryBelow destination) then some .directory else d.node? path) := by
  rw [publish_eq] at h
  cases he : d.makeDirectory? (directoryBelow destination) with
  | none =>
      rw [he] at h
      cases h
  | some e =>
      rw [he] at h
      rw [node?_of_writeFiles h, node?_of_makeDirectory? he]

/-- Only documents stand below the directory if nothing stood there before. -/
theorem exists_fileOf_eq {content : String} (hb : d.Bare (directoryBelow destination))
    (h : publish d destination graphs = (d', .ok ())) (hp : directoryBelow destination <+: path)
    (hc : d'.content? path = some content) :
    ∃ g ∈ graphs, fileOf (directoryBelow destination) g = (path, content) := by
  rw [content?_eq_some_iff, node?_of_publish h] at hc
  cases hl : lastAt (directoryBelow destination) (graphs.map Graph.metadataFile) path with
  | some f =>
      rw [hl] at hc
      cases hc
      obtain ⟨hf, hp⟩ := mem_of_lastAt hl
      obtain ⟨g, hg, rfl⟩ := List.mem_map.mp hf
      exact ⟨g, hg, Prod.ext hp rfl⟩
  | none =>
      rw [hl, Option.map_none, Option.none_or] at hc
      obtain ⟨rest, rfl⟩ := hp
      split at hc
      · cases hc
      · rename_i ht
        have hr : rest ≠ [] := by
          rintro rfl
          exact ht ((List.append_nil _).symm ▸ self_mem_trail directoryBelow_ne_nil)
        rw [hb rest hr] at hc
        cases hc

/-- The document of a graph stands in its file if no later graph has the stem of its name. -/
theorem content?_of_publish {before after : List Graph} {g : Graph}
    (h : publish d destination (before ++ g :: after) = (d', .ok ()))
    (hg : ∀ e ∈ after, e.id.fileStem ≠ g.id.fileStem) :
    d'.content? (directoryBelow destination ++ [g.metadataFileName]) = some g.metadataText := by
  have last : ∀ e ∈ after.map Graph.metadataFile, e.name ≠ g.metadataFile.name :=
    List.forall_mem_map.mpr fun e he => fun hn => hg e he (Graph.metadataFileName_eq_iff.mp hn)
  rw [content?_eq_some_iff, node?_of_publish h, List.map_append, List.map_cons,
    show g.metadataFileName = g.metadataFile.name from rfl, lastAt_of_last last]
  rfl

/-- **The directory holds one file for each graph if and only if no two names share a stem.** -/
theorem filesBelow_perm_iff (hb : d.Bare (directoryBelow destination))
    (h : publish d destination graphs = (d', .ok ())) :
    (d'.filesBelow (directoryBelow destination)).Perm
        (graphs.map (fileOf (directoryBelow destination))) ↔
      (graphs.map (·.id.fileStem)).Nodup := by
  constructor
  · intro hp
    have paths := (hp.map (·.1)).nodup (nodup_filesBelow ..)
    rw [List.map_map] at paths
    exact List.pairwise_map.mpr ((List.pairwise_map.mp paths).imp fun hne hs =>
      hne (fileOf_fst_eq_iff.mpr hs))
  · intro hn
    have files : (graphs.map (fileOf (directoryBelow destination))).Nodup :=
      List.pairwise_map.mpr ((List.pairwise_map.mp hn).imp fun hne he =>
        hne (fileOf_fst_eq_iff.mp (congrArg Prod.fst he)))
    refine (List.perm_ext_iff_of_nodup (.of_map _ (nodup_filesBelow ..)) files).mpr ?_
    rintro ⟨path, content⟩
    rw [mem_filesBelow directoryBelow_ne_nil, List.mem_map]
    constructor
    · exact fun ⟨hp, hc⟩ => exists_fileOf_eq hb h hp hc
    · rintro ⟨g, hg, he⟩
      cases he
      obtain ⟨before, after, rfl⟩ := List.append_of_mem hg
      refine ⟨List.prefix_append .., content?_of_publish h fun e he hs => ?_⟩
      rw [List.map_append, List.map_cons] at hn
      have later := (List.nodup_cons.mp (List.nodup_append.mp hn).2.1).1
      exact later (hs ▸ List.mem_map_of_mem he)

end Publication

/-! ### Runs -/

namespace Outcome

variable {o : Outcome}

/-- Graphs are skipped only if some graph fails. -/
def SkipsAfterFailure (o : Outcome) : Prop := o.failures = [] → o.skipped = []

theorem skipsAfterFailure_concat : ∀ {os : List Outcome}, (∀ o ∈ os, o.SkipsAfterFailure) →
    (concat os).SkipsAfterFailure
  | [], _ => fun _ => rfl
  | o :: rest, h => by
      obtain ⟨ho, hr⟩ := List.forall_mem_cons.mp h
      intro hf
      obtain ⟨hof, hrf⟩ := List.append_eq_nil_iff.mp hf
      exact List.append_eq_nil_iff.mpr ⟨ho hof, skipsAfterFailure_concat hr hrf⟩

theorem result_eq_ok_iff {graphs : List Graph} :
    o.result = .ok graphs ↔ o.failures = [] ∧ o.graphs = graphs := by
  rw [result]
  cases o.failures <;> simp

theorem result_eq_error_iff {failure : Failure} :
    o.result = .error failure ↔ o.failures.head? = some failure := by
  rw [result]
  cases o.failures <;> simp

end Outcome

theorem Pass.skipsAfterFailure_resolveTree {p : Pass} {d : GraphDeclaration}
    (ancestors : List Ancestor) : (p.resolveTree d ancestors).outcome.SkipsAfterFailure := by
  induction d using GraphDeclaration.induction generalizing ancestors with
  | step d ih =>
      obtain ⟨_, hs⟩ := p.settled_resolveTree d ancestors
      generalize p.resolveTree d ancestors = s at hs
      cases hs with
      | failed => exact nofun
      | built =>
          refine Outcome.skipsAfterFailure_concat (List.forall_mem_map.mpr fun s hm => ?_)
          obtain ⟨e, he, rfl⟩ := mem_grow_branches.mp hm
          exact ih e he _

theorem Pass.skipsAfterFailure_resolve (p : Pass) (roots : List GraphDeclaration) :
    (p.resolve roots).SkipsAfterFailure := by
  refine Outcome.skipsAfterFailure_concat (List.forall_mem_map.mpr fun s hm => ?_)
  obtain ⟨d, -, rfl⟩ := mem_grow_branches.mp hm
  exact skipsAfterFailure_resolveTree []

namespace Facts

open Disk Publication

variable {f : Facts} {options : Options} {d : Disk} {destination : String}

/-- What a run leaves on a disk when it publishes the graphs below a directory. -/
structure Publishes (f : Facts) (options : Options) (d : Disk) (directory : Path) : Prop where
  /-- The graphs are returned if and only if all are built, directories can be made along the path,
  and no file name is too long. -/
  ok_iff : ∀ graphs, (f.run options d).2 = .ok graphs ↔
    ((f.resolve options).failures = [] ∧ (f.resolve options).graphs = graphs) ∧
      (∀ prior ∈ trail directory, d.Enterable prior) ∧
      ∀ g ∈ graphs, admitsName g.metadataFileName = true
  /-- Graphs that are returned are all declared graphs, those that extend others among them. -/
  ids : ∀ graphs, (f.run options d).2 = .ok graphs →
    (graphs.map (·.id)).Perm ((GraphDeclaration.preorder f.graphs).map (·.id))
  /-- The directory holds one file for each graph, with its own document, if and only if no two
  graphs share the stem of their names. -/
  apart_iff : ∀ graphs, (f.run options d).2 = .ok graphs →
    (((f.run options d).1.filesBelow directory).Perm (graphs.map (fileOf directory)) ↔
      (graphs.map (·.id.fileStem)).Nodup)
  /-- The document of a graph is in its file unless a later graph has the stem of its name. -/
  latest : ∀ before g after, (f.run options d).2 = .ok (before ++ g :: after) →
    (∀ h ∈ after, h.id.fileStem ≠ g.id.fileStem) →
    (f.run options d).1.content? (directory ++ [g.metadataFileName]) = some g.metadataText
  /-- Every file below the directory is that of a graph. -/
  documents : ∀ graphs, (f.run options d).2 = .ok graphs →
    ∀ file ∈ (f.run options d).1.filesBelow directory, ∃ g ∈ graphs, fileOf directory g = file
  /-- Nothing else on the disk changes, whatever comes of the run. -/
  elsewhere : ∀ path, path ∉ trail directory → ¬ directory <+: path →
    (f.run options d).1.node? path = d.node? path
  /-- The first graph that cannot be built is told of. -/
  unresolved_iff : ∀ failure, (f.run options d).2 = .error (.unresolved failure) ↔
    (f.resolve options).failures.head? = some failure
  /-- If there is one, nothing changes at all. -/
  untouched : ∀ failure, (f.run options d).2 = .error (.unresolved failure) →
    (f.run options d).1 = d

theorem run_of_error {failure : Failure} (h : (f.resolve options).result = .error failure)
    (d : Disk) : f.run options d = (d, .error (.unresolved failure)) := by
  rw [run, h]

theorem run_of_ok {graphs : List Graph} (h : (f.resolve options).result = .ok graphs)
    (hd : options.reportsDestination = some destination) (d : Disk) :
    f.run options d = ((publish d (pathOf destination) graphs).1,
      (publish d (pathOf destination) graphs).2.map fun _ => graphs) := by
  rw [run, h, hd]

/-- Graphs are returned if they are resolved and published. -/
theorem run_eq_ok_iff (hd : options.reportsDestination = some destination) {graphs : List Graph} :
    (f.run options d).2 = .ok graphs ↔
      (f.resolve options).result = .ok graphs ∧
        publish d (pathOf destination) graphs = ((f.run options d).1, .ok ()) := by
  cases h : (f.resolve options).result with
  | error failure => simp [run_of_error h]
  | ok resolved =>
      rw [run_of_ok h hd, Except.ok.injEq]
      generalize hp : publish d (pathOf destination) resolved = written
      obtain ⟨d', written⟩ := written
      constructor
      · intro hw
        cases written with
        | error => cases hw
        | ok =>
            obtain rfl := Except.ok.inj hw
            exact ⟨rfl, hp⟩
      · rintro ⟨rfl, hw⟩
        rw [hp] at hw
        rw [(Prod.mk.inj hw).2]
        rfl

/-- The first graph that cannot be built is told of. -/
theorem run_eq_unresolved_iff (hd : options.reportsDestination = some destination)
    {failure : Failure} : (f.run options d).2 = .error (.unresolved failure) ↔
      (f.resolve options).result = .error failure := by
  cases h : (f.resolve options).result with
  | error => simp [run_of_error h]
  | ok graphs =>
      rw [run_of_ok h hd]
      rcases ok_or_unwritable_publish d (pathOf destination) graphs with hp | ⟨path, hp⟩ <;>
        simp [hp, Except.map]

/-- **What is left of the graphs of a run below a destination where nothing stood.**  It is the
document of each of them, and nothing else, if and only if no two share the stem of their names;
if one of them cannot be built, it is nothing. -/
theorem publishes_of_bare (hd : options.reportsDestination = some destination)
    (hb : d.Bare (directoryBelow (pathOf destination))) :
    f.Publishes options d (directoryBelow (pathOf destination)) where
  ok_iff graphs := by
    rw [run_eq_ok_iff hd, ← Outcome.result_eq_ok_iff, ← ok_publish_iff hb]
    refine and_congr_right fun hr => ?_
    rw [run_of_ok hr hd]
    exact ⟨fun h => congrArg Prod.snd h, fun h => Prod.ext rfl h⟩
  ids graphs h := by
    obtain ⟨hf, rfl⟩ := Outcome.result_eq_ok_iff.mp ((run_eq_ok_iff hd).mp h).1
    have := ((f.pass options).accounted_resolve f.graphs).ids
    rwa [(f.pass options).skipsAfterFailure_resolve f.graphs hf,
      show ((f.pass options).resolve f.graphs).failures = [] from hf, List.map_nil, List.append_nil,
      List.append_nil] at this
  apart_iff graphs h := filesBelow_perm_iff hb ((run_eq_ok_iff hd).mp h).2
  latest before g after h hg := content?_of_publish ((run_eq_ok_iff hd).mp h).2 hg
  documents graphs h := by
    rintro ⟨path, content⟩ hf
    obtain ⟨hp, hc⟩ := (mem_filesBelow directoryBelow_ne_nil).mp hf
    exact exists_fileOf_eq hb ((run_eq_ok_iff hd).mp h).2 hp hc
  elsewhere path ht hn := by
    cases h : (f.resolve options).result with
    | error => rw [run_of_error h]
    | ok graphs => rw [run_of_ok h hd, node?_publish_of_not_prefix ht hn]
  unresolved_iff failure := by
    rw [run_eq_unresolved_iff hd, Outcome.result_eq_error_iff]
  untouched failure h := by
    rw [run_of_error ((run_eq_unresolved_iff hd).mp h)]

/-- Graphs of given names that hold nothing. -/
def named (names : List String) : Facts where
  graphs := names.map fun name =>
    { origin := { declaration := ⟨name⟩ }, key := { typeName := name } }

/-- Options with a destination. -/
def toOut : Options := { reportsDestination := some "out" }

/-- The directory that they are published in. -/
def out : Path := directoryBelow (pathOf "out")

theorem bare_blank_out : blank.Bare out := fun rest _ => by
  have : out ++ rest ≠ [] := List.append_ne_nil_of_left_ne_nil directoryBelow_ne_nil rest
  simp [node?, blank, this]

theorem publishes_of_bare_named :
    toOut.reportsDestination = some "out" ∧ blank.Bare out ∧
    (((named ["app.Main", "app_Main"]).run toOut blank).2.toOption.map fun graphs =>
      graphs.map fun g => g.id.fileStem) = some ["app-Main", "app_Main"] ∧
    (named ["app.Main", "app_Main"]).Publishes toOut blank out :=
  ⟨rfl, bare_blank_out, by decide +kernel, publishes_of_bare rfl bare_blank_out⟩

/-- Names that differ do not keep documents apart: of two graphs that share a stem the document
written first is lost, and its file holds that of the other. -/
theorem publishes_overwritten :
    ((named ["app.Main", "app-Main"]).graphs.map (·.id)).Nodup ∧
    blank.Bare out ∧
    (((named ["app.Main", "app-Main"]).run toOut blank).2.toOption.map fun graphs =>
      graphs.map fun g => (g.id.name, decide
        (((named ["app.Main", "app-Main"]).run toOut blank).1.content?
          (out ++ [g.metadataFileName]) = some g.metadataText))) =
      some [("app-Main", false), ("app.Main", true)] ∧
    (((named ["app.Main", "app-Main"]).run toOut blank).1.filesBelow out).map (·.1) =
      [["out", "graph-metadata", "graph-app-Main.json"]] :=
  ⟨by decide, bare_blank_out, by decide +kernel, by decide +kernel⟩

end Facts

end Wiring
