import Wiring.Disk
import Wiring.Proofs.SortedMap

/-!
# What a disk holds

`node?` is the view of a disk: directories are made and files are written by what stands at each
path afterwards (`node?_of_makeDirectory?`, `node?_of_write?`), and each of the two is possible
exactly if what stands there before admits it (`isSome_makeDirectory?_iff`, `write?_eq_some_iff`).
-/

namespace Wiring

namespace Disk

variable {d d' : Disk} {directory path : Path} {name content : String}

theorem node?_insert (hp : path ≠ []) (n : Node) (q : Path) :
    (⟨d.nodes.insert path n⟩ : Disk).node? q = if q = path then some n else d.node? q := by
  rw [node?, node?, SortedMap.get?_insert]
  by_cases hq : q = path
  · simp [hq, hp]
  · simp [hq]

theorem content?_eq_some_iff :
    d.content? path = some content ↔ d.node? path = some (.file content) := by
  rw [content?]
  split
  · rename_i hn
    simp [hn]
  · rename_i hn
    simpa using fun h => hn _ h

/-! ### Directories -/

theorem mem_trail : path ∈ trail directory ↔ path ≠ [] ∧ path <+: directory := by
  simp only [trail, List.mem_map, List.mem_range]
  constructor
  · rintro ⟨n, hn, rfl⟩
    exact ⟨List.ne_nil_of_length_pos (by simp; omega), List.take_prefix ..⟩
  · rintro ⟨hp, hd⟩
    have := List.length_pos_iff.mpr hp
    have := hd.length_le
    refine ⟨path.length - 1, by omega, ?_⟩
    rw [Nat.sub_add_cancel (by omega), ← List.prefix_iff_eq_take.mp hd]

theorem self_mem_trail (h : path ≠ []) : path ∈ trail path :=
  mem_trail.mpr ⟨h, List.prefix_refl path⟩

/-- What stands below a path is on no way to it. -/
theorem below_not_mem_trail {rest : Path} (h : rest ≠ []) : path ++ rest ∉ trail path := by
  intro hm
  have := (mem_trail.mp hm).2.length_le
  rw [List.length_append] at this
  have := List.length_pos_iff.mpr h
  omega

/-- Whether there is a directory at a path, or can be. -/
def Enterable (d : Disk) (path : Path) : Prop :=
  d.node? path = some .directory ∨ d.node? path = none ∧ path.getLast?.all admitsName = true

/-- The disk with a directory at a path, if no file stands there. -/
def enter? (d : Disk) (path : Path) : Option Disk :=
  match d.node? path with
  | some .directory => some d
  | some (.file _) => none
  | none => if path.getLast?.all admitsName then some ⟨d.nodes.insert path .directory⟩ else none

theorem isSome_enter?_iff : (d.enter? path).isSome = true ↔ d.Enterable path := by
  rw [enter?, Enterable]
  split <;> simp_all

theorem node?_of_enter? (h : d.enter? path = some d') (q : Path) :
    d'.node? q = if q = path then some .directory else d.node? q := by
  rw [enter?] at h
  split at h
  · rename_i hn
    obtain rfl := Option.some.inj h
    by_cases hq : q = path
    · rw [if_pos hq, hq, hn]
    · rw [if_neg hq]
  · cases h
  · rename_i hn
    split at h
    · obtain rfl := Option.some.inj h
      refine node?_insert ?_ _ q
      rintro rfl
      cases hn
    · cases h

theorem node?_of_enterAll {paths : List Path} (h : paths.foldlM enter? d = some d') (q : Path) :
    d'.node? q = if q ∈ paths then some .directory else d.node? q := by
  induction paths generalizing d with
  | nil =>
      obtain rfl := Option.some.inj h
      simp
  | cons path rest ih =>
      rw [List.foldlM_cons] at h
      obtain ⟨e, he, h⟩ := Option.bind_eq_some_iff.mp h
      rw [ih h, node?_of_enter? he]
      by_cases hr : q ∈ rest <;> by_cases hq : q = path <;> simp [hr, hq]

theorem isSome_enterAll_iff {paths : List Path} :
    (paths.foldlM enter? d).isSome = true ↔ ∀ path ∈ paths, d.Enterable path := by
  induction paths generalizing d with
  | nil => simp
  | cons path rest ih =>
      rw [List.foldlM_cons, List.forall_mem_cons, ← isSome_enter?_iff]
      cases he : d.enter? path with
      | none => simp
      | some e =>
          -- a path entered before can be entered again
          have kept : ∀ q, e.Enterable q ↔ d.Enterable q := fun q => by
            rw [Enterable, Enterable, node?_of_enter? he]
            by_cases hq : q = path
            · have : d.Enterable path := isSome_enter?_iff.mp (he ▸ rfl)
              simpa [hq, Enterable] using this
            · rw [if_neg hq]
          show (rest.foldlM enter? e).isSome = true ↔ _
          rw [ih]
          simp [kept]

theorem makeDirectory?_eq (d : Disk) (path : Path) :
    d.makeDirectory? path = (trail path).foldlM enter? d := rfl

/-- A directory can be made if directories can be entered all the way. -/
theorem isSome_makeDirectory?_iff : (d.makeDirectory? path).isSome = true ↔
    ∀ prior ∈ trail path, d.Enterable prior := by
  rw [makeDirectory?_eq, isSome_enterAll_iff]

/-- Directories stand all the way, and all else is as it was. -/
theorem node?_of_makeDirectory? (h : d.makeDirectory? path = some d') (q : Path) :
    d'.node? q = if q ∈ trail path then some .directory else d.node? q :=
  node?_of_enterAll (makeDirectory?_eq d path ▸ h) q

/-! ### Files -/

theorem write?_eq_some_iff : d.write? directory name content = some d' ↔
    (d.node? directory = some .directory ∧ admitsName name = true ∧
      d.node? (directory ++ [name]) ≠ some .directory) ∧
    ⟨d.nodes.insert (directory ++ [name]) (.file content)⟩ = d' := by
  rw [write?]
  split
  · rename_i h
    simp [h]
  · rename_i h
    simp [h]

theorem node?_of_write? (h : d.write? directory name content = some d') (q : Path) :
    d'.node? q = if q = directory ++ [name] then some (.file content) else d.node? q := by
  obtain ⟨-, rfl⟩ := write?_eq_some_iff.mp h
  exact node?_insert (by simp) _ q

/-- Nothing stands below a path. -/
def Bare (d : Disk) (path : Path) : Prop := ∀ rest, rest ≠ [] → d.node? (path ++ rest) = none

/-- The files below a path, in the order of their paths. -/
def filesBelow (d : Disk) (path : Path) : List (Path × String) :=
  d.files.filter fun file => path.isPrefixOf file.1

theorem mem_filesBelow (hd : directory ≠ []) : (path, content) ∈ d.filesBelow directory ↔
    directory <+: path ∧ d.content? path = some content := by
  have listed : (path, content) ∈ d.files ↔ d.nodes.get? path = some (.file content) := by
    rw [files, List.mem_filterMap, SortedMap.get?_eq_some_iff]
    constructor
    · rintro ⟨⟨q, n⟩, hm, h⟩
      cases n with
      | directory => cases h
      | file c =>
          cases h
          exact hm
    · exact fun hm => ⟨_, hm, rfl⟩
  rw [filesBelow, List.mem_filter, List.isPrefixOf_iff_prefix, listed, and_comm]
  refine and_congr_right fun hp => ?_
  have : path ≠ [] := fun h => hd (List.prefix_nil.mp (h ▸ hp))
  simp [content?_eq_some_iff, node?, this]

/-- Files below a path are listed once each. -/
theorem nodup_filesBelow (d : Disk) (directory : Path) :
    ((d.filesBelow directory).map (·.1)).Nodup := by
  have ordered : d.files.Pairwise fun a b => a.1 ≠ b.1 := by
    refine List.Pairwise.filterMap _ (fun a b hab => ?_) d.nodes.increasing
    rintro ⟨p, c⟩ ha ⟨q, e⟩ hb
    obtain ⟨_, _ | _⟩ := a <;> obtain ⟨_, _ | _⟩ := b <;> cases ha <;> cases hb
    exact ne_of_compare_lt hab
  exact List.pairwise_map.mpr (ordered.filter _)

end Disk

end Wiring
