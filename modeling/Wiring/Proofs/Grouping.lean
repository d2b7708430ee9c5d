import Mathlib.Data.List.Induction
import Wiring.Proofs.Exclusion
import Wiring.Proofs.Gathering

/-!
# Declaration sites in a table of collections

The elements of a collection are sorted by their sites, and of those that then stand side by side
from one site the first is kept.  The sort is stable, so the one kept is the first one listed
(`mem_contributors`): each site contributes once, and the contributors stand in a strict order.
The declarations of a collection become one that allows what any of them allows, at the least origin
(`merged_mergeDeclarations`).

So elements and declarations that repeat former ones add nothing to the table
(`ofDeclarations_append`), and `faithful_ofDeclarations` says all that a table keeps of its lists.
-/

namespace Wiring

open Std

/-! ### The first of those that compare equal -/

section Firsts

variable {α : Type} {cmp : α → α → Ordering}

/-- A sorted list without repetitions increases strictly, and of those that compare equal it holds
the first. -/
theorem eraseRepsBy_sorted (cmp : α → α → Ordering) [TransCmp cmp] : ∀ {xs : List α},
    (xs.Pairwise fun a b => (cmp a b).isLE) →
      ((xs.eraseRepsBy fun a b => cmp a b == .eq).Pairwise fun a b => cmp a b = .lt) ∧
        ∀ c, c ∈ xs.eraseRepsBy (fun a b => cmp a b == .eq) ↔
          xs.find? (fun x => cmp c x == .eq) = some c
  | [], _ => ⟨.nil, by simp [List.eraseRepsBy]⟩
  | [a], _ => by
      refine ⟨List.pairwise_singleton _ a, fun c => ?_⟩
      by_cases hca : c = a
      · subst hca
        simp [List.eraseRepsBy, List.eraseRepsBy.loop, ReflCmp.compare_self]
      · simp [List.eraseRepsBy, List.eraseRepsBy.loop, hca, Ne.symm hca]
  | a :: b :: rest, h => by
      obtain ⟨ha, hr⟩ := List.pairwise_cons.mp h
      rw [eraseRepsBy_cons_cons]
      by_cases hab : cmp a b = .eq
      · obtain ⟨increasing, first⟩ := eraseRepsBy_sorted cmp
          (List.Pairwise.sublist ((List.sublist_cons_self b rest).cons_cons a) h)
        rw [if_pos (by simpa using hab)]
        refine ⟨increasing, fun c => (first c).trans ?_⟩
        -- `b` stands behind `a` and compares equal to the same
        have alike : cmp c b = cmp c a := (TransCmp.congr_right hab).symm
        simp only [List.find?_cons, alike]
        cases cmp c a == .eq <;> rfl
      · obtain ⟨increasing, first⟩ := eraseRepsBy_sorted cmp hr
        rw [if_neg (by simpa using hab)]
        have below : ∀ c ∈ b :: rest, cmp a c = .lt := by
          intro c hc
          have hlt : cmp a b = .lt := (Ordering.isLE_iff_eq_lt_or_eq_eq.mp
            (ha b (.head _))).resolve_right hab
          rcases List.mem_cons.mp hc with rfl | hc
          · exact hlt
          · exact TransCmp.lt_of_lt_of_isLE hlt ((List.pairwise_cons.mp hr).1 c hc)
        refine ⟨List.pairwise_cons.mpr ⟨fun c hc =>
          below c ((eraseRepsBy_sublist _ _).subset hc), increasing⟩, fun c => ?_⟩
        rw [List.mem_cons, first]
        by_cases hca : cmp c a = .eq
        · -- what compares equal to `a` does not stand behind it
          have absent : (b :: rest).find? (fun x => cmp c x == .eq) ≠ some c := by
            intro hc
            have hlt := below c (List.mem_of_find?_eq_some hc)
            rw [OrientedCmp.eq_symm hca] at hlt
            cases hlt
          rw [or_iff_left absent, List.find?_cons_of_pos (a := a) (by simpa using hca),
            Option.some_inj, eq_comm]
        · have hne : c ≠ a := by
            rintro rfl
            exact hca ReflCmp.compare_self
          rw [or_iff_right hne, List.find?_cons_of_neg (a := a) (by simpa using hca)]
termination_by xs => xs.length

/-- Sorting keeps those in order that compare equal. -/
theorem filter_sortBy_of_eq [TransCmp cmp] {p : α → Bool}
    (hp : ∀ a b, p a = true → p b = true → cmp a b = .eq) (xs : List α) :
    (sortBy cmp xs).filter p = xs.filter p := by
  have kept : ∀ ys : List α, (∀ y ∈ ys, p y = true) → sortBy cmp ys = ys := by
    intro ys
    induction ys with
    | nil => intro _; rfl
    | cons y rest ih =>
        intro hy
        rw [sortBy, ih fun z hz => hy z (.tail _ hz)]
        refine insertBy_of_isLE fun z hz => ?_
        rw [hp y z (hy y (.head _)) (hy z (.tail _ hz))]
        rfl
  rw [filter_sortBy, kept _ fun y hy => (List.mem_filter.mp hy).2]

/-- Sorting a list keeps the first of those that compare equal to one. -/
theorem find?_sortBy [TransCmp cmp] (c : α) (xs : List α) :
    (sortBy cmp xs).find? (fun x => cmp c x == .eq) = xs.find? fun x => cmp c x == .eq := by
  have alike : ∀ a b, (cmp c a == .eq) = true → (cmp c b == .eq) = true → cmp a b = .eq := by
    intro a b ha hb
    exact TransCmp.eq_trans (OrientedCmp.eq_symm (eq_of_beq ha)) (eq_of_beq hb)
  rw [← List.head?_filter, ← List.head?_filter, filter_sortBy_of_eq alike]

theorem mem_append_of_subset {xs more : List α} (h : more ⊆ xs) (a : α) :
    a ∈ xs ++ more ↔ a ∈ xs := by
  rw [List.mem_append]
  exact or_iff_left_of_imp (@h a)

/-- Looking for the first one, what repeats former ones adds nothing. -/
theorem find?_append_of_subset {xs more : List α} (h : more ⊆ xs) (p : α → Bool) :
    (xs ++ more).find? p = xs.find? p := by
  rw [List.find?_append]
  cases hx : xs.find? p with
  | some => rfl
  | none =>
      rw [Option.none_or, List.find?_eq_none]
      exact fun a ha => List.find?_eq_none.mp hx a (h ha)

/-- A list that is repeated goes on with its own elements. -/
theorem flatten_replicate_succ (n : Nat) (xs : List α) :
    ∃ more ⊆ xs, (List.replicate (n + 1) xs).flatten = xs ++ more := by
  refine ⟨(List.replicate n xs).flatten, fun a ha => ?_, by rw [List.replicate_succ]; rfl⟩
  obtain ⟨ys, hys, ha⟩ := List.mem_flatten.mp ha
  exact (List.mem_replicate.mp hys).2 ▸ ha

end Firsts

/-! ### Elements -/

namespace Element

theorem sameSite_iff {e f : Element} : e.sameSite f = true ↔
    e.origin.declaration = f.origin.declaration ∧ e.mapKey? = f.mapKey? := by
  simp [sameSite]

/-- Elements of one site are those that compare equal. -/
theorem sameSite_eq : sameSite = fun e f => Element.compare e f == .eq := by
  funext e f
  rw [Bool.eq_iff_iff, beq_iff_eq, sameSite_iff]
  constructor
  · rintro ⟨hdeclaration, hmap⟩
    simp [Element.compare, compareLex, compareOn, hdeclaration, hmap]
  · intro h
    exact (and_eq_of_compareLex h).imp eq_of_compareOn eq_of_compareOn

/-- Whether elements are of one site and of collections with one key. -/
def rivals (e f : Element) : Bool := f.collection.key = e.collection.key && e.sameSite f

theorem rivals_iff {e f : Element} : e.rivals f = true ↔
    f.collection.key = e.collection.key ∧ f.origin.declaration = e.origin.declaration ∧
      f.mapKey? = e.mapKey? := by
  rw [rivals, Bool.and_eq_true, decide_eq_true_eq, sameSite_iff,
    eq_comm (a := e.origin.declaration), eq_comm (a := e.mapKey?)]

theorem rivals_congr {e f : Element} (h : e.rivals f = true) : f.rivals = e.rivals := by
  obtain ⟨hkey, hdeclaration, hmap⟩ := rivals_iff.mp h
  funext g
  simp only [rivals, sameSite, hkey, hdeclaration, hmap]

end Element

/-! ### Declarations -/

theorem LeastOrigin.perm {a : Origin} {os os' : List Origin} (h : LeastOrigin a os)
    (hp : os.Perm os') : LeastOrigin a os' where
  mem := hp.mem_iff.mp h.mem
  le o ho := h.le o (hp.mem_iff.mpr ho)

namespace CollectionDeclaration

/-- What becomes of the declarations of one collection. -/
structure Merged (ds : List CollectionDeclaration) (m : CollectionDeclaration) : Prop where
  /-- The first one tells the shape. -/
  collection : ds.head?.map (·.collection) = some m.collection
  /-- The collection may stay empty if one of them says so. -/
  allowEmpty : m.allowEmpty = ds.any (·.allowEmpty)
  origin : LeastOrigin m.origin (ds.map (·.origin))

namespace Merged

variable {ds : List CollectionDeclaration} {m : CollectionDeclaration}

theorem singleton (d : CollectionDeclaration) : Merged [d] d where
  collection := rfl
  allowEmpty := by simp
  origin := .singleton _

theorem concat (h : Merged ds m) (d : CollectionDeclaration) :
    Merged (ds ++ [d]) (m.merge d) where
  collection := by
    rw [List.head?_append, Option.map_or, h.collection]
    rfl
  allowEmpty := by simp [merge_eq, h.allowEmpty]
  origin := by
    rw [List.map_append]
    exact (h.origin.lesser d.origin).perm (List.perm_append_singleton _ _).symm

/-- Declarations that repeat former ones change nothing. -/
theorem eq_of_subset {more : List CollectionDeclaration} {m' : CollectionDeclaration}
    (h : Merged ds m) (h' : Merged (ds ++ more) m') (hs : more ⊆ ds) : m' = m := by
  have horigin : m'.origin = m.origin := by
    refine h'.origin.unique h.origin fun o => ?_
    rw [List.map_append]
    exact mem_append_of_subset (List.map_subset _ hs) o
  have hcollection : m'.collection = m.collection := by
    have := h'.collection
    rw [List.head?_append, Option.map_or, h.collection] at this
    exact (Option.some.inj this).symm
  have hempty : m'.allowEmpty = m.allowEmpty := by
    rw [h'.allowEmpty, h.allowEmpty, Bool.eq_iff_iff, List.any_eq_true, List.any_eq_true]
    exact exists_congr fun d => and_congr_left' (mem_append_of_subset hs d)
  cases m
  cases m'
  simp_all

end Merged

end CollectionDeclaration

/-! ### Tables -/

namespace CollectionTable

open CollectionDeclaration (Merged)

variable {ds : List CollectionDeclaration} {es : List Element} {key : TypeKey}

/-- A further declaration is merged with what stands at its key. -/
theorem mergeDeclarations_concat (ds : List CollectionDeclaration) (d : CollectionDeclaration) :
    mergeDeclarations (ds ++ [d]) = (mergeDeclarations ds).alter d.collection.key
      fun | some c => c.merge d | none => d := by
  rw [mergeDeclarations, List.foldl_append]
  rfl

/-- What stands at a key is merged of the declarations of collections with this key. -/
theorem get?_mergeDeclarations (ds : List CollectionDeclaration) (key : TypeKey) :
    match (mergeDeclarations ds).get? key with
    | none => ds.filter (·.collection.key = key) = []
    | some m => Merged (ds.filter (·.collection.key = key)) m := by
  induction ds using List.reverseRecOn with
  | nil => rfl
  | append_singleton ds d ih =>
      rw [mergeDeclarations_concat, SortedMap.get?_alter, List.filter_append]
      by_cases hk : key = d.collection.key
      · subst hk
        rw [if_pos rfl]
        cases hm : (mergeDeclarations ds).get? d.collection.key with
        | none =>
            rw [hm] at ih
            simpa [ih] using Merged.singleton d
        | some m =>
            rw [hm] at ih
            simpa using Merged.concat ih d
      · rw [if_neg hk]
        simpa [Ne.symm hk] using ih

theorem merged_mergeDeclarations {m : CollectionDeclaration}
    (h : (mergeDeclarations ds).get? key = some m) :
    Merged (ds.filter (·.collection.key = key)) m := by
  have merged := get?_mergeDeclarations ds key
  rwa [h] at merged

theorem contains_mergeDeclarations :
    (mergeDeclarations ds).contains key = true ↔ ∃ d ∈ ds, d.collection.key = key := by
  have merged := get?_mergeDeclarations ds key
  rw [SortedMap.contains]
  cases hm : (mergeDeclarations ds).get? key with
  | none => simpa [hm] using merged
  | some m =>
      rw [hm] at merged
      obtain ⟨d, hd, -⟩ := List.mem_map.mp merged.origin.mem
      simpa using ⟨d, by simpa using hd⟩

theorem contains_groupElements :
    (groupElements es).contains key = true ↔ ∃ e ∈ es, e.collection.key = key := by
  rw [SortedMap.contains, groupElements, SortedMap.get?_mapValues, SortedMap.get?_group]
  split
  · rename_i hnil
    simpa using hnil
  · rename_i hne
    simpa using hne

theorem contributors_ofDeclarations : (ofDeclarations ds es).contributors key =
    (sortBy Element.compare (es.filter (·.collection.key = key))).eraseRepsBy Element.sameSite := by
  rw [contributors, ofDeclarations, groupElements, SortedMap.get?_mapValues, SortedMap.get?_group]
  split
  · rename_i hnil
    rw [hnil]
    rfl
  · rfl

/-- Contributors stand in the order of their sites, each site once. -/
theorem pairwise_contributors : ((ofDeclarations ds es).contributors key).Pairwise
    fun e f => Element.compare e f = .lt := by
  rw [contributors_ofDeclarations, Element.sameSite_eq]
  exact (eraseRepsBy_sorted Element.compare (pairwise_sortBy Element.compare _)).1

/-- **Of the elements of one site the first one listed contributes.** -/
theorem mem_contributors {e : Element} : e ∈ (ofDeclarations ds es).contributors key ↔
    e.collection.key = key ∧ es.find? e.rivals = some e := by
  have site : (fun f => Element.compare e f == .eq) = e.sameSite :=
    (congrFun Element.sameSite_eq e).symm
  rw [contributors_ofDeclarations, Element.sameSite_eq,
    (eraseRepsBy_sorted Element.compare (pairwise_sortBy Element.compare _)).2, find?_sortBy, site]
  have found : e.collection.key = key →
      (es.filter (·.collection.key = key)).find? e.sameSite = es.find? e.rivals := by
    rintro rfl
    rw [List.find?_filter]
    congr 1
    funext f
    simp [Element.rivals]
  constructor
  · intro h
    have hkey := of_decide_eq_true (List.mem_filter.mp (List.mem_of_find?_eq_some h)).2
    exact ⟨hkey, found hkey ▸ h⟩
  · rintro ⟨hkey, h⟩
    exact (found hkey).trans h

/-! ### Repetitions -/

theorem mergeDeclarations_append {more : List CollectionDeclaration} (h : more ⊆ ds) :
    mergeDeclarations (ds ++ more) = mergeDeclarations ds := by
  refine SortedMap.ext_get? fun key => ?_
  have held : (mergeDeclarations (ds ++ more)).contains key =
      (mergeDeclarations ds).contains key := by
    rw [Bool.eq_iff_iff, contains_mergeDeclarations, contains_mergeDeclarations]
    exact exists_congr fun d => and_congr_left' (mem_append_of_subset h d)
  have hs : more.filter (·.collection.key = key) ⊆ ds.filter (·.collection.key = key) := by
    intro d hd
    rw [List.mem_filter] at hd ⊢
    exact ⟨h hd.1, hd.2⟩
  simp only [SortedMap.contains] at held
  cases hw : (mergeDeclarations (ds ++ more)).get? key <;>
    cases hm : (mergeDeclarations ds).get? key
  case none.none => rfl
  case some.some =>
    have whole := merged_mergeDeclarations hw
    rw [List.filter_append] at whole
    rw [(merged_mergeDeclarations hm).eq_of_subset whole hs]
  all_goals simp [hw, hm] at held

theorem groupElements_append {more : List Element} (h : more ⊆ es) :
    groupElements (es ++ more) = groupElements es := by
  refine SortedMap.ext_get? fun key => ?_
  have held : (groupElements (es ++ more)).contains key = (groupElements es).contains key := by
    rw [Bool.eq_iff_iff, contains_groupElements, contains_groupElements]
    exact exists_congr fun e => and_congr_left' (mem_append_of_subset h e)
  have listed : (ofDeclarations [] (es ++ more)).contributors key =
      (ofDeclarations [] es).contributors key := by
    refine eq_of_pairwise_of_mem_iff (fun e f hef hfe => ?_) pairwise_contributors
      pairwise_contributors fun e => ?_
    · rw [OrientedCmp.gt_of_lt hef] at hfe
      cases hfe
    · rw [mem_contributors, mem_contributors, find?_append_of_subset h]
  simp only [contributors, ofDeclarations] at listed
  simp only [SortedMap.contains] at held
  cases hw : (groupElements (es ++ more)).get? key <;>
    cases hm : (groupElements es).get? key
  case none.none => rfl
  case some.some => simpa [hw, hm] using listed
  all_goals simp [hw, hm] at held

/-- Elements and declarations that repeat former ones add nothing to a table. -/
theorem ofDeclarations_append {moreDs : List CollectionDeclaration} {moreEs : List Element}
    (hd : moreDs ⊆ ds) (he : moreEs ⊆ es) :
    ofDeclarations (ds ++ moreDs) (es ++ moreEs) = ofDeclarations ds es := by
  rw [ofDeclarations, mergeDeclarations_append hd, groupElements_append he]
  rfl

/-! ### What a table keeps -/

/-- What a table keeps of the declarations and elements it is made of. -/
structure Faithful (ds : List CollectionDeclaration) (es : List Element) (t : CollectionTable) :
    Prop where
  /-- The contributors of a collection increase by declaration, then by map key. -/
  increasing : ∀ key, (t.contributors key).Pairwise fun e f =>
    compare e.origin.declaration f.origin.declaration = .lt ∨
      e.origin.declaration = f.origin.declaration ∧ compare e.mapKey? f.mapKey? = .lt
  /-- Each element has one contributor of its site. -/
  once : ∀ e ∈ es, ∃! c, c ∈ t.contributors e.collection.key ∧
    c.collection.key = e.collection.key ∧ c.origin.declaration = e.origin.declaration ∧
      c.mapKey? = e.mapKey?
  /-- A contributor is one of the elements, and is filed under its key. -/
  listed : ∀ key, ∀ c ∈ t.contributors key, c ∈ es ∧ c.collection.key = key
  collections : ∀ key, t.isCollection key = true ↔
    (∃ d ∈ ds, d.collection.key = key) ∨ ∃ e ∈ es, e.collection.key = key
  /-- A collection is declared if one of the declarations is of it. -/
  declared : ∀ key, (t.declarations.get? key).isSome = true ↔ ∃ d ∈ ds, d.collection.key = key
  /-- What is declared may stay empty if one of the declarations allows it, and stands at the least
  of their origins. -/
  merged : ∀ key m, t.declarations.get? key = some m →
    (m.allowEmpty = true ↔ ∃ d ∈ ds, d.collection.key = key ∧ d.allowEmpty = true) ∧
      (∃ d ∈ ds, d.collection.key = key ∧ m.origin = d.origin) ∧
      ∀ d ∈ ds, d.collection.key = key → (compare m.origin d.origin).isLE = true
  /-- Declarations and elements that are repeated aggregate as they do without repetitions, whatever
  an ancestor holds. -/
  repeated : ∀ n m key inherited,
    let again := ofDeclarations (List.replicate (n + 1) ds).flatten
      (List.replicate (m + 1) es).flatten
    again.aggregate key = t.aggregate key ∧
      again.aggregateWith key inherited = t.aggregateWith key inherited

/-- **A table loses no declaration site and keeps each once**, however its declarations and elements
are listed and repeated. -/
theorem faithful_ofDeclarations (ds : List CollectionDeclaration) (es : List Element) :
    Faithful ds es (ofDeclarations ds es) where
  increasing key := by
    have sorted : ((ofDeclarations ds es).contributors key).Pairwise fun e f =>
      Element.compare e f = .lt := pairwise_contributors
    refine sorted.imp fun {e f} h => ?_
    rw [Element.compare, compareLex, Ordering.then_eq_lt] at h
    exact h.imp_right fun ⟨hd, hm⟩ => ⟨eq_of_compareOn hd, hm⟩
  once e he := by
    obtain ⟨c, hc⟩ := Option.isSome_iff_exists.mp
      (List.find?_isSome.mpr ⟨e, he, Element.rivals_iff.mpr ⟨rfl, rfl, rfl⟩⟩)
    have site := Element.rivals_iff.mp (List.find?_some hc)
    refine ⟨c, ⟨mem_contributors.mpr ⟨site.1, ?_⟩, site⟩, ?_⟩
    · rw [Element.rivals_congr (List.find?_some hc)]
      exact hc
    · rintro c' ⟨hc', site'⟩
      have := (mem_contributors.mp hc').2
      rw [Element.rivals_congr (Element.rivals_iff.mpr site'), hc] at this
      exact (Option.some.inj this).symm
  listed key c hc := by
    obtain ⟨hkey, hfind⟩ := mem_contributors.mp hc
    exact ⟨List.mem_of_find?_eq_some hfind, hkey⟩
  collections key := by
    rw [isCollection, Bool.or_eq_true]
    exact or_congr contains_mergeDeclarations contains_groupElements
  declared _ := contains_mergeDeclarations
  merged key m hm := by
    have merged : Merged (ds.filter (·.collection.key = key)) m := merged_mergeDeclarations hm
    refine ⟨?_, ?_, fun d hd hk => merged.origin.le _ ?_⟩
    · simp [merged.allowEmpty, List.any_filter]
    · obtain ⟨d, hd, ho⟩ := List.mem_map.mp merged.origin.mem
      obtain ⟨hd, hk⟩ := List.mem_filter.mp hd
      exact ⟨d, hd, of_decide_eq_true hk, ho.symm⟩
    · exact List.mem_map.mpr ⟨d, List.mem_filter.mpr ⟨hd, decide_eq_true hk⟩, rfl⟩
  repeated n m key inherited := by
    obtain ⟨moreDs, hd, repeatedDs⟩ := flatten_replicate_succ n ds
    obtain ⟨moreEs, he, repeatedEs⟩ := flatten_replicate_succ m es
    rw [repeatedDs, repeatedEs, ofDeclarations_append hd he]
    exact ⟨rfl, rfl⟩

end CollectionTable

end Wiring
